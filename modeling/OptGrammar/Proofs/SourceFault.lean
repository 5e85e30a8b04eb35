/-
  Grammars with optional symbols — which sources are refused.

  A source is refused for the first line that is not as it should be: an incomplete section of
  terminals, a line that is not UTF-8, or a body without a header before it.  Blank lines and
  comments are never at fault, but they count.

  * `Headed`: a rule section has a header before its bodies.
  * `SourceFault`: what a source fails on.

  Main statement: `expandInto_outcome_iff`, a source is refused exactly if there is a fault in it,
  whose line is the one reported and the last that matters.
-/
import OptGrammar.Proofs.Expansion
import OptGrammar.Proofs.Fault

namespace OptGrammar

open Reading

namespace Shorthand

/-! ## Headers and bodies -/

/-- A line that is a header: trimmed, it is not empty, starts with no `#` and ends with `:`. -/
def IsHeader (t : Text) : Prop :=
  (Text.trim t ≠ [] ∧ (Text.trim t).head? ≠ some '#') ∧ (Text.trim t).getLast? = some ':'

/-- A line that is neither blank nor a comment nor a header. -/
def IsBody (t : Text) : Prop :=
  (Text.trim t ≠ [] ∧ (Text.trim t).head? ≠ some '#') ∧ (Text.trim t).getLast? ≠ some ':'

/-- A body that no header is before. -/
def Orphan (before : List Text) (t : Text) : Prop := IsBody t ∧ ∀ u ∈ before, ¬ IsHeader u

/-- No line of a rule section is an orphan. -/
def Headed (lines : List Text) : Prop :=
  ∀ before t after, lines = before ++ t :: after → ¬ Orphan before t

theorem isHeader_iff {t : Text} : IsHeader t ↔ ∃ name, Line.ofText t = .header name := by
  simp only [IsHeader, Line.ofText_eq_header_iff]
  constructor
  · rintro ⟨⟨-, hhead⟩, hlast⟩
    obtain ⟨name, hname⟩ := List.getLast?_eq_some_iff.1 hlast
    exact ⟨name, hname, hhead⟩
  · rintro ⟨name, hname, hhead⟩
    rw [hname] at hhead ⊢
    exact ⟨⟨by simp, hhead⟩, List.getLast?_concat⟩

theorem isBody_iff {t : Text} : IsBody t ↔ ∃ words, Line.ofText t = .body words := by
  simp [IsBody, Line.ofText_eq_body_iff, and_assoc]

section

variable {t u : Text} {lines before : List Text}

theorem headed_nil : Headed [] := by
  intro before t after h
  simp at h

theorem headed_cons_header (h : IsHeader u) : Headed (u :: lines) := by
  intro before t after hlines horphan
  cases before with
  | nil =>
    obtain ⟨rfl, -⟩ := List.cons.inj hlines
    exact horphan.1.2 h.2
  | cons v before =>
    obtain ⟨rfl, -⟩ := List.cons.inj hlines
    exact horphan.2 u List.mem_cons_self h

theorem not_headed_cons_body (h : IsBody u) : ¬ Headed (u :: lines) := fun hlines =>
  hlines [] u lines rfl ⟨h, by simp⟩

theorem orphan_cons_iff (h : ¬ IsHeader u) : Orphan (u :: before) t ↔ Orphan before t := by
  simp [Orphan, h]

theorem headed_cons_silent_iff (hheader : ¬ IsHeader u) (hbody : ¬ IsBody u) :
    Headed (u :: lines) ↔ Headed lines := by
  constructor
  · intro h before t after hlines horphan
    refine h (u :: before) t after (by rw [hlines]; rfl) ?_
    exact (orphan_cons_iff hheader).2 horphan
  · intro h before t after hlines horphan
    cases before with
    | nil =>
      obtain ⟨rfl, -⟩ := List.cons.inj hlines
      exact hbody horphan.1
    | cons v before =>
      obtain ⟨rfl, rfl⟩ := List.cons.inj hlines
      exact h before t after rfl ((orphan_cons_iff hheader).1 horphan)

end

/-! ## What a source fails on -/

/-- A line that is not UTF-8 follows, whatever is before it. -/
def NotUtf8 (_ : List Text) (next : Option Bytes) (fault : Fault) : Prop :=
  ∃ raw, next = some raw ∧ Utf8.decode raw = none ∧ fault = .stream .notUtf8

/-- **What a rule section fails on** that `before` lines are in front of: a line that is not
    UTF-8, or an orphan. -/
inductive RuleFault (before : Nat) : List Text → Option Bytes → Fault → Prop
  | notUtf8 {lines raw} : Headed lines → Utf8.decode raw = none →
      RuleFault before lines (some raw) (.stream .notUtf8)
  | orphan {lines text} : Headed lines → Orphan lines text →
      RuleFault before lines (some (Utf8.encode text))
        (.missingHeader (before + lines.length + 1) (Text.trim text))

/-- **What a source fails on**: its section of terminals, or the rule section after it. -/
inductive SourceFault : List Text → Option Bytes → Fault → Prop
  | terminals {texts next fault} : SectionFault .terminal 0 texts next fault →
      SourceFault texts next fault
  | rules {terminals lines next fault} : Counted terminals →
      RuleFault terminals.length lines next fault → SourceFault (terminals ++ lines) next fault

/-! ## The rule section -/

section

variable {before : Nat} {t : Text} {texts : List Text} {next : Option Bytes} {fault : Fault}

theorem ruleFault_nil_iff : RuleFault before [] (some (Utf8.encode t)) fault ↔
    IsBody t ∧ fault = .missingHeader (before + 1) (Text.trim t) := by
  constructor
  · intro h
    generalize hnext : some (Utf8.encode t) = next at h
    cases h with
    | notUtf8 _ hd =>
      cases hnext
      simp at hd
    | orphan _ horphan =>
      obtain rfl := Utf8.encode_injective (Option.some.inj hnext)
      exact ⟨horphan.1, rfl⟩
  · rintro ⟨hbody, rfl⟩
    exact .orphan headed_nil ⟨hbody, by simp⟩

/-- Behind a header only a line that is not UTF-8 is a fault. -/
theorem ruleFault_cons_header_iff (h : IsHeader t) :
    RuleFault before (t :: texts) next fault ↔ NotUtf8 texts next fault := by
  constructor
  · intro hfault
    cases hfault with
    | notUtf8 _ hd => exact ⟨_, rfl, hd, rfl⟩
    | orphan _ horphan => exact absurd h (horphan.2 t List.mem_cons_self)
  · rintro ⟨raw, rfl, hd, rfl⟩
    exact .notUtf8 (headed_cons_header h) hd

theorem not_ruleFault_cons_body (h : IsBody t) : ¬ RuleFault before (t :: texts) next fault := by
  intro hfault
  cases hfault with
  | notUtf8 hheaded => exact not_headed_cons_body h hheaded
  | orphan hheaded => exact not_headed_cons_body h hheaded

/-- A blank line and a comment count as a line in front. -/
theorem ruleFault_cons_silent_iff (hheader : ¬ IsHeader t) (hbody : ¬ IsBody t) :
    RuleFault before (t :: texts) next fault ↔ RuleFault (before + 1) texts next fault := by
  have hnumber : before + (t :: texts).length + 1 = before + 1 + texts.length + 1 := by
    rw [List.length_cons]
    omega
  constructor
  · intro h
    cases h with
    | notUtf8 hheaded hd => exact .notUtf8 ((headed_cons_silent_iff hheader hbody).1 hheaded) hd
    | orphan hheaded horphan =>
      rw [hnumber]
      exact .orphan ((headed_cons_silent_iff hheader hbody).1 hheaded)
        ((orphan_cons_iff hheader).1 horphan)
  · intro h
    cases h with
    | notUtf8 hheaded hd => exact .notUtf8 ((headed_cons_silent_iff hheader hbody).2 hheaded) hd
    | orphan hheaded horphan =>
      rw [← hnumber]
      exact .orphan ((headed_cons_silent_iff hheader hbody).2 hheaded)
        ((orphan_cons_iff hheader).2 horphan)

end

section

variable {number : Nat} {raws : List Bytes} {fault : Fault}

/-- Under a header the pass only ends with a fault at a line that is not UTF-8. -/
theorem steps_some_fault_iff {s : Symbol} : (steps (some s) number raws).2 = some fault ↔
    ∃ k, FailsAt NotUtf8 raws k fault := by
  induction raws generalizing s number with
  | nil => simp [steps, not_failsAt_nil, NotUtf8]
  | cons raw raws ih =>
    rw [steps]
    cases hd : Utf8.decode raw with
    | none => simp [exists_failsAt_of_decode_none_iff hd, NotUtf8, hd, eq_comm]
    | some t =>
      obtain rfl := Utf8.decode_eq_some_iff.1 hd
      have hcons : (∃ k, FailsAt NotUtf8 (Utf8.encode t :: raws) k fault) ↔
          ∃ k, FailsAt NotUtf8 raws k fault := by
        rw [exists_failsAt_cons_iff]
        simp [NotUtf8, FailsAt]
      rw [hcons]
      dsimp only
      cases Line.ofText t with
      | silent => exact ih
      | header name => exact ih
      | body words => exact ih

/-- **The pass over a rule section ends with a fault** exactly if there is one in it. -/
theorem steps_none_fault_iff : (steps none number raws).2 = some fault ↔
    ∃ k, FailsAt (RuleFault number) raws k fault := by
  induction raws generalizing number with
  | nil =>
    have hnil : ¬ RuleFault number [] none fault := by
      intro h
      cases h
    simp [steps, not_failsAt_nil hnil]
  | cons raw raws ih =>
    rw [steps]
    cases hd : Utf8.decode raw with
    | none =>
      rw [exists_failsAt_of_decode_none_iff hd]
      constructor
      · intro h
        cases h
        exact .notUtf8 headed_nil hd
      · intro h
        cases h with
        | notUtf8 => rfl
        | orphan => simp at hd
    | some t =>
      obtain rfl := Utf8.decode_eq_some_iff.1 hd
      rw [exists_failsAt_cons_iff, ruleFault_nil_iff, isBody_iff]
      dsimp only
      cases hline : Line.ofText t with
      | silent =>
        have hheader : ¬ IsHeader t := by simp [isHeader_iff, hline]
        have hbody : ¬ IsBody t := by simp [isBody_iff, hline]
        simp [ih, FailsAt.congr fun _ _ => ruleFault_cons_silent_iff hheader hbody]
      | header name =>
        have hheader : IsHeader t := isHeader_iff.2 ⟨name, hline⟩
        simp [steps_some_fault_iff, FailsAt.congr fun _ _ => ruleFault_cons_header_iff hheader]
      | body words =>
        have hbody : IsBody t := isBody_iff.2 ⟨words, hline⟩
        simp [not_ruleFault_cons_body hbody, FailsAt, eq_comm]

end

/-! ## A whole source -/

variable {source : Bytes} {fault : Fault}

/-- **The pass ends with a fault** exactly if there is one in the source. -/
theorem pass_fault_iff : (pass source).fault = some fault ↔
    ∃ k, FailsAt SourceFault source.lines k fault := by
  have hterminals : (terminals.run (.ofBytes source)).1 = .error fault ↔
      ∃ k, FailsAt (SectionFault .terminal 0) source.lines k fault := section_map_error_iff
  have hpass : (pass source).fault = some fault ↔
      (terminals.run (.ofBytes source)).1 = .error fault ∨
        ∃ symbols c, terminals.run (.ofBytes source) = (.ok symbols, c) ∧
          (steps none c.number c.rest).2 = some fault := by
    rw [pass]
    cases terminals.run (.ofBytes source) with
    | mk result c =>
      cases result with
      | error e => simp
      | ok symbols => simp [and_assoc]
  rw [hpass, hterminals]
  constructor
  · rintro (⟨k, texts, rest, hlines, hk, h⟩ | ⟨symbols, c, hrun, h⟩)
    · exact ⟨k, texts, rest, hlines, hk, .terminals h⟩
    · obtain ⟨first, lines, hrest, hcount, -, hnumber⟩ := terminals_run_iff.1 hrun
      obtain ⟨k, hk⟩ := steps_none_fault_iff.1 h
      have hlines : source.lines = (first :: lines).map Utf8.encode ++ c.rest := hrest
      have hlength : c.number = (first :: lines).length := by
        have hstart : (Cursor.ofBytes source).number = 0 := rfl
        rw [hnumber, hstart, List.length_cons]
        omega
      rw [hlines]
      refine ⟨_, hk.append fun texts next hfault => .rules hcount ?_⟩
      rwa [← hlength]
  · rintro ⟨k, texts, rest, hlines, hk, h⟩
    cases h with
    | terminals h => exact .inl ⟨k, texts, rest, hlines, hk, h⟩
    | @rules counted texts _ _ hcounted h =>
      cases counted with
      | nil => exact hcounted.elim
      | cons first entries =>
        refine .inr ⟨entries.map fun t => ⟨Text.trim t⟩,
          ⟨texts.map Utf8.encode ++ rest, 1 + entries.length⟩, terminals_run_iff.2
            ⟨first, entries, ?_, hcounted, rfl, by simp [Cursor.ofBytes]⟩,
          steps_none_fault_iff.2 ⟨_, texts, rest, rfl, rfl, ?_⟩⟩
        · rw [Cursor.ofBytes, hlines, List.map_append, List.append_assoc]
        · have hlength : (first :: entries).length = 1 + entries.length := Nat.add_comm _ _
          rwa [hlength] at h

/-- A fault in a source reports its own line. -/
theorem SourceFault.line_eq {texts : List Text} {next : Option Bytes} {line : Nat}
    (h : SourceFault texts next fault) (hline : fault.line? = some line) :
    line = texts.length + 1 := by
  cases h with
  | terminals h =>
    have := h.line_eq hline
    omega
  | rules _ h =>
    cases h with
    | notUtf8 => cases hline
    | orphan =>
      cases hline
      rw [List.length_append]

end Shorthand

open Shorthand

theorem expand_error_iff {source : Bytes} {fault : Fault} :
    (expand source).result = .error fault ↔ ∃ k, FailsAt SourceFault source.lines k fault := by
  rw [← pass_fault_iff, expand]
  cases pass source with
  | mk draft fault' =>
    cases fault' with
    | none => simp
    | some fault' => simp

/-- **A source is refused exactly if there is a fault in it**, when the sink has room for what
    is written.  The line of the fault is the one that is reported, and the lines after it do
    not matter. -/
theorem expandInto_outcome_iff {source : Bytes} {sink : Sink}
    (hroom : ∀ g, (expand source).result = .ok g → (Listing.bytes g).length ≤ sink.room) :
    (∀ fault, (expandInto source sink).1 = .error fault ↔
      ∃ k, FailsAt SourceFault source.lines k fault) ∧
    ((∃ g, (expandInto source sink).1 = .ok g) ↔
      ∀ k fault, ¬ FailsAt SourceFault source.lines k fault) ∧
    ∀ k fault, FailsAt SourceFault source.lines k fault →
      (∀ line, fault.line? = some line → line = k) ∧
      ∀ source' sink', source'.lines.take k = source.lines.take k →
        (expandInto source' sink').1 = .error fault := by
  have hinto : (expandInto source sink).1 = (expand source).result := by
    cases h : (expand source).result with
    | error fault => rw [expandInto, h]
    | ok g => rw [expandInto_eq h, if_pos (hroom g h)]
  rw [hinto]
  refine ⟨fun fault => expand_error_iff,
    exists_ok_iff_of_error_iff fun fault => expand_error_iff, ?_⟩
  intro k fault h
  refine ⟨?_, ?_⟩
  · intro line hline
    obtain ⟨texts, rest, -, rfl, hfault⟩ := h
    exact hfault.line_eq hline
  · intro source' sink' htake
    rw [expandInto, expand_error_iff.2 ⟨k, h.of_take_eq htake⟩]

/-- A body before its header is at fault; the blank line and the comment before it count. -/
example : (expand (Utf8.encode "1\nid\n\n# sums\n id  Tail \nGoal:\nid\n".toList)).result =
    .error (.missingHeader 5 "id  Tail".toList) := by
  decide +kernel

theorem expandInto_outcome_sums :
    (∀ g, (expand sums).result = .ok g →
      (Listing.bytes g).length ≤ (Sink.ofCapacity 1000).room) ∧
    (∀ fault, (expandInto sums (.ofCapacity 1000)).1 = .error fault ↔
      ∃ k, FailsAt SourceFault sums.lines k fault) ∧
    ((∃ g, (expandInto sums (.ofCapacity 1000)).1 = .ok g) ↔
      ∀ k fault, ¬ FailsAt SourceFault sums.lines k fault) ∧
    ∀ k fault, FailsAt SourceFault sums.lines k fault →
      (∀ line, fault.line? = some line → line = k) ∧
      ∀ source' sink', source'.lines.take k = sums.lines.take k →
        (expandInto source' sink').1 = .error fault := by
  have hroom : ∀ g, (expand sums).result = .ok g →
      (Listing.bytes g).length ≤ (Sink.ofCapacity 1000).room := by
    intro g hg
    rw [expand_sums] at hg
    cases hg
    decide +kernel
  exact ⟨hroom, expandInto_outcome_iff hroom⟩

end OptGrammar
