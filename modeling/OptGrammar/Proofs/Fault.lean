/-
  Grammars with optional symbols — where a reader of lines fails.

  A reader fails at the first line that is not what it wants, and only the lines up to that
  one decide.  What it fails on is told by the texts read before, by the raw line after them,
  if there is one, and by the fault.

  * `FailsAt`: a reader of some lines fails at a line.
  * `LineFault`: a line that is wanted is missing or not UTF-8.
  * `SectionFault`: a counted section is not complete.

  Main statements: `FailsAt.of_take_eq`, only the lines up to the fault matter;
  `section_error_iff`, a section is not read exactly if there is a fault in it.
-/
import OptGrammar.Proofs.Reading

namespace OptGrammar

/-- The number of the line that a fault reports. -/
def Fault.line? : Fault → Option Nat
  | .missingHeader line _ | .invalidCount line _ | .emptyRule line => some line
  | .missingCount _ | .truncated .. | .stream _ => none

namespace Reading

/-! ## The place of a fault -/

/-- **Line `k` is the place of a fault.**  The lines before it are texts, and `fails` says
    that after them the line, or that there is none, is met with the fault. -/
def FailsAt (fails : List Text → Option Bytes → Fault → Prop) (lines : List Bytes) (k : Nat)
    (fault : Fault) : Prop :=
  ∃ texts rest, lines = texts.map Utf8.encode ++ rest ∧ k = texts.length + 1 ∧
    fails texts rest.head? fault

theorem exists_append_of_take {α : Type} {a l l' : List α} {k : Nat}
    (h : l'.take (a.length + k) = (a ++ l).take (a.length + k)) :
    ∃ m, l' = a ++ m ∧ m.take k = l.take k := by
  refine ⟨l'.drop a.length, ?_, ?_⟩
  · have hfront := congrArg (List.take a.length) h
    rw [List.take_take, List.take_take, Nat.min_eq_left (Nat.le_add_right _ _),
      List.take_left] at hfront
    calc l' = l'.take a.length ++ l'.drop a.length := (List.take_append_drop _ _).symm
      _ = a ++ l'.drop a.length := by rw [hfront]
  · have hback := congrArg (List.drop a.length) h
    rwa [List.drop_take, List.drop_take, Nat.add_sub_cancel_left, List.drop_left] at hback

/-- **Only the lines up to a fault matter.** -/
theorem FailsAt.of_take_eq {fails : List Text → Option Bytes → Fault → Prop}
    {lines lines' : List Bytes} {k : Nat} {fault : Fault} (h : FailsAt fails lines k fault)
    (htake : lines'.take k = lines.take k) : FailsAt fails lines' k fault := by
  obtain ⟨texts, rest, rfl, rfl, hfault⟩ := h
  rw [← List.length_map (f := Utf8.encode)] at htake
  obtain ⟨rest', rfl, hrest⟩ := exists_append_of_take htake
  refine ⟨texts, rest', rfl, rfl, ?_⟩
  have hhead : rest'.head? = rest.head? := by
    have := congrArg List.head? hrest
    rwa [List.head?_take, List.head?_take] at this
  rwa [hhead]

/-- What fails exactly at the faults in some lines succeeds exactly if there are none. -/
theorem exists_ok_iff_of_error_iff {α : Type} {fails : List Text → Option Bytes → Fault → Prop}
    {lines : List Bytes} {result : Except Fault α}
    (h : ∀ fault, result = .error fault ↔ ∃ k, FailsAt fails lines k fault) :
    (∃ a, result = .ok a) ↔ ∀ k fault, ¬ FailsAt fails lines k fault := by
  constructor
  · rintro ⟨a, ha⟩ k fault hk
    rw [(h fault).2 ⟨k, hk⟩] at ha
    cases ha
  · intro hnone
    cases hresult : result with
    | ok a => exact ⟨a, rfl⟩
    | error fault =>
      obtain ⟨k, hk⟩ := (h fault).1 hresult
      exact absurd hk (hnone k fault)

/-- A fault behind some lines is a fault of them all. -/
theorem FailsAt.append {fails fails' : List Text → Option Bytes → Fault → Prop}
    {before : List Text} {lines : List Bytes} {k : Nat} {fault : Fault}
    (h : FailsAt fails lines k fault)
    (hfails : ∀ texts next, fails texts next fault → fails' (before ++ texts) next fault) :
    FailsAt fails' (before.map Utf8.encode ++ lines) (before.length + k) fault := by
  obtain ⟨texts, rest, rfl, rfl, hfault⟩ := h
  refine ⟨before ++ texts, rest, ?_, ?_, hfails _ _ hfault⟩
  · rw [List.map_append, List.append_assoc]
  · rw [List.length_append, Nat.add_assoc]

section

variable {fails : List Text → Option Bytes → Fault → Prop} {raw : Bytes} {lines : List Bytes}
  {k : Nat} {fault : Fault}

theorem FailsAt.congr {fails' : List Text → Option Bytes → Fault → Prop}
    (h : ∀ texts next, fails texts next fault ↔ fails' texts next fault) :
    FailsAt fails lines k fault ↔ FailsAt fails' lines k fault := by
  simp only [FailsAt, h]

theorem not_failsAt_nil (h : ¬ fails [] none fault) : ¬ FailsAt fails [] k fault := by
  rintro ⟨texts, rest, hlines, -, hfault⟩
  obtain ⟨htexts, rfl⟩ := List.append_eq_nil_iff.1 hlines.symm
  obtain rfl := List.map_eq_nil_iff.1 htexts
  exact h hfault

/-- A reader does not get past a line that is not UTF-8. -/
theorem exists_failsAt_of_decode_none_iff (hraw : Utf8.decode raw = none) :
    (∃ k, FailsAt fails (raw :: lines) k fault) ↔ fails [] (some raw) fault := by
  constructor
  · rintro ⟨k, texts, rest, hlines, -, h⟩
    cases texts with
    | nil =>
      obtain rfl : raw :: lines = rest := hlines
      exact h
    | cons t texts =>
      obtain ⟨rfl, -⟩ := List.cons.inj hlines
      simp at hraw
  · intro h
    exact ⟨1, [], raw :: lines, rfl, rfl, h⟩

/-- A reader fails on a text or after it. -/
theorem exists_failsAt_cons_iff {t : Text} :
    (∃ k, FailsAt fails (Utf8.encode t :: lines) k fault) ↔
      fails [] (some (Utf8.encode t)) fault ∨
        ∃ k, FailsAt (fun texts => fails (t :: texts)) lines k fault := by
  constructor
  · rintro ⟨k, texts, rest, hlines, -, h⟩
    cases texts with
    | nil =>
      obtain rfl : Utf8.encode t :: lines = rest := hlines
      exact .inl h
    | cons u texts =>
      obtain ⟨hu, rfl⟩ := List.cons.inj hlines
      obtain rfl := Utf8.encode_injective hu
      exact .inr ⟨_, texts, rest, rfl, rfl, h⟩
  · rintro (h | ⟨k, texts, rest, rfl, -, h⟩)
    · exact ⟨1, [], Utf8.encode t :: lines, rfl, rfl, h⟩
    · exact ⟨_, t :: texts, rest, rfl, rfl, h⟩

end

/-! ## Lines and sections -/

/-- **A line that is wanted is not there**: it is missing, which `missing` says, or it is not
    UTF-8. -/
inductive LineFault (missing : Fault) : Option Bytes → Fault → Prop
  | missing : LineFault missing none missing
  | notUtf8 {raw} : Utf8.decode raw = none → LineFault missing (some raw) (.stream .notUtf8)

/-- A section as its lines: a count and as many entries. -/
def Counted : List Text → Prop
  | [] => False
  | first :: entries => Count.read? (Text.trim first) = some entries.length

theorem counted_cons_iff {first : Text} {entries : List Text} :
    Counted (first :: entries) ↔ Count.read? (Text.trim first) = some entries.length := Iff.rfl

/-- The count of a section tells where it ends. -/
theorem Counted.append_inj {texts texts' : List Text} {rest rest' : List Bytes}
    (h : Counted texts) (h' : Counted texts')
    (happend : texts.map Utf8.encode ++ rest = texts'.map Utf8.encode ++ rest') :
    texts = texts' ∧ rest = rest' := by
  cases texts with
  | nil => exact h.elim
  | cons first entries =>
    cases texts' with
    | nil => exact h'.elim
    | cons first' entries' =>
      obtain ⟨hfirst, hentries⟩ := List.cons.inj happend
      obtain rfl := Utf8.encode_injective hfirst
      have hlength : entries.length = entries'.length := Option.some.inj (h.symm.trans h')
      obtain ⟨hmap, hrest⟩ := List.append_inj hentries (by simp [hlength])
      exact ⟨congrArg _ ((List.map_inj_right fun _ _ => Utf8.encode_injective).1 hmap), hrest⟩

/-- **A section that `before` lines are in front of is not complete**: the count line is not
    there or holds no count, or an entry that the count announced is not there. -/
inductive SectionFault (part : Section) (before : Nat) : List Text → Option Bytes → Fault → Prop
  | count {next fault} : LineFault (.missingCount part) next fault →
      SectionFault part before [] next fault
  | invalid {text} : Count.read? (Text.trim text) = none →
      SectionFault part before [] (some (Utf8.encode text))
        (.invalidCount (before + 1) (Text.trim text))
  | entry {first entries n next fault} : Count.read? (Text.trim first) = some n →
      entries.length < n → LineFault (.truncated part n entries.length) next fault →
      SectionFault part before (first :: entries) next fault

/-- A line that is not there has no number to report. -/
theorem LineFault.line?_eq_none {missing fault : Fault} {next : Option Bytes}
    (h : LineFault missing next fault) (hmissing : missing.line? = none) :
    fault.line? = none := by
  cases h with
  | missing => exact hmissing
  | notUtf8 => rfl

/-- A fault in a section reports its own line. -/
theorem SectionFault.line_eq {part : Section} {before line : Nat} {texts : List Text}
    {next : Option Bytes} {fault : Fault} (h : SectionFault part before texts next fault)
    (hline : fault.line? = some line) : line = before + texts.length + 1 := by
  cases h with
  | count h =>
    rw [h.line?_eq_none rfl] at hline
    cases hline
  | invalid =>
    cases hline
    rfl
  | entry _ _ h =>
    rw [h.line?_eq_none rfl] at hline
    cases hline

variable {α β : Type} {c c' : Cursor} {e : Fault}

/-- Readers in a row fail exactly if the first fails or the next one fails after it. -/
theorem bind_error_iff {x : Reading α} {f : α → Reading β} :
    ((x >>= f).run c).1 = .error e ↔
      (x.run c).1 = .error e ∨ ∃ a c₁, x.run c = (.ok a, c₁) ∧ ((f a).run c₁).1 = .error e := by
  rw [run_bind]
  cases x.run c with
  | mk result c₁ =>
    cases result with
    | error e' => simp
    | ok a => simp [and_assoc]

/-- A reader fails whatever is made of its value. -/
theorem bind_pure_error_iff {x : Reading α} {f : α → β} :
    ((x >>= fun a => pure (f a)).run c).1 = .error e ↔ (x.run c).1 = .error e := by
  rw [bind_error_iff]
  simp

theorem lineNumber_bind_run {f : Nat → Reading α} :
    (lineNumber >>= f).run c = (f c.number).run c := rfl

theorem nextLine_error_iff : (nextLine.run c).1 = .error e ↔
    ∃ raw rest, c.rest = raw :: rest ∧ Utf8.decode raw = none ∧ e = .stream .notUtf8 := by
  obtain ⟨lines, number⟩ := c
  cases lines with
  | nil => simp [nextLine_nil]
  | cons raw rest =>
    cases hd : Utf8.decode raw with
    | none => simp [nextLine_of_decode_none hd, hd, eq_comm]
    | some line => simp [nextLine_of_decode hd, hd]

theorem nextLine_none_iff : nextLine.run c = (.ok none, c') ↔ c.rest = [] ∧ c' = c := by
  obtain ⟨lines, number⟩ := c
  cases lines with
  | nil => simp [nextLine_nil, eq_comm]
  | cons raw rest =>
    cases hd : Utf8.decode raw with
    | none => simp [nextLine_of_decode_none hd]
    | some line => simp [nextLine_of_decode hd]

/-- A reader that wants a line fails exactly if it is not there or is refused afterwards. -/
theorem line_error_iff (missing : Fault) {f : Option Text → Reading α}
    (hnone : f none = fail missing) : ((nextLine >>= f).run c).1 = .error e ↔
      LineFault missing c.rest.head? e ∨
        ∃ line rest, c.rest = Utf8.encode line :: rest ∧
          ((f (some line)).run ⟨rest, c.number + 1⟩).1 = .error e := by
  rw [bind_error_iff, nextLine_error_iff]
  constructor
  · rintro (⟨raw, rest, hrest, hd, rfl⟩ | ⟨a, c₁, hnext, h⟩)
    · left
      rw [hrest]
      exact .notUtf8 hd
    · cases a with
      | none =>
        obtain ⟨hrest, rfl⟩ := nextLine_none_iff.1 hnext
        rw [hnone] at h
        cases h
        left
        rw [hrest]
        exact .missing
      | some line =>
        obtain ⟨hrest, hnumber⟩ := nextLine_run_iff.1 hnext
        obtain ⟨rest₁, number₁⟩ := c₁
        dsimp only at hrest hnumber
        subst hnumber
        exact .inr ⟨line, rest₁, hrest, h⟩
  · rintro (h | ⟨line, rest, hrest, h⟩)
    · generalize hnext : c.rest.head? = next at h
      cases h with
      | missing =>
        refine .inr ⟨none, c, nextLine_none_iff.2 ⟨List.head?_eq_none_iff.1 hnext, rfl⟩, ?_⟩
        rw [hnone]
        rfl
      | notUtf8 hd =>
        obtain ⟨rest, hrest⟩ := List.head?_eq_some_iff.1 hnext
        exact .inl ⟨_, rest, hrest, hd, rfl⟩
    · exact .inr ⟨some line, _, nextLine_run_iff.2 ⟨hrest, rfl⟩, h⟩

theorem count_error_iff {part : Section} : ((count part).run c).1 = .error e ↔
    SectionFault part c.number [] c.rest.head? e := by
  rw [count, line_error_iff (.missingCount part) rfl]
  constructor
  · rintro (h | ⟨line, rest, hrest, h⟩)
    · exact .count h
    · cases hn : Count.read? (Text.trim line) with
      | none =>
        simp only [hn] at h
        cases h
        rw [hrest]
        exact .invalid hn
      | some n =>
        simp only [hn] at h
        cases h
  · intro h
    generalize hnext : c.rest.head? = next at h
    cases h with
    | count h => exact .inl h
    | invalid hn =>
      obtain ⟨rest, hrest⟩ := List.head?_eq_some_iff.1 hnext
      refine .inr ⟨_, rest, hrest, ?_⟩
      simp only [hn]
      rfl

theorem entriesFrom_error_iff {part : Section} {announced missing : Nat}
    (hle : missing ≤ announced) : ((entriesFrom part announced missing).run c).1 = .error e ↔
      ∃ (entries : List Text) (rest : List Bytes),
        c.rest = entries.map Utf8.encode ++ rest ∧ entries.length < missing ∧
        LineFault (.truncated part announced (announced - missing + entries.length))
          rest.head? e := by
  induction missing generalizing c with
  | zero => simp [entriesFrom]
  | succ missing ih =>
    rw [entriesFrom,
      line_error_iff (.truncated part announced (announced - (missing + 1))) rfl]
    have hmore (line : Text) (rest : List Bytes) :
        ((do return line :: (← entriesFrom part announced missing) : Reading _).run
          ⟨rest, c.number + 1⟩).1 = .error e ↔
        ∃ (entries : List Text) (rest' : List Bytes),
          rest = entries.map Utf8.encode ++ rest' ∧ entries.length < missing ∧
          LineFault (.truncated part announced (announced - missing + entries.length))
            rest'.head? e := by
      rw [bind_pure_error_iff, ih (Nat.le_of_succ_le hle)]
    constructor
    · rintro (h | ⟨line, rest, hrest, h⟩)
      · exact ⟨[], c.rest, rfl, Nat.zero_lt_succ _, h⟩
      · obtain ⟨entries, rest', rfl, hlt, h⟩ := (hmore line rest).1 h
        refine ⟨line :: entries, rest', hrest, Nat.succ_lt_succ hlt, ?_⟩
        rwa [show announced - (missing + 1) + (line :: entries).length =
          announced - missing + entries.length by rw [List.length_cons]; omega]
    · rintro ⟨entries, rest, hrest, hlt, h⟩
      cases entries with
      | nil =>
        left
        rw [hrest]
        exact h
      | cons line entries =>
        refine .inr ⟨line, _, hrest, (hmore line _).2 ⟨entries, rest, rfl, ?_, ?_⟩⟩
        · exact Nat.lt_of_succ_lt_succ hlt
        · rwa [show announced - missing + entries.length =
            announced - (missing + 1) + (line :: entries).length by
              rw [List.length_cons]; omega]

theorem entries_error_iff {part : Section} {n : Nat} : ((entries part n).run c).1 = .error e ↔
    ∃ (entries : List Text) (rest : List Bytes),
      c.rest = entries.map Utf8.encode ++ rest ∧ entries.length < n ∧
      LineFault (.truncated part n entries.length) rest.head? e := by
  rw [entries, entriesFrom_error_iff (Nat.le_refl n)]
  simp only [Nat.sub_self, Nat.zero_add]

/-- **A section is not read exactly if there is a fault in it.** -/
theorem section_error_iff {part : Section} : (((count part).run c).1 = .error e ∨
      ∃ n c₁, (count part).run c = (.ok n, c₁) ∧ ((entries part n).run c₁).1 = .error e) ↔
    ∃ k, FailsAt (SectionFault part c.number) c.rest k e := by
  rw [count_error_iff]
  constructor
  · rintro (h | ⟨n, c₁, hcount, h⟩)
    · exact ⟨1, [], c.rest, rfl, rfl, h⟩
    · obtain ⟨first, hrest, -, hn⟩ := count_run_iff.1 hcount
      obtain ⟨entries, rest, hrest₁, hlt, h⟩ := entries_error_iff.1 h
      refine ⟨_, first :: entries, rest, ?_, rfl, .entry hn hlt h⟩
      rw [hrest, hrest₁]
      rfl
  · rintro ⟨k, texts, rest, hrest, -, h⟩
    cases texts with
    | nil =>
      left
      rw [hrest]
      exact h
    | cons first entries =>
      cases h with
      | entry hn hlt h =>
        exact .inr ⟨_, ⟨entries.map Utf8.encode ++ rest, c.number + 1⟩,
          count_run_iff.2 ⟨first, hrest, rfl, hn⟩,
          entries_error_iff.2 ⟨entries, rest, rfl, hlt, h⟩⟩

/-- The same, whatever is made of the entries. -/
theorem section_map_error_iff {part : Section} {f : List Text → α} :
    ((do let n ← count part
         return f (← entries part n) : Reading α).run c).1 = .error e ↔
      ∃ k, FailsAt (SectionFault part c.number) c.rest k e := by
  rw [bind_error_iff]
  simp only [bind_pure_error_iff]
  exact section_error_iff

end Reading

end OptGrammar
