/-
  Grammars with optional symbols — which listings are refused.

  A listing is refused for the first of its lines that is missing, is not UTF-8 or should hold
  a count and does not.  Only when all of its lines are there, a blank rule line is at fault;
  the first one is reported.

  * `ListingFault`: what a listing fails on.

  Main statement: `read_outcome_iff`, a listing is refused exactly if there is a fault in it,
  and read as the grammar that its lines list otherwise.
-/
import Mathlib.Control.Monad.Basic
import OptGrammar.Proofs.Fault
import OptGrammar.Proofs.Listing

namespace OptGrammar.Listing

open Reading Text

/-- **What a listing fails on**: the terminals, the nonterminals after them, the symbol to start
    from, the rules after it, or the first blank rule line, if nothing is wrong but that. -/
inductive ListingFault : List Text → Option Bytes → Fault → Prop
  | terminals {texts next fault} : SectionFault .terminal 0 texts next fault →
      ListingFault texts next fault
  | nonterminals {ts texts next fault} : Counted ts →
      SectionFault .nonterminal ts.length texts next fault → ListingFault (ts ++ texts) next fault
  | start {ts ns next fault} : Counted ts → Counted ns →
      LineFault (.truncated .startSymbol 1 0) next fault → ListingFault (ts ++ ns) next fault
  | rules {ts ns start texts next fault} : Counted ts → Counted ns →
      SectionFault .rule (ts ++ ns ++ [start]).length texts next fault →
      ListingFault (ts ++ ns ++ [start] ++ texts) next fault
  | blank {ts ns start first before line after next} : Counted ts → Counted ns →
      Counted (first :: before ++ line :: after) → (∀ t ∈ before, ¬ Blank t) → Blank line →
      ListingFault (ts ++ ns ++ [start] ++ (first :: before ++ line :: after)) next
        (.emptyRule ((ts ++ ns ++ [start] ++ first :: before).length + 1))

/-! ## Sections -/

variable {c c' : Cursor} {fault : Fault}

theorem symbols_run_iff_counted {part : Section} {ss : List Symbol} :
    (Listing.symbols part).run c = (.ok ss, c') ↔
      ∃ texts, Counted texts ∧ c.rest = texts.map Utf8.encode ++ c'.rest ∧
        c'.number = c.number + texts.length ∧ ss = texts.tail.map Symbol.mk := by
  rw [symbols_run_iff]
  constructor
  · rintro ⟨first, hrest, hcount, hnumber⟩
    refine ⟨first :: ss.map Symbol.name, ?_, hrest, ?_, ?_⟩
    · rwa [counted_cons_iff, List.length_map]
    · rw [hnumber, List.length_cons, List.length_map]
      omega
    · simp [Function.comp_def]
  · rintro ⟨texts, hcounted, hrest, hnumber, rfl⟩
    cases texts with
    | nil => exact hcounted.elim
    | cons first entries =>
      refine ⟨first, ?_, ?_, ?_⟩
      · rw [hrest]
        simp [Function.comp_def]
      · rwa [List.tail_cons, List.length_map]
      · rw [hnumber, List.tail_cons, List.length_map, List.length_cons]
        omega

theorem symbols_error_iff {part : Section} : ((Listing.symbols part).run c).1 = .error fault ↔
    ∃ k, FailsAt (SectionFault part c.number) c.rest k fault :=
  section_map_error_iff

theorem startSymbol_error_iff : (startSymbol.run c).1 = .error fault ↔
    LineFault (.truncated .startSymbol 1 0) c.rest.head? fault := by
  rw [startSymbol, line_error_iff (.truncated .startSymbol 1 0) rfl]
  simp

/-- The first of some things that is as wanted is the one in front or the first behind it. -/
theorem exists_first_cons_iff {α : Type} {p : α → Prop} {q : Nat → Prop} {a : α} {l : List α} :
    (∃ before x after, a :: l = before ++ x :: after ∧ (∀ b ∈ before, ¬ p b) ∧ p x ∧
      q before.length) ↔
    p a ∧ q 0 ∨ ¬ p a ∧ ∃ before x after, l = before ++ x :: after ∧ (∀ b ∈ before, ¬ p b) ∧
      p x ∧ q (before.length + 1) := by
  constructor
  · rintro ⟨before, x, after, hl, hbefore, hx, hq⟩
    cases before with
    | nil =>
      obtain ⟨rfl, -⟩ := List.cons.inj hl
      exact .inl ⟨hx, hq⟩
    | cons b before =>
      obtain ⟨rfl, rfl⟩ := List.cons.inj hl
      obtain ⟨ha, hbefore⟩ := List.forall_mem_cons.1 hbefore
      exact .inr ⟨ha, before, x, after, rfl, hbefore, hx, hq⟩
  · rintro (⟨ha, hq⟩ | ⟨ha, before, x, after, rfl, hbefore, hx, hq⟩)
    · exact ⟨[], a, l, rfl, by simp, ha, hq⟩
    · exact ⟨a :: before, x, after, rfl, List.forall_mem_cons.2 ⟨ha, hbefore⟩, hx, hq⟩

/-- Rule lines are refused for the first blank one. -/
theorem rulesFrom_error_iff {number : Nat} {lines : List Text} :
    rulesFrom number lines = .error fault ↔
      ∃ before line after, lines = before ++ line :: after ∧ (∀ t ∈ before, ¬ Blank t) ∧
        Blank line ∧ fault = .emptyRule (number + before.length) := by
  induction lines generalizing number with
  | nil => simp [rulesFrom]
  | cons t lines ih =>
    rw [rulesFrom, exists_first_cons_iff (q := fun n => fault = .emptyRule (number + n))]
    have hnone : Rule.ofLine? t = none ↔ Blank t :=
      Rule.ofLine?_eq_none_iff.trans words_eq_nil_iff
    by_cases hblank : Blank t
    · rw [hnone.2 hblank]
      simp [hblank, eq_comm]
    · obtain ⟨r, hr⟩ := Option.ne_none_iff_exists'.1 (mt hnone.1 hblank)
      have hmap : (rulesFrom (number + 1) lines).map (r :: ·) = .error fault ↔
          rulesFrom (number + 1) lines = .error fault := by
        cases rulesFrom (number + 1) lines <;> simp [Except.map]
      rw [hr]
      simp only [hmap, ih, hblank, false_and, false_or, not_false_eq_true, true_and,
        Nat.add_assoc, Nat.add_comm 1]

/-- The rules are not read exactly if their section is not, or if one of its lines is blank. -/
theorem rules_error_iff : (rules.run c).1 = .error fault ↔
    (∃ k, FailsAt (SectionFault .rule c.number) c.rest k fault) ∨
      ∃ first lines rest, c.rest = (first :: lines).map Utf8.encode ++ rest ∧
        Counted (first :: lines) ∧ rulesFrom (c.number + 2) lines = .error fault := by
  rw [← section_error_iff, rules, bind_error_iff]
  constructor
  · rintro (h | ⟨n, c₁, hcount, h⟩)
    · exact .inl (.inl h)
    · rw [lineNumber_bind_run, bind_error_iff] at h
      rcases h with h | ⟨lines, c₂, hlines, h⟩
      · exact .inl (.inr ⟨n, c₁, hcount, h⟩)
      · obtain ⟨first, hrest, hn, -⟩ := section_run_iff.1 ⟨n, c₁, hcount, hlines⟩
        obtain ⟨-, -, hnumber, -⟩ := count_run_iff.1 hcount
        refine .inr ⟨first, lines, c₂.rest, hrest, hn, ?_⟩
        rw [hnumber] at h
        split at h
        · rename_i e he
          cases h
          exact he
        · cases h
  · rintro ((h | ⟨n, c₁, hcount, h⟩) | ⟨first, lines, rest, hrest, hcounted, h⟩)
    · exact .inl h
    · refine .inr ⟨n, c₁, hcount, ?_⟩
      rw [lineNumber_bind_run, bind_error_iff]
      exact .inl h
    · let c₂ : Cursor := ⟨rest, c.number + 1 + lines.length⟩
      have hc₂ : c₂.number = c.number + 1 + lines.length := rfl
      obtain ⟨n, c₁, hcount, hlines⟩ := section_run_iff.2 ⟨first, hrest, hcounted, hc₂⟩
      obtain ⟨-, -, hnumber, -⟩ := count_run_iff.1 hcount
      refine .inr ⟨n, c₁, hcount, ?_⟩
      rw [lineNumber_bind_run, bind_error_iff]
      refine .inr ⟨lines, c₂, hlines, ?_⟩
      rw [hnumber, h]
      rfl

/-! ## A whole listing -/

theorem reader_error_iff : (reader.run c).1 = .error fault ↔
    ((symbols .terminal).run c).1 = .error fault ∨
      ∃ ts c₁, (symbols .terminal).run c = (.ok ts, c₁) ∧
        (((symbols .nonterminal).run c₁).1 = .error fault ∨
          ∃ ns c₂, (symbols .nonterminal).run c₁ = (.ok ns, c₂) ∧
            ((startSymbol.run c₂).1 = .error fault ∨
              ∃ s c₃, startSymbol.run c₂ = (.ok s, c₃) ∧ (rules.run c₃).1 = .error fault)) := by
  simp only [reader, bind_error_iff, run_pure, reduceCtorEq, and_false, exists_false, or_false]

section

variable {bs : Bytes} {ts ns : List Text} {rest : List Bytes}

theorem symbols_run_of_counted {part : Section} (hts : Counted ts)
    (hrest : c.rest = ts.map Utf8.encode ++ rest) : (symbols part).run c =
      (.ok (ts.tail.map Symbol.mk), ⟨rest, c.number + ts.length⟩) :=
  symbols_run_iff_counted.2 ⟨ts, hts, hrest, rfl, rfl⟩

/-! ### After two sections -/

/-- A fault after two sections is one of the listing. -/
theorem exists_failsAt_of_error (hts : Counted ts) (hns : Counted ns)
    (hrest : bs.lines = (ts ++ ns).map Utf8.encode ++ c.rest)
    (hnumber : c.number = (ts ++ ns).length)
    (h : (startSymbol.run c).1 = .error fault ∨
      ∃ s c', startSymbol.run c = (.ok s, c') ∧ (rules.run c').1 = .error fault) :
    ∃ k, FailsAt ListingFault bs.lines k fault := by
  rcases h with h | ⟨s, c', hstart, h⟩
  · exact ⟨_, ts ++ ns, c.rest, hrest, rfl, .start hts hns (startSymbol_error_iff.1 h)⟩
  · obtain ⟨hrest₁, hnumber₁⟩ := startSymbol_run_iff.1 hstart
    have hlines : bs.lines = (ts ++ ns ++ [s.name]).map Utf8.encode ++ c'.rest := by
      rw [hrest, hrest₁]
      simp
    have hlength : c'.number = (ts ++ ns ++ [s.name]).length := by
      have hconcat : (ts ++ ns ++ [s.name]).length = (ts ++ ns).length + 1 := List.length_append
      rw [hconcat, hnumber₁, hnumber]
    rcases rules_error_iff.1 h with ⟨k, hk⟩ | ⟨first, lines, rest, hrest₂, hcounted, h⟩
    · rw [hlength] at hk
      rw [hlines]
      exact ⟨_, hk.append fun _ _ => .rules hts hns⟩
    · obtain ⟨before, line, after, rfl, hbefore, hline, rfl⟩ := rulesFrom_error_iff.1 h
      refine ⟨_, ts ++ ns ++ [s.name] ++ (first :: before ++ line :: after), rest, ?_, rfl, ?_⟩
      · rw [hlines, hrest₂]
        simp
      · have hline' : c'.number + 2 + before.length =
            (ts ++ ns ++ [s.name] ++ first :: before).length + 1 := by
          rw [hlength]
          simp only [List.length_append, List.length_cons]
          omega
        rw [hline']
        exact .blank hts hns hcounted hbefore hline

/-- What is wrong after two sections is what the reader fails on. -/
theorem error_of_counted (hts : Counted ts) (hns : Counted ns)
    (hlines : bs.lines = (ts ++ ns).map Utf8.encode ++ rest)
    (h : (startSymbol.run ⟨rest, (ts ++ ns).length⟩).1 = .error fault ∨
      ∃ s c', startSymbol.run ⟨rest, (ts ++ ns).length⟩ = (.ok s, c') ∧
        (rules.run c').1 = .error fault) :
    (reader.run (.ofBytes bs)).1 = .error fault := by
  have hterminals : (Cursor.ofBytes bs).rest =
      ts.map Utf8.encode ++ (ns.map Utf8.encode ++ rest) := by
    rw [Cursor.ofBytes, hlines, List.map_append, List.append_assoc]
  have hnumber : (Cursor.ofBytes bs).number + ts.length + ns.length = (ts ++ ns).length := by
    rw [List.length_append]
    exact congrArg (· + ns.length) (Nat.zero_add ts.length)
  rw [← hnumber] at h
  exact reader_error_iff.2 (.inr ⟨_, _, symbols_run_of_counted hts hterminals,
    .inr ⟨_, _, symbols_run_of_counted hns rfl, h⟩⟩)

theorem error_of_start {start : Text} (hts : Counted ts) (hns : Counted ns)
    (hlines : bs.lines = (ts ++ ns ++ [start]).map Utf8.encode ++ rest)
    (h : (rules.run ⟨rest, (ts ++ ns ++ [start]).length⟩).1 = .error fault) :
    (reader.run (.ofBytes bs)).1 = .error fault := by
  have hrest : bs.lines = (ts ++ ns).map Utf8.encode ++ Utf8.encode start :: rest := by
    rw [hlines]
    simp
  have hlength : (ts ++ ns ++ [start]).length = (ts ++ ns).length + 1 := List.length_append
  rw [hlength] at h
  let c : Cursor := ⟨rest, (ts ++ ns).length + 1⟩
  have hstart : startSymbol.run ⟨Utf8.encode start :: rest, (ts ++ ns).length⟩ =
      (.ok ⟨start⟩, c) := startSymbol_run_iff.2 ⟨rfl, rfl⟩
  exact error_of_counted hts hns hrest (.inr ⟨⟨start⟩, c, hstart, h⟩)

/-! ### The fault -/

/-- **A listing is not read exactly if there is a fault in it.** -/
theorem read_error_iff : read bs = .error fault ↔ ∃ k, FailsAt ListingFault bs.lines k fault := by
  rw [read, Reading.ofBytes]
  constructor
  · intro h
    rcases reader_error_iff.1 h with h | ⟨terminals, c₁, hterminals, h⟩
    · obtain ⟨k, texts, rest, hlines, hk, h⟩ := symbols_error_iff.1 h
      exact ⟨k, texts, rest, hlines, hk, .terminals h⟩
    · obtain ⟨ts, hts, hlines, hnumber₁, -⟩ := symbols_run_iff_counted.1 hterminals
      replace hlines : bs.lines = ts.map Utf8.encode ++ c₁.rest := hlines
      replace hnumber₁ : c₁.number = ts.length := hnumber₁.trans (Nat.zero_add _)
      rcases h with h | ⟨nonterminals, c₂, hnonterminals, h⟩
      · obtain ⟨k, hk⟩ := symbols_error_iff.1 h
        rw [hnumber₁] at hk
        rw [hlines]
        exact ⟨_, hk.append fun _ _ => .nonterminals hts⟩
      · obtain ⟨ns, hns, hrest, hnumber₂, -⟩ := symbols_run_iff_counted.1 hnonterminals
        refine exists_failsAt_of_error hts hns ?_ ?_ h
        · rw [hlines, hrest, List.map_append, List.append_assoc]
        · rw [hnumber₂, hnumber₁, List.length_append]
  · rintro ⟨k, texts, rest, hlines, -, h⟩
    cases h with
    | terminals h =>
      exact reader_error_iff.2 (.inl (symbols_error_iff.2 ⟨_, texts, rest, hlines, rfl, h⟩))
    | @nonterminals ts texts _ _ hts h =>
      have hterminals : (Cursor.ofBytes bs).rest =
          ts.map Utf8.encode ++ (texts.map Utf8.encode ++ rest) := by
        rw [Cursor.ofBytes, hlines, List.map_append, List.append_assoc]
      rw [← Nat.zero_add ts.length] at h
      exact reader_error_iff.2 (.inr ⟨_, _, symbols_run_of_counted hts hterminals,
        .inl (symbols_error_iff.2 ⟨_, texts, rest, rfl, rfl, h⟩)⟩)
    | start hts hns h => exact error_of_counted hts hns hlines (.inl (startSymbol_error_iff.2 h))
    | @rules ts ns start texts _ _ hts hns h =>
      rw [List.map_append, List.append_assoc] at hlines
      exact error_of_start hts hns hlines
        (rules_error_iff.2 (.inl ⟨_, texts, rest, rfl, rfl, h⟩))
    | @blank ts ns start first before line after _ hts hns hcounted hbefore hline =>
      rw [List.map_append, List.append_assoc] at hlines
      refine error_of_start hts hns hlines (rules_error_iff.2
        (.inr ⟨first, before ++ line :: after, rest, rfl, hcounted, ?_⟩))
      refine rulesFrom_error_iff.2 ⟨before, line, after, rfl, hbefore, hline, ?_⟩
      have hnumber : (ts ++ ns ++ [start] ++ first :: before).length + 1 =
          (ts ++ ns ++ [start]).length + 2 + before.length := by
        simp only [List.length_append, List.length_cons]
        omega
      rw [hnumber]

end

/-- **What is made of a listing.**  It is refused exactly if there is a fault in it, which the
    lines up to the fault decide, and it is read as a grammar exactly if its first lines are
    three counted sections, the symbol to start from before the last, with the names of the
    grammar as they stand and the words of its rules. -/
theorem read_outcome_iff {bs : Bytes} :
    (∀ fault, read bs = .error fault ↔ ∃ k, FailsAt ListingFault bs.lines k fault) ∧
    (∀ g, read bs = .ok g ↔ ∃ t n r lines rest,
      bs.lines = (t :: g.terminals.map Symbol.name ++ n :: g.nonterminals.map Symbol.name ++
        g.entrypoint.name :: r :: lines).map Utf8.encode ++ rest ∧
      Counted (t :: g.terminals.map Symbol.name) ∧
      Counted (n :: g.nonterminals.map Symbol.name) ∧ Counted (r :: lines) ∧
      lines.map Text.words = g.rules.map Rule.names) ∧
    ((∃ g, read bs = .ok g) ↔ ∀ k fault, ¬ FailsAt ListingFault bs.lines k fault) ∧
    ∀ k fault, FailsAt ListingFault bs.lines k fault →
      ∀ bs' : Bytes, bs'.lines.take k = bs.lines.take k → read bs' = .error fault := by
  refine ⟨fun fault => read_error_iff, ?_, exists_ok_iff_of_error_iff fun fault => read_error_iff,
    ?_⟩
  · intro g
    rw [read_eq_ok_iff]
    simp only [counted_cons_iff, List.length_map]
  · intro k fault h bs' htake
    exact read_error_iff.2 ⟨k, h.of_take_eq htake⟩

/-- A blank rule line is not what is reported when a later one is missing. -/
example : read (Utf8.encode "0\n0\nGoal\n2\n \n".toList) = .error (.truncated .rule 2 1) ∧
    read (Utf8.encode "0\n0\nGoal\n2\n \nA B\n".toList) = .error (.emptyRule 5) :=
  by decide +kernel

end OptGrammar.Listing
