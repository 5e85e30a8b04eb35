/-
  Grammars with optional symbols — reading a listing.

  A listing is read from the texts at the start of its bytes: three counts that are right,
  the names as they stand, and rule lines with the words of the rules.  Of a listing that was
  written, each line comes back without a carriage return at its end.

  Main statements: `read_eq_ok_iff`, when bytes are read as a grammar; `read_bytes`, what the
  listing of a grammar is read as.
-/
import OptGrammar.Listing
import OptGrammar.Proofs.Blank
import OptGrammar.Proofs.Reading

namespace OptGrammar

/-! ## Carriage returns -/

/-- A symbol whose name is without a carriage return at its end. -/
def Symbol.dropReturn (s : Symbol) : Symbol := ⟨Text.dropReturn s.name⟩

theorem Symbol.dropReturn_eq_self_iff {s : Symbol} :
    s.dropReturn = s ↔ s.name.getLast? ≠ some '\r' := by
  rw [← Text.dropReturn_eq_self_iff]
  exact ⟨congrArg name, ext⟩

/-- Symbols stay as they are exactly if no name ends in a carriage return. -/
theorem Symbol.map_dropReturn_iff {symbols : List Symbol} :
    symbols.map dropReturn = symbols ↔ ∀ s ∈ symbols, s.name.getLast? ≠ some '\r' := by
  have hmap : symbols.map dropReturn = symbols.map id ↔ ∀ s ∈ symbols, s.dropReturn = s :=
    List.map_inj_left
  rw [List.map_id] at hmap
  simp only [hmap, dropReturn_eq_self_iff]

theorem Text.words_dropReturn (t : Text) : words t.dropReturn = words t := by
  rw [dropReturn]
  split
  · rename_i hlast
    obtain ⟨u, rfl⟩ := List.getLast?_eq_some_iff.1 hlast
    rw [List.dropLast_concat, words_append_blank (by decide)]
    exact (List.append_nil _).symm
  · rfl

/-! ## Rule lines -/

/-- Lines with words are the lines of rules. -/
theorem Rule.exists_names {α : Type} {line : α → Text} {lines : List α}
    (h : ∀ a ∈ lines, Text.words (line a) ≠ []) :
    ∃ rs : List Rule, rs.map names = lines.map fun a => Text.words (line a) := by
  induction lines with
  | nil => exact ⟨[], rfl⟩
  | cons a lines ih =>
    obtain ⟨rs, hrs⟩ := ih fun b hb => h b (List.mem_cons_of_mem _ hb)
    cases hr : ofLine? (line a) with
    | none => exact absurd (ofLine?_eq_none_iff.1 hr) (h a List.mem_cons_self)
    | some r => exact ⟨r :: rs, by rw [List.map_cons, hrs, ← ofLine?_eq_some_iff.1 hr]; rfl⟩

/-- Rules are found again in their lines exactly if all their names are words. -/
theorem Rule.eq_iff_words_line {rules rs : List Rule}
    (h : rs.map names = rules.map fun r => Text.words r.line) :
    rs = rules ↔ ∀ r ∈ rules, ∀ s ∈ r.symbols, Text.IsWord s.name := by
  rw [← List.map_inj_right fun _ _ => names_injective, h, List.map_inj_left]
  simp only [words_line_iff]

namespace Listing

theorem rulesFrom_eq_ok_iff {number : Nat} {lines : List Text} {rules : List Rule} :
    rulesFrom number lines = .ok rules ↔ lines.map Text.words = rules.map Rule.names := by
  induction lines generalizing number rules with
  | nil => cases rules <;> simp [rulesFrom]
  | cons line lines ih =>
    rw [rulesFrom]
    cases hr : Rule.ofLine? line with
    | none =>
      cases rules with
      | nil => simp
      | cons r rules =>
        have : Text.words line ≠ r.names := fun h => by
          rw [Rule.ofLine?_eq_some_iff.2 h] at hr
          cases hr
        simp [this]
    | some r₁ =>
      rw [Rule.ofLine?_eq_some_iff] at hr
      cases rules with
      | nil =>
        cases rulesFrom (number + 1) lines <;> simp [Except.map]
      | cons r rules =>
        rw [List.map_cons, List.map_cons, List.cons.injEq, ← @ih (number + 1), hr]
        cases rulesFrom (number + 1) lines with
        | error e => simp [Except.map]
        | ok rules₁ =>
          simp only [Except.map, Except.ok.injEq, List.cons.injEq]
          constructor
          · rintro ⟨rfl, rfl⟩
            exact ⟨rfl, rfl⟩
          · rintro ⟨h, rfl⟩
            exact ⟨Rule.names_injective h, rfl⟩

/-! ## Sections -/

variable {c c' : Cursor}

theorem symbols_run_iff {part : Section} {symbols : List Symbol} :
    (Listing.symbols part).run c = (.ok symbols, c') ↔
      ∃ first, c.rest = (first :: symbols.map Symbol.name).map Utf8.encode ++ c'.rest ∧
        Count.read? (Text.trim first) = some symbols.length ∧
        c'.number = c.number + 1 + symbols.length := by
  simp only [Listing.symbols, Reading.bind_run_iff, Reading.pure_run_iff]
  constructor
  · rintro ⟨n, c₁, hcount, lines, c₂, hlines, rfl, rfl⟩
    obtain ⟨first, hrest, hn, hnumber⟩ := Reading.section_run_iff.1 ⟨n, c₁, hcount, hlines⟩
    refine ⟨first, ?_, ?_, ?_⟩
    · simpa [Function.comp_def] using hrest
    · simpa using hn
    · simpa using hnumber
  · rintro ⟨first, hrest, hn, hnumber⟩
    obtain ⟨n, c₁, hcount, hlines⟩ :=
      Reading.section_run_iff.2 ⟨first, hrest, by simpa using hn, by simpa using hnumber⟩
    exact ⟨n, c₁, hcount, _, c', hlines, by simp [Function.comp_def], rfl⟩

theorem startSymbol_run_iff {s : Symbol} : startSymbol.run c = (.ok s, c') ↔
    c.rest = Utf8.encode s.name :: c'.rest ∧ c'.number = c.number + 1 := by
  rw [startSymbol, Reading.bind_run_iff]
  constructor
  · rintro ⟨a, c₁, hnext, h⟩
    cases a with
    | none => simp at h
    | some line =>
      obtain ⟨rfl, rfl⟩ := Reading.pure_run_iff.1 h
      exact Reading.nextLine_run_iff.1 hnext
  · intro h
    exact ⟨some s.name, c', Reading.nextLine_run_iff.2 h, rfl⟩

theorem rules_run_iff {rs : List Rule} : rules.run c = (.ok rs, c') ↔
    ∃ first lines, c.rest = (first :: lines).map Utf8.encode ++ c'.rest ∧
      Count.read? (Text.trim first) = some lines.length ∧
      lines.map Text.words = rs.map Rule.names ∧ c'.number = c.number + 1 + lines.length := by
  rw [rules, Reading.bind_run_iff]
  constructor
  · rintro ⟨n, c₁, hcount, h⟩
    obtain ⟨number, c₂, hnumber, h⟩ := Reading.bind_run_iff.1 h
    cases hnumber
    obtain ⟨lines, c₃, hlines, hend⟩ := Reading.bind_run_iff.1 h
    obtain ⟨first, hrest, hn, hnumber⟩ := Reading.section_run_iff.1 ⟨n, c₁, hcount, hlines⟩
    split at hend
    · simp at hend
    · rename_i rs₁ hrs
      obtain ⟨rfl, rfl⟩ := Reading.pure_run_iff.1 hend
      exact ⟨first, lines, hrest, hn, rulesFrom_eq_ok_iff.1 hrs, hnumber⟩
  · rintro ⟨first, lines, hrest, hn, hwords, hnumber⟩
    obtain ⟨n, c₁, hcount, hlines⟩ := Reading.section_run_iff.2 ⟨first, hrest, hn, hnumber⟩
    refine ⟨n, c₁, hcount, Reading.bind_run_iff.2 ⟨c₁.number, c₁, rfl, Reading.bind_run_iff.2
      ⟨lines, c', hlines, ?_⟩⟩⟩
    rw [rulesFrom_eq_ok_iff.2 hwords]
    rfl

/-! ## A whole listing -/

theorem reader_run_iff {g : Grammar} : reader.run c = (.ok g, c') ↔
    ∃ c₁ c₂ c₃, (symbols .terminal).run c = (.ok g.terminals, c₁) ∧
      (symbols .nonterminal).run c₁ = (.ok g.nonterminals, c₂) ∧
      startSymbol.run c₂ = (.ok g.entrypoint, c₃) ∧ rules.run c₃ = (.ok g.rules, c') := by
  simp only [reader, Reading.bind_run_iff, Reading.pure_run_iff]
  constructor
  · rintro ⟨terminals, c₁, h₁, nonterminals, c₂, h₂, entrypoint, c₃, h₃, rs, c₄, h₄, rfl, rfl⟩
    exact ⟨c₁, c₂, c₃, h₁, h₂, h₃, h₄⟩
  · rintro ⟨c₁, c₂, c₃, h₁, h₂, h₃, h₄⟩
    exact ⟨_, c₁, h₁, _, c₂, h₂, _, c₃, h₃, _, c', h₄, rfl, rfl⟩

theorem read_eq_ok_iff_run {bs : Bytes} {g : Grammar} :
    read bs = .ok g ↔ ∃ c', reader.run (.ofBytes bs) = (.ok g, c') := by
  rw [read, Reading.ofBytes]
  constructor
  · intro h
    exact ⟨_, Prod.ext h rfl⟩
  · rintro ⟨c', h⟩
    rw [h]

/-- **Bytes are read as a grammar** exactly if their first lines list it. -/
theorem read_eq_ok_iff {bs : Bytes} {g : Grammar} : read bs = .ok g ↔
    ∃ t n r lines rest, bs.lines = (t :: g.terminals.map Symbol.name ++
        n :: g.nonterminals.map Symbol.name ++ g.entrypoint.name :: r :: lines).map Utf8.encode ++
        rest ∧
      Count.read? (Text.trim t) = some g.terminals.length ∧
      Count.read? (Text.trim n) = some g.nonterminals.length ∧
      Count.read? (Text.trim r) = some lines.length ∧
      lines.map Text.words = g.rules.map Rule.names := by
  simp only [read_eq_ok_iff_run, reader_run_iff]
  constructor
  · rintro ⟨c', c₁, c₂, c₃, hterminals, hnonterminals, hentrypoint, hrules⟩
    obtain ⟨t, hrest₁, ht, -⟩ := symbols_run_iff.1 hterminals
    obtain ⟨n, hrest₂, hn, -⟩ := symbols_run_iff.1 hnonterminals
    obtain ⟨hrest₃, -⟩ := startSymbol_run_iff.1 hentrypoint
    obtain ⟨r, lines, hrest₄, hr, hwords, -⟩ := rules_run_iff.1 hrules
    refine ⟨t, n, r, lines, c'.rest, ?_, ht, hn, hr, hwords⟩
    rw [hrest₂, hrest₃, hrest₄] at hrest₁
    simpa [Cursor.ofBytes] using hrest₁
  · rintro ⟨t, n, r, lines, rest, hlines, ht, hn, hr, hwords⟩
    -- the cursors behind the sections, from the last to the first
    let c₃ : Cursor := ⟨(r :: lines).map Utf8.encode ++ rest,
      1 + g.terminals.length + 1 + g.nonterminals.length + 1⟩
    let c₂ : Cursor := ⟨Utf8.encode g.entrypoint.name :: c₃.rest,
      1 + g.terminals.length + 1 + g.nonterminals.length⟩
    let c₁ : Cursor := ⟨(n :: g.nonterminals.map Symbol.name).map Utf8.encode ++ c₂.rest,
      1 + g.terminals.length⟩
    refine ⟨⟨rest, c₃.number + 1 + lines.length⟩, c₁, c₂, c₃, symbols_run_iff.2 ⟨t, ?_, ht, ?_⟩,
      symbols_run_iff.2 ⟨n, rfl, hn, rfl⟩, startSymbol_run_iff.2 ⟨rfl, rfl⟩,
      rules_run_iff.2 ⟨r, lines, rfl, hr, hwords, rfl⟩⟩
    · rw [Cursor.ofBytes, hlines]
      simp [c₁, c₂, c₃]
    · simp [c₁, Cursor.ofBytes]

/-! ## What was written -/

theorem digits_not_blank (n : Nat) : ∀ c ∈ Count.digits n, Text.isBlank c = false := by
  intro c hc
  have hdigit := Count.isDigit_of_mem_digits hc
  obtain ⟨hlow, hhigh⟩ : 48 ≤ c.toNat ∧ c.toNat ≤ 57 := Char.isDigit_iff_toNat.1 hdigit
  simp only [Text.isBlank, Bool.or_eq_false_iff, Bool.and_eq_false_iff, decide_eq_false_iff_not,
    beq_eq_false_iff_ne]
  omega

theorem dropReturn_digits (n : Nat) : Text.dropReturn (Count.digits n) = Count.digits n := by
  apply Text.dropReturn_eq_self_iff.2
  intro hlast
  exact Count.not_mem_digits (by decide) n (List.mem_of_getLast? hlast)

theorem read?_trim_digits {n : Nat} (h : n ≤ Count.greatest) :
    Count.read? (Text.trim (Count.digits n)) = some n := by
  rw [Text.trim_of_not_blank (digits_not_blank n), Count.read?_digits h]

end Listing

/-- What a grammar has to be like for its listing to be read: no name breaks a line, each
    rule line has a word, and the sections are no longer than counts can tell. -/
structure Grammar.Listable (g : Grammar) : Prop where
  names : ∀ s ∈ g.entrypoint :: g.terminals ++ g.nonterminals, '\n' ∉ s.name
  rules : ∀ r ∈ g.rules, Text.words r.line ≠ [] ∧ ∀ s ∈ r.symbols, '\n' ∉ s.name
  sizes : g.terminals.length ≤ Count.greatest ∧ g.nonterminals.length ≤ Count.greatest ∧
    g.rules.length ≤ Count.greatest

/-- Every line of a listing is a count, the name of a symbol or the line of a rule. -/
theorem Listing.forall_mem_lines {g : Grammar} {p : Text → Prop} (hdigits : ∀ n, p (Count.digits n))
    (hnames : ∀ s ∈ g.entrypoint :: g.terminals ++ g.nonterminals, p s.name)
    (hrules : ∀ r ∈ g.rules, p r.line) : ∀ t ∈ lines g, p t := by
  intro t ht
  simp only [List.cons_append, List.mem_cons, List.mem_append] at hnames
  simp only [lines, symbolLines, ruleLines, List.mem_append, List.mem_cons, List.mem_map] at ht
  rcases ht with ((rfl | ⟨s, hs, rfl⟩) | rfl | ⟨s, hs, rfl⟩) | rfl | rfl | ⟨r, hr, rfl⟩
  · exact hdigits _
  · exact hnames s (.inr (.inl hs))
  · exact hdigits _
  · exact hnames s (.inr (.inr hs))
  · exact hnames _ (.inl rfl)
  · exact hdigits _
  · exact hrules r hr

/-- If no name breaks a line, the line feeds of a listing are those that end its lines. -/
theorem Listing.newline_not_mem_lines {g : Grammar}
    (hnames : ∀ s ∈ g.entrypoint :: g.terminals ++ g.nonterminals, '\n' ∉ s.name)
    (hrules : ∀ r ∈ g.rules, ∀ s ∈ r.symbols, '\n' ∉ s.name) : ∀ t ∈ lines g, '\n' ∉ t := by
  refine forall_mem_lines (Count.not_mem_digits (by decide)) hnames fun r hr => ?_
  exact Text.not_mem_unwords (by decide) (List.forall_mem_map.2 (hrules r hr))

theorem Grammar.Listable.not_mem_of_mem_lines {g : Grammar} (h : g.Listable) {t : Text}
    (ht : t ∈ Listing.lines g) : '\n' ∉ t :=
  Listing.newline_not_mem_lines h.names (fun r hr => (h.rules r hr).2) t ht

/-- **A listing is read** as the names without returns at their ends and the words of the rule
    lines. -/
theorem Listing.read_bytes {g : Grammar} (h : g.Listable) :
    ∃ rs, rs.map Rule.names = g.rules.map (fun r => Text.words r.line) ∧
      read (bytes g) = .ok ⟨g.terminals.map Symbol.dropReturn,
        g.nonterminals.map Symbol.dropReturn, g.entrypoint.dropReturn, rs⟩ := by
  obtain ⟨rs, hrs⟩ : ∃ rs : List Rule, rs.map Rule.names = g.rules.map fun r => Text.words r.line :=
    Rule.exists_names fun r hr => (h.rules r hr).1
  refine ⟨rs, hrs, read_eq_ok_iff.2 ⟨_, _, _, g.rules.map fun r => Text.dropReturn r.line, [], ?_,
    read?_trim_digits ?_, read?_trim_digits ?_, read?_trim_digits ?_, ?_⟩⟩
  · rw [bytes, render, Bytes.lines_unlines fun t => h.not_mem_of_mem_lines, lines]
    simp [symbolLines, ruleLines, dropReturn_digits, Symbol.dropReturn, Function.comp_def]
  · simpa using h.sizes.1
  · simpa using h.sizes.2.1
  · simpa using h.sizes.2.2
  · simp [hrs, Text.words_dropReturn, Function.comp_def]

end OptGrammar
