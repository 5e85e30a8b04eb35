/-
  Grammars with optional symbols — symbols and their roles.

  * `Symbol`: a grammar symbol, which is its name.
  * `Symbol.optional`: the symbol marked as optional.
  * `Symbol.base?`: an optional symbol without its mark.
  * `Role`: what a symbol is in a grammar.

  Main statement: `base?_eq_some_iff`, the base of a symbol is what it marks.
-/
import OptGrammar.Text.Blank

namespace OptGrammar

/-- The two roles of a symbol in a grammar. -/
inductive Role
  | terminal
  | nonterminal
  deriving DecidableEq

/-- A grammar symbol is its name. -/
structure Symbol where
  name : Text
  deriving DecidableEq

namespace Symbol

theorem ext {s s' : Symbol} (h : s.name = s'.name) : s = s' := by
  cases s; cases s'; cases h; rfl

/-- The mark at the end of the name of an optional symbol. -/
def mark : Text := ['(', 'o', 'p', 't', ')']

/-- The symbol marked as optional. -/
def optional (s : Symbol) : Symbol := ⟨s.name ++ mark⟩

/-- Whether the name of a symbol ends in the mark. -/
def isOptional (s : Symbol) : Bool := mark.isSuffixOf s.name

/-- The symbol that an optional symbol marks.  Only the last of several marks is taken
    off, and the name left may be empty. -/
def base? (s : Symbol) : Option Symbol :=
  if s.isOptional then some ⟨s.name.take (s.name.length - mark.length)⟩ else none

theorem isOptional_iff {s : Symbol} : s.isOptional = true ↔ ∃ b : Symbol, s = b.optional := by
  rw [isOptional, List.isSuffixOf_iff_suffix]
  constructor
  · rintro ⟨b, hb⟩
    exact ⟨⟨b⟩, by cases s; simp_all [optional]⟩
  · rintro ⟨b, rfl⟩
    exact ⟨b.name, rfl⟩

@[simp]
theorem isOptional_optional (b : Symbol) : b.optional.isOptional = true :=
  isOptional_iff.2 ⟨b, rfl⟩

@[simp]
theorem base?_optional (b : Symbol) : b.optional.base? = some b := by
  rw [base?, if_pos (isOptional_optional b)]
  simp [optional]

/-- **The base of a symbol is the symbol that it marks.** -/
theorem base?_eq_some_iff {s b : Symbol} : s.base? = some b ↔ s = b.optional := by
  constructor
  · intro h
    by_cases hs : s.isOptional = true
    · obtain ⟨c, rfl⟩ := isOptional_iff.1 hs
      rw [base?_optional] at h
      rw [Option.some.inj h]
    · simp [base?, hs] at h
  · rintro rfl
    exact base?_optional b

theorem isSome_base? (s : Symbol) : s.base?.isSome = s.isOptional := by
  rw [base?]
  split <;> simp_all

theorem isOptional_of_base? {s b : Symbol} (h : s.base? = some b) : s.isOptional = true := by
  rw [← isSome_base?, h]
  rfl

theorem exists_base? {s : Symbol} (h : s.isOptional = true) : ∃ b, s.base? = some b :=
  Option.isSome_iff_exists.1 ((isSome_base? s).trans h)

/-- Optional symbols are found again from their bases. -/
theorem map_optional_filterMap_base? {symbols : List Symbol}
    (h : ∀ s ∈ symbols, s.isOptional = true) :
    (symbols.filterMap base?).map optional = symbols := by
  induction symbols with
  | nil => rfl
  | cons s symbols ih =>
    obtain ⟨hs, hsymbols⟩ := List.forall_mem_cons.1 h
    obtain ⟨b, rfl⟩ := isOptional_iff.1 hs
    rw [List.filterMap_cons_some (base?_optional b), List.map_cons, ih hsymbols]

end Symbol

end OptGrammar
