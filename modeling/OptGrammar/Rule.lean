/-
  Grammars with optional symbols — rules.

  * `Rule`: a head and a body of symbols; an empty body derives nothing.
  * `Rule.line`, `Rule.ofLine?`: a rule as its symbols in a row, and back.
  * `Rule.summary`: a rule for a reader, with an arrow.
  * `Symbol.expansion`: the two rules that an optional symbol stands for.

  Main statement: `words_line_iff`, when a rule is found again in its line.
-/
import OptGrammar.Symbol

namespace OptGrammar

/-- A rule lets its body stand in the place of its head. -/
structure Rule where
  head : Symbol
  body : List Symbol
  deriving DecidableEq

namespace Rule

/-- Whether the rule derives nothing. -/
def isEmpty (r : Rule) : Bool := r.body.isEmpty

/-- The symbols of a rule, head first. -/
def symbols (r : Rule) : List Symbol := r.head :: r.body

/-- The names of a rule, head first. -/
def names (r : Rule) : List Text := r.symbols.map Symbol.name

/-- The names of a rule, head first, joined by single spaces. -/
def line (r : Rule) : Text := Text.unwords (r.symbols.map Symbol.name)

/-- The rule whose names are the words of a line; a line without a word has no head. -/
def ofLine? (t : Text) : Option Rule :=
  match Text.words t with
  | [] => none
  | head :: body => some ⟨⟨head⟩, body.map Symbol.mk⟩

/-- The text that stands for an empty body. -/
def emptyBody : Text := ['ε']

/-- A rule for a reader: its head, an arrow and its body. -/
def summary (r : Rule) : Text :=
  r.head.name ++ " ->".toList ++
    if r.isEmpty then ' ' :: emptyBody else r.body.flatMap fun s => ' ' :: s.name

theorem names_injective {r r' : Rule} (h : r.names = r'.names) : r = r' := by
  obtain ⟨head, body⟩ := r
  obtain ⟨head', body'⟩ := r'
  have := (List.map_inj_right fun _ _ => Symbol.ext).1 h
  obtain ⟨rfl, rfl⟩ := List.cons.inj this
  rfl

theorem ofLine?_eq_some_iff {t : Text} {r : Rule} :
    ofLine? t = some r ↔ Text.words t = r.names := by
  rw [ofLine?]
  cases Text.words t with
  | nil => simp [names, symbols]
  | cons head body =>
    constructor
    · intro h
      cases h
      simp [names, symbols, Function.comp_def]
    · intro h
      refine congrArg some (names_injective ?_)
      rw [← h]
      simp [names, symbols, Function.comp_def]

theorem ofLine?_eq_none_iff {t : Text} : ofLine? t = none ↔ Text.words t = [] := by
  rw [ofLine?]
  cases Text.words t <;> simp

/-- **A rule is found in its line** exactly if all its names are words. -/
theorem words_line_iff {r : Rule} :
    Text.words r.line = r.names ↔ ∀ s ∈ r.symbols, Text.IsWord s.name := by
  constructor
  · intro h s hs
    have hmem : s.name ∈ r.names := List.mem_map_of_mem hs
    rw [← h] at hmem
    exact Text.mem_words hmem
  · intro h
    refine Text.words_unwords fun w hw => ?_
    obtain ⟨s, hs, rfl⟩ := List.mem_map.1 hw
    exact h s hs

end Rule

/-- The two rules that an optional symbol stands for: it derives nothing, and it derives
    its base.  Any other symbol stands for no rules. -/
def Symbol.expansion (s : Symbol) : List Rule :=
  match s.base? with
  | none => []
  | some b => [⟨s, []⟩, ⟨s, [b]⟩]

/-- The rules that symbols stand for, written out by the bases of the optional ones. -/
theorem Symbol.flatMap_expansion (symbols : List Symbol) : symbols.flatMap expansion =
    (symbols.filterMap base?).flatMap fun b => [⟨b.optional, []⟩, ⟨b.optional, [b]⟩] := by
  induction symbols with
  | nil => rfl
  | cons s symbols ih =>
    rw [List.flatMap_cons, ih, expansion]
    cases hbase : s.base? with
    | none => rw [List.filterMap_cons_none hbase, List.nil_append]
    | some b =>
      rw [List.filterMap_cons_some hbase, List.flatMap_cons, base?_eq_some_iff.1 hbase]

theorem Symbol.mem_expansion_iff {s b : Symbol} {r : Rule} (h : s.base? = some b) :
    r ∈ s.expansion ↔ r = ⟨s, []⟩ ∨ r = ⟨s, [b]⟩ := by
  rw [expansion, h]
  simp

theorem Symbol.mem_expansion {s b : Symbol} {body : List Symbol} (h : s.base? = some b)
    (hbody : body = [] ∨ body = [b]) : ⟨s, body⟩ ∈ s.expansion := by
  rw [mem_expansion_iff h]
  rcases hbody with rfl | rfl
  · exact .inl rfl
  · exact .inr rfl

end OptGrammar
