/-
  Grammars with optional symbols — putting a grammar together.

  A draft is what is known of a grammar so far.  Every call adds to it at the end, so
  that the order of each list is the order in which things were first met:

  * `terminal` and `header` declare a symbol, `rule` adds a rule and `startAt` sets the
    symbol to start from;
  * a call touches symbols, and the first touch of a symbol fixes its role for good: the
    head of a rule and the symbol to start from are not touched;
  * an optional symbol is noted when it is a header or stands in a body, whatever its role;
  * `finish` makes the grammar, with the rules that the optional symbols noted stand for.

  `Step` and `run` give the same calls as data.

  Main statements: `role?_classify`, only a symbol without a role gets one;
  `Faithful.run`, the log names the roles given and the optional symbols noted, in order.
-/
import OptGrammar.Event
import OptGrammar.Grammar

namespace OptGrammar

/-- A grammar under way. -/
structure Draft where
  /-- The role of every symbol touched, in the order of the first touch. -/
  roles : List (Symbol × Role)
  /-- The rules added, in order. -/
  rules : List Rule
  /-- The optional symbols noted, in order. -/
  optionals : List Symbol
  /-- The symbol to start from. -/
  entrypoint : Symbol
  /-- What has happened, in order. -/
  log : List Event
  deriving DecidableEq

namespace Draft

/-- The symbol that a grammar starts from unless told otherwise. -/
def defaultEntrypoint : Symbol := ⟨['G', 'o', 'a', 'l']⟩

/-- The draft that nothing was added to. -/
def empty : Draft := ⟨[], [], [], defaultEntrypoint, []⟩

/-- The role of a symbol, if it has one yet. -/
def role? (d : Draft) (s : Symbol) : Option Role := d.roles.lookup s

/-- The symbols with a role, in order. -/
def symbolsWith (d : Draft) (r : Role) : List Symbol :=
  (d.roles.filter fun p => p.2 = r).map Prod.fst

/-! ## Calls -/

/-- Log an event. -/
def emit (d : Draft) (e : Event) : Draft := { d with log := d.log ++ [e] }

/-- Give a symbol a role unless it has one. -/
def classify (d : Draft) (s : Symbol) (r : Role) : Draft :=
  match d.role? s with
  | some _ => d
  | none => { d with roles := d.roles ++ [(s, r)] }.emit (.classified s r)

/-- Note a symbol if it is optional and not noted yet. -/
def note (d : Draft) (s : Symbol) : Draft :=
  if s.isOptional && !d.optionals.contains s then
    { d with optionals := d.optionals ++ [s] }.emit (.foundOptional s)
  else d

/-- Declare a terminal. -/
def terminal (d : Draft) (s : Symbol) : Draft :=
  let named := if s.name.isEmpty then d.emit .emptyTerminal else d
  let d := named.classify s .terminal
  if d.role? s = some .terminal then d else d.emit (.refusedTerminal s)

/-- Declare a header. -/
def header (d : Draft) (s : Symbol) : Draft :=
  let d := d.classify s .nonterminal
  (if d.role? s = some .terminal then d.emit (.headerOnTerminal s) else d).note s

/-- Meet a symbol in a body. -/
def meet (d : Draft) (s : Symbol) : Draft := (d.classify s .nonterminal).note s

/-- Add a rule. -/
def rule (d : Draft) (r : Rule) : Draft :=
  let d := r.body.foldl meet d
  { d with rules := d.rules ++ [r] }

/-- Set the symbol to start from. -/
def startAt (d : Draft) (s : Symbol) : Draft := { d with entrypoint := s }

/-! ## The finished grammar -/

/-- The rules that the optional symbols noted stand for. -/
def synthesized (d : Draft) : List Rule := d.optionals.flatMap Symbol.expansion

/-- The grammar that a draft is of. -/
def finish (d : Draft) : Grammar where
  terminals := d.symbolsWith .terminal
  nonterminals := d.symbolsWith .nonterminal
  entrypoint := d.entrypoint
  rules := d.rules ++ d.synthesized

/-- The event of finishing a draft. -/
def finished (d : Draft) : Event :=
  .built (d.symbolsWith .terminal).length (d.symbolsWith .nonterminal).length d.rules.length
    d.synthesized.length

/-! ## Calls as data -/

/-- A call on a draft. -/
inductive Step
  | terminal (symbol : Symbol)
  | header (symbol : Symbol)
  | rule (rule : Rule)
  | startAt (symbol : Symbol)
  deriving DecidableEq

/-- Make one call. -/
def apply (d : Draft) : Step → Draft
  | .terminal s => d.terminal s
  | .header s => d.header s
  | .rule r => d.rule r
  | .startAt s => d.startAt s

/-- Make calls in order. -/
def run (d : Draft) (steps : List Step) : Draft := steps.foldl apply d

@[simp]
theorem run_nil (d : Draft) : d.run [] = d := rfl

@[simp]
theorem run_cons (d : Draft) (step : Step) (steps : List Step) :
    d.run (step :: steps) = (d.apply step).run steps := rfl

theorem run_append (d : Draft) (steps more : List Step) :
    d.run (steps ++ more) = (d.run steps).run more := List.foldl_append ..

/-! ## Roles -/

/-- **Only a symbol without a role gets one.** -/
theorem role?_classify (d : Draft) (s : Symbol) (r : Role) (s' : Symbol) :
    (d.classify s r).role? s' = (d.role? s').or ([(s, r)].lookup s') := by
  rw [classify]
  split
  · rename_i r₀ h
    by_cases hs : s' = s
    · subst hs
      rw [h, Option.some_or]
    · rw [List.lookup_cons, beq_false_of_ne hs, List.lookup_nil, Option.or_none]
  · exact List.lookup_append

theorem role?_note (d : Draft) (s s' : Symbol) : (d.note s).role? s' = d.role? s' := by
  rw [note]
  split <;> rfl

/-! ## The log -/

/-- The log of a draft names the roles given and the optional symbols noted, in order. -/
structure Faithful (d : Draft) : Prop where
  roles : d.log.filterMap Event.classified? = d.roles
  optionals : d.log.filterMap Event.foundOptional? = d.optionals

namespace Faithful

variable {d : Draft}

theorem empty : Draft.empty.Faithful := ⟨rfl, rfl⟩

/-- An event that names neither may be logged at any time. -/
theorem emit (h : d.Faithful) {e : Event} (hc : e.classified? = none)
    (ho : e.foundOptional? = none) : (d.emit e).Faithful :=
  ⟨by simp [Draft.emit, hc, h.roles], by simp [Draft.emit, ho, h.optionals]⟩

theorem classify (h : d.Faithful) (s : Symbol) (r : Role) : (d.classify s r).Faithful := by
  rw [Draft.classify]
  split
  · exact h
  · exact ⟨by simp [Draft.emit, Event.classified?, h.roles],
      by simp [Draft.emit, Event.foundOptional?, h.optionals]⟩

theorem note (h : d.Faithful) (s : Symbol) : (d.note s).Faithful := by
  rw [Draft.note]
  split
  · exact ⟨by simp [Draft.emit, Event.classified?, h.roles],
      by simp [Draft.emit, Event.foundOptional?, h.optionals]⟩
  · exact h

theorem terminal (h : d.Faithful) (s : Symbol) : (d.terminal s).Faithful := by
  have h₁ : (if s.name.isEmpty then d.emit .emptyTerminal else d).Faithful := by
    split
    · exact h.emit rfl rfl
    · exact h
  rw [Draft.terminal]
  generalize (if s.name.isEmpty then d.emit .emptyTerminal else d) = named at h₁ ⊢
  split
  · exact h₁.classify s .terminal
  · exact (h₁.classify s .terminal).emit rfl rfl

theorem header (h : d.Faithful) (s : Symbol) : (d.header s).Faithful := by
  simp only [Draft.header]
  split
  · exact ((h.classify s .nonterminal).emit rfl rfl).note s
  · exact (h.classify s .nonterminal).note s

theorem rule (h : d.Faithful) (r : Rule) : (d.rule r).Faithful := by
  have hbody : (r.body.foldl Draft.meet d).Faithful := by
    generalize r.body = body
    induction body generalizing d with
    | nil => exact h
    | cons s body ih => exact ih ((h.classify s .nonterminal).note s)
  exact ⟨hbody.roles, hbody.optionals⟩

theorem apply (h : d.Faithful) (step : Step) : (d.apply step).Faithful := by
  cases step with
  | terminal s => exact h.terminal s
  | header s => exact h.header s
  | rule r => exact h.rule r
  | startAt s => exact ⟨h.roles, h.optionals⟩

/-- **Calls keep the log faithful.** -/
theorem run (h : d.Faithful) (steps : List Step) : (d.run steps).Faithful := by
  induction steps generalizing d with
  | nil => exact h
  | cons step steps ih => exact ih (h.apply step)

end Faithful

end Draft

end OptGrammar
