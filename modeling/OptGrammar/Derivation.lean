/-
  Grammars with optional symbols — what rules derive.

  * `Produces`: one occurrence of a symbol is replaced by the body of a rule.
  * `Derives`: any number of such replacements.
  * `Rule.readings`: the rules that a rule stands for when every optional symbol in its
    body is left out, replaced by its base or kept.
-/
import OptGrammar.Rule

namespace OptGrammar

/-- The second row of symbols arises from the first by one use of a rule. -/
def Produces (rules : List Rule) (u v : List Symbol) : Prop :=
  ∃ r ∈ rules, ∃ before after, u = before ++ r.head :: after ∧ v = before ++ r.body ++ after

/-- The second row of symbols arises from the first by uses of rules. -/
inductive Derives (rules : List Rule) : List Symbol → List Symbol → Prop
  | refl (u : List Symbol) : Derives rules u u
  | tail {u v w : List Symbol} : Derives rules u v → Produces rules v w → Derives rules u w

/-- The ways to read one symbol of a body. -/
def Symbol.readings (s : Symbol) : List (List Symbol) :=
  match s.base? with
  | none => [[s]]
  | some b => [[], [b], [s]]

/-- The ways to read a body, each symbol on its own. -/
def bodyReadings : List Symbol → List (List Symbol)
  | [] => [[]]
  | s :: rest => s.readings.flatMap fun r => (bodyReadings rest).map (r ++ ·)

/-- The rules that a rule stands for. -/
def Rule.readings (r : Rule) : List Rule := (bodyReadings r.body).map (Rule.mk r.head)

end OptGrammar
