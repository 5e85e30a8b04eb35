/-
  Grammars with optional symbols — grammars.

  A grammar lists its terminals, its nonterminals and its rules, each in an order of its
  own that belongs to the grammar, and names the symbol that derivations start from.
-/
import OptGrammar.Rule
import OptGrammar.Text.Count

namespace OptGrammar

/-- A context-free grammar with every rule written out. -/
structure Grammar where
  terminals : List Symbol
  nonterminals : List Symbol
  entrypoint : Symbol
  rules : List Rule
  deriving DecidableEq

namespace Grammar

/-- The names of a list of symbols under a title, with their number. -/
def summaryRow (title : String) (symbols : List Symbol) : Text :=
  title.toList ++ " (".toList ++ Count.digits symbols.length ++ "): ".toList ++
    Text.unwords (symbols.map Symbol.name)

/-- A grammar for a reader, one row for each part and one for each rule. -/
def summary (g : Grammar) : Text :=
  Text.unlines <|
    ["Entrypoint: ".toList ++ g.entrypoint.name,
      summaryRow "Terminals" g.terminals,
      summaryRow "Nonterminals" g.nonterminals,
      "Rules (".toList ++ Count.digits g.rules.length ++ "):".toList] ++
    g.rules.map fun r => "  ".toList ++ r.summary

end Grammar

end OptGrammar
