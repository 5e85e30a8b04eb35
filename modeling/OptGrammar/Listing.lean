/-
  Grammars with optional symbols — the listing of a grammar.

  A listing has no labels; the order of its lines and the counts are all there is:

  * the number of terminals, then one terminal on each line;
  * the number of nonterminals, then one nonterminal on each line;
  * the symbol to start from;
  * the number of rules, then the names of one rule on each line, head first.

  `render` writes a listing and `read` reads one.  Names are read as they stand, while
  rule lines are read by their words.  A rule line without a word is a fault, but only
  when all rule lines have been read.  What follows the last rule line is not looked at.
-/
import OptGrammar.Cursor
import OptGrammar.Grammar

namespace OptGrammar.Listing

/-! ## Writing -/

/-- The lines of a counted list of symbols. -/
def symbolLines (symbols : List Symbol) : List Text :=
  Count.digits symbols.length :: symbols.map Symbol.name

/-- The lines of a counted list of rules. -/
def ruleLines (rules : List Rule) : List Text :=
  Count.digits rules.length :: rules.map Rule.line

/-- The lines of a listing. -/
def lines (g : Grammar) : List Text :=
  symbolLines g.terminals ++ symbolLines g.nonterminals ++ g.entrypoint.name ::
    ruleLines g.rules

/-- The listing of a grammar. -/
def render (g : Grammar) : Text := Text.unlines (lines g)

/-- The listing of a grammar as raw bytes. -/
def bytes (g : Grammar) : Bytes := Utf8.encode (render g)

/-! ## Reading -/

/-- The names on the lines of a counted section. -/
def symbols (part : Section) : Reading (List Symbol) := do
  let n ← Reading.count part
  return (← Reading.entries part n).map Symbol.mk

/-- The line of the symbol to start from. -/
def startSymbol : Reading Symbol := do
  match ← Reading.nextLine with
  | none => Reading.fail (.truncated .startSymbol 1 0)
  | some line => return ⟨line⟩

/-- The rules on lines of which the first has the given number. -/
def rulesFrom (number : Nat) : List Text → Except Fault (List Rule)
  | [] => .ok []
  | line :: rest =>
    match Rule.ofLine? line with
    | none => .error (.emptyRule number)
    | some rule => (rulesFrom (number + 1) rest).map (rule :: ·)

/-- The rules on the lines of the last section. -/
def rules : Reading (List Rule) := do
  let n ← Reading.count .rule
  let first := (← Reading.lineNumber) + 1
  match rulesFrom first (← Reading.entries .rule n) with
  | .error e => Reading.fail e
  | .ok rules => return rules

/-- The reader of a listing. -/
def reader : Reading Grammar := do
  let terminals ← symbols .terminal
  let nonterminals ← symbols .nonterminal
  let entrypoint ← startSymbol
  return { terminals, nonterminals, entrypoint, rules := ← rules }

/-- The grammar listed in raw bytes. -/
def read (bs : Bytes) : Except Fault Grammar := reader.ofBytes bs

end OptGrammar.Listing
