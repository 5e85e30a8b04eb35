/-
  Grammars with optional symbols — what is logged.

  An event is logged when it happens, so that the log of a pass that fails ends where
  the pass did.  The wording of an event is in `Event.message` alone.
-/
import OptGrammar.Symbol

namespace OptGrammar

/-- How much an event matters. -/
inductive Level
  | debug
  | info
  | warn
  deriving DecidableEq

/-- The title of a role in a message. -/
def Role.title : Role → String
  | .terminal => "Terminal"
  | .nonterminal => "NonTerminal"

/-- What happens while a grammar is put together. -/
inductive Event
  /-- A symbol got its role. -/
  | classified (symbol : Symbol) (role : Role)
  /-- An optional symbol was seen for the first time. -/
  | foundOptional (symbol : Symbol)
  /-- A terminal without a name was declared. -/
  | emptyTerminal
  /-- A nonterminal was declared as a terminal, in vain. -/
  | refusedTerminal (symbol : Symbol)
  /-- A header names a terminal. -/
  | headerOnTerminal (symbol : Symbol)
  /-- All declared terminals were read. -/
  | readTerminals (count : Nat)
  /-- The grammar is complete. -/
  | built (terminals nonterminals written synthesized : Nat)
  deriving DecidableEq

namespace Event

def level : Event → Level
  | .classified .. | .foundOptional _ | .readTerminals _ => .debug
  | .emptyTerminal | .refusedTerminal _ | .headerOnTerminal _ => .warn
  | .built .. => .info

def message : Event → String
  | .classified symbol role =>
    let name := String.ofList symbol.name
    let title := role.title
    s!"Classified '{name}' as {title}"
  | .foundOptional symbol =>
    let name := String.ofList symbol.name
    s!"Found optional symbol '{name}'"
  | .emptyTerminal => "Declared a terminal with an empty name"
  | .refusedTerminal symbol =>
    let name := String.ofList symbol.name
    s!"'{name}' is already a nonterminal and cannot become a terminal"
  | .headerOnTerminal symbol =>
    let name := String.ofList symbol.name
    s!"Header '{name}' names a declared terminal; it stays a terminal"
  | .readTerminals count => s!"Read {count} terminals"
  | .built terminals nonterminals written synthesized =>
    s!"Built grammar with {terminals} terminals, {nonterminals} nonterminals, " ++
      s!"{written} user rules and {synthesized} synthesized rules"

/-- The symbol that got a role, and that role. -/
def classified? : Event → Option (Symbol × Role)
  | .classified symbol role => some (symbol, role)
  | _ => none

/-- The optional symbol that was found. -/
def foundOptional? : Event → Option Symbol
  | .foundOptional symbol => some symbol
  | _ => none

end Event

end OptGrammar
