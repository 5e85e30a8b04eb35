/-
  Grammars with optional symbols — the two tools and their command lines.

  * `Tool`: one tool expands a source into a file, the other prints a listing for a
    reader.
  * `Tool.parse`: what the arguments of a tool ask for.
  * `Outcome`: exit code and texts of a run.
  * `Tool.run`: a run on a store.

  Arguments are looked at from left to right, and the first one that settles the matter
  does: an option that asks for the version or for help, or one that does not belong.
-/
import OptGrammar.Job

namespace OptGrammar

/-- The tools. -/
inductive Tool
  | expander
  | printer
  deriving DecidableEq

/-- What the arguments of a tool ask for. -/
inductive Invocation
  | work (paths : List Text)
  | version
  | help
  | misuse
  deriving DecidableEq

/-- Exit code and texts of a run; `errors` holds one message for each entry. -/
structure Outcome where
  exit : Nat
  output : String
  errors : List String

namespace Tool

def name : Tool → String
  | .expander => "expand-cfgx"
  | .printer => "cfg-dump"

/-- The paths that a tool works on. -/
def operands : Tool → List String
  | .expander => ["INPUT_FILE", "OUTPUT_FILE"]
  | .printer => ["GRAMMAR"]

/-- How to call a tool. -/
def usage (t : Tool) : String := " ".intercalate ("Usage:" :: t.name :: t.operands)

/-- The text that names the version of both tools. -/
def versionText : String := "cfgx-expand 0.1.0\n"

/-- The option after which every argument is a path. -/
def endOfOptions : Text := ['-', '-']

/-- What an option asks for.  Of several letters after one dash the first decides. -/
def option (arg : Text) : Invocation :=
  if arg = "--version".toList then .version
  else if arg = "--help".toList then .help
  else match arg with
    | '-' :: 'V' :: _ => .version
    | '-' :: 'h' :: _ => .help
    | _ => .misuse

/-- Whether an argument is an option; a dash alone is a path. -/
def isOption (arg : Text) : Bool := arg.head? == some '-' && arg.length != 1

/-- What given paths ask for. -/
def work (t : Tool) (paths : List Text) : Invocation :=
  if paths.length = t.operands.length && !paths.contains [] then .work paths else .misuse

/-- What arguments ask for after the paths given. -/
def parseAfter (t : Tool) (paths : List Text) : List Text → Invocation
  | [] => t.work paths
  | arg :: rest =>
    if arg = endOfOptions then t.work (paths ++ rest)
    else if isOption arg then option arg
    else if arg.isEmpty || paths.length = t.operands.length then .misuse
    else t.parseAfter (paths ++ [arg]) rest

/-- What the arguments of a tool ask for. -/
def parse (t : Tool) (args : List Text) : Invocation := t.parseAfter [] args

end Tool

/-! ## Outcomes -/

namespace Outcome

/-- The messages for the warnings in a log. -/
def warnings (log : List Event) : List String :=
  (log.filter fun e => e.level = .warn).map fun e => "WARN: " ++ e.message

/-- A run that failed. -/
def failure (log : List Event) (fault : PathFault) : Outcome :=
  ⟨1, "", warnings log ++ ["error: " ++ fault.message]⟩

/-- A run that expanded a source to a grammar. -/
def expanded (log : List Event) (g : Grammar) : Outcome :=
  let terminals := g.terminals.length
  let nonterminals := g.nonterminals.length
  let rules := g.rules.length
  ⟨0, s!"Outputting new cfg file with {terminals} terminals, {nonterminals} nonterminals, " ++
    s!"and {rules} rules\n", warnings log⟩

/-- A run that read a listing. -/
def printed (g : Grammar) : Outcome := ⟨0, String.ofList g.summary, []⟩

/-- A run with nothing to work on. -/
def idle (t : Tool) : Invocation → Outcome
  | .version => ⟨0, Tool.versionText, []⟩
  | .help => ⟨0, t.usage ++ "\n", []⟩
  | _ => ⟨2, "", [t.usage]⟩

end Outcome

/-- Run a tool on a store. -/
def Tool.run (t : Tool) (args : List Text) (s : Store) : Outcome × Store :=
  match t, t.parse args with
  | .expander, .work [input, output] =>
    match s.expandFile input output with
    | (log, .ok (g, s)) => (.expanded log g, s)
    | (log, .error fault) => (.failure log fault, s)
  | .printer, .work [path] =>
    match s.loadFile path with
    | .ok g => (.printed g, s)
    | .error fault => (.failure [] fault, s)
  | t, invocation => (.idle t invocation, s)

end OptGrammar
