/-
  Grammars with optional symbols — what can go wrong.

  * `Section`: the counted parts of a text.
  * `StreamFault`: a file or a stream fails.
  * `Fault`: a text is refused, or the stream that holds it fails.
  * `PathFault`: a fault together with the path of the file it happened in.

  A fault says what it met and where; its wording is in the `message` functions alone.
  Line numbers start at one.
-/
import OptGrammar.Text.Blank

namespace OptGrammar

/-- The counted parts of a text. -/
inductive Section
  | terminal
  | nonterminal
  | startSymbol
  | rule
  deriving DecidableEq

/-- The title of a part in a message. -/
def Section.title : Section → String
  | .terminal => "terminal"
  | .nonterminal => "nonterminal"
  | .startSymbol => "start symbol"
  | .rule => "rule"

/-- A failure of a stream or of the file store behind it. -/
inductive StreamFault
  /-- A line that was read is not UTF-8. -/
  | notUtf8
  /-- A sink takes no more bytes. -/
  | sinkFull
  /-- A path holds the character with number zero. -/
  | nulInPath
  | noSuchEntry
  | alreadyExists
  | notDirectory
  | isDirectory
  | nameTooLong
  /-- Any other failure, in the words of the system. -/
  | other (message : String)
  deriving DecidableEq

def StreamFault.message : StreamFault → String
  | .notUtf8 => "stream did not contain valid UTF-8"
  | .sinkFull => "sink is full"
  | .nulInPath => "file name contained an unexpected NUL byte"
  | .noSuchEntry => "No such file or directory (os error 2)"
  | .alreadyExists => "File exists (os error 17)"
  | .notDirectory => "Not a directory (os error 20)"
  | .isDirectory => "Is a directory (os error 21)"
  | .nameTooLong => "File name too long (os error 36)"
  | .other message => message

/-- Why a text was refused. -/
inductive Fault
  /-- A rule body stands before any header; `content` is its line, trimmed. -/
  | missingHeader (line : Nat) (content : Text)
  /-- The text ends where the count of a section was expected. -/
  | missingCount (part : Section)
  /-- A count line holds no count; `content` is that line, trimmed. -/
  | invalidCount (line : Nat) (content : Text)
  /-- The text ends within a section, `found` of its entries being there. -/
  | truncated (part : Section) (announced found : Nat)
  /-- A rule line holds no symbol. -/
  | emptyRule (line : Nat)
  /-- The stream itself failed. -/
  | stream (cause : StreamFault)
  deriving DecidableEq

def Fault.message : Fault → String
  | .missingHeader line content =>
    let content := String.ofList content
    s!"line {line}: a nonterminal header was expected before this rule line: '{content}'"
  | .missingCount part =>
    let title := part.title
    s!"the input ended where the number of {title} entries was expected"
  | .invalidCount line content =>
    let content := String.ofList content
    s!"line {line}: expected a non-negative count but found '{content}'"
  | .truncated part announced found =>
    let title := part.title
    s!"the {title} section announced {announced} entries but the input ended after {found}"
  | .emptyRule line => s!"line {line}: a rule must start with its head symbol"
  | .stream cause => cause.message

/-- A fault and the path of the file it happened in, as the path was given. -/
structure PathFault where
  path : Text
  fault : Fault
  deriving DecidableEq

def PathFault.message (f : PathFault) : String :=
  String.ofList f.path ++ ": " ++ f.fault.message

end OptGrammar
