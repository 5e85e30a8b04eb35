/-
  Grammars with optional symbols — the shorthand that grammars are written in.

  A source starts with the number of terminals and one terminal on each line.  Then
  come its rules.  Of every line only the trimmed text counts:

  * an empty line and a line that starts with `#` say nothing;
  * a line that ends with `:` is a header, and its name is all before that one colon;
  * the words of any other line are the body of a rule for the header before it.

  A source is read into calls on a draft.  Reading stops at the first fault, and the
  calls before it are kept, because they are logged.
-/
import OptGrammar.Cursor
import OptGrammar.Draft

namespace OptGrammar.Shorthand

/-! ## Lines of the rule section -/

/-- What a line of the rule section says. -/
inductive Line
  | silent
  | header (name : Text)
  | body (words : List Text)
  deriving DecidableEq

/-- What a text says as a line of the rule section. -/
def Line.ofText (t : Text) : Line :=
  let t := Text.trim t
  if t.isEmpty || t.head? == some '#' then .silent
  else if t.getLast? == some ':' then .header t.dropLast
  else .body (Text.words t)

/-- The calls that the lines of a rule section make up to the first fault, and that
    fault.  The rules belong to `head` until there is a header, and `number` lines
    come before. -/
def steps (head : Option Symbol) (number : Nat) : List Bytes → List Draft.Step × Option Fault
  | [] => ([], none)
  | raw :: rest =>
    match Utf8.decode raw with
    | none => ([], some (.stream .notUtf8))
    | some text =>
      match Line.ofText text with
      | .silent => steps head (number + 1) rest
      | .header name =>
        let (more, fault) := steps (some ⟨name⟩) (number + 1) rest
        (.header ⟨name⟩ :: more, fault)
      | .body words =>
        match head with
        | none => ([], some (.missingHeader (number + 1) (Text.trim text)))
        | some h =>
          let (more, fault) := steps head (number + 1) rest
          (.rule ⟨h, words.map Symbol.mk⟩ :: more, fault)

/-! ## A whole source -/

/-- The terminals that a source declares. -/
def terminals : Reading (List Symbol) := do
  let n ← Reading.count .terminal
  return (← Reading.entries .terminal n).map fun line => ⟨Text.trim line⟩

/-- The draft with some terminals declared. -/
def declare (symbols : List Symbol) : Draft :=
  (symbols.foldl Draft.terminal .empty).emit (.readTerminals symbols.length)

/-- What a source has come to when it is read to its end or to its first fault. -/
structure Pass where
  draft : Draft
  fault : Option Fault

/-- Read a source.  No terminal is declared before all of them have been read. -/
def pass (bs : Bytes) : Pass :=
  match terminals.run (.ofBytes bs) with
  | (.error e, _) => ⟨.empty, some e⟩
  | (.ok symbols, c) =>
    let (calls, fault) := steps none c.number c.rest
    ⟨(declare symbols).run calls, fault⟩

end OptGrammar.Shorthand
