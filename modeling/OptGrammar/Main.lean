/-
  Grammars with optional symbols — the program.

  The first argument names the tool and the others are its own.  What the tool decides is
  in `CommandLine`; here only files are read and written and texts printed.
-/
import OptGrammar.CommandLine

namespace OptGrammar

/-- The failure that the system reports. -/
def StreamFault.ofSystem : IO.Error → StreamFault
  | .noFileOrDirectory .. => .noSuchEntry
  | .inappropriateType _ 20 _ => .notDirectory
  | .inappropriateType _ 21 _ => .isDirectory
  | .invalidArgument _ 36 _ => .nameTooLong
  | e => .other e.toString

/-- Work on the file at a path. -/
def onFile {α : Type} (path : Text) (work : String → IO α) : IO (Except PathFault α) :=
  try
    return .ok (← work (String.ofList path))
  catch e =>
    return .error ⟨path, .stream (.ofSystem e)⟩

/-- The bytes of a file. -/
def readFrom (path : Text) : IO (Except PathFault Bytes) :=
  onFile path fun name => do
    return (← IO.FS.withFile name .read fun handle => handle.readBinToEnd).toList

/-- Make a file or replace its bytes. -/
def writeTo (path : Text) (bs : Bytes) : IO (Except PathFault Unit) :=
  onFile path fun name => IO.FS.writeBinFile name ⟨bs.toArray⟩

/-- Expand the source in a file and write the listing to another. -/
def expandPaths (input output : Text) : IO Outcome := do
  match ← readFrom input with
  | .error fault => return .failure [] fault
  | .ok bytes =>
    let x := expand bytes
    match x.result with
    | .error fault => return .failure x.log ⟨input, fault⟩
    | .ok g =>
      match ← writeTo output (Listing.bytes g) with
      | .error fault => return .failure x.log fault
      | .ok _ => return .expanded x.log g

/-- Print the listing in a file for a reader. -/
def printPath (path : Text) : IO Outcome := do
  match ← readFrom path with
  | .error fault => return .failure [] fault
  | .ok bytes =>
    match Listing.read bytes with
    | .error fault => return .failure [] ⟨path, fault⟩
    | .ok g => return .printed g

/-- Run a tool on files. -/
def Tool.runOnFiles (t : Tool) (args : List Text) : IO Outcome :=
  match t, t.parse args with
  | .expander, .work [input, output] => expandPaths input output
  | .printer, .work [path] => printPath path
  | t, invocation => return .idle t invocation

/-- Print the texts of a run. -/
def Outcome.report (o : Outcome) : IO UInt32 := do
  IO.print o.output
  o.errors.forM IO.eprintln
  return o.exit.toUInt32

/-- Run the tool that the first argument names. -/
def runProgram (args : List String) : IO UInt32 := do
  let tools := [Tool.expander, Tool.printer]
  match args with
  | [] => Outcome.report ⟨2, "", tools.map Tool.usage⟩
  | name :: args =>
    match tools.find? fun t => t.name = name with
    | none => Outcome.report ⟨2, "", tools.map Tool.usage⟩
    | some t => (← t.runOnFiles (args.map String.toList)).report

end OptGrammar

def main (args : List String) : IO UInt32 := OptGrammar.runProgram args
