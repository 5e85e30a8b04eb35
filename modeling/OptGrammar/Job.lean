/-
  Grammars with optional symbols — work on files.

  * `expandFile`: expands the file at one path into the file at another.  The second
    file is made or replaced only when the first has been expanded.
  * `loadFile`: reads the listing in a file.
  * `saveFile`: writes the listing of a grammar to a file.
  * `Job` and `Job.run`: the work as data, with plain writes and new directories.

  A fault names the path of the file it happened in, and work that ends in a fault
  leaves the store alone.
-/
import OptGrammar.Expansion
import OptGrammar.Store

namespace OptGrammar

namespace Store

/-- A failure of the store on the way to a path. -/
def faultAt {α : Type} (path : Text) : Except StreamFault α → Except PathFault α
  | .ok a => .ok a
  | .error cause => .error ⟨path, .stream cause⟩

/-- Read the listing in a file. -/
def loadFile (s : Store) (path : Text) : Except PathFault Grammar := do
  let bytes ← faultAt path (s.read? path)
  match Listing.read bytes with
  | .ok g => return g
  | .error fault => throw ⟨path, fault⟩

/-- Write the listing of a grammar to a file. -/
def saveFile (s : Store) (path : Text) (g : Grammar) : Except PathFault Store :=
  faultAt path (s.write path (Listing.bytes g))

/-- The log and the grammar of the source in a file. -/
def expandSource (s : Store) (input : Text) : List Event × Except PathFault Grammar :=
  match s.read? input with
  | .error cause => ([], .error ⟨input, .stream cause⟩)
  | .ok bytes =>
    let x := expand bytes
    (x.log, match x.result with
      | .ok g => .ok g
      | .error fault => .error ⟨input, fault⟩)

/-- Expand the source in a file and write the listing to another. -/
def expandFile (s : Store) (input output : Text) :
    List Event × Except PathFault (Grammar × Store) :=
  let (log, result) := s.expandSource input
  (log, do
    let g ← result
    return (g, ← s.saveFile output g))

end Store

/-! ## Jobs -/

/-- A piece of work on a store. -/
inductive Job
  | write (path : Text) (content : Bytes)
  | makeDirectory (path : Text)
  | expand (input output : Text)
  | load (path : Text)
  | save (path : Text) (grammar : Grammar)
  deriving DecidableEq

/-- The store after a job and the grammar that the job was about. -/
def Job.attempt (s : Store) : Job → Except PathFault (Store × Option Grammar)
  | .write path content => do return (← Store.faultAt path (s.write path content), none)
  | .makeDirectory path => do return (← Store.faultAt path (s.makeDirectory path), none)
  | .expand input output => do
    let (g, s) ← (s.expandFile input output).2
    return (s, some g)
  | .load path => do return (s, some (← s.loadFile path))
  | .save path g => do return (← s.saveFile path g, some g)

/-- Do a job; the store stays as it is if the job fails. -/
def Job.run (s : Store) (job : Job) : Store × Except PathFault (Option Grammar) :=
  match job.attempt s with
  | .ok (s, g) => (s, .ok g)
  | .error fault => (s, .error fault)

end OptGrammar
