/-
  Grammars with optional symbols — paths and locations.

  A path is a text in which slashes stand between names.  It is followed from the working
  directory, or from the root if a slash comes first.

  * `Path.names`: the names on a path.
  * `Path.fault?`: what is wrong with a path, wherever it leads.
  * `Location`: a place among the directories: where it is counted from, and the names
    that lead there.  The directories above the working directory have no known names, so
    they are counted; one can go up and up, and only the root is its own parent.
  * `Location.parent`, `Location.child`: one step up and one step down.
-/
import OptGrammar.Fault
import OptGrammar.Text.Utf8

namespace OptGrammar

namespace Path

/-- The names between the slashes of a path that follows `run`, the part of a name
    already passed, backwards. -/
def namesFrom (run : Text) : Text → List Text
  | [] => if run.isEmpty then [] else [run.reverse]
  | c :: rest =>
    if c = '/' then
      if run.isEmpty then namesFrom [] rest else run.reverse :: namesFrom [] rest
    else namesFrom (c :: run) rest

/-- The names on a path; several slashes are as good as one. -/
def names (p : Text) : List Text := namesFrom [] p

/-- Whether a path is followed from the root. -/
def startsAtRoot (p : Text) : Bool := p.head? == some '/'

/-- Whether a path can only lead to a directory. -/
def endsInSlash (p : Text) : Bool := p.getLast? == some '/'

/-- The most bytes of a path. -/
def longestPath : Nat := 4095

/-- The most bytes of a name. -/
def longestName : Nat := 255

/-- What is wrong with a path, whatever the store holds. -/
def fault? (p : Text) : Option StreamFault :=
  if p.contains '\x00' then some .nulInPath
  else if p.isEmpty then some .noSuchEntry
  else if longestPath < (Utf8.encode p).length then some .nameTooLong
  else none

/-- Whether a name is too long for any entry. -/
def isTooLong (name : Text) : Bool := longestName < (Utf8.encode name).length

/-- The name of the directory itself. -/
def here : Text := ['.']

/-- The name of the directory above. -/
def above : Text := ['.', '.']

end Path

/-! ## Locations -/

/-- Where the names of a location are counted from. -/
inductive Base
  /-- The directory that many levels above the working directory. -/
  | above (levels : Nat)
  /-- The root of all directories. -/
  | root
  deriving DecidableEq

/-- The parent of the directory that names are counted from. -/
def Base.parent : Base → Base
  | .above levels => .above (levels + 1)
  | .root => .root

/-- A place among the directories. -/
structure Location where
  base : Base
  /-- The names that lead from the base to the place. -/
  names : List Text
  deriving DecidableEq

namespace Location

/-- The working directory. -/
def working : Location := ⟨.above 0, []⟩

/-- The root of all directories. -/
def root : Location := ⟨.root, []⟩

/-- The location that a path is followed from. -/
def start (p : Text) : Location := if Path.startsAtRoot p then root else working

/-- The location of a name in a directory. -/
def child (l : Location) (name : Text) : Location := ⟨l.base, l.names ++ [name]⟩

/-- The location of the directory above. -/
def parent (l : Location) : Location :=
  if l.names = [] then ⟨l.base.parent, []⟩ else ⟨l.base, l.names.dropLast⟩

theorem child_names_ne_nil (l : Location) (name : Text) : (l.child name).names ≠ [] := by
  simp [child]

end Location

end OptGrammar
