/-
  Grammars with optional symbols — files by path.

  A store is a finite map from locations to files and directories.  The working directory,
  those above it and the root are always there, and nothing in them is known but what the
  store holds.

  * `walk`: follows the names of a path, of which `.` stays and `..` goes up.
  * `read?`: the bytes of a file.
  * `write`: makes a file or replaces its bytes.
  * `makeDirectory`: makes a directory.

  Every operation gives a new store or a fault, so that a store is never changed by half.

  Main statement: `find?_put`, only the location put changes.
-/
import OptGrammar.Path

namespace OptGrammar

/-- A file with its bytes, or a directory. -/
inductive Entry
  | file (content : Bytes)
  | directory
  deriving DecidableEq

/-- Files and directories by location. -/
structure Store where
  entries : List (Location × Entry)
  deriving DecidableEq

namespace Store

/-- The store without entries. -/
def empty : Store := ⟨[]⟩

/-- What is at a location. -/
def find? (s : Store) : Location → Option Entry
  | ⟨_, []⟩ => some .directory
  | l => s.entries.lookup l

/-- The store with an entry at a location in place of what was there. -/
def put (s : Store) (l : Location) (e : Entry) : Store :=
  ⟨(l, e) :: s.entries.filter fun p => p.1 ≠ l⟩

private theorem lookup_filter_ne {l l' : Location} (h : l' ≠ l) (ps : List (Location × Entry)) :
    (ps.filter fun p => p.1 ≠ l).lookup l' = ps.lookup l' := by
  induction ps with
  | nil => rfl
  | cons p ps ih =>
    obtain ⟨l₁, e₁⟩ := p
    by_cases h₁ : l₁ = l
    · subst h₁
      rw [List.filter_cons_of_neg (by simp), ih, List.lookup_cons, beq_false_of_ne h]
    · rw [List.filter_cons_of_pos (by simpa using h₁), List.lookup_cons, List.lookup_cons, ih]

/-- **Only the location put changes.** -/
theorem find?_put (s : Store) {l : Location} (hl : l.names ≠ []) (e : Entry) (l' : Location) :
    (s.put l e).find? l' = if l' = l then some e else s.find? l' := by
  obtain ⟨base, names⟩ := l'
  cases names with
  | nil =>
    have h : (⟨base, []⟩ : Location) ≠ l := fun h => hl (h ▸ rfl)
    rw [if_neg h, find?, find?]
  | cons name rest =>
    simp only [find?, put, List.lookup_cons]
    by_cases h : (⟨base, name :: rest⟩ : Location) = l
    · simp [h]
    · rw [beq_false_of_ne h, if_neg h]
      exact lookup_filter_ne h s.entries

/-- The location that names lead to from a location. -/
def walk (s : Store) (l : Location) : List Text → Except StreamFault Location
  | [] => .ok l
  | name :: rest =>
    if s.find? l ≠ some .directory then .error .notDirectory
    else if name = Path.here then s.walk l rest
    else if name = Path.above then s.walk l.parent rest
    else if Path.isTooLong name then .error .nameTooLong
    else if s.find? (l.child name) = none then .error .noSuchEntry
    else s.walk (l.child name) rest

/-- The bytes of the file at a path.  A directory can be opened, but not read. -/
def read? (s : Store) (p : Text) : Except StreamFault Bytes := do
  if let some fault := Path.fault? p then throw fault
  match s.find? (← s.walk (.start p) (Path.names p)) with
  | some (.file content) => if Path.endsInSlash p then throw .notDirectory else return content
  | some .directory => throw .isDirectory
  | none => throw .noSuchEntry

/-- The directory and the last name of a path to an entry that may not be there yet; no
    name if the path ends in the directory itself. -/
def place (s : Store) (p : Text) : Except StreamFault (Location × Option Text) := do
  if let some fault := Path.fault? p then throw fault
  let names := Path.names p
  let dir ← s.walk (.start p) names.dropLast
  if s.find? dir ≠ some .directory then throw .notDirectory
  return (dir, names.getLast?.filter fun name => name ≠ Path.here && name ≠ Path.above)

/-- Make the file at a path, or replace its bytes. -/
def write (s : Store) (p : Text) (content : Bytes) : Except StreamFault Store := do
  match ← s.place p with
  | (_, none) => throw .isDirectory
  | (dir, some name) =>
    if Path.endsInSlash p then throw .isDirectory
    if Path.isTooLong name then throw .nameTooLong
    if s.find? (dir.child name) = some .directory then throw .isDirectory
    return s.put (dir.child name) (.file content)

/-- Make the directory at a path. -/
def makeDirectory (s : Store) (p : Text) : Except StreamFault Store := do
  match ← s.place p with
  | (_, none) => throw .alreadyExists
  | (dir, some name) =>
    if Path.isTooLong name then throw .nameTooLong
    if s.find? (dir.child name) ≠ none then throw .alreadyExists
    return s.put (dir.child name) .directory

end Store

end OptGrammar
