/-
  Grammars with optional symbols — what a store holds at a path.

  A file that is written is at the location that its path leads to, and only that location
  changes.  Writing does not change where a path leads, because the names in front of the last
  one lead through directories, which are never written over.

  * `Store.Leads`: one name leads from a location to another.
  * `Store.target`: the location that a file is written at.

  Main statements: `write_eq`, writing puts the bytes there; `read?_put`, they are then read at
  the same path.
-/
import OptGrammar.Job

namespace OptGrammar

theorem exists_of_bind_eq_ok {ε α β : Type} {x : Except ε α} {f : α → Except ε β} {b : β}
    (h : (x >>= f) = .ok b) : ∃ a, x = .ok a ∧ f a = .ok b := by
  cases x with
  | error e => cases h
  | ok a => exact ⟨a, rfl, h⟩

namespace Store

variable {s : Store} {l l' l₁ : Location} {name p : Text} {names : List Text} {content : Bytes}

/-- The entry put last at a location counts. -/
theorem put_put (s : Store) (l : Location) (e e' : Entry) : (s.put l e).put l e' = s.put l e' := by
  simp [put, List.filter_filter]

/-! ## Ways -/

/-- **One name leads from a location to another**: to itself, up, or down to an entry. -/
inductive Leads (s : Store) (l : Location) : Text → Location → Prop
  | here : Leads s l Path.here l
  | above : Leads s l Path.above l.parent
  | down {name : Text} : name ≠ Path.here → name ≠ Path.above → Path.isTooLong name = false →
      s.find? (l.child name) ≠ none → Leads s l name (l.child name)

/-- A way starts in a directory, and its first name leads to where the others start. -/
theorem walk_cons_iff : s.walk l (name :: names) = .ok l₁ ↔
    s.find? l = some .directory ∧ ∃ l', s.Leads l name l' ∧ s.walk l' names = .ok l₁ := by
  rw [walk]
  constructor
  · intro h
    split at h
    · cases h
    · rename_i hdir
      refine ⟨Decidable.not_not.1 hdir, ?_⟩
      split at h
      · rename_i hname
        exact ⟨l, hname ▸ .here, h⟩
      · rename_i hhere
        split at h
        · rename_i hname
          exact ⟨l.parent, hname ▸ .above, h⟩
        · rename_i habove
          split at h
          · cases h
          · rename_i hlong
            split at h
            · cases h
            · rename_i hthere
              exact ⟨_, .down hhere habove (by simpa using hlong) hthere, h⟩
  · rintro ⟨hdir, l', hname, h⟩
    rw [if_neg (Decidable.not_not.2 hdir)]
    cases hname with
    | here => rwa [if_pos rfl]
    | above => rwa [if_neg (by decide), if_pos rfl]
    | down hhere habove hlong hthere =>
      rwa [if_neg hhere, if_neg habove, if_neg (by simp [hlong]), if_neg hthere]

/-- A way goes on where its first part leads. -/
theorem walk_append {more : List Text} (h : s.walk l names = .ok l')
    (hmore : s.walk l' more = .ok l₁) : s.walk l (names ++ more) = .ok l₁ := by
  induction names generalizing l with
  | nil =>
    cases h
    exact hmore
  | cons name names ih =>
    obtain ⟨hdir, l₂, hname, h⟩ := walk_cons_iff.1 h
    exact walk_cons_iff.2 ⟨hdir, l₂, hname, ih h⟩

/-- **A way stays the same** when a file is put where no directory is. -/
theorem walk_put (hl : l.names ≠ []) (hfile : s.find? l ≠ some .directory) {l₀ : Location}
    (h : s.walk l₀ names = .ok l₁) : (s.put l (.file content)).walk l₀ names = .ok l₁ := by
  have hfind := s.find?_put hl (.file content)
  induction names generalizing l₀ with
  | nil => exact h
  | cons name names ih =>
    obtain ⟨hdir, l₂, hname, h⟩ := walk_cons_iff.1 h
    have hne : l₀ ≠ l := by
      rintro rfl
      exact hfile hdir
    refine walk_cons_iff.2 ⟨by rw [hfind, if_neg hne, hdir], l₂, ?_, ih h⟩
    cases hname with
    | here => exact .here
    | above => exact .above
    | down hhere habove hlong hthere =>
      refine .down hhere habove hlong ?_
      rw [hfind]
      split
      · simp
      · exact hthere

/-! ## Writing -/

/-- The location that a file is written at. -/
def target (s : Store) (p : Text) : Except StreamFault Location := do
  match ← s.place p with
  | (_, none) => throw .isDirectory
  | (dir, some name) =>
    if Path.endsInSlash p then throw .isDirectory
    if Path.isTooLong name then throw .nameTooLong
    if s.find? (dir.child name) = some .directory then throw .isDirectory
    return dir.child name

/-- **A file is written at the location that its path leads to.** -/
theorem write_eq (s : Store) (p : Text) (content : Bytes) :
    s.write p content = (s.target p).map fun l => s.put l (.file content) := by
  rw [write, target]
  cases s.place p with
  | error cause => rfl
  | ok place =>
    obtain ⟨dir, name⟩ := place
    cases name with
    | none => rfl
    | some name =>
      simp only [bind, Except.bind]
      split
      · rfl
      · split
        · rfl
        · split
          · rfl
          · rfl

theorem place_eq_ok {dir : Location} {last : Option Text} (h : s.place p = .ok (dir, last)) :
    Path.fault? p = none ∧ s.walk (.start p) (Path.names p).dropLast = .ok dir ∧
      s.find? dir = some .directory ∧
      last = (Path.names p).getLast?.filter fun name => name ≠ Path.here && name ≠ Path.above := by
  rw [place] at h
  cases hfault : Path.fault? p with
  | some fault =>
    rw [hfault] at h
    cases h
  | none =>
    rw [hfault] at h
    obtain ⟨dir', hwalk, h⟩ := exists_of_bind_eq_ok h
    dsimp only at h
    split at h
    · cases h
    · rename_i hdir
      cases h
      exact ⟨rfl, hwalk, Decidable.not_not.1 hdir, rfl⟩

/-- **A path to a file**: its names but the last lead to a directory, and the last is no way to
    go on and not that of a directory there. -/
structure LeadsToFile (s : Store) (p : Text) (dir : Location) (name : Text) : Prop where
  sound : Path.fault? p = none
  slash : Path.endsInSlash p = false
  way : s.walk (.start p) (Path.names p).dropLast = .ok dir
  last : (Path.names p).getLast? = some name
  directory : s.find? dir = some .directory
  here : name ≠ Path.here
  above : name ≠ Path.above
  short : Path.isTooLong name = false
  file : s.find? (dir.child name) ≠ some .directory

theorem leadsToFile_of_target (h : s.target p = .ok l) :
    ∃ dir name, s.LeadsToFile p dir name ∧ l = dir.child name := by
  obtain ⟨⟨dir, last⟩, hplace, h⟩ := exists_of_bind_eq_ok h
  obtain ⟨hfault, hwalk, hdir, hlast⟩ := place_eq_ok hplace
  cases last with
  | none => cases h
  | some name =>
    dsimp only at h
    split at h
    · cases h
    · rename_i hslash
      split at h
      · cases h
      · rename_i hlong
        split at h
        · cases h
        · rename_i hfile
          cases h
          obtain ⟨hname, hgo⟩ := Option.filter_eq_some_iff.1 hlast.symm
          rw [Bool.and_eq_true, decide_eq_true_iff, decide_eq_true_iff] at hgo
          exact ⟨dir, name, ⟨hfault, by simpa using hslash, hwalk, hname, hdir, hgo.1, hgo.2,
            by simpa using hlong, hfile⟩, rfl⟩

theorem names_ne_nil_of_target (h : s.target p = .ok l) : l.names ≠ [] := by
  obtain ⟨dir, name, -, rfl⟩ := leadsToFile_of_target h
  exact dir.child_names_ne_nil name

/-- **The bytes written are read** at the same path. -/
theorem read?_put (h : s.target p = .ok l) (content : Bytes) :
    (s.put l (.file content)).read? p = .ok content := by
  obtain ⟨dir, name, hp, rfl⟩ := leadsToFile_of_target h
  have hchild := dir.child_names_ne_nil name
  have hfind := s.find?_put hchild (.file content)
  have hdir : (s.put (dir.child name) (.file content)).find? dir = some .directory := by
    have hne : dir ≠ dir.child name := fun he => hp.file (he ▸ hp.directory)
    rw [hfind, if_neg hne, hp.directory]
  have hthere : (s.put (dir.child name) (.file content)).find? (dir.child name) =
      some (.file content) := by
    rw [hfind, if_pos rfl]
  have hway : (s.put (dir.child name) (.file content)).walk (.start p) (Path.names p) =
      .ok (dir.child name) := by
    obtain ⟨names, hnames⟩ := List.getLast?_eq_some_iff.1 hp.last
    have hfront := hp.way
    rw [hnames, List.dropLast_concat] at hfront
    rw [hnames]
    refine walk_append (walk_put hchild hp.file hfront) (walk_cons_iff.2 ⟨hdir, _, ?_, rfl⟩)
    exact .down hp.here hp.above hp.short (by simp [hthere])
  rw [read?, hp.sound, hway]
  simp only [bind, Except.bind, hthere, hp.slash]
  rfl

end Store

end OptGrammar
