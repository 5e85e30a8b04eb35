/-
  Grammars with optional symbols — work on files, step by step.

  A job opens, reads, makes and writes files one after the other, and what a step has changed
  stays changed when a later one fails.  A file is made only when everything that may fail is
  behind the job, and so a job that fails has changed nothing, wherever its paths lead.

  * `Action`: steps on a store, of which those before a fault count.
  * `Job.act`: a job as the steps that it takes.
  * `Turn`, `Store.turns`: jobs done one after the other.

  Main statements: `act_run`, the steps of a job come to what the job comes to;
  `atomic_turns`, which changes the jobs of any run make and which faults they end in.
-/
import OptGrammar.Proofs.Files
import OptGrammar.Proofs.Writing

namespace OptGrammar

/-! ## Steps -/

/-- Steps on a store: they make a value or a fault, and a new store in either case. -/
structure Action (α : Type) where
  run : Store → Except PathFault α × Store

namespace Action

variable {α β : Type}

instance : Monad Action where
  pure a := ⟨fun s => (.ok a, s)⟩
  bind x f := ⟨fun s =>
    match x.run s with
    | (.ok a, s) => (f a).run s
    | (.error e, s) => (.error e, s)⟩

/-- Stop with a fault. -/
def fail (e : PathFault) : Action α := ⟨fun s => (.error e, s)⟩

/-- A step that has to do with a path; it changes nothing if it fails. -/
def step (path : Text) (f : Store → Except StreamFault (α × Store)) : Action α where
  run s :=
    match f s with
    | .ok (a, s) => (.ok a, s)
    | .error cause => (.error ⟨path, .stream cause⟩, s)

/-- Open a file and read it. -/
def read (path : Text) : Action Bytes := step path fun s => (s.read? path).map fun bytes => (bytes, s)

/-- Make a file, or take the bytes from the one that is there. -/
def create (path : Text) : Action Location :=
  step path fun s => (s.target path).map fun l => (l, s.put l (.file []))

/-- Make a directory. -/
def makeDirectory (path : Text) : Action Unit :=
  step path fun s => (s.makeDirectory path).map fun s => ((), s)

/-- Write a piece at the end of a file that is open. -/
def append (l : Location) (piece : Bytes) : Action Unit where
  run s :=
    match s.find? l with
    | some (.file content) => (.ok (), s.put l (.file (content ++ piece)))
    | _ => (.ok (), s.put l (.file piece))

/-- Write pieces one after the other. -/
def appendAll (l : Location) : List Bytes → Action Unit
  | [] => pure ()
  | piece :: rest => do
    append l piece
    appendAll l rest

/-- Make a file and write pieces to it. -/
def save (path : Text) (pieces : List Bytes) : Action Unit := do
  let l ← create path
  appendAll l pieces

@[simp]
theorem run_pure (a : α) (s : Store) : (pure a : Action α).run s = (.ok a, s) := rfl

@[simp]
theorem run_fail (e : PathFault) (s : Store) : (fail e : Action α).run s = (.error e, s) := rfl

theorem run_bind (x : Action α) (f : α → Action β) (s : Store) :
    (x >>= f).run s =
      match x.run s with
      | (.ok a, s) => (f a).run s
      | (.error e, s) => (.error e, s) := rfl

theorem run_step (path : Text) (f : Store → Except StreamFault (α × Store)) (s : Store) :
    (step path f).run s =
      match f s with
      | .ok (a, s) => (.ok a, s)
      | .error cause => (.error ⟨path, .stream cause⟩, s) := rfl

/-- Pieces written to a file stand in it one after the other. -/
theorem run_appendAll {l : Location} (hl : l.names ≠ []) (pieces : List Bytes) (s : Store)
    (content : Bytes) : (appendAll l pieces).run (s.put l (.file content)) =
      (.ok (), s.put l (.file (content ++ pieces.flatten))) := by
  induction pieces generalizing content with
  | nil => simp [appendAll]
  | cons piece pieces ih =>
    have hpiece : (append l piece).run (s.put l (.file content)) =
        (.ok (), s.put l (.file (content ++ piece))) := by
      simp [append, s.find?_put hl, Store.put_put]
    rw [appendAll, run_bind, hpiece]
    dsimp only
    rw [ih, List.flatten_cons, List.append_assoc]

/-- **A file that is made and written to piece by piece** holds all the pieces. -/
theorem run_save (path : Text) (pieces : List Bytes) (s : Store) : (save path pieces).run s =
    match s.write path pieces.flatten with
    | .ok s => (.ok (), s)
    | .error cause => (.error ⟨path, .stream cause⟩, s) := by
  rw [save, run_bind, create, run_step, Store.write_eq]
  cases h : s.target path with
  | error cause => rfl
  | ok l => exact run_appendAll (Store.names_ne_nil_of_target h) pieces s []

end Action

/-! ## Jobs -/

/-- The steps of a job.  All of a source is read before the file for its listing is made. -/
def Job.act : Job → Action (Option Grammar)
  | .write path content => do
    Action.save path [content]
    return none
  | .makeDirectory path => do
    Action.makeDirectory path
    return none
  | .expand input output => do
    let bytes ← Action.read input
    match (OptGrammar.expand bytes).result with
    | .error fault => Action.fail ⟨input, fault⟩
    | .ok g => do
      Action.save output (Listing.pieces g)
      return some g
  | .load path => do
    let bytes ← Action.read path
    match Listing.read bytes with
    | .error fault => Action.fail ⟨path, fault⟩
    | .ok g => return some g
  | .save path g => do
    Action.save path (Listing.pieces g)
    return some g

namespace Job

variable {s : Store} {input output : Text}

/-- What expanding a file comes to: the source is read and expanded before the other file is
    made. -/
theorem run_expand (s : Store) (input output : Text) : (expand input output).run s =
    match s.read? input with
    | .error cause => (s, .error ⟨input, .stream cause⟩)
    | .ok bytes =>
      match (OptGrammar.expand bytes).result with
      | .error fault => (s, .error ⟨input, fault⟩)
      | .ok g =>
        match s.target output with
        | .error cause => (s, .error ⟨output, .stream cause⟩)
        | .ok l => (s.put l (.file (Listing.bytes g)), .ok (some g)) := by
  rw [run, attempt, Store.expandFile, Store.expandSource]
  cases s.read? input with
  | error cause => rfl
  | ok bytes =>
    dsimp only
    cases (OptGrammar.expand bytes).result with
    | error fault => rfl
    | ok g =>
      simp only [bind, Except.bind, Store.saveFile, Store.write_eq]
      cases s.target output <;> rfl

section

variable {s' : Store}

/-- **A source that was expanded into a file** was read before, and only that file is changed. -/
theorem expand_ok {made : Option Grammar}
    (h : (expand input output).run s = (s', .ok made)) : ∃ bytes g l,
      s.read? input = .ok bytes ∧ (OptGrammar.expand bytes).result = .ok g ∧ made = some g ∧
      s.target output = .ok l ∧
      (∀ l', s'.find? l' = if l' = l then some (.file (Listing.bytes g)) else s.find? l') ∧
      s'.read? output = .ok (Listing.bytes g) := by
  rw [run_expand] at h
  cases hread : s.read? input with
  | error cause => simp [hread] at h
  | ok bytes =>
    cases hresult : (OptGrammar.expand bytes).result with
    | error fault => simp [hread, hresult] at h
    | ok g =>
      cases htarget : s.target output with
      | error cause => simp [hread, hresult, htarget] at h
      | ok l =>
        simp only [hread, hresult, htarget, Prod.mk.injEq, Except.ok.injEq] at h
        obtain ⟨rfl, rfl⟩ := h
        exact ⟨bytes, g, l, rfl, hresult, rfl, rfl,
          s.find?_put (Store.names_ne_nil_of_target htarget) _, Store.read?_put htarget _⟩

/-- A source that was expanded, but could not be written, is a fault at the other path. -/
theorem path_of_expand_error {bytes : Bytes} {g : Grammar} {fault : PathFault}
    (h : (expand input output).run s = (s', .error fault)) (hread : s.read? input = .ok bytes)
    (hresult : (OptGrammar.expand bytes).result = .ok g) : fault.path = output := by
  rw [run_expand, hread] at h
  simp only [hresult] at h
  cases htarget : s.target output with
  | error cause =>
    simp only [htarget, Prod.mk.injEq, Except.error.injEq] at h
    rw [← h.2]
  | ok l => simp [htarget] at h

end

/-- **The steps of a job come to what the job comes to**: nothing is changed on the way to a
    fault. -/
theorem act_run (job : Job) (s : Store) : job.act.run s = ((job.run s).2, (job.run s).1) := by
  cases job with
  | write path content =>
    rw [act, Action.run_bind, Action.run_save, run, attempt, List.flatten_singleton]
    cases s.write path content <;> rfl
  | makeDirectory path =>
    rw [act, Action.run_bind, Action.makeDirectory, Action.run_step, run, attempt]
    cases s.makeDirectory path <;> rfl
  | expand input output =>
    rw [act, Action.run_bind, Action.read, Action.run_step, run_expand]
    cases s.read? input with
    | error cause => rfl
    | ok bytes =>
      simp only [Except.map]
      cases hresult : (OptGrammar.expand bytes).result with
      | error fault => rfl
      | ok g =>
        simp only [Action.run_bind, Action.run_save, Listing.flatten_pieces, Store.write_eq]
        cases s.target output <;> rfl
  | load path =>
    rw [act, Action.run_bind, Action.read, Action.run_step, run, attempt, Store.loadFile]
    cases s.read? path with
    | error cause => rfl
    | ok bytes =>
      simp only [Except.map, Store.faultAt, bind, Except.bind]
      cases Listing.read bytes <;> rfl
  | save path g =>
    rw [act, Action.run_bind, Action.run_save, Listing.flatten_pieces, run, attempt, Store.saveFile]
    cases s.write path (Listing.bytes g) <;> rfl

/-- A job that fails leaves the store alone. -/
theorem run_of_error {job : Job} {fault : PathFault} (h : (job.run s).2 = .error fault) :
    (job.run s).1 = s := by
  rw [run] at h ⊢
  split
  · rename_i hattempt
    rw [hattempt] at h
    cases h
  · rfl

/-- Loading leaves the store alone. -/
theorem run_load (s : Store) (path : Text) : ((load path).run s).1 = s := by
  rw [run, attempt]
  cases s.loadFile path <;> rfl

end Job

/-! ## Runs -/

/-- A job that was done, with the store before it, what it came to and the store after it. -/
structure Turn where
  before : Store
  job : Job
  result : Except PathFault (Option Grammar)
  after : Store

/-- Jobs done one after the other, each step by step on the store that the job before it left. -/
def Store.turns (s : Store) : List Job → List Turn
  | [] => []
  | job :: rest =>
    let (result, after) := job.act.run s
    ⟨s, job, result, after⟩ :: after.turns rest

namespace Store

variable {jobs : List Job} {t : Turn}

theorem map_job_turns (s : Store) (jobs : List Job) : (s.turns jobs).map Turn.job = jobs := by
  induction jobs generalizing s with
  | nil => rfl
  | cons job jobs ih => rw [turns, List.map_cons, ih]

/-- Every turn of a run is its job, done on the store before it. -/
theorem run_of_mem_turns {s : Store} (h : t ∈ s.turns jobs) :
    t.job.run t.before = (t.after, t.result) := by
  induction jobs generalizing s with
  | nil => cases h
  | cons job jobs ih =>
    rw [turns, Job.act_run] at h
    rcases List.mem_cons.1 h with rfl | h
    · rfl
    · exact ih h

/-- **Work that fails changes nothing.**  In every run of jobs, done step by step, a job that
    ends in a fault leaves the store as it was, and so does loading.  A source that is expanded
    into another file changes that file alone, which holds the listing of the grammar of the source
    as it was before.  If the source cannot be read or is refused, the fault is at its path,
    and otherwise at the path of the other file. -/
theorem atomic_turns (s : Store) (jobs : List Job) :
    (s.turns jobs).map Turn.job = jobs ∧
    ∀ t ∈ s.turns jobs,
      t.job.run t.before = (t.after, t.result) ∧
      (∀ fault, t.result = .error fault → t.after = t.before) ∧
      (∀ path, t.job = .load path → t.after = t.before) ∧
      ∀ input output, t.job = .expand input output →
        (∀ made, t.result = .ok made → ∃ bytes g l,
          t.before.read? input = .ok bytes ∧ (expand bytes).result = .ok g ∧ made = some g ∧
          t.before.target output = .ok l ∧
          (∀ l', t.after.find? l' =
            if l' = l then some (.file (Listing.bytes g)) else t.before.find? l') ∧
          t.after.read? output = .ok (Listing.bytes g)) ∧
        (∀ cause, t.before.read? input = .error cause →
          t.result = .error ⟨input, .stream cause⟩) ∧
        (∀ bytes, t.before.read? input = .ok bytes →
          (∀ fault, (expand bytes).result = .error fault → t.result = .error ⟨input, fault⟩) ∧
          ∀ g fault, (expand bytes).result = .ok g → t.result = .error fault →
            fault.path = output) := by
  refine ⟨map_job_turns s jobs, fun t ht => ?_⟩
  have hrun := run_of_mem_turns ht
  have hafter : (t.job.run t.before).1 = t.after := by rw [hrun]
  have hresult : (t.job.run t.before).2 = t.result := by rw [hrun]
  refine ⟨hrun, ?_, ?_, ?_⟩
  · intro fault hfault
    rw [← hafter]
    exact Job.run_of_error (hresult.trans hfault)
  · intro path hjob
    rw [← hafter, hjob]
    exact Job.run_load t.before path
  · intro input output hjob
    rw [hjob] at hrun
    refine ⟨?_, ?_, ?_⟩
    · rintro made hmade
      rw [hmade] at hrun
      exact Job.expand_ok hrun
    · intro cause hread
      rw [← hresult, hjob, Job.run_expand, hread]
    · intro bytes hread
      refine ⟨?_, ?_⟩
      · intro fault hfault
        rw [← hresult, hjob, Job.run_expand, hread]
        simp only [hfault]
      · intro g fault hg hfault
        rw [hfault] at hrun
        exact Job.path_of_expand_error hrun hread hg

end Store

end OptGrammar
