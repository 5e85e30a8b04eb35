/-
  Grammars with optional symbols — writing to a sink that may run full.

  * `Sink`: holds the bytes that it took, up to its capacity, and takes an offer in
    portions of its own choice.
  * `Sink.pour`: offers bytes until all are taken or the sink takes no more.
  * `Outlet`: collects small pieces in front of a sink and pours when it is full.
  * `Outlet.send`: writes pieces and then what is still pending.

  Main statement: `pour_eq`, a sink holds as many of the bytes poured as fit and leaves
  the others, whatever its portions are.
-/
import OptGrammar.Text.Utf8

namespace OptGrammar

/-- A place that takes bytes. -/
structure Sink where
  /-- How many bytes it takes in all. -/
  capacity : Nat
  /-- How many bytes it would take at once, by the bytes that it holds, of an offer of that
      many. -/
  portion : Bytes → Nat → Nat
  /-- The bytes taken. -/
  held : Bytes

namespace Sink

/-- A sink with a capacity that takes what it can. -/
def ofCapacity (n : Nat) : Sink := ⟨n, fun _ => id, []⟩

/-- How many more bytes a sink takes. -/
def room (s : Sink) : Nat := s.capacity - s.held.length

/-- How many bytes a sink takes at once of an offer: at least one, unless it is full or
    nothing is offered. -/
def taken (s : Sink) (offered : Nat) : Nat :=
  min (max 1 (s.portion s.held offered)) (min offered s.room)

/-- Offer bytes again and again; what is left is what the sink refused. -/
def pour (s : Sink) (bs : Bytes) : Sink × Bytes :=
  if _h : s.taken bs.length = 0 then (s, bs)
  else pour { s with held := s.held ++ bs.take (s.taken bs.length) } (bs.drop (s.taken bs.length))
termination_by bs.length
decreasing_by
  have : s.taken bs.length ≤ bs.length := by simp only [taken]; omega
  simp only [List.length_drop]
  omega

theorem taken_eq_zero_iff {s : Sink} {n : Nat} : s.taken n = 0 ↔ n = 0 ∨ s.room = 0 := by
  simp only [taken]
  omega

/-- **A sink holds the bytes poured that fit, and leaves the others.** -/
theorem pour_eq (s : Sink) (bs : Bytes) :
    s.pour bs = ({ s with held := s.held ++ bs.take s.room }, bs.drop s.room) := by
  fun_induction pour s bs with
  | case1 s bs h =>
    rcases taken_eq_zero_iff.1 h with h | h
    · simp [List.length_eq_zero_iff.1 h]
    · simp [h]
  | case2 s bs h ih =>
    have hle : s.taken bs.length ≤ s.room := by simp only [taken]; omega
    have hlen : s.taken bs.length ≤ bs.length := by simp only [taken]; omega
    rw [ih]
    generalize s.taken bs.length = k at hle hlen
    have hroom : room { s with held := s.held ++ bs.take k } = s.room - k := by
      simp only [room, List.length_append, List.length_take, Nat.min_eq_left hlen]
      omega
    rw [hroom, List.append_assoc, List.drop_drop, Nat.add_sub_cancel' hle]
    have : bs.take k ++ (bs.drop k).take (s.room - k) = bs.take s.room := by
      rw [← List.take_add, Nat.add_sub_cancel' hle]
    rw [this]

end Sink

/-! ## An outlet -/

/-- Pieces pending in front of a sink; `size` of them are collected at most. -/
structure Outlet where
  size : Nat
  pending : Bytes
  sink : Sink

namespace Outlet

/-- An outlet of the usual size with nothing pending. -/
def ofSink (s : Sink) : Outlet := ⟨8192, [], s⟩

/-- Pour bytes past what is pending.  If the sink refuses some, only the sink is left. -/
def pour (o : Outlet) (bs : Bytes) : Except Sink Outlet :=
  match o.sink.pour bs with
  | (sink, []) => .ok { o with sink }
  | (sink, _) => .error sink

/-- Pour what is pending. -/
def flush (o : Outlet) : Except Sink Outlet := { o with pending := [] }.pour o.pending

/-- Let a piece wait with what is pending. -/
def keep (o : Outlet) (piece : Bytes) : Outlet := { o with pending := o.pending ++ piece }

/-- Write a piece.  It waits if there is place for it, if need be after what is pending
    was poured, and a piece that is too large to wait is poured at once. -/
def write (o : Outlet) (piece : Bytes) : Except Sink Outlet :=
  if o.pending.length + piece.length < o.size then .ok (o.keep piece)
  else do
    let o ← if o.size < o.pending.length + piece.length then o.flush else .ok o
    if piece.length < o.size then .ok (o.keep piece) else o.pour piece

/-- Write pieces in order and pour all that is pending then. -/
def send (o : Outlet) (pieces : List Bytes) : Except Sink Sink := do
  let o ← pieces.foldlM write o
  return (← o.flush).sink

end Outlet

end OptGrammar
