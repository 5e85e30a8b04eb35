/-
  Grammars with optional symbols — what a sink holds in the end.

  An outlet passes on what it is given, in order: whatever its size and the portions of its
  sink are, the sink is filled with the pieces sent as if they were poured at once.

  Main statements: `Outlet.send_eq`, sending fills a sink and succeeds exactly if there is
  room; `expandInto_eq`, an expansion writes the listing of its grammar; `expandInto_of_capacity`,
  what an expansion comes to, and what is written, when the sink may run full.
-/
import OptGrammar.Expansion

namespace OptGrammar

namespace Sink

/-- A sink after bytes were offered to it: those that fit are held. -/
def fill (s : Sink) (bs : Bytes) : Sink := { s with held := s.held ++ bs.take s.room }

variable {s : Sink} {bs cs : Bytes}

theorem fill_nil (s : Sink) : s.fill [] = s := by simp [fill]

theorem fill_of_le (h : bs.length ≤ s.room) : s.fill bs = { s with held := s.held ++ bs } := by
  rw [fill, List.take_of_length_le h]

theorem room_fill (h : bs.length ≤ s.room) : (s.fill bs).room = s.room - bs.length := by
  rw [fill_of_le h]
  simp only [room, List.length_append]
  omega

theorem fill_fill (h : bs.length ≤ s.room) : (s.fill bs).fill cs = s.fill (bs ++ cs) := by
  rw [fill, room_fill h, fill_of_le h, fill, List.take_append, List.take_of_length_le h,
    List.append_assoc]

/-- What comes after more than fits changes nothing. -/
theorem fill_append_of_lt (h : s.room < bs.length) : s.fill (bs ++ cs) = s.fill bs := by
  rw [fill, fill, List.take_append_of_le_length (Nat.le_of_lt h)]

end Sink

namespace Outlet

variable {o o' : Outlet} {s : Sink} {bs piece : Bytes}

theorem pour_eq (o : Outlet) (bs : Bytes) : o.pour bs =
    if bs.length ≤ o.sink.room then .ok { o with sink := o.sink.fill bs }
    else .error (o.sink.fill bs) := by
  rw [pour, Sink.pour_eq]
  by_cases h : bs.length ≤ o.sink.room
  · rw [if_pos h, List.drop_of_length_le h]
    rfl
  · rw [if_neg h]
    cases hd : bs.drop o.sink.room with
    | nil => exact absurd (List.drop_eq_nil_iff.1 hd) h
    | cons b rest => rfl

theorem pour_ok (h : o.pour bs = .ok o') :
    bs.length ≤ o.sink.room ∧ o' = { o with sink := o.sink.fill bs } := by
  rw [pour_eq] at h
  split at h
  · rename_i hle
    cases h
    exact ⟨hle, rfl⟩
  · cases h

theorem pour_error (h : o.pour bs = .error s) :
    o.sink.room < bs.length ∧ s = o.sink.fill bs := by
  rw [pour_eq] at h
  split at h
  · cases h
  · rename_i hlt
    cases h
    exact ⟨by omega, rfl⟩

/-- What a write leaves: of what was pending and the piece, a part has been poured and the
    rest is pending. -/
def Wrote (o : Outlet) (piece : Bytes) : Except Sink Outlet → Prop
  | .ok o' => ∃ poured, poured ++ o'.pending = o.pending ++ piece ∧
      poured.length ≤ o.sink.room ∧ o'.sink = o.sink.fill poured
  | .error s => o.sink.room < (o.pending ++ piece).length ∧ s = o.sink.fill (o.pending ++ piece)

theorem wrote_keep (o : Outlet) (piece : Bytes) : o.Wrote piece (.ok (o.keep piece)) :=
  ⟨[], rfl, Nat.zero_le _, (Sink.fill_nil _).symm⟩

theorem wrote_pour (h : o.pending = []) : o.Wrote piece (o.pour piece) := by
  cases hp : o.pour piece with
  | ok o' =>
    obtain ⟨hle, rfl⟩ := pour_ok hp
    exact ⟨piece, by simp [h], hle, rfl⟩
  | error s =>
    obtain ⟨hlt, rfl⟩ := pour_error hp
    exact ⟨by simpa [h] using hlt, by simp [h]⟩

/-- What is wrote after a flush is wrote without it. -/
theorem Wrote.of_flush {r : Except Sink Outlet} (h : o.flush = .ok o') (hr : o'.Wrote piece r) :
    o.Wrote piece r := by
  obtain ⟨hle, rfl⟩ := pour_ok h
  dsimp only at hle
  cases r with
  | ok o₁ =>
    obtain ⟨poured, happend, hroom, hsink⟩ := hr
    dsimp only at happend hroom hsink
    rw [Sink.room_fill hle] at hroom
    refine ⟨o.pending ++ poured, ?_, ?_, ?_⟩
    · rw [List.append_assoc, happend, List.nil_append]
    · rw [List.length_append]
      omega
    · rw [hsink, Sink.fill_fill hle]
  | error s =>
    obtain ⟨hlt, rfl⟩ := hr
    dsimp only [List.nil_append] at hlt ⊢
    rw [Sink.room_fill hle] at hlt
    refine ⟨?_, Sink.fill_fill hle⟩
    rw [List.length_append]
    omega

/-- **A write loses nothing and keeps the order.** -/
theorem wrote_write (o : Outlet) (piece : Bytes) : o.Wrote piece (o.write piece) := by
  have hplace (o : Outlet) (h : ¬ piece.length < o.size → o.pending = []) :
      o.Wrote piece (if piece.length < o.size then .ok (o.keep piece) else o.pour piece) := by
    split
    · exact wrote_keep o piece
    · rename_i hlarge
      exact wrote_pour (h hlarge)
  rw [write]
  split
  · exact wrote_keep o piece
  · rename_i hfull
    split
    · cases hf : o.flush with
      | ok o' =>
        have := pour_ok hf
        exact Wrote.of_flush hf (hplace o' fun _ => by rw [this.2])
      | error s =>
        obtain ⟨hlt, rfl⟩ := pour_error hf
        dsimp only at hlt
        refine ⟨?_, (Sink.fill_append_of_lt hlt).symm⟩
        rw [List.length_append]
        omega
    · refine hplace o fun hlarge => List.length_eq_zero_iff.1 ?_
      omega

/-- **Sending fills the sink**, and it succeeds exactly if there is room for all. -/
theorem send_eq (o : Outlet) (pieces : List Bytes) : o.send pieces =
    if (o.pending ++ pieces.flatten).length ≤ o.sink.room then
      .ok (o.sink.fill (o.pending ++ pieces.flatten))
    else .error (o.sink.fill (o.pending ++ pieces.flatten)) := by
  induction pieces generalizing o with
  | nil =>
    have : o.send [] = o.flush.map Outlet.sink := by
      rw [send, List.foldlM_nil, pure_bind]
      cases o.flush <;> rfl
    rw [this, flush, pour_eq, List.flatten_nil, List.append_nil]
    dsimp only
    split <;> rfl
  | cons piece pieces ih =>
    have hsend : o.send (piece :: pieces) = (o.write piece).bind fun o => o.send pieces := by
      rw [send, List.foldlM_cons]
      cases o.write piece <;> rfl
    have hwrote := wrote_write o piece
    rw [hsend, List.flatten_cons, ← List.append_assoc]
    cases hw : o.write piece with
    | ok o' =>
      rw [hw] at hwrote
      obtain ⟨poured, happend, hroom, hsink⟩ := hwrote
      rw [Except.bind, ih, hsink, Sink.room_fill hroom, Sink.fill_fill hroom, ← happend,
        ← List.append_assoc]
      refine ite_congr (propext ?_) (fun _ => rfl) fun _ => rfl
      simp only [List.length_append]
      omega
    | error s =>
      rw [hw] at hwrote
      obtain ⟨hlt, rfl⟩ := hwrote
      rw [if_neg (by rw [List.length_append]; omega), Sink.fill_append_of_lt hlt]
      rfl

end Outlet

/-! ## Listings -/

theorem Listing.flatten_pieces (g : Grammar) : (Listing.pieces g).flatten = Listing.bytes g := by
  rw [Listing.pieces, Listing.bytes, Listing.render, Text.unlines]
  induction Listing.lines g with
  | nil => rfl
  | cons line lines ih =>
    rw [List.flatMap_cons, List.flatten_append, ih, List.flatMap_cons, Utf8.encode_append]
    simp
    rfl

theorem Listing.writeTo_eq (g : Grammar) (sink : Sink) : Listing.writeTo g sink =
    if (Listing.bytes g).length ≤ sink.room then (.ok (), sink.fill (Listing.bytes g))
    else (.error .sinkFull, sink.fill (Listing.bytes g)) := by
  rw [Listing.writeTo, Outlet.send_eq, Outlet.ofSink, List.nil_append, Listing.flatten_pieces]
  dsimp only
  by_cases h : (Listing.bytes g).length ≤ sink.room
  · rw [if_pos h, if_pos h]
  · rw [if_neg h, if_neg h]

/-- **An expansion writes the listing of its grammar.** -/
theorem expandInto_eq {source : Bytes} {g : Grammar} (h : (expand source).result = .ok g)
    (sink : Sink) : expandInto source sink =
      if (Listing.bytes g).length ≤ sink.room then (.ok g, sink.fill (Listing.bytes g))
      else (.error (.stream .sinkFull), sink.fill (Listing.bytes g)) := by
  rw [expandInto, h]
  dsimp only
  rw [Listing.writeTo_eq]
  by_cases h : (Listing.bytes g).length ≤ sink.room
  · rw [if_pos h, if_pos h]
  · rw [if_neg h, if_neg h]

/-- An expansion that succeeds has read its source and found room. -/
theorem expandInto_ok {source : Bytes} {g : Grammar} {sink sink' : Sink}
    (h : expandInto source sink = (.ok g, sink')) :
    (expand source).result = .ok g ∧ sink'.held = sink.held ++ Listing.bytes g := by
  cases hr : (expand source).result with
  | error fault => simp [expandInto, hr] at h
  | ok g' =>
    rw [expandInto_eq hr] at h
    split at h
    · rename_i hroom
      cases h
      exact ⟨rfl, by rw [Sink.fill_of_le hroom]⟩
    · cases h

/-- **A sink that runs full is told.**  A source that is refused leaves nothing in the sink.  Any
    other is expanded exactly if its listing fits, and all of the listing is held then; if it does
    not fit, this is the fault, and the sink holds a part of the listing from its start on, but
    not all of it. -/
theorem expandInto_of_capacity (source : Bytes) (n : Nat) (portion : Bytes → Nat → Nat) :
    (∀ fault, (expand source).result = .error fault →
      expandInto source ⟨n, portion, []⟩ = (.error fault, ⟨n, portion, []⟩)) ∧
    ∀ g, (expand source).result = .ok g →
      ∃ result held, expandInto source ⟨n, portion, []⟩ = (result, ⟨n, portion, held⟩) ∧
        (result = .ok g ↔ (Listing.bytes g).length ≤ n) ∧
        (result = .ok g → held = Listing.bytes g) ∧
        (result ≠ .ok g → result = .error (.stream .sinkFull) ∧
          held <+: Listing.bytes g ∧ held ≠ Listing.bytes g) := by
  refine ⟨?_, ?_⟩
  · intro fault hfault
    rw [expandInto, hfault]
  · intro g hg
    have hinto := expandInto_eq hg ⟨n, portion, []⟩
    have hroom : Sink.room ⟨n, portion, []⟩ = n := Nat.sub_zero n
    have hfill : Sink.fill ⟨n, portion, []⟩ (Listing.bytes g) =
        ⟨n, portion, (Listing.bytes g).take n⟩ := by
      rw [Sink.fill, hroom, List.nil_append]
    rw [hroom, hfill] at hinto
    by_cases hfits : (Listing.bytes g).length ≤ n
    · rw [if_pos hfits, List.take_of_length_le hfits] at hinto
      exact ⟨_, _, hinto, by simp [hfits], fun _ => rfl, fun h => absurd rfl h⟩
    · rw [if_neg hfits] at hinto
      refine ⟨_, _, hinto, by simp [hfits], ?_, fun _ => ⟨rfl, List.take_prefix n _, ?_⟩⟩
      · intro h
        cases h
      · intro hall
        have hlength := congrArg List.length hall
        rw [List.length_take] at hlength
        omega

end OptGrammar
