/-
  Grammars with optional symbols — where requests leave the lines of a text.

  Whatever is requested of the lines of a text, and whether it is there or not, the cursor stays
  behind the lines that were handed out, and its number is how many these are.  No line is
  skipped, none is handed out twice, and asking at the end changes nothing.

  * `Request`, `exchanges`: requests made one after the other.
  * `HandsOut`: the lines that the answer to a request is made of.
  * `Cursor.advance`: the cursor some lines further on.

  Main statements: `asked_entries_le`, how often a section asks for a line;
  `exchanges_in_order`, what any requests are answered and where they leave the cursor.
-/
import Mathlib.Data.List.Forall2
import OptGrammar.Proofs.Fault

namespace OptGrammar

/-! ## Cursors -/

/-- The cursor `k` lines further on. -/
def Cursor.advance (c : Cursor) (k : Nat) : Cursor := ⟨c.rest.drop k, c.number + k⟩

namespace Cursor

theorem advance_advance (c : Cursor) (j k : Nat) : (c.advance j).advance k = c.advance (j + k) := by
  simp [advance, Nat.add_assoc]

/-- A cursor is advanced by the lines that were in front of it. -/
theorem eq_advance {c c' : Cursor} {texts : List Text}
    (hrest : c.rest = texts.map Utf8.encode ++ c'.rest)
    (hnumber : c'.number = c.number + texts.length) : c' = c.advance texts.length := by
  obtain ⟨rest, number⟩ := c'
  dsimp only at hrest hnumber
  rw [advance, hnumber, hrest, ← List.length_map (f := Utf8.encode), List.drop_left]

end Cursor

namespace Reading

variable {α β : Type}

/-! ## How often a line is asked for -/

/-- A reader asks as often whatever is made of its value. -/
theorem asked_bind_pure (x : Reading α) (f : α → β) (c : Cursor) :
    (x >>= fun a => pure (f a)).asked c = x.asked c := by
  cases hx : x.run c with
  | mk result c₁ =>
    cases result with
    | ok a => exact asked_bind_of_ok hx _
    | error e => exact asked_bind_of_error hx _

theorem asked_entriesFrom_le (part : Section) (announced missing : Nat) (c : Cursor) :
    (entriesFrom part announced missing).asked c ≤ min missing c.rest.length + 1 := by
  induction missing generalizing c with
  | zero =>
    rw [entriesFrom, asked_pure]
    exact Nat.zero_le _
  | succ missing ih =>
    obtain ⟨lines, number⟩ := c
    rw [entriesFrom]
    cases lines with
    | nil =>
      rw [asked_bind_of_ok (nextLine_nil number), asked_nextLine, asked_fail]
      exact Nat.le_add_left 1 _
    | cons raw rest =>
      cases hd : Utf8.decode raw with
      | none =>
        rw [asked_bind_of_error (nextLine_of_decode_none hd rest number), asked_nextLine]
        exact Nat.le_add_left 1 _
      | some line =>
        have hmore := ih ⟨rest, number + 1⟩
        rw [asked_bind_of_ok (nextLine_of_decode hd rest number), asked_nextLine]
        dsimp only at hmore ⊢
        rw [asked_bind_pure, List.length_cons]
        omega

/-- **A section asks for its lines one by one**, and at most once in vain, however many entries it
    announced. -/
theorem asked_entries_le (part : Section) (n : Nat) (c : Cursor) :
    (entries part n).asked c ≤ min n c.rest.length + 1 :=
  asked_entriesFrom_le part n n c

/-! ## Requests -/

/-- What is requested of the lines of a text. -/
inductive Request
  | line
  | count (part : Section)
  | entries (part : Section) (n : Nat)
  deriving DecidableEq

/-- What a request is answered. -/
inductive Answer
  | line (line : Option Text)
  | count (n : Nat)
  | entries (lines : List Text)
  deriving DecidableEq

/-- The reader that answers a request. -/
def Request.reader : Request → Reading Answer
  | .line => return .line (← nextLine)
  | .count part => return .count (← Reading.count part)
  | .entries part n => return .entries (← Reading.entries part n)

/-- A request that was made, with the cursor before it, what it came to and the cursor behind it. -/
structure Exchange where
  start : Cursor
  request : Request
  result : Except Fault Answer
  stop : Cursor

/-- Whether a request failed on the stream itself. -/
def Exchange.broken (x : Exchange) : Bool :=
  match x.result with
  | .error (.stream _) => true
  | _ => false

/-- Requests made one after the other, each where the one before it left the cursor. -/
def exchanges (c : Cursor) : List Request → List Exchange
  | [] => []
  | request :: rest =>
    let (result, stop) := request.reader.run c
    ⟨c, request, result, stop⟩ :: exchanges stop rest

/-- **The texts that are handed out by a request**, as they show in what it came to.  A line is
    handed out as it is, a count line as the count in it or in the fault, and the lines of a
    section all together; those of a section that is not complete are known by their number. -/
inductive HandsOut : Exchange → List Text → Prop
  | line {start stop text} : HandsOut ⟨start, .line, .ok (.line (some text)), stop⟩ [text]
  | none {start stop} : start.rest = [] → HandsOut ⟨start, .line, .ok (.line none), stop⟩ []
  | count {start stop part text n} : Count.read? (Text.trim text) = some n →
      HandsOut ⟨start, .count part, .ok (.count n), stop⟩ [text]
  | invalid {start stop part text} : Count.read? (Text.trim text) = none →
      HandsOut ⟨start, .count part, .error (.invalidCount stop.number (Text.trim text)), stop⟩ [text]
  | missing {start stop part} : start.rest = [] →
      HandsOut ⟨start, .count part, .error (.missingCount part), stop⟩ []
  | entries {start stop part lines} :
      HandsOut ⟨start, .entries part lines.length, .ok (.entries lines), stop⟩ lines
  | truncated {start stop part n lines} : lines.length < n → stop.rest = [] →
      HandsOut ⟨start, .entries part n, .error (.truncated part n lines.length), stop⟩ lines

/-! ### One request -/

/-- A section that is not complete is read to the end of the text. -/
theorem entriesFrom_run_of_lt {part : Section} {announced missing : Nat} {lines : List Text}
    (h : lines.length < missing) (hle : missing ≤ announced) (k : Nat) :
    (entriesFrom part announced missing).run ⟨lines.map Utf8.encode, k⟩ =
      (.error (.truncated part announced (announced - missing + lines.length)),
        ⟨[], k + lines.length⟩) := by
  induction missing generalizing lines k with
  | zero => exact absurd h (Nat.not_lt_zero _)
  | succ missing ih =>
    rw [entriesFrom, run_bind]
    cases lines with
    | nil => rfl
    | cons line lines =>
      have hmore := ih (Nat.lt_of_succ_lt_succ h) (Nat.le_of_succ_le hle) (k + 1)
      have hfound : announced - missing + lines.length =
          announced - (missing + 1) + (line :: lines).length := by
        rw [List.length_cons]
        omega
      have hnumber : k + 1 + lines.length = k + (line :: lines).length := by
        rw [List.length_cons]
        omega
      rw [hfound, hnumber] at hmore
      rw [List.map_cons, nextLine_of_decode (Utf8.decode_encode line)]
      simp only [run_bind_pure, hmore, Except.map]

/-- **A request takes texts off a text**: it hands them out, they are the lines next to the cursor,
    and the cursor is behind them then. -/
structure Takes (x : Exchange) (texts : List Text) : Prop where
  handsOut : HandsOut x texts
  leading : texts.map Utf8.encode <+: x.start.rest
  stop : x.stop = x.start.advance texts.length

theorem Takes.of_rest {x : Exchange} {texts : List Text} (h : HandsOut x texts)
    (hrest : x.start.rest = texts.map Utf8.encode ++ x.stop.rest)
    (hnumber : x.stop.number = x.start.number + texts.length) : Takes x texts :=
  ⟨h, hrest ▸ List.prefix_append _ _, Cursor.eq_advance hrest hnumber⟩

section

variable {c c' : Cursor}

theorem exists_takes_line {result : Except Fault (Option Text)} (h : nextLine.run c = (result, c'))
    (hbroken : Exchange.broken ⟨c, .line, result.map .line, c'⟩ = false) :
    ∃ texts, Takes ⟨c, .line, result.map .line, c'⟩ texts := by
  cases result with
  | ok line =>
    cases line with
    | none =>
      obtain ⟨hrest, rfl⟩ := nextLine_none_iff.1 h
      exact ⟨[], .of_rest (.none hrest) rfl rfl⟩
    | some text =>
      obtain ⟨hrest, hnumber⟩ := nextLine_run_iff.1 h
      exact ⟨[text], .of_rest .line hrest hnumber⟩
  | error e =>
    obtain ⟨raw, rest, -, -, rfl⟩ := nextLine_error_iff.1 (congrArg Prod.fst h)
    cases hbroken

theorem exists_takes_count {part : Section} {result : Except Fault Nat}
    (h : (count part).run c = (result, c'))
    (hbroken : Exchange.broken ⟨c, .count part, result.map .count, c'⟩ = false) :
    ∃ texts, Takes ⟨c, .count part, result.map .count, c'⟩ texts := by
  cases result with
  | ok n =>
    obtain ⟨text, hrest, hnumber, hn⟩ := count_run_iff.1 h
    exact ⟨[text], .of_rest (.count hn) hrest hnumber⟩
  | error e =>
    obtain ⟨rest, number⟩ := c
    have hfault := count_error_iff.1 (congrArg Prod.fst h)
    generalize hnext : rest.head? = next at hfault
    cases hfault with
    | count hfault =>
      cases hfault with
      | missing =>
        obtain rfl := List.head?_eq_none_iff.1 hnext
        cases h
        exact ⟨[], .of_rest (.missing rfl) rfl rfl⟩
      | notUtf8 => cases hbroken
    | invalid hn =>
      obtain ⟨rest, rfl⟩ := List.head?_eq_some_iff.1 hnext
      rw [count_run_line, hn] at h
      cases h
      exact ⟨[_], .of_rest (@HandsOut.invalid _ ⟨rest, number + 1⟩ part _ hn) rfl rfl⟩

theorem exists_takes_entries {part : Section} {n : Nat} {result : Except Fault (List Text)}
    (h : (entries part n).run c = (result, c'))
    (hbroken : Exchange.broken ⟨c, .entries part n, result.map .entries, c'⟩ = false) :
    ∃ texts, Takes ⟨c, .entries part n, result.map .entries, c'⟩ texts := by
  cases result with
  | ok lines =>
    obtain ⟨rfl, hrest, hnumber⟩ := entries_run_iff.1 h
    exact ⟨lines, .of_rest .entries hrest hnumber⟩
  | error e =>
    obtain ⟨lines, rest, hrest, hlt, hfault⟩ := entries_error_iff.1 (congrArg Prod.fst h)
    generalize hnext : rest.head? = next at hfault
    cases hfault with
    | missing =>
      obtain rfl := List.head?_eq_none_iff.1 hnext
      obtain ⟨_, number⟩ := c
      obtain rfl : _ = lines.map Utf8.encode := by simpa using hrest
      have hrun := @entriesFrom_run_of_lt part n n lines hlt (Nat.le_refl n) number
      rw [← entries, h] at hrun
      obtain rfl := (Prod.mk.inj hrun).2
      exact ⟨lines, .of_rest (.truncated hlt rfl) hrest rfl⟩
    | notUtf8 => cases hbroken

/-- **A request that the stream does not fail takes texts off the text.** -/
theorem exists_takes {request : Request} {result : Except Fault Answer}
    (h : request.reader.run c = (result, c'))
    (hbroken : Exchange.broken ⟨c, request, result, c'⟩ = false) :
    ∃ texts, Takes ⟨c, request, result, c'⟩ texts := by
  cases request with
  | line =>
    rw [Request.reader, run_bind_pure] at h
    cases h
    exact exists_takes_line rfl hbroken
  | count part =>
    rw [Request.reader, run_bind_pure] at h
    cases h
    exact exists_takes_count rfl hbroken
  | entries part n =>
    rw [Request.reader, run_bind_pure] at h
    cases h
    exact exists_takes_entries rfl hbroken

/-- **A section is complete exactly if its lines are there**; otherwise all lines that are there are
    taken. -/
theorem Takes.entries_iff {part : Section} {n : Nat} {result : Except Fault Answer}
    {texts : List Text} (h : Takes ⟨c, .entries part n, result, c'⟩ texts) :
    (n ≤ c.rest.length → result = .ok (.entries texts) ∧
      texts.map Utf8.encode = c.rest.take n) ∧
    (c.rest.length < n → result = .error (.truncated part n c.rest.length) ∧ c'.rest = []) := by
  obtain ⟨hhands, ⟨rest, hrest⟩, hstop⟩ := h
  dsimp only at hrest hstop
  have hlength : texts.length + rest.length = c.rest.length := by
    rw [← hrest, List.length_append, List.length_map]
  cases hhands with
  | entries =>
    refine ⟨fun _ => ⟨rfl, ?_⟩, fun hlt => by omega⟩
    rw [← hrest, ← List.length_map (f := Utf8.encode), List.take_left]
  | truncated hlt hnone =>
    have hall : c.rest.length = texts.length := by
      have hdrop := congrArg (fun c' : Cursor => c'.rest.length) hstop
      simp only [hnone, Cursor.advance, List.length_drop, List.length_nil] at hdrop
      omega
    exact ⟨fun hle => by omega, fun _ => ⟨by rw [hall], hnone⟩⟩

end

/-! ### Requests in a row -/

/-- Every exchange is its request, made where the cursor was. -/
theorem run_of_mem_exchanges {c : Cursor} {requests : List Request} {x : Exchange}
    (h : x ∈ exchanges c requests) : x.request.reader.run x.start = (x.result, x.stop) := by
  induction requests generalizing c with
  | nil => cases h
  | cons request requests ih =>
    rw [exchanges] at h
    rcases List.mem_cons.1 h with rfl | h
    · rfl
    · exact ih h

theorem map_request_exchanges (c : Cursor) (requests : List Request) :
    (exchanges c requests).map Exchange.request = requests := by
  induction requests generalizing c with
  | nil => rfl
  | cons request requests ih => rw [exchanges, List.map_cons, ih]

/-- Requests take texts off the text one after the other, and each leaves the cursor behind all
    texts taken until then. -/
theorem exists_taken {c : Cursor} {requests : List Request}
    (h : ∀ x ∈ exchanges c requests, x.broken = false) :
    ∃ taken : List (List Text),
      List.Forall₂ Takes (exchanges c requests) taken ∧
      taken.flatten.map Utf8.encode <+: c.rest ∧
      ∀ i x, (exchanges c requests)[i]? = some x →
        x.start = c.advance (taken.take i).flatten.length ∧
        x.stop = c.advance (taken.take (i + 1)).flatten.length := by
  induction requests generalizing c with
  | nil => exact ⟨[], .nil, List.nil_prefix, by simp [exchanges]⟩
  | cons request requests ih =>
    rw [exchanges] at h ⊢
    obtain ⟨hfirst, hrest⟩ := List.forall_mem_cons.1 h
    obtain ⟨texts, htexts⟩ := exists_takes rfl hfirst
    obtain ⟨taken, htaken, hleading, hplaces⟩ := ih hrest
    have hstop : (request.reader.run c).2 = c.advance texts.length := htexts.stop
    refine ⟨texts :: taken, .cons htexts htaken, ?_, ?_⟩
    · obtain ⟨rest, hc⟩ := htexts.leading
      have hbehind : (request.reader.run c).2.rest = rest := by
        rw [hstop, Cursor.advance]
        dsimp only at hc ⊢
        rw [← hc, ← List.length_map (f := Utf8.encode), List.drop_left]
      dsimp only at hc
      rw [hbehind] at hleading
      rw [List.flatten_cons, List.map_append, ← hc]
      exact (List.prefix_append_right_inj _).2 hleading
    · intro i x hx
      cases i with
      | zero =>
        cases hx
        exact ⟨rfl, by simpa using hstop⟩
      | succ i =>
        obtain ⟨hxstart, hxstop⟩ := hplaces i x hx
        simp only [hstop, Cursor.advance_advance] at hxstart hxstop
        simp only [List.take_succ_cons, List.flatten_cons, List.length_append]
        exact ⟨hxstart, hxstop⟩

/-- **No line is lost, repeated or misnumbered.**  Of any requests that the stream does not fail, the
    texts handed out are the lines at the start of the bytes, in order; before and behind each
    request the number of the cursor is how many have been handed out, and the lines after these
    are left.  A section is all the lines it wants if so many are left, and otherwise it says how
    many there were and leaves none; it asks for no more lines than it wants and are there, but for
    one in vain. -/
theorem exchanges_in_order {bs : Bytes} {requests : List Request}
    (h : ∀ x ∈ exchanges (.ofBytes bs) requests, x.broken = false) :
    (exchanges (.ofBytes bs) requests).map Exchange.request = requests ∧
    (∀ x ∈ exchanges (.ofBytes bs) requests,
      x.request.reader.run x.start = (x.result, x.stop)) ∧
    ∃ handed : List (List Text),
      List.Forall₂ HandsOut (exchanges (.ofBytes bs) requests) handed ∧
      handed.flatten.map Utf8.encode <+: bs.lines ∧
      ∀ i x, (exchanges (.ofBytes bs) requests)[i]? = some x →
        (x.start.number = (handed.take i).flatten.length ∧
          x.start.rest = bs.lines.drop x.start.number) ∧
        (x.stop.number = (handed.take (i + 1)).flatten.length ∧
          x.stop.rest = bs.lines.drop x.stop.number) ∧
        ∀ part n, x.request = .entries part n →
          (n ≤ x.start.rest.length → ∃ lines, x.result = .ok (.entries lines) ∧
            lines.map Utf8.encode = x.start.rest.take n) ∧
          (x.start.rest.length < n →
            x.result = .error (.truncated part n x.start.rest.length) ∧ x.stop.rest = []) ∧
          (entries part n).asked x.start ≤ min n x.start.rest.length + 1 := by
  obtain ⟨taken, htaken, hleading, hplaces⟩ := exists_taken h
  refine ⟨map_request_exchanges _ _, fun x => run_of_mem_exchanges, taken,
    htaken.imp fun _ _ htexts => htexts.handsOut, hleading, ?_⟩
  intro i x hx
  have hadvance (k : Nat) : (Cursor.ofBytes bs).advance k = ⟨bs.lines.drop k, k⟩ := by
    rw [Cursor.advance, Cursor.ofBytes, Nat.zero_add]
  obtain ⟨hstart, hstop⟩ := hplaces i x hx
  rw [hadvance] at hstart hstop
  refine ⟨by rw [hstart]; exact ⟨rfl, rfl⟩, by rw [hstop]; exact ⟨rfl, rfl⟩, ?_⟩
  intro part n hrequest
  obtain ⟨texts, htexts⟩ : ∃ texts, Takes x texts := by
    have hmem := List.mem_of_getElem? hx
    exact exists_takes (run_of_mem_exchanges hmem) (h x hmem)
  obtain ⟨start, request, result, stop⟩ := x
  subst hrequest
  obtain ⟨hcomplete, hshort⟩ := htexts.entries_iff
  exact ⟨fun hle => ⟨texts, hcomplete hle⟩, hshort, asked_entries_le part n start⟩

/-- A count, a line that should be one, an empty line and two lines, of which the last is not
    ended. -/
def fiveLines : Bytes := Utf8.encode "2\nx\n\nid\nGoal".toList

/-- Requests of which some are not answered, and one that wants more lines than any text has. -/
def hardRequests : List Request :=
  [.count .terminal, .count .terminal, .entries .terminal 1, .entries .rule Count.greatest, .line,
    .count .rule]

theorem exchanges_in_order_five :
    (∀ x ∈ exchanges (.ofBytes fiveLines) hardRequests, x.broken = false) ∧
    (exchanges (.ofBytes fiveLines) hardRequests).map Exchange.request = hardRequests ∧
    (∀ x ∈ exchanges (.ofBytes fiveLines) hardRequests,
      x.request.reader.run x.start = (x.result, x.stop)) ∧
    ∃ handed : List (List Text),
      List.Forall₂ HandsOut (exchanges (.ofBytes fiveLines) hardRequests) handed ∧
      handed.flatten.map Utf8.encode <+: fiveLines.lines ∧
      ∀ i x, (exchanges (.ofBytes fiveLines) hardRequests)[i]? = some x →
        (x.start.number = (handed.take i).flatten.length ∧
          x.start.rest = fiveLines.lines.drop x.start.number) ∧
        (x.stop.number = (handed.take (i + 1)).flatten.length ∧
          x.stop.rest = fiveLines.lines.drop x.stop.number) ∧
        ∀ part n, x.request = .entries part n →
          (n ≤ x.start.rest.length → ∃ lines, x.result = .ok (.entries lines) ∧
            lines.map Utf8.encode = x.start.rest.take n) ∧
          (x.start.rest.length < n →
            x.result = .error (.truncated part n x.start.rest.length) ∧ x.stop.rest = []) ∧
          (entries part n).asked x.start ≤ min n x.start.rest.length + 1 := by
  have h : ∀ x ∈ exchanges (.ofBytes fiveLines) hardRequests, x.broken = false := by
    decide +kernel
  exact ⟨h, exchanges_in_order h⟩

end Reading

end OptGrammar
