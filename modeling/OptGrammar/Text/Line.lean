/-
  Grammars with optional symbols — the physical lines of raw bytes.

  A line feed ends a line, and a carriage return directly before it belongs to the
  line end.  A rest without a line feed is a line of its own and keeps all its bytes;
  an empty rest is no line.  Lines are cut before anything is decoded, so that a line
  nobody reads may hold any bytes.

  Main statements: `lines_append_newline` and `lines_of_not_mem`, the first line of bytes
  that hold a line feed and of those that do not; `not_mem_of_mem_lines`, no line holds
  a line feed; `lines_encode_unlines`, the lines of texts written one per line.
-/
import OptGrammar.Text.Utf8

namespace OptGrammar

/-- A text without a carriage return at its end. -/
def Text.dropReturn (t : Text) : Text := if t.getLast? = some '\r' then t.dropLast else t

theorem Text.dropReturn_eq_self_iff {t : Text} : t.dropReturn = t ↔ t.getLast? ≠ some '\r' := by
  constructor
  · intro h hlast
    rw [dropReturn, if_pos hlast] at h
    obtain ⟨u, rfl⟩ := List.getLast?_eq_some_iff.1 hlast
    simp at h
  · exact fun h => if_neg h

/-- **A text of which nothing is lost** when it is written on a line. -/
structure Text.Lossless (t : Text) : Prop where
  newline : '\n' ∉ t
  carriage : t.getLast? ≠ some '\r'

namespace Bytes

/-- A line, given backwards, without a carriage return at its end. -/
def dropReturn : Bytes → Bytes
  | 0x0D :: run => run
  | run => run

/-- The lines of bytes that follow `run`, the part of a line already passed,
    backwards. -/
def linesFrom (run : Bytes) : Bytes → List Bytes
  | [] => if run.isEmpty then [] else [run.reverse]
  | b :: rest =>
    if b = 0x0A then (dropReturn run).reverse :: linesFrom [] rest
    else linesFrom (b :: run) rest

/-- The physical lines of raw bytes. -/
def lines (bs : Bytes) : List Bytes := linesFrom [] bs

theorem linesFrom_append {l : Bytes} (h : 0x0A ∉ l) (run rest : Bytes) :
    linesFrom run (l ++ rest) = linesFrom (l.reverse ++ run) rest := by
  induction l generalizing run with
  | nil => rfl
  | cons b l ih =>
    rw [List.mem_cons, not_or] at h
    simp [linesFrom, Ne.symm h.1, ih h.2]

@[simp]
theorem lines_nil : lines [] = [] := rfl

/-- A line feed ends the first line. -/
theorem lines_append_newline {l : Bytes} (h : 0x0A ∉ l) (rest : Bytes) :
    lines (l ++ 0x0A :: rest) = (dropReturn l.reverse).reverse :: lines rest := by
  rw [lines, linesFrom_append h, linesFrom, if_pos rfl, List.append_nil]
  rfl

/-- Bytes without a line feed are one line. -/
theorem lines_of_not_mem {l : Bytes} (h : 0x0A ∉ l) (hne : l ≠ []) : lines l = [l] := by
  have := linesFrom_append h [] []
  simp only [List.append_nil] at this
  simp [lines, this, linesFrom, hne]

/-- Without a carriage return at its end a line keeps all its bytes. -/
theorem dropReturn_reverse_of_getLast? {l : Bytes} (h : l.getLast? ≠ some 0x0D) :
    (dropReturn l.reverse).reverse = l := by
  rw [dropReturn.eq_def]
  split
  · rename_i run he
    refine absurd ?_ h
    rw [← List.head?_reverse, he, List.head?_cons]
  · exact List.reverse_reverse l

/-- Bytes are a line that is not ended, or a line that is ended and the bytes behind it. -/
@[elab_as_elim]
theorem lineInduction {motive : Bytes → Prop} (last : ∀ l, 0x0A ∉ l → motive l)
    (line : ∀ l rest, 0x0A ∉ l → motive rest → motive (l ++ 0x0A :: rest)) (bs : Bytes) :
    motive bs := by
  induction hlength : bs.length using Nat.strongRecOn generalizing bs with
  | ind size ih =>
    by_cases hmem : (0x0A : UInt8) ∈ bs
    · obtain ⟨l, rest, rfl, hl⟩ := List.eq_append_cons_of_mem hmem
      exact line l rest hl (ih rest.length (by simp at hlength; omega) rest rfl)
    · exact last bs hmem

private theorem mem_of_mem_dropReturn {b : UInt8} {run : Bytes} (h : b ∈ dropReturn run) :
    b ∈ run := by
  unfold dropReturn at h
  split at h
  · exact List.mem_cons_of_mem _ h
  · exact h

theorem not_mem_of_mem_linesFrom {run bs l : Bytes} (hrun : 0x0A ∉ run)
    (h : l ∈ linesFrom run bs) : 0x0A ∉ l := by
  induction bs generalizing run with
  | nil =>
    simp only [linesFrom] at h
    split at h
    · cases h
    · rw [List.mem_singleton] at h
      simpa [h] using hrun
  | cons b bs ih =>
    simp only [linesFrom] at h
    split at h
    · rcases List.mem_cons.1 h with rfl | h
      · exact fun hm => hrun (mem_of_mem_dropReturn (List.mem_reverse.1 hm))
      · exact ih (by simp) h
    · rename_i hb
      exact ih (by simp [hrun, Ne.symm hb]) h

/-- **No line holds a line feed.** -/
theorem not_mem_of_mem_lines {bs l : Bytes} (h : l ∈ lines bs) : 0x0A ∉ l :=
  not_mem_of_mem_linesFrom (by simp) h

/-! ## The lines of a text -/

/-- The last byte is a carriage return only if the last character is. -/
theorem getLast?_eq_of_encode {t : Text} (h : (Utf8.encode t).getLast? = some 0x0D) :
    t.getLast? = some '\r' := by
  rcases List.eq_nil_or_concat t with rfl | ⟨u, c, rfl⟩
  · cases h
  · rw [List.concat_eq_append] at h ⊢
    rw [List.getLast?_append]
    rw [Utf8.encode_append, List.getLast?_append] at h
    have hne : String.utf8EncodeChar c ≠ [] := by
      intro he
      have := congrArg List.length he
      have hpos := Char.utf8Size_pos c
      simp at this
      omega
    simp only [Utf8.encode_cons, Utf8.encode_nil, List.append_nil] at h
    cases hl : (String.utf8EncodeChar c).getLast? with
    | none => exact absurd (List.getLast?_eq_none_iff.1 hl) hne
    | some b =>
      rw [hl] at h
      simp only [Option.some_or, Option.some.injEq] at h
      subst h
      have := (Utf8.utf8EncodeChar_of_mem (by decide) (List.mem_of_getLast? hl)).2
      have hc : c = '\r' := Char.toNat_inj.1 this
      simp [hc]

/-- A carriage return at the end of a text is one at the end of its bytes. -/
theorem dropReturn_encode (t : Text) :
    (dropReturn (Utf8.encode t).reverse).reverse = Utf8.encode t.dropReturn := by
  rw [Text.dropReturn]
  split
  · rename_i hlast
    obtain ⟨u, rfl⟩ := List.getLast?_eq_some_iff.1 hlast
    have : Utf8.encode ['\r'] = [0x0D] := rfl
    rw [Utf8.encode_append, this, List.reverse_append, List.dropLast_concat]
    exact List.reverse_reverse _
  · rename_i hlast
    rw [dropReturn.eq_def]
    split
    · rename_i run he
      refine absurd (getLast?_eq_of_encode ?_) hlast
      rw [← List.reverse_reverse (Utf8.encode t), he]
      simp
    · exact List.reverse_reverse _

/-- Of texts written one per line the first is the first line. -/
theorem lines_encode_unlines_cons {t : Text} (h : '\n' ∉ t) (ts : List Text) (rest : Bytes) :
    lines (Utf8.encode (Text.unlines (t :: ts)) ++ rest) =
      Utf8.encode t.dropReturn :: lines (Utf8.encode (Text.unlines ts) ++ rest) := by
  have hmem : 0x0A ∉ Utf8.encode t := fun hm => h (Utf8.newline_mem_encode_iff.1 hm)
  rw [Utf8.encode_unlines_cons, List.append_assoc, List.cons_append, lines_append_newline hmem,
    dropReturn_encode]

/-- **Texts written one per line are its lines**, without a carriage return at their ends. -/
theorem lines_encode_unlines {ts : List Text} (h : ∀ t ∈ ts, '\n' ∉ t) (rest : Bytes) :
    lines (Utf8.encode (Text.unlines ts) ++ rest) =
      (ts.map Text.dropReturn).map Utf8.encode ++ lines rest := by
  induction ts with
  | nil => rfl
  | cons t ts ih =>
    rw [lines_encode_unlines_cons (h t List.mem_cons_self), ih fun u hu =>
      h u (List.mem_cons_of_mem _ hu)]
    rfl

theorem lines_unlines {ts : List Text} (h : ∀ t ∈ ts, '\n' ∉ t) :
    lines (Utf8.encode (Text.unlines ts)) = (ts.map Text.dropReturn).map Utf8.encode := by
  simpa using lines_encode_unlines h []

/-- Of lossless texts nothing is lost at all. -/
theorem lines_of_lossless {ts : List Text} (h : ∀ t ∈ ts, t.Lossless) (rest : Bytes) :
    lines (Utf8.encode (Text.unlines ts) ++ rest) = ts.map Utf8.encode ++ lines rest := by
  have hreturns : ts.map Text.dropReturn = ts := by
    have hmap : ts.map Text.dropReturn = ts.map id := List.map_inj_left.2 fun t ht =>
      Text.dropReturn_eq_self_iff.2 (h t ht).carriage
    rwa [List.map_id] at hmap
  rw [lines_encode_unlines fun t ht => (h t ht).newline, hreturns]

theorem lines_unlines_of_lossless {ts : List Text} (h : ∀ t ∈ ts, t.Lossless) :
    lines (Utf8.encode (Text.unlines ts)) = ts.map Utf8.encode := by
  simpa using lines_of_lossless h []

end Bytes

end OptGrammar
