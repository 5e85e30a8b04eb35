/-
  Grammars with optional symbols — what line ends do not change.

  Sources and listings are read by their lines, and the lines do not tell how they were ended:
  with a carriage return before every line feed they are the same, and the last one is also the
  same without its line feed, unless nothing is left of it then.

  * `Bytes.withReturns`: bytes with a carriage return before every line feed.

  Main statement: `expand_read_of_lineEnds`, with other line ends all is read alike.
-/
import OptGrammar.Expansion

namespace OptGrammar

namespace Bytes

/-- Bytes with a carriage return before every line feed. -/
def withReturns (bs : Bytes) : Bytes := bs.flatMap fun b => if b = 0x0A then [0x0D, 0x0A] else [b]

theorem withReturns_of_not_mem {l : Bytes} (h : 0x0A ∉ l) : withReturns l = l := by
  induction l with
  | nil => rfl
  | cons b l ih =>
    obtain ⟨hb, hl⟩ := not_or.1 (mt List.mem_cons.2 h)
    rw [withReturns, List.flatMap_cons, if_neg (Ne.symm hb)]
    exact congrArg (b :: ·) (ih hl)

theorem withReturns_append_newline {l : Bytes} (h : 0x0A ∉ l) (rest : Bytes) :
    withReturns (l ++ 0x0A :: rest) = (l ++ [0x0D]) ++ 0x0A :: withReturns rest := by
  have happend : withReturns (l ++ 0x0A :: rest) =
      withReturns l ++ [0x0D, 0x0A] ++ withReturns rest := by
    simp [withReturns]
  rw [happend, withReturns_of_not_mem h]
  simp

/-- A line that is ended by a line feed alone. -/
theorem lines_append_newline_of_not_mem {l : Bytes} (h : 0x0A ∉ l) (hreturn : 0x0D ∉ l)
    (rest : Bytes) : lines (l ++ 0x0A :: rest) = l :: lines rest := by
  rw [lines_append_newline h,
    dropReturn_reverse_of_getLast? fun hlast => hreturn (List.mem_of_getLast? hlast)]

/-- **Carriage returns before line feeds belong to the line ends.** -/
theorem lines_withReturns {bs : Bytes} (h : 0x0D ∉ bs) : lines (withReturns bs) = lines bs := by
  induction bs using lineInduction with
  | last l hl => rw [withReturns_of_not_mem hl]
  | line l rest hl ih =>
    simp only [List.mem_append, List.mem_cons, not_or] at h
    obtain ⟨hreturn, -, hrest⟩ := h
    have hended : 0x0A ∉ l ++ [0x0D] := by simp [hl]
    rw [withReturns_append_newline hl, lines_append_newline hended, ih hrest,
      lines_append_newline_of_not_mem hl hreturn]
    simp [dropReturn]

/-- **The last line need not be ended**, if there is something in it. -/
theorem lines_dropLast {bs : Bytes} (h : 0x0D ∉ bs) (hended : bs.getLast? = some 0x0A)
    (hlast : bs.lines.getLast? ≠ some []) : lines bs.dropLast = lines bs := by
  induction bs using lineInduction with
  | last l hl => exact absurd (List.mem_of_getLast? hended) hl
  | line l rest hl ih =>
    simp only [List.mem_append, List.mem_cons, not_or] at h
    obtain ⟨hreturn, -, hrest⟩ := h
    rw [lines_append_newline_of_not_mem hl hreturn] at hlast ⊢
    cases rest with
    | nil =>
      have hne : l ≠ [] := by
        rintro rfl
        exact hlast rfl
      rw [List.dropLast_concat, lines_of_not_mem hl hne]
      rfl
    | cons b rest =>
      have hdrop : (l ++ 0x0A :: b :: rest).dropLast = l ++ 0x0A :: (b :: rest).dropLast := by
        rw [List.dropLast_append_of_ne_nil (by simp), List.dropLast_cons_cons]
      rw [hdrop, lines_append_newline_of_not_mem hl hreturn, ih hrest ?_ ?_]
      · simpa using hended
      · intro hempty
        rw [List.getLast?_cons, hempty] at hlast
        exact hlast rfl

end Bytes

/-! ## Sources and listings -/

/-- A source is expanded by its lines. -/
theorem expand_of_lines_eq {source source' : Bytes} (h : source'.lines = source.lines) :
    expand source' = expand source := by
  rw [expand, expand, Shorthand.pass, Shorthand.pass, Cursor.ofBytes, Cursor.ofBytes, h]

/-- A listing is read by its lines. -/
theorem Listing.read_of_lines_eq {bs bs' : Bytes} (h : bs'.lines = bs.lines) :
    read bs' = read bs := by
  rw [read, read, Reading.ofBytes, Reading.ofBytes, Cursor.ofBytes, Cursor.ofBytes, h]

/-- **Line ends do not matter.**  Bytes without carriage returns are expanded as a source and read
    as a listing to the same grammar, or refused for the same fault, with a carriage return before
    every line feed, and also without the last line feed, if the last line is not empty. -/
theorem expand_read_of_lineEnds {bs : Bytes} (h : 0x0D ∉ bs) :
    (expand bs.withReturns = expand bs ∧ Listing.read bs.withReturns = Listing.read bs) ∧
    (bs.getLast? = some 0x0A → bs.lines.getLast? ≠ some [] →
      expand bs.dropLast = expand bs ∧ Listing.read bs.dropLast = Listing.read bs) := by
  have hreturns := Bytes.lines_withReturns h
  refine ⟨⟨expand_of_lines_eq hreturns, Listing.read_of_lines_eq hreturns⟩, ?_⟩
  intro hended hlast
  have hdropped := Bytes.lines_dropLast h hended hlast
  exact ⟨expand_of_lines_eq hdropped, Listing.read_of_lines_eq hdropped⟩

/-- A source with a line that is not UTF-8, and a line behind it. -/
def damagedSource : Bytes :=
  Utf8.encode "1\nid\nGoal:\nid id\n".toList ++ 0xFF :: Utf8.encode "\n# end\n".toList

theorem expand_read_of_lineEnds_damaged :
    (0x0D ∉ damagedSource ∧ damagedSource.getLast? = some 0x0A ∧
      damagedSource.lines.getLast? ≠ some []) ∧
    (expand damagedSource.withReturns = expand damagedSource ∧
      Listing.read damagedSource.withReturns = Listing.read damagedSource) ∧
    expand damagedSource.dropLast = expand damagedSource ∧
      Listing.read damagedSource.dropLast = Listing.read damagedSource := by
  have hreturn : 0x0D ∉ damagedSource := by decide +kernel
  have hended : damagedSource.getLast? = some 0x0A := by decide +kernel
  have hlast : damagedSource.lines.getLast? ≠ some [] := by decide +kernel
  obtain ⟨hreturns, hdropped⟩ := expand_read_of_lineEnds hreturn
  exact ⟨⟨hreturn, hended, hlast⟩, hreturns, hdropped hended hlast⟩

end OptGrammar
