/-
  Grammars with optional symbols — when a reader of lines succeeds.

  Each reader succeeds exactly if the lines it wants are there, and it leaves the lines
  after them.

  Main statements: `count_run_iff`, `entries_run_iff` and, for both in a row,
  `section_run_iff`.
-/
import OptGrammar.Cursor

namespace OptGrammar.Reading

variable {α β : Type} {c c' : Cursor}

/-- Readers in a row succeed exactly if each does. -/
theorem bind_run_iff {x : Reading α} {f : α → Reading β} {b : β} :
    (x >>= f).run c = (.ok b, c') ↔
      ∃ a c₁, x.run c = (.ok a, c₁) ∧ (f a).run c₁ = (.ok b, c') := by
  rw [run_bind]
  constructor
  · intro h
    split at h
    · rename_i a c₁ hx
      exact ⟨a, c₁, hx, h⟩
    · simp at h
  · rintro ⟨a, c₁, hx, hf⟩
    rw [hx]
    exact hf

theorem pure_run_iff {a b : α} : (pure a : Reading α).run c = (.ok b, c') ↔ a = b ∧ c = c' := by
  simp

/-- What is made of the value of a reader is made of its result. -/
theorem run_bind_pure (x : Reading α) (f : α → β) (c : Cursor) :
    (x >>= fun a => pure (f a)).run c = ((x.run c).1.map f, (x.run c).2) := by
  rw [run_bind]
  cases x.run c with
  | mk result c₁ => cases result <;> rfl

theorem nextLine_run_iff {line : Text} : nextLine.run c = (.ok (some line), c') ↔
    c.rest = Utf8.encode line :: c'.rest ∧ c'.number = c.number + 1 := by
  obtain ⟨rest, number⟩ := c
  obtain ⟨rest', number'⟩ := c'
  cases rest with
  | nil => simp [nextLine]
  | cons raw rest =>
    cases hd : Utf8.decode raw with
    | none =>
      rw [nextLine_of_decode_none hd]
      simp only [Prod.mk.injEq, reduceCtorEq, false_and, List.cons.injEq, false_iff]
      rintro ⟨⟨rfl, -⟩, -⟩
      simp at hd
    | some t =>
      rw [nextLine_of_decode hd, Utf8.decode_eq_some_iff.1 hd]
      simp only [Prod.mk.injEq, Except.ok.injEq, Option.some.injEq, Cursor.mk.injEq,
        List.cons.injEq]
      constructor
      · rintro ⟨rfl, rfl, rfl⟩
        exact ⟨⟨rfl, rfl⟩, rfl⟩
      · rintro ⟨⟨h, rfl⟩, rfl⟩
        exact ⟨Utf8.encode_injective h, rfl, rfl⟩

/-- **A count is read exactly if the next line holds one.** -/
theorem count_run_iff {part : Section} {n : Nat} : (count part).run c = (.ok n, c') ↔
    ∃ line, c.rest = Utf8.encode line :: c'.rest ∧ c'.number = c.number + 1 ∧
      Count.read? (Text.trim line) = some n := by
  rw [count, bind_run_iff]
  constructor
  · rintro ⟨a, c₁, hnext, h⟩
    cases a with
    | none => simp at h
    | some line =>
      obtain ⟨hrest, hnumber⟩ := nextLine_run_iff.1 hnext
      dsimp only at h
      split at h
      · rw [bind_run_iff] at h
        simp at h
      · rename_i m hm
        obtain ⟨rfl, rfl⟩ := pure_run_iff.1 h
        exact ⟨line, hrest, hnumber, hm⟩
  · rintro ⟨line, hrest, hnumber, hn⟩
    refine ⟨some line, c', nextLine_run_iff.2 ⟨hrest, hnumber⟩, ?_⟩
    simp [hn]

/-- What a count line comes to; it is all that is read for it. -/
theorem count_run_line (part : Section) (line : Text) (rest : List Bytes) (k : Nat) :
    (count part).run ⟨Utf8.encode line :: rest, k⟩ =
      ((Count.read? (Text.trim line)).elim (.error (.invalidCount (k + 1) (Text.trim line))) .ok,
        ⟨rest, k + 1⟩) := by
  rw [count, run_bind, nextLine_of_decode (Utf8.decode_encode line)]
  cases hn : Count.read? (Text.trim line) with
  | none =>
    simp only [hn]
    rfl
  | some n =>
    simp only [hn]
    rfl

theorem entriesFrom_run_iff {part : Section} {announced missing : Nat} {lines : List Text} :
    (entriesFrom part announced missing).run c = (.ok lines, c') ↔
      lines.length = missing ∧ c.rest = lines.map Utf8.encode ++ c'.rest ∧
        c'.number = c.number + missing := by
  induction missing generalizing c lines with
  | zero =>
    rw [entriesFrom, pure_run_iff, List.length_eq_zero_iff]
    obtain ⟨rest, number⟩ := c
    obtain ⟨rest', number'⟩ := c'
    constructor
    · rintro ⟨rfl, h⟩
      cases h
      exact ⟨rfl, rfl, rfl⟩
    · rintro ⟨rfl, h₁, h₂⟩
      dsimp only at h₁ h₂
      subst h₁ h₂
      exact ⟨rfl, rfl⟩
  | succ missing ih =>
    rw [entriesFrom, bind_run_iff]
    constructor
    · rintro ⟨a, c₁, hnext, h⟩
      cases a with
      | none => simp at h
      | some line =>
        obtain ⟨more, c₂, hmore, h⟩ := bind_run_iff.1 h
        obtain ⟨rfl, rfl⟩ := pure_run_iff.1 h
        obtain ⟨hrest, hnumber⟩ := nextLine_run_iff.1 hnext
        obtain ⟨hlen, hrest₁, hnumber₁⟩ := ih.1 hmore
        refine ⟨by simp [hlen], by simp [hrest, hrest₁], by omega⟩
    · rintro ⟨hlen, hrest, hnumber⟩
      cases lines with
      | nil => simp at hlen
      | cons line lines =>
        refine ⟨some line, ⟨lines.map Utf8.encode ++ c'.rest, c.number + 1⟩,
          nextLine_run_iff.2 ⟨hrest, rfl⟩, bind_run_iff.2 ⟨lines, c', ih.2 ⟨?_, rfl, ?_⟩, rfl⟩⟩
        · simpa using hlen
        · dsimp only
          omega

/-- **A section is read exactly if it is complete.** -/
theorem entries_run_iff {part : Section} {n : Nat} {lines : List Text} :
    (entries part n).run c = (.ok lines, c') ↔
      lines.length = n ∧ c.rest = lines.map Utf8.encode ++ c'.rest ∧
        c'.number = c.number + n :=
  entriesFrom_run_iff

/-- A count and as many lines are read exactly if the count is right. -/
theorem section_run_iff {part : Section} {lines : List Text} :
    (∃ n c₁, (count part).run c = (.ok n, c₁) ∧ (entries part n).run c₁ = (.ok lines, c')) ↔
      ∃ first, c.rest = (first :: lines).map Utf8.encode ++ c'.rest ∧
        Count.read? (Text.trim first) = some lines.length ∧
        c'.number = c.number + 1 + lines.length := by
  constructor
  · rintro ⟨n, c₁, hcount, hlines⟩
    obtain ⟨first, hfirst, hnumber, hn⟩ := count_run_iff.1 hcount
    obtain ⟨rfl, hrest, hnumber'⟩ := entries_run_iff.1 hlines
    exact ⟨first, by simp [hfirst, hrest], hn, by omega⟩
  · rintro ⟨first, hrest, hn, hnumber⟩
    exact ⟨lines.length, ⟨lines.map Utf8.encode ++ c'.rest, c.number + 1⟩,
      count_run_iff.2 ⟨first, hrest, rfl, hn⟩, entries_run_iff.2 ⟨rfl, rfl, hnumber⟩⟩

end OptGrammar.Reading
