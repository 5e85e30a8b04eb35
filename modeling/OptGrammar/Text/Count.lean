/-
  Grammars with optional symbols — counts.

  A count is a natural number of at most 64 bits.  It is written in plain decimal
  digits.  It is read from decimal digits, any number of zeros and one plus sign being
  allowed in front.

  Main statements: `read?_digits`, a count written is read back; `eq_zero_of_read?_eq_zero`, not
  even a part of it is read as zero, unless it is zero.
-/
import OptGrammar.Text.Blank

namespace OptGrammar.Count

/-- The greatest count, all of whose 64 bits are set. -/
def greatest : Nat := 0xFFFFFFFFFFFFFFFF

/-- The decimal digits of a number. -/
def digits (n : Nat) : Text := Nat.toDigits 10 n

/-- The number that further digits make of `n`, as long as it stays a count. -/
def extend (n : Nat) : Text → Option Nat
  | [] => some n
  | c :: rest =>
    if c.isDigit then
      let m := 10 * n + (c.toNat - '0'.toNat)
      if m ≤ greatest then extend m rest else none
    else none

/-- The count that a text denotes. -/
def read? : Text → Option Nat
  | [] => none
  | '+' :: ds => if ds.isEmpty then none else extend 0 ds
  | ds => extend 0 ds

/-! ## Reading a count -/

private theorem le_ofDigitChars (n : Nat) (ds : Text) : n ≤ Nat.ofDigitChars 10 ds n := by
  induction ds generalizing n with
  | nil => simp
  | cons c ds ih =>
    rw [Nat.ofDigitChars_cons]
    have := ih (10 * n + (c.toNat - '0'.toNat))
    omega

/-- Further digits make a count exactly when they are digits and their value is one. -/
theorem extend_eq_some_iff {n m : Nat} {ds : Text} (h : n ≤ greatest) :
    extend n ds = some m ↔
      (∀ c ∈ ds, c.isDigit = true) ∧ Nat.ofDigitChars 10 ds n = m ∧ m ≤ greatest := by
  induction ds generalizing n with
  | nil =>
    simp only [extend, Option.some.injEq, List.not_mem_nil, false_imp_iff, implies_true,
      Nat.ofDigitChars_nil, true_and]
    exact ⟨fun e => ⟨e, e ▸ h⟩, fun e => e.1⟩
  | cons c ds ih =>
    simp only [extend, List.mem_cons, forall_eq_or_imp, Nat.ofDigitChars_cons]
    split
    · rename_i hc
      split
      · rename_i hle
        rw [ih hle]
        simp [hc]
      · rename_i hgt
        have := le_ofDigitChars (10 * n + (c.toNat - '0'.toNat)) ds
        simp only [reduceCtorEq, false_iff, not_and]
        intro _ he
        omega
    · rename_i hc
      simp [hc]

theorem read?_of_head_ne_plus {c : Char} {ds : Text} (h : c ≠ '+') :
    read? (c :: ds) = extend 0 (c :: ds) := by
  rw [read?]
  · simp
  · intro _ he
    exact h (List.cons.inj he).1

theorem read?_plus {ds : Text} (h : ds ≠ []) : read? ('+' :: ds) = extend 0 ds :=
  if_neg (by simpa using h)

theorem isDigit_of_mem_digits {n : Nat} {c : Char} (h : c ∈ digits n) : c.isDigit = true :=
  Nat.isDigit_of_mem_toDigits (by omega) (by omega) h

theorem not_mem_digits {c : Char} (hc : c.isDigit = false) (n : Nat) : c ∉ digits n := by
  intro hm
  rw [isDigit_of_mem_digits hm] at hc
  cases hc

theorem digits_ne_nil (n : Nat) : digits n ≠ [] := Nat.toDigits_ne_nil

/-- Digits are read as they stand. -/
theorem read?_of_isDigit {ds : Text} (hne : ds ≠ []) (h : ∀ c ∈ ds, c.isDigit = true) :
    read? ds = extend 0 ds := by
  obtain ⟨c, ds, rfl⟩ := List.exists_cons_of_ne_nil hne
  refine read?_of_head_ne_plus ?_
  rintro rfl
  exact absurd (h '+' List.mem_cons_self) (by decide)

/-- **A count written is read back.** -/
theorem read?_digits {n : Nat} (h : n ≤ greatest) : read? (digits n) = some n := by
  rw [read?_of_isDigit (digits_ne_nil n) fun _ => isDigit_of_mem_digits]
  exact (extend_eq_some_iff (by decide)).2
    ⟨fun _ => isDigit_of_mem_digits, Nat.ofDigitChars_toDigits (by omega) (by omega), h⟩

/-- What is read is a count. -/
theorem le_greatest_of_read? {t : Text} {n : Nat} (h : read? t = some n) : n ≤ greatest := by
  have hextend (ds : Text) (h : extend 0 ds = some n) : n ≤ greatest :=
    ((extend_eq_some_iff (by decide)).1 h).2.2
  rw [read?.eq_def] at h
  split at h
  · cases h
  · split at h
    · cases h
    · exact hextend _ h
  · exact hextend _ h

/-- The first digits of a number that is not zero do not make zero. -/
theorem ofDigitChars_pos {n : Nat} {ds : Text} (hn : 0 < n) (hne : ds ≠ [])
    (h : ds <+: digits n) : 0 < Nat.ofDigitChars 10 ds 0 := by
  induction n using Nat.strongRecOn with
  | ind n ih =>
    have hwhole : 0 < Nat.ofDigitChars 10 (digits n) 0 := by
      rwa [digits, Nat.ofDigitChars_toDigits (by omega) (by omega)]
    by_cases hlt : n < 10
    · rw [digits, Nat.toDigits_of_lt_base hlt] at h
      rcases List.prefix_cons_iff.1 h with rfl | ⟨ds', rfl, hds'⟩
      · exact absurd rfl hne
      · rwa [List.prefix_nil.1 hds', ← Nat.toDigits_of_lt_base hlt]
    · have hdigits := Nat.toDigits_of_base_le (b := 10) (by omega) (Nat.le_of_not_lt hlt)
      rw [digits, hdigits] at h
      rcases List.prefix_concat_iff.1 h with rfl | h
      · rwa [← hdigits]
      · exact ih (n / 10) (by omega) (by omega) h

/-- **A count cut short is not read as zero**, unless it is zero. -/
theorem eq_zero_of_read?_eq_zero {n : Nat} {ds : Text} (hne : ds ≠ []) (h : ds <+: digits n)
    (hread : read? ds = some 0) : n = 0 := by
  rcases Nat.eq_zero_or_pos n with hn | hn
  · exact hn
  · have hdigit : ∀ c ∈ ds, c.isDigit = true := fun _ hc => isDigit_of_mem_digits (h.subset hc)
    rw [read?_of_isDigit hne hdigit, extend_eq_some_iff (by decide)] at hread
    have hpos := ofDigitChars_pos hn hne h
    rw [hread.2.1] at hpos
    cases hpos

end OptGrammar.Count
