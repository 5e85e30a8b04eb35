/-
  Grammars with optional symbols — the numerals that are read as counts.

  A count line holds a numeral between blanks: digits, of which any number may be zeros in front,
  and perhaps one plus sign before them.  What it counts is the value of the digits, each taken by
  its place, as long as that is a count at all.  The reader passes over the digits once and gives up
  where the number gets too large, and a number that got too large never gets smaller again.

  * `Count.value`: the value of digits by their places.
  * `Count.Numeral`: the texts that denote a number, with that number.

  Main statements: `Count.read?_eq_some_iff`, which texts are read as which counts;
  `count_run_exact`, what a count line comes to, and that the counts written are read back.
-/
import Mathlib.Data.Nat.Digits.Defs
import OptGrammar.Proofs.Listing

namespace OptGrammar

/-! ## Numerals -/

namespace Count

/-- The value of digits, of which the last counts ones, the one before it tens, and so on. -/
def value (ds : Text) : Nat := Nat.ofDigits 10 (ds.map fun c => c.toNat - '0'.toNat).reverse

/-- One digit or more, and nothing else. -/
structure IsDigits (ds : Text) : Prop where
  nonempty : ds ≠ []
  digit : ∀ c ∈ ds, c.isDigit = true

/-- **A text denotes a number**: digits do, and so do digits behind one plus sign. -/
inductive Numeral : Text → Nat → Prop
  | digits {ds} : IsDigits ds → Numeral ds (value ds)
  | plus {ds} : IsDigits ds → Numeral ('+' :: ds) (value ds)

theorem value_cons (c : Char) (ds : Text) :
    value (c :: ds) = 10 ^ ds.length * (c.toNat - '0'.toNat) + value ds := by
  rw [value, List.map_cons, Nat.ofDigits_reverse_cons, List.length_map, Nat.add_comm, ← value]

/-- Digits taken one after the other make the value that they have by their places. -/
theorem ofDigitChars_eq_value (ds : Text) : Nat.ofDigitChars 10 ds 0 = value ds := by
  induction ds with
  | nil => rfl
  | cons c ds ih =>
    rw [Nat.ofDigitChars_cons, Nat.ofDigitChars_eq_ofDigitChars_zero, ih, value_cons,
      Nat.mul_zero, Nat.zero_add]

theorem isDigits_digits (n : Nat) : IsDigits (digits n) :=
  ⟨digits_ne_nil n, fun _ => isDigit_of_mem_digits⟩

theorem value_digits (n : Nat) : value (digits n) = n := by
  rw [← ofDigitChars_eq_value]
  exact Nat.ofDigitChars_ten_toDigits

theorem numeral_digits (n : Nat) : Numeral (digits n) n := by
  have h := Numeral.digits (isDigits_digits n)
  rwa [value_digits] at h

/-- Digits are read as a count exactly if their value is a count. -/
theorem extend_zero_eq_some_iff {ds : Text} {n : Nat} : extend 0 ds = some n ↔
    (∀ c ∈ ds, c.isDigit = true) ∧ value ds = n ∧ n ≤ greatest := by
  rw [extend_eq_some_iff (by decide), ofDigitChars_eq_value]

/-- **A text is read as a count** exactly if it denotes the count and that is not too large. -/
theorem read?_eq_some_iff {t : Text} {n : Nat} :
    read? t = some n ↔ Numeral t n ∧ n ≤ greatest := by
  constructor
  · intro h
    cases t with
    | nil => cases h
    | cons c ds =>
      by_cases hplus : c = '+'
      · subst hplus
        by_cases hne : ds = []
        · -- a plus sign alone
          subst hne
          cases h
        · rw [read?_plus hne] at h
          obtain ⟨hdigit, rfl, hle⟩ := extend_zero_eq_some_iff.1 h
          exact ⟨.plus ⟨hne, hdigit⟩, hle⟩
      · rw [read?_of_head_ne_plus hplus] at h
        obtain ⟨hdigit, rfl, hle⟩ := extend_zero_eq_some_iff.1 h
        exact ⟨.digits ⟨List.cons_ne_nil c ds, hdigit⟩, hle⟩
  · rintro ⟨ht, hle⟩
    cases ht with
    | digits hds =>
      rw [read?_of_isDigit hds.nonempty hds.digit]
      exact extend_zero_eq_some_iff.2 ⟨hds.digit, rfl, hle⟩
    | plus hds =>
      rw [read?_plus hds.nonempty]
      exact extend_zero_eq_some_iff.2 ⟨hds.digit, rfl, hle⟩

theorem read?_eq_none_iff {t : Text} :
    read? t = none ↔ ¬ ∃ n, Numeral t n ∧ n ≤ greatest := by
  rw [Option.eq_none_iff_forall_ne_some, not_exists]
  exact forall_congr' fun n => not_congr read?_eq_some_iff

example : read? "+00000000000000000000000018446744073709551615".toList = some greatest := by decide

example : read? "18446744073709551616".toList = none := by decide

end Count

/-! ## Count lines -/

namespace Reading

variable {part : Section} {k : Nat}

/-- A line of which the trimmed text denotes a count is read as that count. -/
theorem count_run_ok_iff {line : Text} {rest : List Bytes} {n : Nat} :
    ((count part).run ⟨Utf8.encode line :: rest, k⟩).1 = .ok n ↔
      ∃ t, Text.Trimmed line t ∧ Count.Numeral t n ∧ n ≤ Count.greatest := by
  simp only [Text.trimmed_iff, exists_eq_left', ← Count.read?_eq_some_iff, count_run_line]
  cases Count.read? (Text.trim line) with
  | none => simp
  | some m => simp

/-- Any other line is refused with its trimmed text. -/
theorem count_run_line_error_iff {line : Text} {rest : List Bytes} {e : Fault} :
    ((count part).run ⟨Utf8.encode line :: rest, k⟩).1 = .error e ↔
      ∃ t, Text.Trimmed line t ∧ (¬ ∃ n, Count.Numeral t n ∧ n ≤ Count.greatest) ∧
        e = .invalidCount (k + 1) t := by
  simp only [Text.trimmed_iff, exists_eq_left', ← Count.read?_eq_none_iff, count_run_line]
  cases Count.read? (Text.trim line) with
  | none => simp [eq_comm]
  | some m => simp

/-- The line of a number is read back as that number exactly if it is a count. -/
theorem count_run_digits_iff (n : Nat) (ts : List Text) (behind : Bytes) :
    (count part).run
        ⟨Bytes.lines (Utf8.encode (Text.unlines (Count.digits n :: ts)) ++ behind), k⟩ =
      (.ok n, ⟨Bytes.lines (Utf8.encode (Text.unlines ts) ++ behind), k + 1⟩) ↔
    n ≤ Count.greatest := by
  have hline := Bytes.lines_encode_unlines_cons (Count.not_mem_digits (by decide) n) ts behind
  rw [hline, Listing.dropReturn_digits, Prod.ext_iff, count_run_ok_iff, count_run_line]
  simp only [and_true]
  constructor
  · rintro ⟨t, -, -, hle⟩
    exact hle
  · intro hle
    have htrimmed : Text.Trimmed (Count.digits n) (Count.digits n) :=
      Text.trimmed_iff.2 (Text.trim_of_not_blank (Listing.digits_not_blank n))
    exact ⟨_, htrimmed, Count.numeral_digits n, hle⟩

/-- **A count line is read exactly.**  It is read as a number exactly if it is a numeral of that
    number between blanks and the number is a count; any other line is refused with its line number
    and with what is between its blanks.  Either way this line is read and no other.  The count
    written above a list of symbols or of rules is read back as the length of the list, whatever is
    on the lines behind it, exactly if the length is a count. -/
theorem count_run_exact (part : Section) (k : Nat) :
    (∀ line rest,
      (∀ n, ((count part).run ⟨Utf8.encode line :: rest, k⟩).1 = .ok n ↔
        ∃ t, Text.Trimmed line t ∧ Count.Numeral t n ∧ n ≤ Count.greatest) ∧
      (∀ e, ((count part).run ⟨Utf8.encode line :: rest, k⟩).1 = .error e ↔
        ∃ t, Text.Trimmed line t ∧ (¬ ∃ n, Count.Numeral t n ∧ n ≤ Count.greatest) ∧
          e = .invalidCount (k + 1) t) ∧
      ((count part).run ⟨Utf8.encode line :: rest, k⟩).2 = ⟨rest, k + 1⟩) ∧
    (∀ symbols behind,
      (count part).run
          ⟨Bytes.lines (Utf8.encode (Text.unlines (Listing.symbolLines symbols)) ++ behind), k⟩ =
        (.ok symbols.length,
          ⟨Bytes.lines (Utf8.encode (Text.unlines (symbols.map Symbol.name)) ++ behind), k + 1⟩) ↔
      symbols.length ≤ Count.greatest) ∧
    (∀ rules behind,
      (count part).run
          ⟨Bytes.lines (Utf8.encode (Text.unlines (Listing.ruleLines rules)) ++ behind), k⟩ =
        (.ok rules.length,
          ⟨Bytes.lines (Utf8.encode (Text.unlines (rules.map Rule.line)) ++ behind), k + 1⟩) ↔
      rules.length ≤ Count.greatest) := by
  refine ⟨fun line rest => ⟨fun n => count_run_ok_iff, fun e => count_run_line_error_iff, ?_⟩,
    fun symbols behind => ?_, fun rules behind => ?_⟩
  · rw [count_run_line]
  · rw [Listing.symbolLines]
    exact count_run_digits_iff symbols.length (symbols.map Symbol.name) behind
  · rw [Listing.ruleLines]
    exact count_run_digits_iff rules.length (rules.map Rule.line) behind

end Reading

end OptGrammar
