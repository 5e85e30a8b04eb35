/-
  Grammars with optional symbols — blanks, words and lines of a text.

  * `isBlank`: the characters with the White_Space property.
  * `trim`: a text without the blanks at its ends.
  * `words`, `unwords`: the blank-free runs of a text, and their join by single spaces.
  * `unlines`: texts written one per line.

  Main statements: `mem_words`, a word is not empty and holds no blank;
  `words_append_blank`, a blank parts words; `words_unwords`, the words of a join are the
  words joined.
-/
namespace OptGrammar

/-- A text is the list of its characters. -/
abbrev Text := List Char

namespace Text

/-! ## Blanks -/

/-- The twenty-five characters with the White_Space property. -/
def isBlank (c : Char) : Bool :=
  let n := c.toNat
  (0x09 ≤ n && n ≤ 0x0D) || n == 0x20 || n == 0x85 || n == 0xA0 || n == 0x1680 ||
    (0x2000 ≤ n && n ≤ 0x200A) || n == 0x2028 || n == 0x2029 || n == 0x202F ||
    n == 0x205F || n == 0x3000

theorem isBlank_space : isBlank ' ' = true := by decide

theorem isBlank_newline : isBlank '\n' = true := by decide

/-- A text without the blanks in front. -/
def trimLeft (t : Text) : Text := t.dropWhile isBlank

/-- A text without the blanks at both ends. -/
def trim (t : Text) : Text := (trimLeft (trimLeft t).reverse).reverse

/-! ## Words -/

/-- The words of a text that follows `run`, the part of a word already passed,
    backwards. -/
def wordsFrom (run : Text) : Text → List Text
  | [] => if run.isEmpty then [] else [run.reverse]
  | c :: rest =>
    if isBlank c then
      if run.isEmpty then wordsFrom [] rest else run.reverse :: wordsFrom [] rest
    else wordsFrom (c :: run) rest

/-- The words of a text: its longest runs without a blank, in order. -/
def words (t : Text) : List Text := wordsFrom [] t

/-- The join of texts by single spaces. -/
def unwords : List Text → Text
  | [] => []
  | [w] => w
  | w :: v :: rest => w ++ ' ' :: unwords (v :: rest)

/-- A word is not empty and holds no blank. -/
def IsWord (w : Text) : Prop := w ≠ [] ∧ ∀ c ∈ w, isBlank c = false

instance (w : Text) : Decidable (IsWord w) :=
  decidable_of_iff ((!w.isEmpty && w.all fun c => !isBlank c) = true) (by simp [IsWord])

theorem isWord_of_mem_wordsFrom {run t : Text} (hrun : ∀ c ∈ run, isBlank c = false) {w : Text}
    (h : w ∈ wordsFrom run t) : IsWord w := by
  induction t generalizing run with
  | nil =>
    cases run with
    | nil => simp [wordsFrom] at h
    | cons c run =>
      simp only [wordsFrom, List.isEmpty_cons, Bool.false_eq_true, if_false,
        List.mem_singleton] at h
      subst h
      exact ⟨by simp, fun d hd => hrun d (List.mem_reverse.1 hd)⟩
  | cons c rest ih =>
    simp only [wordsFrom] at h
    split at h
    · cases run with
      | nil => exact ih (by simp) h
      | cons d run =>
        rcases List.mem_cons.1 h with rfl | h
        · exact ⟨by simp, fun e he => hrun e (List.mem_reverse.1 he)⟩
        · exact ih (by simp) h
    · rename_i hc
      refine ih (fun d hd => ?_) h
      rcases List.mem_cons.1 hd with rfl | hd
      · simpa using hc
      · exact hrun d hd

/-- **Words are words**: none is empty and none holds a blank. -/
theorem mem_words {t w : Text} (h : w ∈ words t) : IsWord w :=
  isWord_of_mem_wordsFrom (by simp) h

theorem wordsFrom_append_blank {c : Char} (hc : isBlank c = true) (run t u : Text) :
    wordsFrom run (t ++ c :: u) = wordsFrom run t ++ words u := by
  induction t generalizing run with
  | nil => cases run <;> simp [wordsFrom, words, hc]
  | cons d t ih =>
    simp only [List.cons_append, wordsFrom]
    split
    · split
      · exact ih []
      · rw [ih []]
        rfl
    · exact ih (d :: run)

/-- **A blank parts words**: those before it and those after it are all the words. -/
theorem words_append_blank {c : Char} (hc : isBlank c = true) (t u : Text) :
    words (t ++ c :: u) = words t ++ words u :=
  wordsFrom_append_blank hc [] t u

theorem wordsFrom_of_no_blank {w : Text} (hw : ∀ c ∈ w, isBlank c = false) (run : Text) :
    wordsFrom run w = wordsFrom (w.reverse ++ run) [] := by
  induction w generalizing run with
  | nil => rfl
  | cons c w ih =>
    have hc : isBlank c = false := hw c (by simp)
    simp [wordsFrom, hc, ih (fun d hd => hw d (by simp [hd]))]

/-- A word is its only word. -/
theorem words_of_isWord {w : Text} (hw : IsWord w) : words w = [w] := by
  obtain ⟨hne, hblank⟩ := hw
  rw [words, wordsFrom_of_no_blank hblank]
  simp [wordsFrom, hne]

/-- **The words of a join are the words joined.** -/
theorem words_unwords {ws : List Text} (h : ∀ w ∈ ws, IsWord w) : words (unwords ws) = ws := by
  induction ws with
  | nil => rfl
  | cons w ws ih =>
    have hw := words_of_isWord (h w (by simp))
    cases ws with
    | nil => exact hw
    | cons v rest =>
      rw [unwords, words_append_blank isBlank_space, hw, ih (fun u hu => h u (by simp [hu]))]
      rfl

/-! ## Lines -/

/-- The texts one per line, each line ended. -/
def unlines (ts : List Text) : Text := ts.flatMap (· ++ ['\n'])

@[simp]
theorem unlines_nil : unlines [] = [] := rfl

@[simp]
theorem unlines_cons (t : Text) (ts : List Text) : unlines (t :: ts) = t ++ '\n' :: unlines ts := by
  simp [unlines]

@[simp]
theorem unlines_append (ts us : List Text) : unlines (ts ++ us) = unlines ts ++ unlines us := by
  simp [unlines]

end Text

end OptGrammar
