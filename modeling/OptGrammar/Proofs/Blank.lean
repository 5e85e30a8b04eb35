/-
  Grammars with optional symbols — blanks at the ends of a text and between its words.

  Main statements: `trim_eq_self_iff`, what is trimmed already; `flatten_words`, the words of a
  text hold all of it but its blanks; `words_eq_nil_iff`, only a blank text has no words;
  `trimmed_iff`, what is left of a text that is trimmed.
-/
import Mathlib.Data.List.Basic
import Mathlib.Data.List.Induction
import OptGrammar.Text.Blank

namespace OptGrammar.Text

variable {t : Text} {c : Char}

/-! ## Trimming -/

theorem trim_eq (t : Text) :
    trim t = ((trimLeft t).reverse.dropWhile isBlank).reverse := rfl

theorem length_trim_le (t : Text) : (trim t).length ≤ t.length := by
  have h₁ := (List.dropWhile_sublist (l := (trimLeft t).reverse) isBlank).length_le
  have h₂ := (List.dropWhile_sublist (l := t) isBlank).length_le
  rw [List.length_reverse] at h₁
  rw [trim_eq, List.length_reverse]
  exact Nat.le_trans h₁ h₂

theorem mem_of_mem_trim (h : c ∈ trim t) : c ∈ t := by
  rw [trim_eq, List.mem_reverse] at h
  have := List.dropWhile_subset isBlank h
  rw [List.mem_reverse] at this
  exact List.dropWhile_subset isBlank this

theorem isBlank_of_head?_dropWhile {u : Text} (h : (u.dropWhile isBlank).head? = some c) :
    isBlank c = false := by
  have := List.head?_dropWhile_not isBlank u
  rwa [h] at this

/-- **A trimmed text does not end in a blank.** -/
theorem getLast?_trim (h : (trim t).getLast? = some c) : isBlank c = false := by
  rw [trim_eq, List.getLast?_reverse] at h
  exact isBlank_of_head?_dropWhile h

/-- **A trimmed text does not start with a blank.** -/
theorem head?_trim (h : (trim t).head? = some c) : isBlank c = false := by
  rw [trim_eq, List.head?_reverse] at h
  obtain ⟨l, hl⟩ := List.dropWhile_suffix isBlank (l := (trimLeft t).reverse)
  refine isBlank_of_head?_dropWhile (u := t) (c := c) ?_
  rw [← trimLeft, ← List.getLast?_reverse, ← hl, List.getLast?_append, h]
  rfl

theorem trimLeft_of_head? (h : ∀ c, t.head? = some c → isBlank c = false) : trimLeft t = t := by
  cases t with
  | nil => rfl
  | cons c t => exact List.dropWhile_cons_of_neg (by simp [h c rfl])

/-- **Nothing is trimmed** exactly if there is no blank at an end. -/
theorem trim_eq_self_iff : trim t = t ↔
    (∀ c, t.head? = some c → isBlank c = false) ∧
      ∀ c, t.getLast? = some c → isBlank c = false := by
  constructor
  · intro h
    rw [← h]
    exact ⟨fun c => head?_trim, fun c => getLast?_trim⟩
  · rintro ⟨hfirst, hlast⟩
    rw [trim, trimLeft_of_head? hfirst, trimLeft_of_head?, List.reverse_reverse]
    intro c hc
    rw [List.head?_reverse] at hc
    exact hlast c hc

/-- Nothing is trimmed from a text without blanks. -/
theorem trim_of_not_blank (h : ∀ c ∈ t, isBlank c = false) : trim t = t :=
  trim_eq_self_iff.2 ⟨fun c hc => h c (List.mem_of_head? hc),
    fun c hc => h c (List.mem_of_getLast? hc)⟩

/-- A blank at the end is trimmed. -/
theorem trim_append_blank (hc : isBlank c = true) (t : Text) :
    trim (t ++ [c]) = trim t := by
  rw [trim_eq, trim_eq, trimLeft, trimLeft, List.dropWhile_append]
  split
  · rename_i hblank
    rw [List.isEmpty_iff.1 hblank, List.dropWhile_cons_of_pos hc]
    rfl
  · rw [List.reverse_append, List.reverse_singleton, List.singleton_append,
      List.dropWhile_cons_of_pos hc]

/-! ## Words -/

theorem flatten_wordsFrom (run t : Text) :
    (wordsFrom run t).flatten = run.reverse ++ t.filter fun c => !isBlank c := by
  induction t generalizing run with
  | nil => cases run <;> simp [wordsFrom]
  | cons c t ih =>
    rw [wordsFrom]
    by_cases hc : isBlank c = true
    · rw [if_pos hc, List.filter_cons_of_neg (by simp [hc])]
      split
      · rename_i hrun
        rw [ih, List.isEmpty_iff.1 hrun]
      · rw [List.flatten_cons, ih]
        rfl
    · rw [if_neg hc, List.filter_cons_of_pos (by simp [hc]), ih]
      simp

/-- **The words of a text hold all of it but its blanks.** -/
theorem flatten_words (t : Text) : (words t).flatten = t.filter fun c => !isBlank c :=
  flatten_wordsFrom [] t

theorem words_ne_nil (hc : c ∈ t) (h : isBlank c = false) : words t ≠ [] := by
  intro hnil
  have : c ∈ (words t).flatten := by
    rw [flatten_words]
    simp [hc, h]
  rw [hnil] at this
  cases this

/-- A text of blanks alone. -/
def Blank (t : Text) : Prop := ∀ c ∈ t, isBlank c = true

/-- **A text has no words exactly if it is blank.** -/
theorem words_eq_nil_iff : words t = [] ↔ Blank t := by
  constructor
  · intro h c hc
    cases hblank : isBlank c with
    | true => rfl
    | false => exact absurd h (words_ne_nil hc hblank)
  · intro h
    have hflatten : (words t).flatten = [] := by
      rw [flatten_words, List.filter_eq_nil_iff]
      intro c hc
      simp [h c hc]
    refine List.eq_nil_iff_forall_not_mem.2 fun w hw => ?_
    exact (mem_words hw).1 (List.flatten_eq_nil_iff.1 hflatten w hw)

/-- A text that starts with no blank starts with its first word. -/
theorem head?_of_words {w : Text} (h : (words t).head? = some w) (hc : t.head? = some c)
    (hblank : isBlank c = false) : w.head? = some c := by
  have hflatten := congrArg List.head? (flatten_words t)
  obtain ⟨ws, hws⟩ := List.head?_eq_some_iff.1 h
  obtain ⟨t', rfl⟩ := List.head?_eq_some_iff.1 hc
  have hw : w ≠ [] := (mem_words (hws ▸ List.mem_cons_self)).1
  rwa [hws, List.flatten_cons, List.head?_append_of_ne_nil _ hw,
    List.filter_cons_of_pos (by simp [hblank])] at hflatten

/-- A text that ends in no blank ends in its last word. -/
theorem getLast?_of_words {w : Text} (h : (words t).getLast? = some w)
    (hc : t.getLast? = some c) (hblank : isBlank c = false) : w.getLast? = some c := by
  have hflatten := congrArg List.getLast? (flatten_words t)
  obtain ⟨ws, hws⟩ := List.getLast?_eq_some_iff.1 h
  obtain ⟨t', rfl⟩ := List.getLast?_eq_some_iff.1 hc
  have hw : w ≠ [] := (mem_words (hws ▸ List.mem_append_right _ List.mem_cons_self)).1
  rwa [hws, List.flatten_concat, List.getLast?_append_of_ne_nil _ hw, List.filter_append,
    List.filter_cons_of_pos (by simp [hblank]), List.filter_nil, List.getLast?_concat] at hflatten

/-- A join starts as its first text does, if that is not empty. -/
theorem head?_unwords {w : Text} {ws : List Text} (h : ws.head? = some w)
    (hc : w.head? = some c) : (unwords ws).head? = some c := by
  obtain ⟨ws, rfl⟩ := List.head?_eq_some_iff.1 h
  cases ws with
  | nil => exact hc
  | cons v ws => rw [unwords, List.head?_append, hc, Option.some_or]

/-- A join ends as its last text does, if that is not empty. -/
theorem getLast?_unwords {w : Text} {ws : List Text} (h : ws.getLast? = some w)
    (hc : w.getLast? = some c) : (unwords ws).getLast? = some c := by
  induction ws with
  | nil => cases h
  | cons v ws ih =>
    cases ws with
    | nil =>
      obtain rfl := Option.some.inj h
      exact hc
    | cons u rest =>
      rw [unwords, List.getLast?_append, List.getLast?_cons, ih h, Option.getD_some,
        Option.some_or]

theorem not_mem_of_isWord {w : Text} (h : IsWord w) (hc : isBlank c = true) : c ∉ w := by
  intro hm
  rw [h.2 c hm] at hc
  cases hc

theorem mem_unwords {w : Text} {ws : List Text} (hw : w ∈ ws) (hc : c ∈ w) : c ∈ unwords ws := by
  induction ws with
  | nil => cases hw
  | cons v ws ih =>
    cases ws with
    | nil =>
      obtain rfl := List.mem_singleton.1 hw
      exact hc
    | cons u rest =>
      rw [unwords]
      rcases List.mem_cons.1 hw with rfl | hw
      · exact List.mem_append_left _ hc
      · exact List.mem_append_right _ (List.mem_cons_of_mem _ (ih hw))

theorem eq_space_or_of_mem_unwords {ws : List Text} (h : c ∈ unwords ws) :
    c = ' ' ∨ ∃ w ∈ ws, c ∈ w := by
  induction ws with
  | nil => cases h
  | cons v ws ih =>
    cases ws with
    | nil => exact .inr ⟨v, List.mem_cons_self, h⟩
    | cons u rest =>
      rw [unwords] at h
      rcases List.mem_append.1 h with hv | h
      · exact .inr ⟨v, List.mem_cons_self, hv⟩
      · rcases List.mem_cons.1 h with hc | h
        · exact .inl hc
        · obtain hc | ⟨w, hw, hc⟩ := ih h
          · exact .inl hc
          · exact .inr ⟨w, List.mem_cons_of_mem _ hw, hc⟩

theorem not_mem_unwords {ws : List Text} (hc : c ≠ ' ') (h : ∀ w ∈ ws, c ∉ w) :
    c ∉ unwords ws := by
  intro hm
  obtain hspace | ⟨w, hw, hcw⟩ := eq_space_or_of_mem_unwords hm
  · exact hc hspace
  · exact h w hw hcw

/-! ## What trimming leaves -/

/-- **A text, and what is left of it** when the blanks around are taken away, and no others. -/
structure Trimmed (t u : Text) : Prop where
  around : ∃ front back, Blank front ∧ Blank back ∧ t = front ++ u ++ back
  first : ∀ c, u.head? = some c → isBlank c = false
  last : ∀ c, u.getLast? = some c → isBlank c = false

theorem blank_takeWhile (t : Text) : Blank (t.takeWhile isBlank) :=
  List.all_eq_true.1 List.all_takeWhile

theorem trimmed_trim (t : Text) : Trimmed t (trim t) := by
  refine ⟨⟨t.takeWhile isBlank, ((trimLeft t).reverse.takeWhile isBlank).reverse,
    blank_takeWhile t, fun c hc => blank_takeWhile _ c (List.mem_reverse.1 hc), ?_⟩,
    fun c => head?_trim, fun c => getLast?_trim⟩
  rw [trim_eq, List.append_assoc, ← List.reverse_append, List.takeWhile_append_dropWhile,
    List.reverse_reverse, trimLeft, List.takeWhile_append_dropWhile]

/-- Blanks around a text are trimmed. -/
theorem trim_append_of_blank {front back u : Text} (hfront : Blank front) (hback : Blank back) :
    trim (front ++ u ++ back) = trim u := by
  induction back using List.reverseRecOn with
  | nil =>
    have hleft : trimLeft (front ++ u) = trimLeft u := List.dropWhile_append_of_pos hfront
    rw [List.append_nil, trim_eq, trim_eq, hleft]
  | append_singleton back c ih =>
    rw [← List.append_assoc, trim_append_blank (hback c (by simp))]
    exact ih fun d hd => hback d (List.mem_append_left _ hd)

/-- **Trimming leaves what is between the blanks at the ends**, and nothing else is that. -/
theorem trimmed_iff {u : Text} : Trimmed t u ↔ trim t = u := by
  constructor
  · rintro ⟨⟨front, back, hfront, hback, rfl⟩, hfirst, hlast⟩
    rw [trim_append_of_blank hfront hback]
    exact trim_eq_self_iff.2 ⟨hfirst, hlast⟩
  · rintro rfl
    exact trimmed_trim t

end OptGrammar.Text
