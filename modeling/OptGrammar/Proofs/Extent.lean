/-
  Grammars with optional symbols — how long the parts of an expansion are.

  Every symbol on a line takes up characters of it, and an optional symbol at least as many
  as its mark.  So no list in a source or in its expansion is longer than the source.

  Main statements: `Content.extent_le`, the symbols of a source fit into it, each optional one
  three times; `Content.length_grammar_rules_le`, so do the rules of its expansion.
-/
import OptGrammar.Proofs.Calls
import OptGrammar.Proofs.Content

namespace OptGrammar

/-! ## Lines in bytes -/

theorem Bytes.length_linesFrom_le (run bs : Bytes) :
    (linesFrom run bs).length ≤ run.length + bs.length := by
  induction bs generalizing run with
  | nil => cases run <;> simp [linesFrom]
  | cons b bs ih =>
    rw [linesFrom]
    split
    · have := ih []
      simp only [List.length_cons, List.length_nil] at *
      omega
    · have := ih (b :: run)
      simp only [List.length_cons] at *
      omega

theorem Bytes.length_lines_le (bs : Bytes) : (lines bs).length ≤ bs.length := by
  have := length_linesFrom_le [] bs
  rwa [List.length_nil, Nat.zero_add] at this

theorem Bytes.length_dropReturn_le (run : Bytes) : (dropReturn run).length ≤ run.length := by
  rw [dropReturn.eq_def]
  split
  · exact Nat.le_succ _
  · exact Nat.le_refl _

theorem Bytes.length_flatten_linesFrom_le (run bs : Bytes) :
    (linesFrom run bs).flatten.length ≤ run.length + bs.length := by
  induction bs generalizing run with
  | nil => cases run <;> simp [linesFrom]
  | cons b bs ih =>
    rw [linesFrom]
    split
    · have := ih []
      have := length_dropReturn_le run
      simp only [List.flatten_cons, List.length_append, List.length_reverse, List.length_cons,
        List.length_nil] at *
      omega
    · have := ih (b :: run)
      simp only [List.length_cons] at *
      omega

theorem Utf8.length_le_length_encode (t : Text) : t.length ≤ (encode t).length := by
  induction t with
  | nil => exact Nat.le_refl _
  | cons c t ih =>
    have := Char.utf8Size_pos c
    rw [encode_cons, List.length_append, String.length_utf8EncodeChar, List.length_cons]
    omega

/-- The texts on the lines of bytes have no more characters than there are bytes. -/
theorem Bytes.length_flatten_le_of_lines {bs : Bytes} {texts : List Text}
    (h : bs.lines = texts.map Utf8.encode) : texts.flatten.length ≤ bs.length := by
  have hlines := length_flatten_linesFrom_le [] bs
  rw [← lines, h] at hlines
  have htexts : texts.flatten.length ≤ (texts.map Utf8.encode).flatten.length := by
    clear h hlines
    induction texts with
    | nil => exact Nat.le_refl _
    | cons t texts ih =>
      have := Utf8.length_le_length_encode t
      simp only [List.map_cons, List.flatten_cons, List.length_append]
      omega
  simpa using Nat.le_trans htexts hlines

/-! ## Symbols on a line -/

/-- The number of symbols in a list, of which each optional one counts three times. -/
def extent (symbols : List Symbol) : Nat :=
  symbols.length + 2 * symbols.countP Symbol.isOptional

@[simp]
theorem extent_append (symbols more : List Symbol) :
    extent (symbols ++ more) = extent symbols + extent more := by
  simp only [extent, List.length_append, List.countP_append]
  omega

theorem extent_singleton (s : Symbol) : extent [s] = if s.isOptional then 3 else 1 := by
  rw [extent, List.length_singleton, List.countP_singleton]
  split <;> rfl

theorem length_mark_le {s : Symbol} (h : s.isOptional = true) : 5 ≤ s.name.length := by
  rw [Symbol.isOptional, List.isSuffixOf_iff_suffix] at h
  exact h.length_le

theorem extent_singleton_le (s : Symbol) : extent [s] ≤ s.name.length + 1 := by
  rw [extent_singleton]
  split
  · rename_i hs
    have := length_mark_le hs
    omega
  · omega

theorem extent_singleton_le_of_ne_nil {s : Symbol} (h : s.name ≠ []) :
    extent [s] ≤ s.name.length := by
  have hpos := List.length_pos_iff.2 h
  rw [extent_singleton]
  split
  · rename_i hs
    have := length_mark_le hs
    omega
  · omega

namespace Shorthand

theorem extent_words_le {words : List Text} (h : ∀ w ∈ words, w ≠ []) :
    extent (words.map Symbol.mk) ≤ words.flatten.length := by
  induction words with
  | nil => exact Nat.le_refl _
  | cons w words ih =>
    have hw := extent_singleton_le_of_ne_nil (s := ⟨w⟩) (h w List.mem_cons_self)
    have hwords := ih fun v hv => h v (List.mem_cons_of_mem _ hv)
    rw [List.map_cons, ← List.singleton_append, extent_append, List.flatten_cons,
      List.length_append]
    exact Nat.add_le_add hw hwords

theorem Line.extent_symbols_le (t : Text) : extent (ofKept t).symbols ≤ t.length := by
  rw [ofKept]
  split
  · rename_i hlast
    obtain ⟨u, rfl⟩ := List.getLast?_eq_some_iff.1 hlast
    rw [List.dropLast_concat, List.length_append]
    exact extent_singleton_le ⟨u⟩
  · refine Nat.le_trans (extent_words_le fun w hw => (Text.mem_words hw).1) ?_
    rw [Text.flatten_words]
    exact List.length_filter_le _ _

theorem extent_kept_le (texts : List Text) :
    extent ((kept texts).flatMap Line.symbols) ≤ texts.flatten.length := by
  induction texts with
  | nil => exact Nat.le_refl _
  | cons t texts ih =>
    rw [List.flatten_cons, List.length_append]
    by_cases ht : Line.ofText t = .silent
    · rw [kept_cons_silent ht]
      omega
    · rw [kept_cons ht, List.flatMap_cons, extent_append]
      refine Nat.add_le_add ?_ ih
      rw [Line.ofText_eq] at ht ⊢
      split
      · exact Nat.le_trans (Line.extent_symbols_le _) (Text.length_trim_le t)
      · exact Nat.zero_le _

namespace Content

variable {source : Bytes} {c : Content}

theorem length_terminals_le (h : of? source = some c) : c.terminals.length ≤ source.length := by
  obtain ⟨first, terminals, rest, hlines, -, rfl⟩ := of?_eq_some_iff.1 h
  have := Bytes.length_lines_le source
  rw [hlines] at this
  simp at this ⊢
  omega

/-- **The symbols of a source fit into it.** -/
theorem extent_le (h : of? source = some c) : extent c.occurrences ≤ source.length := by
  obtain ⟨first, terminals, rest, hlines, -, rfl⟩ := of?_eq_some_iff.1 h
  have hkept := extent_kept_le rest
  have htexts := Bytes.length_flatten_le_of_lines hlines
  simp only [List.flatten_cons, List.flatten_append, List.length_append] at htexts
  refine Nat.le_trans hkept ?_
  omega

/-! ## Parts of an expansion -/

theorem length_placed_le {lines : List Line} (h : ∀ words, .body words ∈ lines → words ≠ [])
    (head : Option Symbol) :
    ((placed head lines).filterMap ruleOf?).length ≤ (lines.flatMap Line.symbols).length := by
  induction lines generalizing head with
  | nil => exact Nat.le_refl _
  | cons line lines ih =>
    have hrest := ih (fun words hw => h words (List.mem_cons_of_mem _ hw)) (line.header?.or head)
    rw [placed, List.filterMap_cons, List.flatMap_cons, List.length_append]
    split
    · omega
    · rename_i r hr
      have hline : 0 < line.symbols.length := by
        cases line with
        | silent | header => cases hr
        | body words =>
          rw [Line.symbols, List.length_map]
          exact List.length_pos_iff.2 (h words List.mem_cons_self)
      rw [List.length_cons]
      omega

theorem length_rules_le (hclean : c.Clean) : c.rules.length ≤ c.occurrences.length :=
  length_placed_le (fun words hw => (hclean.body words hw).1) none

theorem length_flatMap_expansion_le (symbols : List Symbol) :
    (symbols.flatMap Symbol.expansion).length ≤ 2 * symbols.length := by
  induction symbols with
  | nil => exact Nat.le_refl _
  | cons s symbols ih =>
    have : s.expansion.length ≤ 2 := by
      rw [Symbol.expansion]
      split <;> simp
    rw [List.flatMap_cons, List.length_append, List.length_cons]
    omega

theorem length_grammar_terminals_le (h : of? source = some c) :
    c.grammar.terminals.length ≤ source.length :=
  Nat.le_trans (length_eraseDups_le _) (length_terminals_le h)

theorem length_grammar_nonterminals_le (h : of? source = some c) :
    c.grammar.nonterminals.length ≤ source.length := by
  have hextent := extent_le h
  rw [extent] at hextent
  refine Nat.le_trans (length_eraseDups_le _) (Nat.le_trans (List.length_filter_le _ _) ?_)
  omega

/-- **The rules of an expansion are no more than its source has bytes.** -/
theorem length_grammar_rules_le (h : of? source = some c) :
    c.grammar.rules.length ≤ source.length := by
  have hextent := extent_le h
  have hrules := length_rules_le (clean_of_of? h)
  have hoptionals := length_eraseDups_le (c.occurrences.filter Symbol.isOptional)
  have hexpansion := length_flatMap_expansion_le c.optionals
  rw [← optionals, ← List.countP_eq_length_filter] at hoptionals
  rw [extent] at hextent
  rw [rules_grammar, List.length_append]
  omega

end Content

end Shorthand

end OptGrammar
