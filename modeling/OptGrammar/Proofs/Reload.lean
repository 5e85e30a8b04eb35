/-
  Grammars with optional symbols — reading back what an expansion wrote.

  The listing of an expansion is always read.  Names are written as they stand, and a listing
  has two ways to change them: a carriage return at the end of a line is lost, and a rule line
  is read by its words.  So a name that ends in a carriage return, that holds a blank or that
  is empty is not found again; only headers and the base of the bare mark can be like that.

  Main statement: `read_expandInto`, what the listing of an expansion is read as, and when it
  is the grammar that was written.
-/
import OptGrammar.Proofs.Expansion
import OptGrammar.Proofs.Extent
import OptGrammar.Proofs.Listing

namespace OptGrammar

open Shorthand

/-- A source whose expansion is found again in its listing. -/
structure Shorthand.Content.Reloadable (c : Content) : Prop where
  header : ∀ s ∈ c.headers, s.name.getLast? ≠ some '\r'
  head : ∀ s ∈ c.headers, (s.isOptional = true ∨ ∃ r ∈ c.rules, r.head = s) → Text.IsWord s.name
  mark : ∀ s ∈ c.occurrences, s.name ≠ Symbol.mark

/-! ## Rule lines -/

namespace Rule

theorem words_line_ne_nil {r : Rule} {s : Symbol} {ch : Char} (hs : s ∈ r.symbols)
    (hm : ch ∈ s.name) (hch : Text.isBlank ch = false) : Text.words r.line ≠ [] :=
  Text.words_ne_nil (Text.mem_unwords (List.mem_map_of_mem hs) hm) hch

end Rule

/-! ## Names in an expansion -/

namespace Shorthand.Content

variable {source : Bytes} {c : Content} {s b : Symbol}

theorem header_or_isWord (hclean : c.Clean) (h : s ∈ c.occurrences) :
    s ∈ c.headers ∨ Text.IsWord s.name := by
  obtain ⟨line, hline, hs⟩ := List.mem_flatMap.1 h
  cases line with
  | silent => cases hs
  | header name =>
    obtain rfl := List.mem_singleton.1 hs
    exact .inl (List.mem_filterMap.2 ⟨_, hline, rfl⟩)
  | body words =>
    obtain ⟨w, hw, rfl⟩ := List.mem_map.1 hs
    exact .inr ((hclean.body words hline).2 w hw)

theorem not_newline_of_mem_occurrences (hclean : c.Clean) (h : s ∈ c.occurrences) :
    '\n' ∉ s.name := by
  rcases header_or_isWord hclean h with h | h
  · exact hclean.header s h
  · exact Text.not_mem_of_isWord h (by decide)

theorem mem_name_of_base? (h : s.base? = some b) {ch : Char} (hm : ch ∈ b.name) : ch ∈ s.name := by
  rw [Symbol.base?_eq_some_iff] at h
  subst h
  exact List.mem_append_left _ hm

/-- The line of every rule of an expansion has a word: a body has one, and so has the mark of
    an optional head. -/
theorem words_line_ne_nil (hclean : c.Clean) {r : Rule} (hr : r ∈ c.grammar.rules) :
    Text.words r.line ≠ [] := by
  rcases mem_grammar_rules_iff.1 hr with hr | ⟨s, -, b, hb, hr⟩
  · obtain ⟨words, hp, hbody⟩ := mem_rules_iff.1 hr
    obtain ⟨hne, hwords⟩ := hclean.body words (mem_of_mem_placed hp).1
    obtain ⟨w, rest, rfl⟩ := List.exists_cons_of_ne_nil hne
    obtain ⟨hw, hblank⟩ := hwords w List.mem_cons_self
    obtain ⟨ch, u, rfl⟩ := List.exists_cons_of_ne_nil hw
    have hs : (⟨ch :: u⟩ : Symbol) ∈ r.symbols := by simp [Rule.symbols, hbody]
    exact Rule.words_line_ne_nil hs List.mem_cons_self (hblank ch List.mem_cons_self)
  · have hhead : s ∈ r.symbols := by
      rcases hr with rfl | rfl
      · exact List.mem_cons_self
      · exact List.mem_cons_self
    rw [Symbol.base?_eq_some_iff] at hb
    have hmark : ')' ∈ s.name := by simp [hb, Symbol.optional, Symbol.mark]
    exact Rule.words_line_ne_nil hhead hmark (by decide)

/-- **The listing of every expansion can be read.** -/
theorem listable_grammar (hsize : source.length ≤ Count.greatest) (h : of? source = some c) :
    c.grammar.Listable := by
  have hclean := clean_of_of? h
  refine ⟨?_, fun r hr => ⟨words_line_ne_nil hclean hr, ?_⟩,
    Nat.le_trans (length_grammar_terminals_le h) hsize,
    Nat.le_trans (length_grammar_nonterminals_le h) hsize,
    Nat.le_trans (length_grammar_rules_le h) hsize⟩
  · intro s hs
    rw [List.cons_append, List.mem_cons, List.mem_append] at hs
    rcases hs with rfl | hs | hs
    · exact (by decide : '\n' ∉ ['G', 'o', 'a', 'l'])
    · exact (hclean.terminal s (List.mem_eraseDups.1 hs)).1
    · exact not_newline_of_mem_occurrences hclean (mem_nonterminals_iff.1 hs).1
  · intro s hs
    rcases occurs_of_mem_rules hr hs with hs | ⟨t, ht, hb⟩
    · exact not_newline_of_mem_occurrences hclean hs
    · exact fun hm => not_newline_of_mem_occurrences hclean ht (mem_name_of_base? hb hm)

/-! ## What is found again -/

theorem not_return_of_mem_terminals (hclean : c.Clean) (h : s ∈ c.terminals) :
    s.name.getLast? ≠ some '\r' := fun hlast =>
  absurd ((hclean.terminal s h).2 '\r' hlast) (by decide)

theorem terminals_dropReturn (hclean : c.Clean) :
    c.grammar.terminals.map Symbol.dropReturn = c.grammar.terminals :=
  Symbol.map_dropReturn_iff.2 fun _ hs =>
    not_return_of_mem_terminals hclean (List.mem_eraseDups.1 hs)

theorem nonterminals_dropReturn_iff (hclean : c.Clean) :
    c.grammar.nonterminals.map Symbol.dropReturn = c.grammar.nonterminals ↔
      ∀ s ∈ c.headers, s.name.getLast? ≠ some '\r' := by
  rw [Symbol.map_dropReturn_iff]
  constructor
  · intro h s hs
    by_cases hterminal : s ∈ c.terminals
    · exact not_return_of_mem_terminals hclean hterminal
    · exact h s (mem_nonterminals_iff.2 ⟨mem_occurrences_of_mem_headers hs, hterminal⟩)
  · intro h s hs
    rcases header_or_isWord hclean (mem_nonterminals_iff.1 hs).1 with hs | hs
    · exact h s hs
    · intro hlast
      exact Text.not_mem_of_isWord hs (by decide) (List.mem_of_getLast? hlast)

/-- The base of an optional word is a word, unless the word is the bare mark. -/
theorem isWord_of_base? (h : s.base? = some b) (hs : Text.IsWord s.name)
    (hmark : s.name ≠ Symbol.mark) : Text.IsWord b.name := by
  refine ⟨fun hnil => hmark ?_, fun ch hm => hs.2 ch (mem_name_of_base? h hm)⟩
  rw [Symbol.base?_eq_some_iff.1 h, Symbol.optional, hnil]
  rfl

/-- **When all names in rules are words.** -/
theorem isWord_of_mem_rules_iff (hclean : c.Clean) :
    (∀ r ∈ c.grammar.rules, ∀ s ∈ r.symbols, Text.IsWord s.name) ↔
      (∀ s ∈ c.headers, (s.isOptional = true ∨ ∃ r ∈ c.rules, r.head = s) → Text.IsWord s.name) ∧
      ∀ s ∈ c.occurrences, s.name ≠ Symbol.mark := by
  constructor
  · intro h
    refine ⟨?_, ?_⟩
    · intro s hs huse
      rcases huse with hopt | ⟨r, hr, rfl⟩
      · obtain ⟨b, hb⟩ := Symbol.exists_base? hopt
        have hr := mem_rules_of_occurs (mem_occurrences_of_mem_headers hs) hb (.inl rfl)
        exact h _ hr s List.mem_cons_self
      · exact h r (List.mem_append_left _ hr) r.head List.mem_cons_self
    · intro s hs hmark
      have hb : s.base? = some ⟨[]⟩ := Symbol.base?_eq_some_iff.2 (Symbol.ext hmark)
      have hr := mem_rules_of_occurs hs hb (.inr rfl)
      exact (h _ hr ⟨[]⟩ (by simp [Rule.symbols])).1 rfl
  · rintro ⟨hheads, hmark⟩
    have hoptional (s : Symbol) (hs : s ∈ c.occurrences) (hopt : s.isOptional = true) :
        Text.IsWord s.name := by
      rcases header_or_isWord hclean hs with h | h
      · exact hheads s h (.inl hopt)
      · exact h
    intro r hr s hs
    rcases mem_grammar_rules_iff.1 hr with hr | ⟨t, ht, b, hb, hr⟩
    · rcases List.mem_cons.1 hs with rfl | hs
      · exact hheads _ (mem_headers_of_mem_rules hr) (.inr ⟨r, hr, rfl⟩)
      · obtain ⟨words, hp, hbody⟩ := mem_rules_iff.1 hr
        rw [hbody] at hs
        obtain ⟨w, hw, rfl⟩ := List.mem_map.1 hs
        exact (hclean.body words (mem_of_mem_placed hp).1).2 w hw
    · have hword := hoptional t ht (Symbol.isOptional_of_base? hb)
      rcases hr with rfl | rfl
      · rwa [List.mem_singleton.1 hs]
      · rcases List.mem_cons.1 hs with rfl | hs
        · exact hword
        · rw [List.mem_singleton.1 hs]
          exact isWord_of_base? hb hword (hmark t ht)

end Shorthand.Content

/-- **What the listing of an expansion is read as.**  It is always read: terminals and the
    symbol to start from as they were, nonterminals without a carriage return at their ends,
    and rules as the words of their lines.  It is the grammar that was written exactly if the
    source is reloadable.  A source has a length of at most 64 bits, as counts have. -/
theorem read_expandInto {source : Bytes} {sink sink' : Sink} {g : Grammar} {c : Content}
    (hsize : source.length ≤ Count.greatest) (h : expandInto source sink = (.ok g, sink'))
    (hc : Content.of? source = some c) :
    ∃ out g', sink'.held = sink.held ++ out ∧ Listing.read out = .ok g' ∧
      g'.terminals = g.terminals ∧ g'.entrypoint = g.entrypoint ∧
      g'.nonterminals = g.nonterminals.map Symbol.dropReturn ∧
      g'.rules.map Rule.names = g.rules.map (fun r => Text.words r.line) ∧
      (g' = g ↔ c.Reloadable) := by
  obtain ⟨hexpand, hheld⟩ := expandInto_ok h
  obtain rfl := grammar_of_expand hexpand hc
  have hclean := Content.clean_of_of? hc
  obtain ⟨rs, hrs, hread⟩ := Listing.read_bytes (Content.listable_grammar hsize hc)
  refine ⟨_, _, hheld, hread, Content.terminals_dropReturn hclean, rfl, rfl, hrs, ?_⟩
  have hparts : (⟨c.grammar.terminals.map Symbol.dropReturn,
        c.grammar.nonterminals.map Symbol.dropReturn, c.grammar.entrypoint.dropReturn, rs⟩ :
        Grammar) = c.grammar ↔
      c.grammar.nonterminals.map Symbol.dropReturn = c.grammar.nonterminals ∧
        rs = c.grammar.rules := by
    rw [Content.terminals_dropReturn hclean]
    constructor
    · intro h
      exact ⟨congrArg Grammar.nonterminals h, congrArg Grammar.rules h⟩
    · rintro ⟨h, rfl⟩
      rw [h]
      rfl
  rw [hparts, Content.nonterminals_dropReturn_iff hclean, Rule.eq_iff_words_line hrs,
    Content.isWord_of_mem_rules_iff hclean]
  constructor
  · rintro ⟨hheader, hhead, hmark⟩
    exact ⟨hheader, hhead, hmark⟩
  · intro h
    exact ⟨h.header, h.head, h.mark⟩

theorem read_expandInto_sums :
    (sums.length ≤ Count.greatest ∧
      expandInto sums (.ofCapacity 1000) = (.ok sumsContent.grammar,
        (Sink.ofCapacity 1000).fill (Listing.bytes sumsContent.grammar)) ∧
      Content.of? sums = some sumsContent) ∧
    ∃ out g', ((Sink.ofCapacity 1000).fill (Listing.bytes sumsContent.grammar)).held = [] ++ out ∧
      Listing.read out = .ok g' ∧
      g'.terminals = sumsContent.grammar.terminals ∧
      g'.entrypoint = sumsContent.grammar.entrypoint ∧
      g'.nonterminals = sumsContent.grammar.nonterminals.map Symbol.dropReturn ∧
      g'.rules.map Rule.names = sumsContent.grammar.rules.map (fun r => Text.words r.line) ∧
      (g' = sumsContent.grammar ↔ sumsContent.Reloadable) := by
  have hsize : sums.length ≤ Count.greatest := by decide +kernel
  have hroom : (Listing.bytes sumsContent.grammar).length ≤ (Sink.ofCapacity 1000).room := by
    decide +kernel
  have hinto : expandInto sums (.ofCapacity 1000) = (.ok sumsContent.grammar,
      (Sink.ofCapacity 1000).fill (Listing.bytes sumsContent.grammar)) := by
    rw [expandInto_eq expand_sums, if_pos hroom]
  exact ⟨⟨hsize, hinto, of?_sums⟩, read_expandInto hsize hinto of?_sums⟩

end OptGrammar
