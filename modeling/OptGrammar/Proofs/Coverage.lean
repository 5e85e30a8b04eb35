/-
  Grammars with optional symbols — which symbols an expansion lists, and which have rules.

  A symbol that occurs in a source is listed in its role.  The base of an optional symbol is
  not listed for that alone, although a rule derives it.  A symbol has rules if a body stands
  under it or if it is optional, whatever its role is.

  * `Content.Filled`: a header with a body.

  Main statement: `coverage_expand`, which symbols of the rules are not listed, which terminals
  have rules and which nonterminals have none; every head is listed.
-/
import OptGrammar.Proofs.Expansion

namespace OptGrammar

open Shorthand

namespace Shorthand.Content

variable {c : Content} {s : Symbol} {r : Rule}

/-- **A header with a body**: a body stands where the symbol is the header met last. -/
def Filled (c : Content) (s : Symbol) : Prop :=
  ∃ words, (some s, Line.body words) ∈ placed none c.lines

theorem filled_iff : c.Filled s ↔ ∃ r ∈ c.rules, r.head = s := by
  constructor
  · rintro ⟨words, hp⟩
    exact ⟨⟨s, words.map Symbol.mk⟩, mem_rules_iff.2 ⟨words, hp, rfl⟩, rfl⟩
  · rintro ⟨r, hr, rfl⟩
    obtain ⟨words, hp, -⟩ := mem_rules_iff.1 hr
    exact ⟨words, hp⟩

/-! ## The two lists -/

/-- A symbol is in neither list exactly if the source does not have it. -/
theorem unlisted_iff : (s ∉ c.grammar.terminals ∧ s ∉ c.grammar.nonterminals) ↔
    s ∉ c.terminals ∧ s ∉ c.occurrences := by
  rw [mem_terminals_iff, mem_nonterminals_iff]
  constructor
  · rintro ⟨hterminal, hnonterminal⟩
    exact ⟨hterminal, fun hs => hnonterminal ⟨hs, hterminal⟩⟩
  · rintro ⟨hterminal, hoccurs⟩
    exact ⟨hterminal, fun hs => hoccurs hs.1⟩

/-- A symbol of the rules that does not occur in the source is the base of one that does. -/
theorem exists_rule_of_base {t : Symbol} (ht : t ∈ c.occurrences) (hbase : t.base? = some s) :
    ∃ r ∈ c.grammar.rules, s ∈ r.symbols :=
  ⟨⟨t, [s]⟩, mem_rules_of_occurs ht hbase (.inr rfl), by simp [Rule.symbols]⟩

/-! ## Heads -/

/-- **A symbol is a head** exactly if a body stands under it or it is optional. -/
theorem exists_head_iff : (∃ r ∈ c.grammar.rules, r.head = s) ↔
    c.Filled s ∨ s ∈ c.occurrences ∧ s.isOptional = true := by
  constructor
  · rintro ⟨r, hr, rfl⟩
    rcases mem_grammar_rules_iff.1 hr with hr | ⟨t, hoccurs, b, hb, rfl | rfl⟩
    · exact .inl (filled_iff.2 ⟨r, hr, rfl⟩)
    · exact .inr ⟨hoccurs, Symbol.isOptional_of_base? hb⟩
    · exact .inr ⟨hoccurs, Symbol.isOptional_of_base? hb⟩
  · rintro (h | ⟨hoccurs, hopt⟩)
    · obtain ⟨r, hr, hhead⟩ := filled_iff.1 h
      exact ⟨r, List.mem_append_left _ hr, hhead⟩
    · obtain ⟨b, hb⟩ := Symbol.exists_base? hopt
      exact ⟨⟨s, []⟩, mem_rules_of_occurs hoccurs hb (.inl rfl), rfl⟩

theorem head_mem_occurrences (hr : r ∈ c.grammar.rules) : r.head ∈ c.occurrences := by
  rcases exists_head_iff.1 ⟨r, hr, rfl⟩ with h | h
  · obtain ⟨r', hr', hhead⟩ := filled_iff.1 h
    rw [← hhead]
    exact mem_occurrences_of_mem_headers (mem_headers_of_mem_rules hr')
  · exact h.1

end Shorthand.Content

/-- **What a consumer of an expansion can rely on.**  A symbol of its rules is not listed
    exactly if it is the base of an optional symbol and not in the source itself.  A terminal is
    a head exactly if it is a header with a body or an optional symbol that occurs, and a
    nonterminal is none exactly if it is neither optional nor a header with a body.  Every head
    is in one list and not in the other. -/
theorem coverage_expand {source : Bytes} {g : Grammar} {c : Content}
    (hg : (expand source).result = .ok g) (hc : Content.of? source = some c) :
    (∀ s, ((∃ r ∈ g.rules, s ∈ r.symbols) ∧ s ∉ g.terminals ∧ s ∉ g.nonterminals) ↔
      (∃ t ∈ c.occurrences, t.base? = some s) ∧ s ∉ c.terminals ∧ s ∉ c.occurrences) ∧
    (∀ s ∈ g.terminals, (∃ r ∈ g.rules, r.head = s) ↔
      c.Filled s ∨ s ∈ c.occurrences ∧ s.isOptional = true) ∧
    (∀ s ∈ g.nonterminals, (∀ r ∈ g.rules, r.head ≠ s) ↔
      s.isOptional = false ∧ ¬ c.Filled s) ∧
    ∀ r ∈ g.rules, r.head ∈ g.terminals ↔ r.head ∉ g.nonterminals := by
  rw [grammar_of_expand hg hc]
  refine ⟨?_, fun s _ => Content.exists_head_iff, ?_, ?_⟩
  · intro s
    rw [Content.unlisted_iff]
    constructor
    · rintro ⟨⟨r, hr, hs⟩, hterminal, hoccurs⟩
      rcases Content.occurs_of_mem_rules hr hs with hs | hbase
      · exact absurd hs hoccurs
      · exact ⟨hbase, hterminal, hoccurs⟩
    · rintro ⟨⟨t, ht, hbase⟩, hunlisted⟩
      exact ⟨Content.exists_rule_of_base ht hbase, hunlisted⟩
  · intro s hs
    have hoccurs := (Content.mem_nonterminals_iff.1 hs).1
    have hnone : (∀ r ∈ c.grammar.rules, r.head ≠ s) ↔ ¬ ∃ r ∈ c.grammar.rules, r.head = s := by
      simp only [not_exists, not_and, ne_eq]
    rw [hnone, Content.exists_head_iff, not_or, and_comm]
    simp [hoccurs]
  · intro r hr
    rw [Content.mem_terminals_iff, Content.mem_nonterminals_iff]
    simp [Content.head_mem_occurrences hr]

/-! ## A source with terminals as heads -/

/-- A source in which one terminal is a header and one is optional, and a header has no body. -/
def mixed : Bytes := Utf8.encode "2\nid\nSign(opt)\nid:\nSign(opt) Digit\nRest:\n".toList

/-- What that source says. -/
def mixedContent : Content where
  terminals := [⟨"id".toList⟩, ⟨"Sign(opt)".toList⟩]
  lines := [.header "id".toList, .body ["Sign(opt)".toList, "Digit".toList],
    .header "Rest".toList]

theorem of?_mixed : Content.of? mixed = some mixedContent := by decide +kernel

theorem expand_mixed : (expand mixed).result = .ok mixedContent.grammar := by decide +kernel

theorem coverage_expand_mixed :
    ((expand mixed).result = .ok mixedContent.grammar ∧
      Content.of? mixed = some mixedContent) ∧
    (∀ s, ((∃ r ∈ mixedContent.grammar.rules, s ∈ r.symbols) ∧
        s ∉ mixedContent.grammar.terminals ∧ s ∉ mixedContent.grammar.nonterminals) ↔
      (∃ t ∈ mixedContent.occurrences, t.base? = some s) ∧ s ∉ mixedContent.terminals ∧
        s ∉ mixedContent.occurrences) ∧
    (∀ s ∈ mixedContent.grammar.terminals, (∃ r ∈ mixedContent.grammar.rules, r.head = s) ↔
      mixedContent.Filled s ∨ s ∈ mixedContent.occurrences ∧ s.isOptional = true) ∧
    (∀ s ∈ mixedContent.grammar.nonterminals, (∀ r ∈ mixedContent.grammar.rules, r.head ≠ s) ↔
      s.isOptional = false ∧ ¬ mixedContent.Filled s) ∧
    ∀ r ∈ mixedContent.grammar.rules,
      r.head ∈ mixedContent.grammar.terminals ↔ r.head ∉ mixedContent.grammar.nonterminals :=
  ⟨⟨expand_mixed, of?_mixed⟩, coverage_expand expand_mixed of?_mixed⟩

end OptGrammar
