/-
  Grammars with optional symbols — how many rules an optional symbol has.

  An expansion adds two rules for each optional symbol that occurs in its source.  Rules that
  are written out have bodies, so the empty rule is never there twice; the other one may be
  written out as well, and the base of a symbol may be optional without occurring itself.

  Main statements: `Content.count_rules`, the number of both rules of an optional symbol;
  `complete_expand`, when every optional symbol of an expansion has each exactly once.
-/
import OptGrammar.Proofs.Expansion

namespace OptGrammar

open Shorthand

/-- Every optional symbol in a rule derives nothing by exactly one rule, and its base by
    exactly one. -/
def Grammar.Complete (g : Grammar) : Prop :=
  ∀ r ∈ g.rules, ∀ s ∈ r.symbols, ∀ b, s.base? = some b →
    g.rules.count ⟨s, []⟩ = 1 ∧ g.rules.count ⟨s, [b]⟩ = 1

/-! ## Counting -/

namespace Symbol

variable {s b : Symbol} {body : List Symbol}

/-- Only a symbol itself has a rule in its expansion, and each of its two rules once. -/
theorem count_expansion (h : s.base? = some b) (hbody : body = [] ∨ body = [b]) (t : Symbol) :
    t.expansion.count ⟨s, body⟩ = if t = s then 1 else 0 := by
  split
  · rename_i ht
    rw [ht, expansion, h]
    rcases hbody with rfl | rfl <;> simp
  · rename_i ht
    refine List.count_eq_zero.2 fun hm => ht ?_
    cases hb : t.base? with
    | none => simp [expansion, hb] at hm
    | some b' =>
      rcases (mem_expansion_iff hb).1 hm with he | he
      · exact (congrArg Rule.head he).symm
      · exact (congrArg Rule.head he).symm

theorem count_flatMap_expansion (h : s.base? = some b) (hbody : body = [] ∨ body = [b])
    (symbols : List Symbol) :
    (symbols.flatMap expansion).count ⟨s, body⟩ = symbols.count s := by
  induction symbols with
  | nil => rfl
  | cons t symbols ih =>
    rw [List.flatMap_cons, List.count_append, ih, count_expansion h hbody, List.count_cons,
      Nat.add_comm]
    simp

end Symbol

namespace Shorthand.Content

variable {c : Content} {s b : Symbol} {body : List Symbol}

/-- **Both rules of an optional symbol** are added once if it occurs. -/
theorem count_rules (h : s.base? = some b) (hbody : body = [] ∨ body = [b]) :
    c.grammar.rules.count ⟨s, body⟩ =
      c.rules.count ⟨s, body⟩ + if s ∈ c.occurrences then 1 else 0 := by
  have hmem : s ∈ c.optionals ↔ s ∈ c.occurrences := by
    simp [mem_optionals_iff, Symbol.isOptional_of_base? h]
  have hnodup : c.optionals.Nodup := nodup_eraseDups _
  have hcount : c.optionals.count s = if s ∈ c.occurrences then 1 else 0 := by
    rw [hnodup.count]
    exact ite_congr (propext hmem) (fun _ => rfl) fun _ => rfl
  rw [rules_grammar, List.count_append, Symbol.count_flatMap_expansion h hbody, hcount]

theorem count_rules_nil (hclean : c.Clean) (s : Symbol) : c.rules.count ⟨s, []⟩ = 0 :=
  List.count_eq_zero.2 fun hm => body_ne_nil hclean hm rfl

theorem complete_grammar_iff (hclean : c.Clean) : c.grammar.Complete ↔
    (∀ s b, s.base? = some b → ⟨s, [b]⟩ ∉ c.rules) ∧
      ∀ s ∈ c.occurrences, ∀ b, s.base? = some b → b.isOptional = true → b ∈ c.occurrences := by
  constructor
  · intro h
    refine ⟨?_, ?_⟩
    · intro s b hb hm
      have hs := mem_occurrences_of_mem_headers (mem_headers_of_mem_rules hm)
      have hone := (h _ (mem_rules_of_occurs hs hb (.inl rfl)) s List.mem_cons_self b hb).2
      have hpos := List.count_pos_iff.2 hm
      rw [count_rules hb (.inr rfl), if_pos hs] at hone
      omega
    · intro s hs b hb hopt
      obtain ⟨b', hb'⟩ := Symbol.exists_base? hopt
      have hone := (h _ (mem_rules_of_occurs hs hb (.inr rfl)) b (by simp [Rule.symbols]) b' hb').1
      rw [count_rules hb' (.inl rfl), count_rules_nil hclean] at hone
      by_cases hoccurs : b ∈ c.occurrences
      · exact hoccurs
      · rw [if_neg hoccurs] at hone
        cases hone
  · rintro ⟨hwritten, hbases⟩ r hr s hs b hb
    have hoccurs : s ∈ c.occurrences := by
      rcases occurs_of_mem_rules hr hs with hs | ⟨t, ht, hbase⟩
      · exact hs
      · exact hbases t ht s hbase (Symbol.isOptional_of_base? hb)
    rw [count_rules hb (.inl rfl), count_rules hb (.inr rfl), if_pos hoccurs,
      count_rules_nil hclean, List.count_eq_zero.2 (hwritten s b hb)]
    exact ⟨rfl, rfl⟩

end Shorthand.Content

/-- **When an expansion is complete**, and how many rules its optional symbols have anyway. -/
theorem complete_expand {source : Bytes} {g : Grammar} {c : Content}
    (hg : (expand source).result = .ok g) (hc : Content.of? source = some c) :
    (g.Complete ↔ (∀ s b, s.base? = some b → ⟨s, [b]⟩ ∉ c.rules) ∧
      ∀ s ∈ c.occurrences, ∀ b, s.base? = some b → b.isOptional = true → b ∈ c.occurrences) ∧
    ∀ s ∈ c.occurrences, ∀ b, s.base? = some b →
      g.rules.count ⟨s, []⟩ = 1 ∧ g.rules.count ⟨s, [b]⟩ = 1 + c.rules.count ⟨s, [b]⟩ := by
  have hclean := Content.clean_of_of? hc
  rw [grammar_of_expand hg hc]
  refine ⟨Content.complete_grammar_iff hclean, ?_⟩
  intro s hs b hb
  rw [Content.count_rules hb (.inl rfl), Content.count_rules hb (.inr rfl), if_pos hs,
    Content.count_rules_nil hclean]
  exact ⟨rfl, Nat.add_comm ..⟩

theorem complete_expand_sums :
    ((expand sums).result = .ok sumsContent.grammar ∧ Content.of? sums = some sumsContent) ∧
    (sumsContent.grammar.Complete ↔
      (∀ s b, s.base? = some b → ⟨s, [b]⟩ ∉ sumsContent.rules) ∧
      ∀ s ∈ sumsContent.occurrences, ∀ b, s.base? = some b → b.isOptional = true →
        b ∈ sumsContent.occurrences) ∧
    ∀ s ∈ sumsContent.occurrences, ∀ b, s.base? = some b →
      sumsContent.grammar.rules.count ⟨s, []⟩ = 1 ∧
      sumsContent.grammar.rules.count ⟨s, [b]⟩ = 1 + sumsContent.rules.count ⟨s, [b]⟩ :=
  ⟨⟨expand_sums, of?_sums⟩, complete_expand expand_sums of?_sums⟩

end OptGrammar
