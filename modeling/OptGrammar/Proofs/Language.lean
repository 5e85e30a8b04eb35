/-
  Grammars with optional symbols — the language of an expansion.

  Main statement: `derives_expand_iff`, an expansion derives from a symbol what the rules
  written out derive when each is read in all ways that its optional symbols allow.
-/
import OptGrammar.Proofs.Derivation
import OptGrammar.Proofs.Expansion

namespace OptGrammar

open Shorthand

/-- The base of a symbol that does not carry two marks is not optional. -/
theorem Symbol.not_optional_of_base? {s b : Symbol} (hmarks : ¬ mark ++ mark <:+ s.name)
    (hb : s.base? = some b) : b.isOptional = false := by
  rw [base?_eq_some_iff] at hb
  subst hb
  cases hopt : b.isOptional with
  | false => rfl
  | true =>
    obtain ⟨b', rfl⟩ := isOptional_iff.1 hopt
    exact absurd ⟨b'.name, by simp [optional]⟩ hmarks

/-- **An expansion keeps the language.**  Of symbols and rows without a mark, it derives what
    the readings of the rules written out derive. -/
theorem derives_expand_iff {source : Bytes} {g : Grammar} {c : Content}
    (hg : (expand source).result = .ok g) (hc : Content.of? source = some c)
    (hmarks : ∀ s ∈ c.occurrences, ¬ Symbol.mark ++ Symbol.mark <:+ s.name)
    {a : Symbol} {w : List Symbol} (ha : a.isOptional = false)
    (hw : ∀ s ∈ w, s.isOptional = false) :
    Derives g.rules [a] w ↔ Derives (c.rules.flatMap Rule.readings) [a] w := by
  rw [grammar_of_expand hg hc, Content.rules_grammar]
  constructor
  · intro h
    have hbase : ∀ s ∈ c.optionals, ∀ b, s.base? = some b → b.isOptional = false := by
      intro s hs b hb
      exact Symbol.not_optional_of_base? (hmarks s (Content.mem_optionals_iff.1 hs).1) hb
    obtain ⟨u, hu, hderives⟩ := exists_reading hbase hw h
    rw [bodyReadings_singleton, Symbol.readings_of_not_optional ha, List.mem_singleton] at hu
    rwa [hu] at hderives
  · intro h
    refine derives_of_readings (fun r hr s hs hopt => ?_) h
    exact Content.mem_optionals_iff.2 ⟨Content.mem_occurrences_of_mem_body hr hs, hopt⟩

theorem derives_expand_sums :
    ((expand sums).result = .ok sumsContent.grammar ∧ Content.of? sums = some sumsContent ∧
      (∀ s ∈ sumsContent.occurrences, ¬ Symbol.mark ++ Symbol.mark <:+ s.name) ∧
      (⟨"Goal".toList⟩ : Symbol).isOptional = false ∧
      ∀ s ∈ ([⟨"id".toList⟩, ⟨"PLUS".toList⟩, ⟨"id".toList⟩] : List Symbol),
        s.isOptional = false) ∧
    (Derives sumsContent.grammar.rules [⟨"Goal".toList⟩]
        [⟨"id".toList⟩, ⟨"PLUS".toList⟩, ⟨"id".toList⟩] ↔
      Derives (sumsContent.rules.flatMap Rule.readings) [⟨"Goal".toList⟩]
        [⟨"id".toList⟩, ⟨"PLUS".toList⟩, ⟨"id".toList⟩]) := by
  have hmarks : ∀ s ∈ sumsContent.occurrences, ¬ Symbol.mark ++ Symbol.mark <:+ s.name := by
    decide +kernel
  have hrow : ∀ s ∈ ([⟨"id".toList⟩, ⟨"PLUS".toList⟩, ⟨"id".toList⟩] : List Symbol),
      s.isOptional = false := by
    decide +kernel
  have hgoal : (⟨"Goal".toList⟩ : Symbol).isOptional = false := by decide +kernel
  exact ⟨⟨expand_sums, of?_sums, hmarks, hgoal, hrow⟩,
    derives_expand_iff expand_sums of?_sums hmarks hgoal hrow⟩

end OptGrammar
