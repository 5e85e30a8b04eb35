/-
  Grammars with optional symbols — the grammar that a source expands to.

  Main statements: `expand_ok_iff`, a source expands exactly if it says something and has a
  header over every body; `expand_eq_grammar_iff`, its expansion is then the grammar that it
  stands for, and what is written is the listing of that grammar.
-/
import Mathlib.Control.Monad.Basic
import OptGrammar.Proofs.Source
import OptGrammar.Proofs.Writing

namespace OptGrammar

open Shorthand

theorem expand_ok_iff {source : Bytes} {g : Grammar} : (expand source).result = .ok g ↔
    ∃ c, Content.of? source = some c ∧ c.Headed ∧ g = c.grammar := by
  have hresult : (expand source).result = .ok g ↔ ∃ d, pass source = ⟨d, none⟩ ∧ g = d.finish := by
    rw [expand]
    split
    · rename_i d fault hpass
      simp [hpass]
    · rename_i d hpass
      simp [hpass, eq_comm]
  rw [hresult]
  constructor
  · rintro ⟨d, hpass, rfl⟩
    obtain ⟨c, hc, hheaded, rfl⟩ := pass_eq_iff.1 hpass
    exact ⟨c, hc, hheaded, c.finish_draft hheaded⟩
  · rintro ⟨c, hc, hheaded, rfl⟩
    exact ⟨c.draft, pass_eq_iff.2 ⟨c, hc, hheaded, rfl⟩, (c.finish_draft hheaded).symm⟩

theorem grammar_of_expand {source : Bytes} {g : Grammar} {c : Content}
    (h : (expand source).result = .ok g) (hc : Content.of? source = some c) : g = c.grammar := by
  obtain ⟨c', hc', -, rfl⟩ := expand_ok_iff.1 h
  rw [hc] at hc'
  rw [Option.some.inj hc']

/-- **A source expands to the grammar that it stands for**, and what is written is the listing
    of that grammar. -/
theorem expand_eq_grammar_iff {source : Bytes} {g : Grammar} : (expand source).result = .ok g ↔
    ∃ c, Content.of? source = some c ∧ c.Headed ∧ g = c.grammar ∧
      ∀ sink : Sink, (Listing.bytes g).length ≤ sink.room →
        expandInto source sink = (.ok g, { sink with held := sink.held ++ Listing.bytes g }) := by
  constructor
  · intro h
    obtain ⟨c, hc, hheaded, hg⟩ := expand_ok_iff.1 h
    refine ⟨c, hc, hheaded, hg, ?_⟩
    intro sink hroom
    rw [expandInto_eq h, if_pos hroom, Sink.fill_of_le hroom]
  · rintro ⟨c, hc, hheaded, hg, -⟩
    exact expand_ok_iff.2 ⟨c, hc, hheaded, hg⟩

/-! ## A source of sums -/

/-- Sums of `id`, whose tail is optional and has a rule of its own. -/
def sums : Bytes := Utf8.encode
  "2\nid\nPLUS\n# sums\nGoal:\nid Tail(opt)\n\nTail(opt):\n  PLUS  id Tail(opt)\n".toList

/-- What the source of sums says. -/
def sumsContent : Content where
  terminals := [⟨"id".toList⟩, ⟨"PLUS".toList⟩]
  lines := [.header "Goal".toList, .body ["id".toList, "Tail(opt)".toList],
    .header "Tail(opt)".toList, .body ["PLUS".toList, "id".toList, "Tail(opt)".toList]]

theorem of?_sums : Content.of? sums = some sumsContent := by decide +kernel

theorem expand_sums : (expand sums).result = .ok sumsContent.grammar := by decide +kernel

end OptGrammar
