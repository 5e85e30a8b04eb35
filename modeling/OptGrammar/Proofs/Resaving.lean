/-
  Grammars with optional symbols — saving and loading a grammar over and over.

  A grammar that was loaded can be saved and loaded again, as often as one likes.  Each time its
  names lose one carriage return from their ends, until there is none, and from then on nothing
  changes.

  * `Grammar.nameLength`: the number of characters that can be lost.
  * `Listing.resave`: a grammar that is saved and loaded a number of times.

  Main statements: `resave_eq`, what becomes of a grammar that can be read;
  `resave_of_read`, a grammar that was loaded settles.
-/
import Mathlib.Algebra.Order.BigOperators.Group.List
import Mathlib.Algebra.Order.Ring.Nat
import OptGrammar.Proofs.RoundTrip

namespace OptGrammar

/-! ## Carriage returns lost -/

theorem Text.length_dropReturn_lt {t : Text} (h : t.getLast? = some '\r') :
    t.dropReturn.length < t.length := by
  obtain ⟨u, rfl⟩ := List.getLast?_eq_some_iff.1 h
  rw [dropReturn, if_pos h, List.dropLast_concat, List.length_append]
  exact Nat.lt_succ_self _

theorem Text.length_dropReturn_le (t : Text) : t.dropReturn.length ≤ t.length := by
  by_cases h : t.getLast? = some '\r'
  · exact Nat.le_of_lt (length_dropReturn_lt h)
  · rw [dropReturn_eq_self_iff.2 h]

theorem Text.mem_of_mem_dropReturn {t : Text} {c : Char} (h : c ∈ t.dropReturn) : c ∈ t := by
  rw [dropReturn] at h
  split at h
  · exact List.dropLast_subset _ h
  · exact h

namespace Grammar

variable {g : Grammar}

/-- The number of characters in the names that have lines of their own. -/
def nameLength (g : Grammar) : Nat :=
  ((g.entrypoint :: g.terminals ++ g.nonterminals).map fun s => s.name.length).sum

theorem nameLength_dropReturn (g : Grammar) : g.dropReturn.nameLength =
    ((g.entrypoint :: g.terminals ++ g.nonterminals).map fun s =>
      s.dropReturn.name.length).sum := by
  simp [nameLength, dropReturn, Function.comp_def]

/-- A grammar that changes loses a character. -/
theorem nameLength_dropReturn_lt (h : g.dropReturn ≠ g) :
    g.dropReturn.nameLength < g.nameLength := by
  have hlast : ∃ s ∈ g.entrypoint :: g.terminals ++ g.nonterminals,
      s.name.getLast? = some '\r' := by
    by_contra hnone
    push Not at hnone
    exact h (dropReturn_eq_self_iff.2 hnone)
  obtain ⟨s, hs, hlast⟩ := hlast
  rw [nameLength_dropReturn, nameLength]
  exact List.sum_lt_sum _ _ (fun s _ => Text.length_dropReturn_le s.name)
    ⟨s, hs, Text.length_dropReturn_lt hlast⟩

/-- **In the end there is nothing more to lose.** -/
theorem exists_dropReturn_iterate (g : Grammar) :
    ∃ n, (dropReturn^[n] g).dropReturn = dropReturn^[n] g := by
  induction hsize : g.nameLength using Nat.strong_induction_on generalizing g with
  | _ size ih =>
    subst hsize
    by_cases hg : g.dropReturn = g
    · exact ⟨0, hg⟩
    · obtain ⟨n, hn⟩ := ih _ (nameLength_dropReturn_lt hg) g.dropReturn rfl
      exact ⟨n + 1, hn⟩

theorem Readable.dropReturn (h : g.Readable) : g.dropReturn.Readable := by
  refine ⟨?_, h.rules⟩
  have hmap : g.dropReturn.entrypoint :: g.dropReturn.terminals ++ g.dropReturn.nonterminals =
      (g.entrypoint :: g.terminals ++ g.nonterminals).map Symbol.dropReturn := by
    simp [Grammar.dropReturn]
  rw [hmap]
  intro s' hs' hm
  obtain ⟨s, hs, rfl⟩ := List.mem_map.1 hs'
  exact h.names s hs (Text.mem_of_mem_dropReturn hm)

theorem Countable.dropReturn (h : g.Countable) : g.dropReturn.Countable :=
  ⟨by simpa [Grammar.dropReturn] using h.terminals,
    by simpa [Grammar.dropReturn] using h.nonterminals, h.rules⟩

end Grammar

/-! ## Saving and loading -/

namespace Listing

variable {g : Grammar} {bs : Bytes}

/-- A grammar that is saved and loaded a number of times. -/
def resave : Nat → Grammar → Except Fault Grammar
  | 0, g => .ok g
  | n + 1, g => (read (bytes g)).bind (resave n)

/-- Saving and loading a grammar that can be read never fails, and only takes carriage
    returns away. -/
theorem resave_eq (h : g.Readable) (hcount : g.Countable) (n : Nat) :
    resave n g = .ok (Grammar.dropReturn^[n] g) := by
  induction n generalizing g with
  | zero => rfl
  | succ n ih =>
    rw [resave, read_bytes_of_readable h hcount, Function.iterate_succ_apply]
    exact ih h.dropReturn hcount.dropReturn

/-- What is read has sections no longer than counts can tell. -/
theorem countable_of_read (h : read bs = .ok g) : g.Countable := by
  obtain ⟨t, n, r, lines, rest, -, ht, hn, hr, hwords⟩ := read_eq_ok_iff.1 h
  have hlength : lines.length = g.rules.length := by
    simpa using congrArg List.length hwords
  exact ⟨Count.le_greatest_of_read? ht, Count.le_greatest_of_read? hn,
    hlength ▸ Count.le_greatest_of_read? hr⟩

/-- **A grammar that was loaded settles.**  Saved and loaded, it loses one carriage return from
    each name with a line of its own that ends in one, and nothing else; so it comes back as it
    was exactly if no name ends so.  Saved and loaded often enough, it changes no more. -/
theorem resave_of_read (h : read bs = .ok g) :
    read (bytes g) = .ok g.dropReturn ∧
    (read (bytes g) = .ok g ↔
      ∀ s ∈ g.entrypoint :: g.terminals ++ g.nonterminals, s.name.getLast? ≠ some '\r') ∧
    ∃ n g', resave n g = .ok g' ∧ ∀ m, resave m g' = .ok g' := by
  have hreadable := readable_of_read h
  have hcount := countable_of_read h
  have hread := read_bytes_of_readable hreadable hcount
  refine ⟨hread, ?_, ?_⟩
  · rw [hread, Except.ok.injEq, Grammar.dropReturn_eq_self_iff]
  · obtain ⟨n, hn⟩ := g.exists_dropReturn_iterate
    have hreadable' : (Grammar.dropReturn^[n] g).Readable :=
      Function.Iterate.rec Grammar.Readable hreadable (fun _ => Grammar.Readable.dropReturn) n
    have hcount' : (Grammar.dropReturn^[n] g).Countable :=
      Function.Iterate.rec Grammar.Countable hcount (fun _ => Grammar.Countable.dropReturn) n
    refine ⟨n, _, resave_eq hreadable hcount n, fun m => ?_⟩
    rw [resave_eq hreadable' hcount', Function.iterate_fixed hn]

/-- The listing of a terminal with two carriage returns at its end, before the line end. -/
def returns : Bytes := Utf8.encode "1\nid\r\r\r\n0\nGoal\n0\n".toList

/-- The grammar that is listed there. -/
def returnsGrammar : Grammar := ⟨[⟨"id\r\r".toList⟩], [], ⟨"Goal".toList⟩, []⟩

theorem resave_of_read_returns : read returns = .ok returnsGrammar ∧
    read (bytes returnsGrammar) = .ok returnsGrammar.dropReturn ∧
    (read (bytes returnsGrammar) = .ok returnsGrammar ↔
      ∀ s ∈ returnsGrammar.entrypoint :: returnsGrammar.terminals ++ returnsGrammar.nonterminals,
        s.name.getLast? ≠ some '\r') ∧
    ∃ n g', resave n returnsGrammar = .ok g' ∧ ∀ m, resave m g' = .ok g' := by
  have hread : read returns = .ok returnsGrammar := by decide +kernel
  exact ⟨hread, resave_of_read hread⟩

end Listing

end OptGrammar
