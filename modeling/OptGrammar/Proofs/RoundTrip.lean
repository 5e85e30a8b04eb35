/-
  Grammars with optional symbols — which grammars are found again.

  A grammar that was read has names without line ends and rules of words.  Written and read
  once more, it only loses the carriage returns at the ends of its names.  So a grammar is
  found again in its listing exactly if it is one that can be read and there are none.

  * `Grammar.Readable`: what every grammar that was read is like.
  * `Grammar.Lossless`: a grammar of which nothing is lost.
  * `Grammar.Countable`: a grammar with sections of at most 2 ^ 64 - 1 lines.
  * `Grammar.dropReturn`: a grammar without carriage returns at the ends of its names.

  Main statement: `read_bytes_eq_iff`, a grammar is read back exactly if it is lossless.
-/
import OptGrammar.Proofs.Listing

namespace OptGrammar

namespace Grammar

/-- **A grammar that can be read**: no name that has a line of its own breaks it, and rules
    are of words. -/
structure Readable (g : Grammar) : Prop where
  names : ∀ s ∈ g.entrypoint :: g.terminals ++ g.nonterminals, '\n' ∉ s.name
  rules : ∀ r ∈ g.rules, ∀ s ∈ r.symbols, Text.IsWord s.name

/-- **A grammar of which nothing is lost**: it can be read, and no name that has a line of its
    own ends in a carriage return. -/
structure Lossless (g : Grammar) : Prop extends g.Readable where
  returns : ∀ s ∈ g.entrypoint :: g.terminals ++ g.nonterminals, s.name.getLast? ≠ some '\r'

/-- A grammar whose sections are no longer than counts can tell. -/
structure Countable (g : Grammar) : Prop where
  terminals : g.terminals.length ≤ Count.greatest
  nonterminals : g.nonterminals.length ≤ Count.greatest
  rules : g.rules.length ≤ Count.greatest

/-- A grammar without carriage returns at the ends of the names that have lines of their own. -/
def dropReturn (g : Grammar) : Grammar :=
  ⟨g.terminals.map Symbol.dropReturn, g.nonterminals.map Symbol.dropReturn,
    g.entrypoint.dropReturn, g.rules⟩

variable {g : Grammar}

theorem dropReturn_eq_self_iff : g.dropReturn = g ↔
    ∀ s ∈ g.entrypoint :: g.terminals ++ g.nonterminals, s.name.getLast? ≠ some '\r' := by
  have hparts : g.dropReturn = g ↔ g.terminals.map Symbol.dropReturn = g.terminals ∧
      g.nonterminals.map Symbol.dropReturn = g.nonterminals ∧
      g.entrypoint.dropReturn = g.entrypoint := by
    constructor
    · intro h
      exact ⟨congrArg terminals h, congrArg nonterminals h, congrArg entrypoint h⟩
    · rintro ⟨hterminals, hnonterminals, hentrypoint⟩
      rw [dropReturn, hterminals, hnonterminals, hentrypoint]
  rw [hparts, Symbol.map_dropReturn_iff, Symbol.map_dropReturn_iff, Symbol.dropReturn_eq_self_iff]
  simp only [List.cons_append, List.mem_cons, List.mem_append]
  constructor
  · rintro ⟨hterminals, hnonterminals, hentrypoint⟩ s (rfl | hs | hs)
    · exact hentrypoint
    · exact hterminals s hs
    · exact hnonterminals s hs
  · intro h
    exact ⟨fun s hs => h s (.inr (.inl hs)), fun s hs => h s (.inr (.inr hs)), h _ (.inl rfl)⟩

/-- A grammar that can be read has a listing that is. -/
theorem Readable.listable (h : g.Readable) (hcount : g.Countable) : g.Listable := by
  refine ⟨h.names, ?_, hcount.terminals, hcount.nonterminals, hcount.rules⟩
  intro r hr
  have hwords := h.rules r hr
  refine ⟨?_, fun s hs => Text.not_mem_of_isWord (hwords s hs) Text.isBlank_newline⟩
  rw [Rule.words_line_iff.2 hwords]
  exact List.cons_ne_nil _ _

end Grammar

namespace Listing

variable {g : Grammar}

/-- **What is read can be read again**, whatever it is read from. -/
theorem readable_of_read {bs : Bytes} (h : read bs = .ok g) : g.Readable := by
  obtain ⟨t, n, r, lines, rest, hlines, -, -, -, hwords⟩ := read_eq_ok_iff.1 h
  refine ⟨?_, ?_⟩
  · intro s hs hm
    have hmem : Utf8.encode s.name ∈ bs.lines := by
      rw [hlines]
      refine List.mem_append_left _ (List.mem_map_of_mem ?_)
      simp only [List.cons_append, List.mem_cons, List.mem_append] at hs ⊢
      rcases hs with rfl | hs | hs
      · simp
      · simp [List.mem_map_of_mem hs]
      · simp [List.mem_map_of_mem hs]
    exact Bytes.not_mem_of_mem_lines hmem (Utf8.newline_mem_encode_iff.2 hm)
  · intro r hr s hs
    have hmem : r.names ∈ lines.map Text.words := by
      rw [hwords]
      exact List.mem_map_of_mem hr
    obtain ⟨line, -, hline⟩ := List.mem_map.1 hmem
    have hname : s.name ∈ r.names := List.mem_map_of_mem hs
    rw [← hline] at hname
    exact Text.mem_words hname

/-- **A grammar that can be read only loses carriage returns.** -/
theorem read_bytes_of_readable (h : g.Readable) (hcount : g.Countable) :
    read (bytes g) = .ok g.dropReturn := by
  obtain ⟨rs, hrs, hread⟩ := read_bytes (h.listable hcount)
  obtain rfl := (Rule.eq_iff_words_line hrs).2 h.rules
  exact hread

/-- **A grammar is read back as it was** exactly if it is lossless. -/
theorem read_bytes_eq_iff (hcount : g.Countable) : read (bytes g) = .ok g ↔ g.Lossless := by
  constructor
  · intro h
    have hg := readable_of_read h
    have hdrop : g.dropReturn = g :=
      Except.ok.inj ((read_bytes_of_readable hg hcount).symm.trans h)
    exact ⟨hg, Grammar.dropReturn_eq_self_iff.1 hdrop⟩
  · intro h
    rw [read_bytes_of_readable h.toReadable hcount, Grammar.dropReturn_eq_self_iff.2 h.returns]

/-- A grammar with names of several words, or of none, which only have lines of their own. -/
def spaced : Grammar :=
  ⟨[⟨"the id".toList⟩, ⟨[]⟩], [⟨"Goal".toList⟩], ⟨"Goal".toList⟩, [⟨⟨"Goal".toList⟩, []⟩]⟩

theorem read_bytes_spaced :
    spaced.Countable ∧ (read (bytes spaced) = .ok spaced ↔ spaced.Lossless) := by
  have hcount : spaced.Countable := ⟨by decide, by decide, by decide⟩
  exact ⟨hcount, read_bytes_eq_iff hcount⟩

end Listing

end OptGrammar
