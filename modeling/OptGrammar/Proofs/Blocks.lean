/-
  Grammars with optional symbols — the order of the blocks of a source.

  A block is a header and the lines up to the next header.  A source is a count, its terminals,
  lines in front of the first header, and blocks.  Since a block starts with a header, its rules
  are the same wherever it stands; so its place only tells where its rules come in the grammar,
  and which symbols are met first.

  * `IsBlock`: lines that are a block.
  * `Blocks`: a source in blocks.
  * `Blocks.Cuts`: a source is cut into blocks.
  * `blockRules`: the rules of a block.
  * `Reordered`: the same grammar but for the order of its blocks.

  Main statements: `exists_cuts`, every source that says something is cut into blocks;
  `expand_reorder`, what becomes of a grammar when the blocks of its source change places.
-/
import OptGrammar.Proofs.SourceFault

namespace OptGrammar

theorem Text.trim_dropReturn (t : Text) : trim t.dropReturn = trim t := by
  rw [dropReturn]
  split
  · rename_i hlast
    obtain ⟨u, rfl⟩ := List.getLast?_eq_some_iff.1 hlast
    rw [List.dropLast_concat, trim_append_blank (by decide)]
  · rfl

namespace Shorthand

/-! ## Blocks -/

/-- Lines that are a block: a header, and lines after it that are none. -/
def IsBlock : List Text → Prop
  | [] => False
  | header :: lines => IsHeader header ∧ ∀ t ∈ lines, ¬ IsHeader t

instance (t : Text) : Decidable (IsHeader t) := inferInstanceAs (Decidable (_ ∧ _))

instance : (block : List Text) → Decidable (IsBlock block)
  | [] => inferInstanceAs (Decidable False)
  | header :: lines =>
    inferInstanceAs (Decidable (IsHeader header ∧ ∀ t ∈ lines, ¬ IsHeader t))

/-- The rules of a block: its bodies under its header. -/
def blockRules (block : List Text) : List Rule := (placed none (kept block)).filterMap ruleOf?

/-- Lines in blocks, and the lines in front of them. -/
theorem exists_blocks (lines : List Text) : ∃ (front : List Text) (blocks : List (List Text)),
    lines = front ++ blocks.flatten ∧ (∀ t ∈ front, ¬ IsHeader t) ∧
      ∀ block ∈ blocks, IsBlock block := by
  induction lines with
  | nil => exact ⟨[], [], rfl, by simp, by simp⟩
  | cons t lines ih =>
    obtain ⟨front, blocks, rfl, hfront, hblocks⟩ := ih
    by_cases ht : IsHeader t
    · refine ⟨[], (t :: front) :: blocks, rfl, by simp, ?_⟩
      exact List.forall_mem_cons.2 ⟨⟨ht, hfront⟩, hblocks⟩
    · exact ⟨t :: front, blocks, rfl, List.forall_mem_cons.2 ⟨ht, hfront⟩, hblocks⟩

/-- A block starts with what its header says. -/
theorem exists_kept_of_isBlock {block : List Text} (h : IsBlock block) :
    ∃ name rest, kept block = .header name :: rest := by
  cases block with
  | nil => exact h.elim
  | cons t lines =>
    obtain ⟨name, hname⟩ := isHeader_iff.1 h.1
    exact ⟨name, kept lines, by rw [kept_cons (by simp [hname]), hname]⟩

section

variable {blocks : List (List Text)}

/-- **The rules of a block are the same wherever it stands.** -/
theorem rules_of_blocks (h : ∀ block ∈ blocks, IsBlock block) (head : Option Symbol) :
    (placed head (blocks.flatMap kept)).filterMap ruleOf? = blocks.flatMap blockRules := by
  induction blocks generalizing head with
  | nil => rfl
  | cons block blocks ih =>
    obtain ⟨hblock, hblocks⟩ := List.forall_mem_cons.1 h
    obtain ⟨name, rest, hkept⟩ := exists_kept_of_isBlock hblock
    -- the header of the block takes the place of the one that is current before it
    have hrules : (placed head (kept block)).filterMap ruleOf? = blockRules block := by
      rw [blockRules, hkept, placed_header, placed_header, List.filterMap_cons_none rfl,
        List.filterMap_cons_none rfl]
    rw [List.flatMap_cons, placed_append, List.filterMap_append, hrules, ih hblocks,
      List.flatMap_cons]

/-- Blocks have a header over every body. -/
theorem headed_of_blocks (h : ∀ block ∈ blocks, IsBlock block) (words : List Text) :
    (none, Line.body words) ∉ placed none (blocks.flatMap kept) := by
  cases blocks with
  | nil => exact List.not_mem_nil
  | cons block blocks =>
    obtain ⟨name, rest, hkept⟩ := exists_kept_of_isBlock (h block List.mem_cons_self)
    rw [List.flatMap_cons, hkept, List.cons_append, placed_header]
    intro hm
    rcases List.mem_cons.1 hm with hm | hm
    · cases hm
    · exact none_not_mem_placed _ _ _ hm

end

/-- Lines in front of the first header say nothing, or they are a body without a header. -/
theorem kept_eq_nil_of_headed {front more : List Text} (hfront : ∀ t ∈ front, ¬ IsHeader t)
    (h : ∀ words, (none, Line.body words) ∉ placed none (kept (front ++ more))) :
    kept front = [] := by
  induction front with
  | nil => rfl
  | cons t front ih =>
    obtain ⟨ht, hrest⟩ := List.forall_mem_cons.1 hfront
    cases hline : Line.ofText t with
    | silent =>
      rw [List.cons_append, kept_cons_silent hline] at h
      rw [kept_cons_silent hline]
      exact ih hrest h
    | header name => exact absurd (isHeader_iff.2 ⟨name, hline⟩) ht
    | body words =>
      rw [List.cons_append, kept_cons (by simp [hline]), hline, placed_body] at h
      exact absurd List.mem_cons_self (h words)

/-! ## Sources in blocks -/

/-- A source in blocks: its count, its terminals, the lines in front of its first header, and its
    blocks. -/
structure Blocks where
  first : Text
  terminals : List Text
  front : List Text
  blocks : List (List Text)

namespace Blocks

/-- The lines of a source in blocks. -/
def lines (b : Blocks) : List Text :=
  b.first :: (b.terminals ++ (b.front ++ b.blocks.flatten))

/-- A source in blocks, every line of which is ended. -/
def source (b : Blocks) : Bytes := Utf8.encode (Text.unlines b.lines)

/-- The same source with other blocks. -/
def reorder (b : Blocks) (blocks : List (List Text)) : Blocks := { b with blocks }

/-- What a source in blocks says. -/
def content (b : Blocks) : Content :=
  ⟨b.terminals.map fun t => ⟨Text.trim t⟩, kept (b.front ++ b.blocks.flatten)⟩

/-- **A source is cut into blocks.**  Its lines are theirs, but for blanks at the ends of lines,
    such as carriage returns. -/
structure Cuts (b : Blocks) (source : Bytes) : Prop where
  lines : ∃ texts : List Text, source.lines = texts.map Utf8.encode ∧
    texts.map Text.trim = b.lines.map Text.trim
  newline : ∀ t ∈ b.lines, '\n' ∉ t
  count : Count.read? (Text.trim b.first) = some b.terminals.length
  front : ∀ t ∈ b.front, ¬ IsHeader t
  blocks : ∀ block ∈ b.blocks, IsBlock block

variable {b : Blocks} {source : Bytes}

/-- **A source that says something is cut into blocks**, and its lines stay as they are. -/
theorem exists_cuts {c : Content} (h : Content.of? source = some c) :
    ∃ b : Blocks, b.Cuts source ∧ source.lines = b.lines.map Utf8.encode := by
  obtain ⟨first, terminals, texts, hlines, hcount, -⟩ := Content.of?_eq_some_iff.1 h
  obtain ⟨front, blocks, rfl, hfront, hblocks⟩ := exists_blocks texts
  refine ⟨⟨first, terminals, front, blocks⟩, ⟨⟨_, hlines, rfl⟩, ?_, hcount, hfront, hblocks⟩,
    hlines⟩
  intro t ht hm
  have hmem : Utf8.encode t ∈ source.lines := hlines ▸ List.mem_map_of_mem ht
  exact Bytes.not_mem_of_mem_lines hmem (Utf8.newline_mem_encode_iff.2 hm)

theorem Cuts.of?_eq (h : b.Cuts source) : Content.of? source = some b.content := by
  obtain ⟨texts, hlines, htrim⟩ := h.lines
  rw [Blocks.lines, List.map_cons, List.map_append] at htrim
  obtain ⟨first, more, rfl, hfirst, hmore⟩ := List.map_eq_cons_iff.1 htrim
  obtain ⟨terminals, rest, rfl, hterminals, hrest⟩ := List.map_eq_append_iff.1 hmore
  have hlength : terminals.length = b.terminals.length := by
    simpa using congrArg List.length hterminals
  refine Content.of?_eq_some_iff.2 ⟨first, terminals, rest, hlines, ?_, ?_⟩
  · rw [hfirst, h.count, hlength]
  · have hsymbols := congrArg (List.map Symbol.mk) hterminals
    rw [List.map_map, List.map_map] at hsymbols
    rw [content, kept, kept, hrest]
    exact congrArg (Content.mk · _) hsymbols.symm

/-- **Blocks that change places are those of the source that they make.** -/
theorem Cuts.reorder (h : b.Cuts source) {blocks : List (List Text)}
    (hperm : blocks.Perm b.blocks) : (b.reorder blocks).Cuts (b.reorder blocks).source := by
  have hnewline : ∀ t ∈ (b.reorder blocks).lines, '\n' ∉ t := by
    intro t ht
    refine h.newline t ?_
    simp only [Blocks.lines, Blocks.reorder, List.mem_cons, List.mem_append] at ht ⊢
    rwa [hperm.flatten.mem_iff] at ht
  refine ⟨⟨(b.reorder blocks).lines.map Text.dropReturn, ?_, ?_⟩, hnewline, h.count, h.front,
    fun block hblock => h.blocks block (hperm.mem_iff.1 hblock)⟩
  · rw [Blocks.source, Bytes.lines_unlines hnewline]
  · rw [List.map_map]
    exact List.map_inj_left.2 fun t _ => Text.trim_dropReturn t

/-! ## What a source in blocks says -/

theorem lines_content (hfront : kept b.front = []) :
    b.content.lines = b.blocks.flatMap kept := by
  rw [content, kept_append, hfront, List.nil_append, kept_flatten]

theorem rules_content (hfront : kept b.front = []) (h : ∀ block ∈ b.blocks, IsBlock block) :
    b.content.rules = b.blocks.flatMap blockRules := by
  rw [Content.rules, lines_content hfront, rules_of_blocks h]

theorem headed_content (hfront : kept b.front = []) (h : ∀ block ∈ b.blocks, IsBlock block) :
    b.content.Headed := by
  intro words
  rw [lines_content hfront]
  exact headed_of_blocks h words

/-- When blocks change places, so do the symbols in them. -/
theorem occurrences_reorder {blocks : List (List Text)} (hperm : blocks.Perm b.blocks) :
    (b.reorder blocks).content.occurrences.Perm b.content.occurrences := by
  have hlines : (b.reorder blocks).content.lines.Perm b.content.lines := by
    rw [content, content, kept_append, kept_append, kept_flatten, kept_flatten]
    exact (hperm.flatMap_right kept).append_left _
  exact hlines.flatMap_right Line.symbols

end Blocks

end Shorthand

open Shorthand

/-- **What becomes of a grammar when the blocks of its source change places.**  The terminals and
    the symbol to start from stay as they are, and the nonterminals change places.  The rules of
    the blocks come in the order of the blocks, and behind them the same optional symbols have
    their two rules, in some order. -/
structure Reordered (blocks blocks' : List (List Text)) (g g' : Grammar) : Prop where
  terminals : g'.terminals = g.terminals
  entrypoint : g'.entrypoint = g.entrypoint
  nonterminals : g'.nonterminals.Perm g.nonterminals
  rules : ∃ bases bases' : List Symbol, bases'.Perm bases ∧
    g.rules = blocks.flatMap blockRules ++
      bases.flatMap (fun s => [⟨s.optional, []⟩, ⟨s.optional, [s]⟩]) ∧
    g'.rules = blocks'.flatMap blockRules ++
      bases'.flatMap (fun s => [⟨s.optional, []⟩, ⟨s.optional, [s]⟩])

/-- **The order of blocks only affects order.**  A source that expands is cut into blocks, and when
    the blocks change places, it still expands, to the grammar in another order. -/
theorem expand_reorder {source : Bytes} {g : Grammar} (hg : (expand source).result = .ok g) :
    (∃ b : Blocks, b.Cuts source ∧ source.lines = b.lines.map Utf8.encode) ∧
    ∀ b : Blocks, b.Cuts source → ∀ blocks : List (List Text), blocks.Perm b.blocks →
      ∃ g', (expand (b.reorder blocks).source).result = .ok g' ∧
        Reordered b.blocks blocks g g' := by
  obtain ⟨c, hc, hheaded, rfl⟩ := expand_ok_iff.1 hg
  refine ⟨Blocks.exists_cuts hc, ?_⟩
  intro b hb blocks hperm
  obtain rfl : b.content = c := Option.some.inj (hb.of?_eq.symm.trans hc)
  have hb' := hb.reorder hperm
  have hfront : kept b.front = [] := kept_eq_nil_of_headed hb.front hheaded
  have hheaded' : (b.reorder blocks).content.Headed := Blocks.headed_content hfront hb'.blocks
  have hoccurrences := Blocks.occurrences_reorder hperm
  refine ⟨_, expand_ok_iff.2 ⟨_, hb'.of?_eq, hheaded', rfl⟩, rfl, rfl,
    eraseDups_perm (hoccurrences.filter _), ?_⟩
  have hoptionals : (b.reorder blocks).content.optionals.Perm b.content.optionals :=
    eraseDups_perm (hoccurrences.filter _)
  have hrules : (b.reorder blocks).content.rules = blocks.flatMap blockRules :=
    Blocks.rules_content hfront hb'.blocks
  refine ⟨_, _, hoptionals.filterMap Symbol.base?, ?_, ?_⟩
  · rw [Content.grammar, Blocks.rules_content hfront hb.blocks]
    rfl
  · rw [Content.grammar, hrules]
    rfl

/-- The source of sums in blocks. -/
def sumsBlocks : Blocks where
  first := "2".toList
  terminals := ["id".toList, "PLUS".toList]
  front := ["# sums".toList]
  blocks := [["Goal:".toList, "id Tail(opt)".toList, []],
    ["Tail(opt):".toList, "  PLUS  id Tail(opt)".toList]]

theorem expand_reorder_sums : (expand sums).result = .ok sumsContent.grammar ∧
    sumsBlocks.Cuts sums ∧ sumsBlocks.blocks.reverse.Perm sumsBlocks.blocks ∧
    ∃ g', (expand (sumsBlocks.reorder sumsBlocks.blocks.reverse).source).result = .ok g' ∧
      Reordered sumsBlocks.blocks sumsBlocks.blocks.reverse sumsContent.grammar g' := by
  have hcuts : sumsBlocks.Cuts sums := by
    refine ⟨⟨sumsBlocks.lines, ?_, rfl⟩, ?_, ?_, ?_, ?_⟩ <;> decide +kernel
  have hperm := sumsBlocks.blocks.reverse_perm
  exact ⟨expand_sums, hcuts, hperm, (expand_reorder expand_sums).2 _ hcuts _ hperm⟩

end OptGrammar
