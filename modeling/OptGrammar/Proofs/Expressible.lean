/-
  Grammars with optional symbols — which terminals and rules a source can have.

  The first line counts the terminals, a line is trimmed before it is read, and what a line says
  is told by its first and its last character.  All this restricts what can be said, and nothing
  else does: any other terminals and rules are those of a source that has a header for each rule.

  * `Symbol.Declarable`: a symbol that can be declared as a terminal.
  * `Rule.Writable`: a rule that can be written with a header and a body.
  * `sourceOf`: a source for given terminals and rules.

  Main statement: `expressible_iff`, the terminals and rules that some source expands with.
-/
import Mathlib.Algebra.Group.Nat.Defs
import OptGrammar.Proofs.Expansion
import OptGrammar.Proofs.Listing

namespace OptGrammar

/-- **A symbol that can be declared as a terminal**: its name is in one line, with no blank at an
    end. -/
structure Symbol.Declarable (s : Symbol) : Prop where
  newline : '\n' ∉ s.name
  first : ∀ ch, s.name.head? = some ch → Text.isBlank ch = false
  last : ∀ ch, s.name.getLast? = some ch → Text.isBlank ch = false

theorem Symbol.Declarable.lossless {s : Symbol} (h : s.Declarable) : s.name.Lossless :=
  ⟨h.newline, fun hlast => absurd (h.last '\r' hlast) (by decide)⟩

/-- **A rule that can be written**: its head has a name in one line, which starts with no blank
    and no `#`, and its body is a row of words of which the first does not start with `#` and the
    last does not end with `:`. -/
structure Rule.Writable (r : Rule) : Prop where
  newline : '\n' ∉ r.head.name
  heading : ∀ ch, r.head.name.head? = some ch → Text.isBlank ch = false ∧ ch ≠ '#'
  body : r.body ≠ []
  words : ∀ s ∈ r.body, Text.IsWord s.name
  first : ∀ s, r.body.head? = some s → s.name.head? ≠ some '#'
  last : ∀ s, r.body.getLast? = some s → s.name.getLast? ≠ some ':'

namespace Shorthand

/-! ## What a line says -/

namespace Line

variable {t name : Text} {words : List Text}

theorem heading_of_header (h : ofText t = .header name) {ch : Char}
    (hch : name.head? = some ch) : Text.isBlank ch = false ∧ ch ≠ '#' := by
  obtain ⟨htrim, hhead⟩ := ofText_eq_header_iff.1 h
  have hfirst : (Text.trim t).head? = some ch := by
    rw [htrim, List.head?_append, hch, Option.some_or]
  refine ⟨Text.head?_trim hfirst, ?_⟩
  rintro rfl
  exact hhead hfirst

theorem first_of_body (h : ofText t = .body words) {w : Text} (hw : words.head? = some w) :
    w.head? ≠ some '#' := by
  obtain ⟨⟨hne, hhead, -⟩, rfl⟩ := ofText_eq_body_iff.1 h
  have hc := List.head?_eq_some_head hne
  rwa [Text.head?_of_words hw hc (Text.head?_trim hc), ← hc]

theorem last_of_body (h : ofText t = .body words) {w : Text} (hw : words.getLast? = some w) :
    w.getLast? ≠ some ':' := by
  obtain ⟨⟨hne, -, hlast⟩, rfl⟩ := ofText_eq_body_iff.1 h
  have hc := List.getLast?_eq_some_getLast hne
  rwa [Text.getLast?_of_words hw hc (Text.getLast?_trim hc), ← hc]

/-- A header is read as it stands, whatever its name ends with. -/
theorem ofText_concat_colon (h : ∀ ch, name.head? = some ch → Text.isBlank ch = false ∧ ch ≠ '#') :
    ofText (name ++ [':']) = .header name := by
  have hfirst : ∀ ch, (name ++ [':']).head? = some ch → Text.isBlank ch = false ∧ ch ≠ '#' := by
    intro ch hch
    cases name with
    | nil =>
      cases hch
      decide
    | cons c name => exact h ch hch
  have htrim : Text.trim (name ++ [':']) = name ++ [':'] := by
    refine Text.trim_eq_self_iff.2 ⟨fun ch hch => (hfirst ch hch).1, ?_⟩
    intro ch hch
    rw [List.getLast?_concat] at hch
    cases hch
    decide
  rw [ofText_eq_header_iff, htrim]
  exact ⟨rfl, fun hhead => (hfirst '#' hhead).2 rfl⟩

/-- Words joined by single spaces are read as a body. -/
theorem ofText_unwords (hne : words ≠ []) (hwords : ∀ w ∈ words, Text.IsWord w)
    (hfirst : ∀ w, words.head? = some w → w.head? ≠ some '#')
    (hlast : ∀ w, words.getLast? = some w → w.getLast? ≠ some ':') :
    ofText (Text.unwords words) = .body words := by
  obtain ⟨first, hf⟩ : ∃ w, words.head? = some w := ⟨_, List.head?_eq_some_head hne⟩
  obtain ⟨last, hl⟩ : ∃ w, words.getLast? = some w := ⟨_, List.getLast?_eq_some_getLast hne⟩
  obtain ⟨hfne, hfblank⟩ := hwords first (List.mem_of_head? hf)
  obtain ⟨hlne, hlblank⟩ := hwords last (List.mem_of_getLast? hl)
  obtain ⟨c, hc⟩ : ∃ c, first.head? = some c := ⟨_, List.head?_eq_some_head hfne⟩
  obtain ⟨d, hd⟩ : ∃ d, last.getLast? = some d := ⟨_, List.getLast?_eq_some_getLast hlne⟩
  have hhead := Text.head?_unwords hf hc
  have hend := Text.getLast?_unwords hl hd
  have htrim : Text.trim (Text.unwords words) = Text.unwords words := by
    rw [Text.trim_eq_self_iff, hhead, hend]
    constructor
    · rintro _ ⟨⟩
      exact hfblank c (List.mem_of_head? hc)
    · rintro _ ⟨⟩
      exact hlblank d (List.mem_of_getLast? hd)
  rw [ofText_eq_body_iff, htrim]
  refine ⟨⟨?_, ?_, ?_⟩, Text.words_unwords hwords⟩
  · intro hnil
    rw [hnil] at hhead
    cases hhead
  · rw [hhead, ← hc]
    exact hfirst first hf
  · rw [hend, ← hd]
    exact hlast last hl

end Line

/-! ## What a source says can be said -/

namespace Content

variable {source : Bytes} {c : Content}

theorem length_terminals_le_greatest (h : of? source = some c) :
    c.terminals.length ≤ Count.greatest := by
  obtain ⟨first, terminals, rest, -, hcount, rfl⟩ := of?_eq_some_iff.1 h
  rw [List.length_map]
  exact Count.le_greatest_of_read? hcount

theorem declarable_of_mem_terminals (h : of? source = some c) {s : Symbol}
    (hs : s ∈ c.terminals) : s.Declarable := by
  obtain ⟨hnewline, hlast⟩ := (clean_of_of? h).terminal s hs
  obtain ⟨first, terminals, rest, -, -, rfl⟩ := of?_eq_some_iff.1 h
  obtain ⟨t, -, rfl⟩ := List.mem_map.1 hs
  exact ⟨hnewline, fun ch => Text.head?_trim, hlast⟩

/-- Every line of a source is what a text says. -/
theorem exists_of_mem_lines (h : of? source = some c) {line : Line} (hline : line ∈ c.lines) :
    ∃ t, Line.ofText t = line := by
  obtain ⟨first, terminals, rest, -, -, rfl⟩ := of?_eq_some_iff.1 h
  obtain ⟨t, -, ht⟩ := exists_of_mem_kept hline
  exact ⟨t, ht⟩

theorem writable_of_mem_rules (h : of? source = some c) {r : Rule} (hr : r ∈ c.rules) :
    r.Writable := by
  have hclean := clean_of_of? h
  have hheader := mem_headers_of_mem_rules hr
  obtain ⟨words, hp, hbody⟩ := mem_rules_iff.1 hr
  have hline := (mem_of_mem_placed hp).1
  obtain ⟨hne, hwords⟩ := hclean.body words hline
  obtain ⟨u, hu⟩ := exists_of_mem_lines h hline
  refine ⟨hclean.header _ hheader, ?_, ?_, ?_, ?_, ?_⟩
  · obtain ⟨line, hmem, hhead⟩ := List.mem_filterMap.1 hheader
    obtain ⟨t, ht⟩ := exists_of_mem_lines h hmem
    cases line with
    | header name =>
      rw [← Option.some.inj hhead]
      exact fun ch => Line.heading_of_header ht
    | silent | body => cases hhead
  · rw [hbody]
    simpa using hne
  · intro s hs
    rw [hbody] at hs
    obtain ⟨w, hw, rfl⟩ := List.mem_map.1 hs
    exact hwords w hw
  · intro s hs
    rw [hbody, List.head?_map] at hs
    obtain ⟨w, hw, rfl⟩ := Option.map_eq_some_iff.1 hs
    exact Line.first_of_body hu hw
  · intro s hs
    rw [hbody, List.getLast?_map] at hs
    obtain ⟨w, hw, rfl⟩ := Option.map_eq_some_iff.1 hs
    exact Line.last_of_body hu hw

end Content

/-! ## A source for terminals and rules -/

/-- The lines that a rule is written in. -/
def ruleSource (r : Rule) : List Text :=
  [r.head.name ++ [':'], Text.unwords (r.body.map Symbol.name)]

/-- What those lines say. -/
def ruleContent (r : Rule) : List Line := [.header r.head.name, .body (r.body.map Symbol.name)]

/-- The lines of a source for some terminals and rules. -/
def sourceLines (ts : List Symbol) (rs : List Rule) : List Text :=
  Count.digits ts.length :: (ts.map Symbol.name ++ rs.flatMap ruleSource)

/-- A source for some terminals and rules, with a header for each rule. -/
def sourceOf (ts : List Symbol) (rs : List Rule) : Bytes :=
  Utf8.encode (Text.unlines (sourceLines ts rs))

/-- What such a source says. -/
def contentOf (ts : List Symbol) (rs : List Rule) : Content := ⟨ts, rs.flatMap ruleContent⟩

section

variable {r : Rule} {ts : List Symbol} {rs : List Rule}

theorem ofText_ruleSource (h : r.Writable) : (ruleSource r).map Line.ofText = ruleContent r := by
  have hbody : Line.ofText (Text.unwords (r.body.map Symbol.name)) =
      .body (r.body.map Symbol.name) := by
    refine Line.ofText_unwords (by simpa using h.body) ?_ ?_ ?_
    · intro w hw
      obtain ⟨s, hs, rfl⟩ := List.mem_map.1 hw
      exact h.words s hs
    · intro w hw
      rw [List.head?_map] at hw
      obtain ⟨s, hs, rfl⟩ := Option.map_eq_some_iff.1 hw
      exact h.first s hs
    · intro w hw
      rw [List.getLast?_map] at hw
      obtain ⟨s, hs, rfl⟩ := Option.map_eq_some_iff.1 hw
      exact h.last s hs
  rw [ruleSource, List.map_cons, List.map_singleton, Line.ofText_concat_colon h.heading, hbody]
  rfl

theorem kept_ruleSource (h : ∀ r ∈ rs, r.Writable) :
    kept (rs.flatMap ruleSource) = rs.flatMap ruleContent := by
  rw [kept_eq, List.map_flatMap, List.flatMap_congr fun r hr => ofText_ruleSource (h r hr),
    List.filter_eq_self]
  intro line hline
  obtain ⟨r, -, hline⟩ := List.mem_flatMap.1 hline
  simp only [ruleContent, List.mem_cons, List.not_mem_nil, or_false] at hline
  rcases hline with rfl | rfl <;> rfl

theorem lossless_ruleSource (h : r.Writable) {t : Text} (ht : t ∈ ruleSource r) : t.Lossless := by
  simp only [ruleSource, List.mem_cons, List.not_mem_nil, or_false] at ht
  rcases ht with rfl | rfl
  · refine ⟨?_, by simp⟩
    rw [List.mem_append, not_or]
    exact ⟨h.newline, by decide⟩
  · have hchar (ch : Char) (hblank : Text.isBlank ch = true) (hspace : ch ≠ ' ') :
        ch ∉ Text.unwords (r.body.map Symbol.name) :=
      Text.not_mem_unwords hspace
        (List.forall_mem_map.2 fun s hs => Text.not_mem_of_isWord (h.words s hs) hblank)
    exact ⟨hchar '\n' (by decide) (by decide), fun hlast =>
      hchar '\r' (by decide) (by decide) (List.mem_of_getLast? hlast)⟩

theorem lossless_sourceLines (hts : ∀ s ∈ ts, s.Declarable) (hrs : ∀ r ∈ rs, r.Writable)
    {t : Text} (ht : t ∈ sourceLines ts rs) : t.Lossless := by
  rw [sourceLines, List.mem_cons, List.mem_append] at ht
  rcases ht with rfl | ht | ht
  · refine ⟨Count.not_mem_digits (by decide) _, ?_⟩
    exact Text.dropReturn_eq_self_iff.1 (Listing.dropReturn_digits _)
  · obtain ⟨s, hs, rfl⟩ := List.mem_map.1 ht
    exact (hts s hs).lossless
  · obtain ⟨r, hr, ht⟩ := List.mem_flatMap.1 ht
    exact lossless_ruleSource (hrs r hr) ht

/-- **A source for terminals and rules says just that.** -/
theorem of?_sourceOf (hlength : ts.length ≤ Count.greatest) (hts : ∀ s ∈ ts, s.Declarable)
    (hrs : ∀ r ∈ rs, r.Writable) :
    Content.of? (sourceOf ts rs) = some (contentOf ts rs) := by
  refine Content.of?_eq_some_iff.2 ⟨_, ts.map Symbol.name, rs.flatMap ruleSource, ?_,
    Listing.read?_trim_digits ?_, ?_⟩
  · rw [sourceOf, Bytes.lines_unlines_of_lossless fun t => lossless_sourceLines hts hrs,
      List.length_map]
    rfl
  · rwa [List.length_map]
  · have hnames : (ts.map Symbol.name).map (fun t => (⟨Text.trim t⟩ : Symbol)) = ts.map id := by
      rw [List.map_map]
      refine List.map_inj_left.2 fun s hs => ?_
      have htrim := Text.trim_eq_self_iff.2 ⟨(hts s hs).first, (hts s hs).last⟩
      rw [Function.comp_apply, htrim]
      rfl
    rw [hnames, List.map_id, kept_ruleSource hrs, contentOf]

theorem filterMap_ruleOf?_ruleContent (head : Option Symbol) (rs : List Rule) :
    (placed head (rs.flatMap ruleContent)).filterMap ruleOf? = rs := by
  induction rs generalizing head with
  | nil => rfl
  | cons r rs ih =>
    have hrule : ruleOf? (some r.head, .body (r.body.map Symbol.name)) = some r := by
      simp [ruleOf?, Function.comp_def]
    rw [List.flatMap_cons, ruleContent, List.cons_append, List.cons_append, List.nil_append,
      placed_header, placed_body, List.filterMap_cons_none rfl,
      List.filterMap_cons_some hrule, ih]

theorem rules_contentOf (ts : List Symbol) (rs : List Rule) : (contentOf ts rs).rules = rs :=
  filterMap_ruleOf?_ruleContent none rs

theorem headed_contentOf (ts : List Symbol) (rs : List Rule) : (contentOf ts rs).Headed := by
  intro words hm
  cases rs with
  | nil => cases hm
  | cons r rs =>
    rcases List.mem_cons.1 hm with h | h
    · cases h
    · exact none_not_mem_placed _ _ _ h

end

end Shorthand

open Shorthand

/-- **Which terminals and rules a source can have.**  They are those of some expansion exactly if
    the terminals are no more than a count can tell, none is there twice and each can be declared,
    and each rule can be written.  The rules of the source come first in the grammar. -/
theorem expressible_iff {ts : List Symbol} {rs : List Rule} :
    (∃ source g, (expand source).result = .ok g ∧ g.terminals = ts ∧
      (pass source).draft.rules = rs ∧ g.rules = rs ++ (pass source).draft.synthesized) ↔
    ts.length < 2 ^ 64 ∧ ts.Nodup ∧ (∀ s ∈ ts, s.Declarable) ∧ ∀ r ∈ rs, r.Writable := by
  have hgreatest : Count.greatest + 1 = 2 ^ 64 := by decide
  constructor
  · rintro ⟨source, g, hg, rfl, rfl, -⟩
    obtain ⟨c, hc, hheaded, rfl⟩ := expand_ok_iff.1 hg
    rw [pass_eq_iff.2 ⟨c, hc, hheaded, rfl⟩]
    refine ⟨?_, nodup_eraseDups _, ?_, ?_⟩
    · have hle := c.length_terminals_le_greatest hc
      have hdistinct : c.grammar.terminals.length ≤ c.terminals.length := length_eraseDups_le _
      omega
    · intro s hs
      exact c.declarable_of_mem_terminals hc (Content.mem_terminals_iff.1 hs)
    · intro r hr
      rw [c.rules_draft] at hr
      exact c.writable_of_mem_rules hc hr
  · rintro ⟨hlength, hnodup, hts, hrs⟩
    have hc := of?_sourceOf (by omega) hts hrs
    have hheaded := headed_contentOf ts rs
    have hrules : (contentOf ts rs).draft.rules = rs :=
      (Content.rules_draft _).trans (rules_contentOf ts rs)
    refine ⟨_, _, expand_ok_iff.2 ⟨_, hc, hheaded, rfl⟩, eraseDups_of_nodup hnodup, ?_⟩
    rw [pass_eq_iff.2 ⟨_, hc, hheaded, rfl⟩, ← Content.finish_draft _ hheaded, Draft.finish, hrules]
    exact ⟨rfl, rfl⟩

/-- The name of a header may hold colons and end in a carriage return. -/
example : (pass (sourceOf [] [⟨⟨"a:\r".toList⟩, [⟨"b".toList⟩]⟩])).draft.rules =
    [⟨⟨"a:\r".toList⟩, [⟨"b".toList⟩]⟩] := by
  decide +kernel

end OptGrammar
