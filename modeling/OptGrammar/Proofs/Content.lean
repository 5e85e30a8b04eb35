/-
  Grammars with optional symbols — what a source says.

  A source read as a whole, without a reader: its texts are its lines, the first tells how
  many of the next ones are terminals, and of the others those that say something are kept.

  * `Content`: the terminals of a source and the kept lines of its rule section.
  * `Content.of?`: what a source says; nothing if it is not UTF-8, has no count or too few
    lines for it.
  * `placed`: lines, each with the header that is current there.
  * `Content.grammar`: the grammar that a source stands for.

  Main statements: `of?_eq_some_iff`, what a source says in terms of its lines, and
  `mem_grammar_rules_iff`, the rules of its grammar: those written out and, for every optional
  symbol that occurs, the empty one and the one to its base.
-/
import OptGrammar.Proofs.Blank
import OptGrammar.Shorthand

namespace OptGrammar.Shorthand

/-! ## Lines -/

/-- What a trimmed line says that is not empty and does not start with `#`. -/
def Line.ofKept (t : Text) : Line :=
  if t.getLast? = some ':' then .header t.dropLast else .body (Text.words t)

/-- What the lines of a rule section say, of which the silent ones are left out. -/
def kept (texts : List Text) : List Line :=
  ((texts.map Text.trim).filter fun t => t ≠ [] ∧ t.head? ≠ some '#').map Line.ofKept

/-- The symbol that a header is for. -/
def Line.header? : Line → Option Symbol
  | .header name => some ⟨name⟩
  | _ => none

/-- The symbols on a line. -/
def Line.symbols : Line → List Symbol
  | .silent => []
  | .header name => [⟨name⟩]
  | .body words => words.map Symbol.mk

/-- Lines, each with the header met last before it; `head` is current at the start. -/
def placed (head : Option Symbol) : List Line → List (Option Symbol × Line)
  | [] => []
  | line :: rest => (head, line) :: placed (line.header?.or head) rest

@[simp]
theorem placed_header (head : Option Symbol) (name : Text) (rest : List Line) :
    placed head (.header name :: rest) = (head, .header name) :: placed (some ⟨name⟩) rest := rfl

@[simp]
theorem placed_body (head : Option Symbol) (words : List Text) (rest : List Line) :
    placed head (.body words :: rest) = (head, .body words) :: placed head rest := rfl

@[simp]
theorem placed_silent (head : Option Symbol) (rest : List Line) :
    placed head (.silent :: rest) = (head, .silent) :: placed head rest := rfl

/-- The rule that a line is under a header, if it is a body. -/
def ruleOf? : Option Symbol × Line → Option Rule
  | (head, .body words) => head.map fun s => ⟨s, words.map Symbol.mk⟩
  | _ => none

/-- The call that a line makes under a header. -/
def callOf? : Option Symbol × Line → Option Draft.Step
  | (_, .silent) => none
  | (_, .header name) => some (.header ⟨name⟩)
  | (head, .body words) => head.map fun s => .rule ⟨s, words.map Symbol.mk⟩

/-! ## Content -/

/-- What a source says: its terminals, and the lines after them that say something. -/
structure Content where
  terminals : List Symbol
  lines : List Line
  deriving DecidableEq

namespace Content

/-- What a source says. -/
def of? (source : Bytes) : Option Content :=
  match source.lines.mapM Utf8.decode with
  | some (first :: rest) =>
    match Count.read? (Text.trim first) with
    | some n =>
      if n ≤ rest.length then
        some ⟨(rest.take n).map fun t => ⟨Text.trim t⟩, kept (rest.drop n)⟩
      else none
    | none => none
  | _ => none

variable (c : Content)

/-- The headers, in order. -/
def headers : List Symbol := c.lines.filterMap Line.header?

/-- The symbols in headers and bodies, in order. -/
def occurrences : List Symbol := c.lines.flatMap Line.symbols

/-- The rules that are written out, in order. -/
def rules : List Rule := (placed none c.lines).filterMap ruleOf?

/-- The calls that the lines after the terminals make, in order. -/
def calls : List Draft.Step := (placed none c.lines).filterMap callOf?

/-- The optional symbols in headers and bodies, each once, in the order of their first
    occurrence. -/
def optionals : List Symbol := (c.occurrences.filter Symbol.isOptional).eraseDups

/-- The symbols that the optional symbols mark, in the same order. -/
def bases : List Symbol := c.optionals.filterMap Symbol.base?

/-- No body stands where no header is current. -/
def Headed : Prop := ∀ words, (none, Line.body words) ∉ placed none c.lines

/-- The grammar that a source stands for.  Behind the rules written out, every optional symbol
    has two: by one it derives nothing, and by the other its base. -/
def grammar : Grammar where
  terminals := c.terminals.eraseDups
  nonterminals := (c.occurrences.filter fun s => s ∉ c.terminals).eraseDups
  entrypoint := ⟨['G', 'o', 'a', 'l']⟩
  rules := c.rules ++ c.bases.flatMap fun b => [⟨b.optional, []⟩, ⟨b.optional, [b]⟩]

end Content

/-! ## Reading lines -/

theorem Line.ofText_eq (t : Text) : Line.ofText t =
    if Text.trim t ≠ [] ∧ (Text.trim t).head? ≠ some '#' then Line.ofKept (Text.trim t)
    else .silent := by
  rw [Line.ofText, Line.ofKept]
  generalize Text.trim t = u
  cases u with
  | nil => rfl
  | cons c u => by_cases hc : c = '#' <;> simp [hc]

theorem Line.ofKept_ne_silent (t : Text) : Line.ofKept t ≠ .silent := by
  rw [Line.ofKept]; split <;> simp

theorem Line.ofText_eq_header_iff {t name : Text} : ofText t = .header name ↔
    Text.trim t = name ++ [':'] ∧ (Text.trim t).head? ≠ some '#' := by
  rw [ofText_eq, ofKept]
  generalize Text.trim t = u
  constructor
  · intro h
    split at h
    · rename_i hkept
      split at h
      · rename_i hlast
        obtain ⟨v, rfl⟩ := List.getLast?_eq_some_iff.1 hlast
        rw [List.dropLast_concat] at h
        cases h
        exact ⟨rfl, hkept.2⟩
      · cases h
    · cases h
  · rintro ⟨rfl, hhead⟩
    rw [if_pos ⟨by simp, hhead⟩, if_pos List.getLast?_concat, List.dropLast_concat]

theorem Line.ofText_eq_body_iff {t : Text} {words : List Text} : ofText t = .body words ↔
    (Text.trim t ≠ [] ∧ (Text.trim t).head? ≠ some '#' ∧ (Text.trim t).getLast? ≠ some ':') ∧
      Text.words (Text.trim t) = words := by
  rw [ofText_eq, ofKept]
  generalize Text.trim t = u
  constructor
  · intro h
    split at h
    · rename_i hkept
      split at h
      · cases h
      · rename_i hlast
        cases h
        exact ⟨⟨hkept.1, hkept.2, hlast⟩, rfl⟩
    · cases h
  · rintro ⟨⟨hne, hhead, hlast⟩, rfl⟩
    rw [if_pos ⟨hne, hhead⟩, if_neg hlast]

/-- The lines kept are those that are not silent. -/
theorem kept_eq (texts : List Text) :
    kept texts = (texts.map Line.ofText).filter fun line => line ≠ .silent := by
  induction texts with
  | nil => rfl
  | cons t texts ih =>
    rw [kept] at ih ⊢
    rw [List.map_cons, List.map_cons, Line.ofText_eq]
    split
    · rename_i h
      rw [List.filter_cons_of_pos (by simpa using h), List.map_cons, ih,
        List.filter_cons_of_pos (by simpa using Line.ofKept_ne_silent _)]
    · rename_i h
      rw [List.filter_cons_of_neg (by simpa using h), ih, List.filter_cons_of_neg (by simp)]

theorem kept_cons_silent {t : Text} (h : Line.ofText t = .silent) (texts : List Text) :
    kept (t :: texts) = kept texts := by
  simp [kept_eq, h]

theorem kept_cons {t : Text} (h : Line.ofText t ≠ .silent) (texts : List Text) :
    kept (t :: texts) = Line.ofText t :: kept texts := by
  simp [kept_eq, h]

theorem kept_append (texts more : List Text) : kept (texts ++ more) = kept texts ++ kept more := by
  simp [kept]

theorem kept_flatten (blocks : List (List Text)) : kept blocks.flatten = blocks.flatMap kept := by
  induction blocks with
  | nil => rfl
  | cons block blocks ih => rw [List.flatten_cons, kept_append, ih, List.flatMap_cons]

/-! ## Reading a source -/

theorem mapM_decode_eq_some_iff {raws : List Bytes} {texts : List Text} :
    raws.mapM Utf8.decode = some texts ↔ raws = texts.map Utf8.encode := by
  induction raws generalizing texts with
  | nil => cases texts <;> simp
  | cons raw raws ih =>
    rw [List.mapM_cons]
    constructor
    · intro h
      obtain ⟨t, ht, h⟩ := Option.bind_eq_some_iff.1 h
      obtain ⟨ts, hts, h⟩ := Option.bind_eq_some_iff.1 h
      cases h
      rw [Utf8.decode_eq_some_iff.1 ht, ih.1 hts, List.map_cons]
    · cases texts with
      | nil => simp
      | cons t texts =>
        rw [List.map_cons, List.cons.injEq]
        rintro ⟨rfl, hraws⟩
        rw [Utf8.decode_encode, ih.2 hraws]
        rfl

/-- **A source says what its lines say**: the first is a count of the lines after it that are
    terminals, and the others are a rule section. -/
theorem Content.of?_eq_some_iff {source : Bytes} {c : Content} : Content.of? source = some c ↔
    ∃ first terminals rest, source.lines = (first :: (terminals ++ rest)).map Utf8.encode ∧
      Count.read? (Text.trim first) = some terminals.length ∧
      c = ⟨terminals.map fun t => ⟨Text.trim t⟩, kept rest⟩ := by
  constructor
  · intro h
    rw [Content.of?] at h
    split at h
    · rename_i first rest hlines
      split at h
      · rename_i n hn
        split at h
        · rename_i hle
          cases h
          refine ⟨first, rest.take n, rest.drop n, ?_, ?_, rfl⟩
          · rw [List.take_append_drop]
            exact mapM_decode_eq_some_iff.1 hlines
          · rw [hn, List.length_take, Nat.min_eq_left hle]
        · cases h
      · cases h
    · cases h
  · rintro ⟨first, terminals, rest, hlines, hn, rfl⟩
    rw [Content.of?, mapM_decode_eq_some_iff.2 hlines]
    simp [hn]

/-! ## Names in a source -/

/-- A line kept is what one of the texts says. -/
theorem exists_of_mem_kept {texts : List Text} {line : Line} (h : line ∈ kept texts) :
    ∃ t ∈ texts, Line.ofText t = line := by
  rw [kept_eq] at h
  exact List.mem_map.1 (List.mem_filter.1 h).1

theorem header_of_mem_kept {texts : List Text} {name : Text}
    (h : .header name ∈ kept texts) : ∃ t ∈ texts, Text.trim t = name ++ [':'] := by
  obtain ⟨t, ht, hline⟩ := exists_of_mem_kept h
  exact ⟨t, ht, (Line.ofText_eq_header_iff.1 hline).1⟩

theorem body_of_mem_kept {texts : List Text} {words : List Text}
    (h : .body words ∈ kept texts) : words ≠ [] ∧ ∀ w ∈ words, Text.IsWord w := by
  obtain ⟨t, -, hline⟩ := exists_of_mem_kept h
  obtain ⟨⟨hne, -, -⟩, rfl⟩ := Line.ofText_eq_body_iff.1 hline
  have hfirst := List.head?_eq_some_head hne
  exact ⟨Text.words_ne_nil (List.mem_of_head? hfirst) (Text.head?_trim hfirst),
    fun w hw => Text.mem_words hw⟩

/-- What holds of the names in every source. -/
structure Content.Clean (c : Content) : Prop where
  terminal : ∀ s ∈ c.terminals, '\n' ∉ s.name ∧
    ∀ ch, s.name.getLast? = some ch → Text.isBlank ch = false
  header : ∀ s ∈ c.headers, '\n' ∉ s.name
  body : ∀ words, .body words ∈ c.lines → words ≠ [] ∧ ∀ w ∈ words, Text.IsWord w

theorem Content.clean_of_of? {source : Bytes} {c : Content} (h : Content.of? source = some c) :
    c.Clean := by
  obtain ⟨first, terminals, rest, hlines, -, rfl⟩ := Content.of?_eq_some_iff.1 h
  have hn (t : Text) (ht : t ∈ first :: (terminals ++ rest)) : '\n' ∉ Text.trim t := by
    intro hm
    have hmem : Utf8.encode t ∈ source.lines := hlines ▸ List.mem_map_of_mem ht
    exact Bytes.not_mem_of_mem_lines hmem
      (Utf8.newline_mem_encode_iff.2 (Text.mem_of_mem_trim hm))
  refine ⟨?_, ?_, fun words hw => body_of_mem_kept hw⟩
  · intro s hs
    obtain ⟨t, ht, rfl⟩ := List.mem_map.1 hs
    exact ⟨hn t (by simp [ht]), fun ch => Text.getLast?_trim⟩
  · intro s hs
    obtain ⟨line, hline, hs⟩ := List.mem_filterMap.1 hs
    cases line with
    | header name =>
      cases hs
      obtain ⟨t, ht, htrim⟩ := header_of_mem_kept hline
      have := hn t (by simp [ht])
      rw [htrim] at this
      exact fun hm => this (List.mem_append_left _ hm)
    | silent | body => cases hs

/-! ## Rules in a source -/

theorem mem_of_mem_placed {head : Option Symbol} {lines : List Line}
    {p : Option Symbol × Line} (h : p ∈ placed head lines) :
    p.2 ∈ lines ∧ ∀ s, p.1 = some s → head = some s ∨ s ∈ lines.filterMap Line.header? := by
  induction lines generalizing head with
  | nil => cases h
  | cons line lines ih =>
    rw [placed] at h
    rcases List.mem_cons.1 h with rfl | h
    · exact ⟨List.mem_cons_self, fun s hs => .inl hs⟩
    · obtain ⟨hline, hhead⟩ := ih h
      refine ⟨List.mem_cons_of_mem _ hline, ?_⟩
      intro s hs
      rcases hhead s hs with he | hm
      · cases hl : line.header? with
        | none =>
          rw [hl] at he
          exact .inl he
        | some s₁ =>
          rw [hl] at he
          exact .inr (List.mem_filterMap.2 ⟨line, List.mem_cons_self, hl.trans he⟩)
      · obtain ⟨l, hl, hls⟩ := List.mem_filterMap.1 hm
        exact .inr (List.mem_filterMap.2 ⟨l, List.mem_cons_of_mem _ hl, hls⟩)

/-- Behind a header there is one for every line. -/
theorem none_not_mem_placed (s : Symbol) (line : Line) (lines : List Line) :
    (none, line) ∉ placed (some s) lines := by
  induction lines generalizing s with
  | nil => exact List.not_mem_nil
  | cons l lines ih =>
    rw [placed, List.mem_cons, not_or]
    refine ⟨by simp, ?_⟩
    cases l.header? with
    | none => exact ih s
    | some s' => exact ih s'

namespace Content

variable {c : Content}

theorem mem_rules_iff {r : Rule} : r ∈ c.rules ↔
    ∃ words, (some r.head, Line.body words) ∈ placed none c.lines ∧
      r.body = words.map Symbol.mk := by
  rw [rules, List.mem_filterMap]
  constructor
  · rintro ⟨⟨head, line⟩, hp, hr⟩
    cases line with
    | body words =>
      obtain ⟨s, rfl, rfl⟩ := Option.map_eq_some_iff.1 hr
      exact ⟨words, hp, rfl⟩
    | silent | header => cases hr
  · obtain ⟨s, body⟩ := r
    rintro ⟨words, hp, rfl⟩
    exact ⟨_, hp, rfl⟩

theorem mem_headers_of_mem_rules {r : Rule} (h : r ∈ c.rules) : r.head ∈ c.headers := by
  obtain ⟨words, hp, -⟩ := mem_rules_iff.1 h
  rcases (mem_of_mem_placed hp).2 r.head rfl with h | h
  · cases h
  · exact h

theorem mem_occurrences_of_mem_headers {s : Symbol} (h : s ∈ c.headers) : s ∈ c.occurrences := by
  obtain ⟨line, hline, hs⟩ := List.mem_filterMap.1 h
  refine List.mem_flatMap.2 ⟨line, hline, ?_⟩
  cases line with
  | header name =>
    cases hs
    exact List.mem_singleton_self _
  | silent | body => cases hs

theorem mem_occurrences_of_mem_body {r : Rule} {s : Symbol} (h : r ∈ c.rules) (hs : s ∈ r.body) :
    s ∈ c.occurrences := by
  obtain ⟨words, hp, hbody⟩ := mem_rules_iff.1 h
  rw [hbody] at hs
  exact List.mem_flatMap.2 ⟨_, (mem_of_mem_placed hp).1, hs⟩

theorem body_ne_nil (hclean : c.Clean) {r : Rule} (h : r ∈ c.rules) : r.body ≠ [] := by
  obtain ⟨words, hp, hbody⟩ := mem_rules_iff.1 h
  rw [hbody]
  simpa using (hclean.body words (mem_of_mem_placed hp).1).1

theorem mem_optionals_iff {s : Symbol} :
    s ∈ c.optionals ↔ s ∈ c.occurrences ∧ s.isOptional = true := by
  rw [optionals, List.mem_eraseDups, List.mem_filter]

theorem map_optional_bases : c.bases.map Symbol.optional = c.optionals :=
  Symbol.map_optional_filterMap_base? fun _ hs => (mem_optionals_iff.1 hs).2

/-! ## Symbols and rules in an expansion -/

/-- Behind the rules written out are those that the optional symbols stand for. -/
theorem rules_grammar : c.grammar.rules = c.rules ++ c.optionals.flatMap Symbol.expansion := by
  rw [grammar, bases, Symbol.flatMap_expansion]

theorem mem_terminals_iff {s : Symbol} : s ∈ c.grammar.terminals ↔ s ∈ c.terminals :=
  List.mem_eraseDups

theorem mem_nonterminals_iff {s : Symbol} :
    s ∈ c.grammar.nonterminals ↔ s ∈ c.occurrences ∧ s ∉ c.terminals := by
  rw [grammar, List.mem_eraseDups, List.mem_filter, decide_eq_true_iff]

/-- **A rule of the grammar** is written out, or it is one of the two of an optional symbol that
    occurs. -/
theorem mem_grammar_rules_iff {r : Rule} : r ∈ c.grammar.rules ↔ r ∈ c.rules ∨
    ∃ s ∈ c.occurrences, ∃ b, s.base? = some b ∧ (r = ⟨s, []⟩ ∨ r = ⟨s, [b]⟩) := by
  rw [rules_grammar, List.mem_append, List.mem_flatMap]
  refine or_congr_right ⟨?_, ?_⟩
  · rintro ⟨s, hs, hr⟩
    obtain ⟨hoccurs, hopt⟩ := mem_optionals_iff.1 hs
    obtain ⟨b, hb⟩ := Symbol.exists_base? hopt
    exact ⟨s, hoccurs, b, hb, (Symbol.mem_expansion_iff hb).1 hr⟩
  · rintro ⟨s, hoccurs, b, hb, hr⟩
    have hs := mem_optionals_iff.2 ⟨hoccurs, Symbol.isOptional_of_base? hb⟩
    exact ⟨s, hs, (Symbol.mem_expansion_iff hb).2 hr⟩

/-- The rules of an optional symbol that occurs are in the grammar. -/
theorem mem_rules_of_occurs {s b : Symbol} {body : List Symbol} (hs : s ∈ c.occurrences)
    (h : s.base? = some b) (hbody : body = [] ∨ body = [b]) : ⟨s, body⟩ ∈ c.grammar.rules := by
  refine mem_grammar_rules_iff.2 (.inr ⟨s, hs, b, h, ?_⟩)
  rcases hbody with rfl | rfl
  · exact .inl rfl
  · exact .inr rfl

/-- A symbol in a rule of the grammar occurs in the source, or it is the base of one that
    does. -/
theorem occurs_of_mem_rules {s : Symbol} {r : Rule} (hr : r ∈ c.grammar.rules)
    (hs : s ∈ r.symbols) :
    s ∈ c.occurrences ∨ ∃ t ∈ c.occurrences, t.base? = some s := by
  rcases mem_grammar_rules_iff.1 hr with hr | ⟨t, ht, b, hb, rfl | rfl⟩
  · rcases List.mem_cons.1 hs with rfl | hs
    · exact .inl (mem_occurrences_of_mem_headers (mem_headers_of_mem_rules hr))
    · exact .inl (mem_occurrences_of_mem_body hr hs)
  · rw [List.mem_singleton.1 hs]
    exact .inl ht
  · rcases List.mem_cons.1 hs with rfl | hs
    · exact .inl ht
    · rw [List.mem_singleton.1 hs]
      exact .inr ⟨t, ht, hb⟩

end Content

end OptGrammar.Shorthand
