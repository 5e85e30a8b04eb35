/-
  Grammars with optional symbols — listings that are cut off.

  A listing that is cut off has fewer lines than its counts tell, or the cut is in the very last
  one.  What is left of a count is too small, but it is not zero, so that lines are missing all
  the same.  Only a cut within the last rule line is not noticed.

  * `Cut`: bytes that are cut off from texts written one per line.
  * `Listing.AgreeButLast`: grammars that differ in their last rules at most.
  * `Listing.CutInRule`: a listing that is cut off within its last rule line.

  Main statement: `read_cut_iff`, which listings are read although they are cut off, and as
  what.
-/
import OptGrammar.Proofs.Fault
import OptGrammar.Proofs.RoundTrip

namespace OptGrammar

open Reading

/-! ## Texts cut off -/

/-- **Bytes cut off from texts written one per line**: the cut is in the first line, before its
    line feed, or behind it. -/
inductive Cut : List Text → Bytes → Prop
  | within {t ts bs} : bs <+: Utf8.encode t → Cut (t :: ts) bs
  | behind {t ts bs} : Cut ts bs → Cut (t :: ts) (Utf8.encode t ++ 0x0A :: bs)

theorem Utf8.encode_unlines_concat (ts : List Text) (t : Text) :
    encode (Text.unlines (ts ++ [t])) = encode (Text.unlines ts ++ t) ++ [0x0A] := by
  rw [Text.unlines_append, encode_append, encode_unlines_cons, encode_append, List.append_assoc]
  rfl

theorem cut_of_ne {ts : List Text} {bs : Bytes} (h : bs <+: Utf8.encode (Text.unlines ts))
    (hne : bs ≠ Utf8.encode (Text.unlines ts)) : Cut ts bs := by
  induction ts generalizing bs with
  | nil => exact absurd (List.prefix_nil.1 h) hne
  | cons t ts ih =>
    rw [Utf8.encode_unlines_cons] at h hne
    obtain ⟨more, hmore⟩ := h
    rcases List.append_eq_append_iff.1 hmore with ⟨a, ha, -⟩ | ⟨b, rfl, hb⟩
    · exact .within ⟨a, ha.symm⟩
    · cases b with
      | nil => exact .within ⟨[], by simp⟩
      | cons c b =>
        obtain ⟨rfl, htail⟩ := List.cons.inj hb
        exact .behind (ih ⟨more, htail.symm⟩ fun he => hne (by rw [he]))

/-! ## Lines of what is cut off -/

namespace Cut

variable {t u : Text} {ts more texts : List Text} {bs : Bytes} {rest : List Bytes}

/-- **The first line of a cut** is what is left of the first text, if that is cut itself, and
    else it is all of that text. -/
theorem first_line (h : Cut (t :: ts) bs) (ht : t.Lossless)
    (hlines : bs.lines = Utf8.encode u :: rest) :
    (u ≠ [] ∧ u <+: t ∧ bs = Utf8.encode u ∧ rest = []) ∨
      (u = t ∧ ∃ bs' : Bytes, bs = Utf8.encode t ++ 0x0A :: bs' ∧ Cut ts bs' ∧
        bs'.lines = rest) := by
  have hmem : 0x0A ∉ Utf8.encode t := fun hm => ht.newline (Utf8.newline_mem_encode_iff.1 hm)
  cases h with
  | within h =>
    have hne : bs ≠ [] := by
      rintro rfl
      cases hlines
    rw [Bytes.lines_of_not_mem (fun hm => hmem (h.subset hm)) hne] at hlines
    obtain ⟨rfl, rfl⟩ := List.cons.inj hlines
    refine .inl ⟨?_, Utf8.prefix_of_encode h, rfl, rfl⟩
    rintro rfl
    exact hne rfl
  | @behind _ _ bs' h =>
    rw [Bytes.lines_append_newline hmem, Bytes.dropReturn_encode,
      Text.dropReturn_eq_self_iff.2 ht.carriage] at hlines
    obtain ⟨hu, hrest⟩ := List.cons.inj hlines
    exact .inr ⟨(Utf8.encode_injective hu).symm, bs', rfl, h, hrest⟩

/-- **Lines that are not the last ones of a cut are whole.** -/
theorem eq_of_lines (h : Cut (ts ++ more) bs) (hts : ∀ t ∈ ts, t.Lossless)
    (hlines : bs.lines = texts.map Utf8.encode ++ rest) (hlength : texts.length = ts.length)
    (hrest : rest ≠ []) :
    texts = ts ∧ ∃ bs', bs = Utf8.encode (Text.unlines ts) ++ bs' ∧ Cut more bs' ∧
      bs'.lines = rest := by
  induction ts generalizing bs texts with
  | nil =>
    obtain rfl := List.length_eq_zero_iff.1 hlength
    exact ⟨rfl, bs, rfl, h, hlines⟩
  | cons t ts ih =>
    obtain ⟨ht, htail⟩ := List.forall_mem_cons.1 hts
    cases texts with
    | nil => cases hlength
    | cons u texts =>
      rcases h.first_line ht hlines with ⟨-, -, -, hnil⟩ | ⟨rfl, bs₁, rfl, hcut, hlines₁⟩
      · exact absurd (List.append_eq_nil_iff.1 hnil).2 hrest
      · obtain ⟨rfl, bs', rfl, hcut, hrest'⟩ := ih hcut htail hlines₁ (Nat.succ.inj hlength)
        refine ⟨rfl, bs', ?_, hcut, hrest'⟩
        rw [Utf8.encode_unlines_cons, List.append_assoc]
        rfl

/-- So is a section that is not the last one. -/
theorem eq_of_counted (h : Cut (ts ++ more) bs) (hts : ∀ t ∈ ts, t.Lossless)
    (hcounted : Counted ts) (htexts : Counted texts)
    (hlines : bs.lines = texts.map Utf8.encode ++ rest) (hrest : rest ≠ []) :
    texts = ts ∧ ∃ bs', bs = Utf8.encode (Text.unlines ts) ++ bs' ∧ Cut more bs' ∧
      bs'.lines = rest := by
  refine eq_of_lines h hts hlines ?_ hrest
  cases ts with
  | nil => exact hcounted.elim
  | cons first entries =>
    cases texts with
    | nil => exact htexts.elim
    | cons first' entries' =>
      -- the count is whole, because there is a line behind it
      rcases h.first_line (hts first List.mem_cons_self) hlines with
        ⟨-, -, -, hnil⟩ | ⟨rfl, -⟩
      · exact absurd (List.append_eq_nil_iff.1 hnil).2 hrest
      · rw [List.length_cons, List.length_cons, Option.some.inj (htexts.symm.trans hcounted)]

/-- **If no line is missing, the cut is in the last one.** -/
theorem exists_of_lines (h : Cut ts bs) (hts : ∀ t ∈ ts, t.Lossless)
    (hlines : bs.lines = texts.map Utf8.encode ++ rest) (hlength : texts.length = ts.length) :
    ∃ before last q, ts = before ++ [last] ∧ q ≠ [] ∧ q <+: last ∧
      bs = Utf8.encode (Text.unlines before ++ q) := by
  induction ts generalizing bs texts with
  | nil => cases h
  | cons t ts ih =>
    obtain ⟨ht, htail⟩ := List.forall_mem_cons.1 hts
    cases texts with
    | nil => cases hlength
    | cons u texts =>
      rcases h.first_line ht hlines with ⟨hu, hline, rfl, hnil⟩ | ⟨rfl, bs₁, rfl, hcut, hlines₁⟩
      · obtain rfl := List.map_eq_nil_iff.1 (List.append_eq_nil_iff.1 hnil).1
        obtain rfl := List.length_eq_zero_iff.1 (Nat.succ.inj hlength).symm
        exact ⟨[], t, u, rfl, hu, hline, rfl⟩
      · obtain ⟨before, last, q, rfl, hq, hlast, rfl⟩ :=
          ih hcut htail hlines₁ (Nat.succ.inj hlength)
        refine ⟨u :: before, last, q, rfl, hq, hlast, ?_⟩
        rw [Utf8.encode_append, Utf8.encode_append, Utf8.encode_unlines_cons, List.append_assoc]
        rfl

end Cut

namespace Listing

variable {g g' : Grammar} {bs : Bytes}

/-! ## The lines of a listing -/

theorem lines_eq (g : Grammar) : lines g = symbolLines g.terminals ++
    (symbolLines g.nonterminals ++ ([g.entrypoint.name] ++ ruleLines g.rules)) := by
  simp [lines]

/-- The lines of a listing before its first rule line. -/
def headLines (g : Grammar) : List Text :=
  symbolLines g.terminals ++ symbolLines g.nonterminals ++
    [g.entrypoint.name, Count.digits g.rules.length]

theorem lines_eq_headLines (g : Grammar) : lines g = headLines g ++ g.rules.map Rule.line := by
  simp [lines, headLines, ruleLines]

theorem dropLast_lines {rules : List Rule} {r : Rule} (h : g.rules = rules ++ [r]) :
    (lines g).dropLast = headLines g ++ rules.map Rule.line := by
  rw [lines_eq_headLines, h, List.map_append, List.map_singleton, ← List.append_assoc,
    List.dropLast_concat]

/-- Of a lossless grammar nothing is lost on any line. -/
theorem lossless_of_mem_lines (h : g.Lossless) (hcount : g.Countable) {t : Text}
    (ht : t ∈ lines g) : t.Lossless := by
  refine ⟨(h.toReadable.listable hcount).not_mem_of_mem_lines ht, ?_⟩
  refine forall_mem_lines (p := fun t => t.getLast? ≠ some '\r') ?_ h.returns ?_ t ht
  · intro n
    exact Text.dropReturn_eq_self_iff.1 (dropReturn_digits n)
  · intro r hr hlast
    refine Text.not_mem_unwords (by decide) (List.forall_mem_map.2 fun s hs => ?_)
      (List.mem_of_getLast? hlast)
    exact Text.not_mem_of_isWord (h.rules r hr s hs) (by decide)

theorem counted_symbolLines {symbols : List Symbol} (h : symbols.length ≤ Count.greatest) :
    Counted (symbolLines symbols) := by
  rw [symbolLines, counted_cons_iff, List.length_map, read?_trim_digits h]

/-! ## What is read of a listing cut off -/

/-- **Grammars that differ in their last rules at most.** -/
structure AgreeButLast (g g' : Grammar) : Prop where
  terminals : g'.terminals = g.terminals
  nonterminals : g'.nonterminals = g.nonterminals
  entrypoint : g'.entrypoint = g.entrypoint
  size : g'.rules.length = g.rules.length
  rules : g'.rules.dropLast = g.rules.dropLast

/-- **A listing cut off within its last rule line**, of which the characters `q` are left. -/
structure CutInRule (g : Grammar) (bs : Bytes) (rules : List Rule) (r : Rule) (q : Text) :
    Prop where
  rules : g.rules = rules ++ [r]
  rest : q ≠ []
  line : q <+: r.line
  bytes : bs = Utf8.encode (Text.unlines (lines g).dropLast ++ q)

/-- The rules of a section are all announced, so only the last rule line can be cut; a section
    without rules has nothing but its count. -/
theorem exists_of_cut_ruleLines {rules : List Rule} {texts : List Text} {rest : List Bytes}
    (h : Cut (ruleLines rules) bs) (hlossless : ∀ t ∈ ruleLines rules, t.Lossless)
    (hcount : rules.length ≤ Count.greatest) (htexts : Counted texts)
    (hlines : bs.lines = texts.map Utf8.encode ++ rest) :
    (rules = [] ∧ bs = Utf8.encode (Count.digits 0)) ∨
      ∃ before r q, rules = before ++ [r] ∧ q ≠ [] ∧ q <+: r.line ∧
        bs = Utf8.encode (Text.unlines (Count.digits rules.length :: before.map Rule.line) ++ q) := by
  obtain ⟨hdigits, hlossless⟩ := List.forall_mem_cons.1 hlossless
  cases texts with
  | nil => exact htexts.elim
  | cons first entries =>
    rw [counted_cons_iff] at htexts
    rcases h.first_line hdigits hlines with ⟨hne, hfirst, rfl, hnil⟩ | ⟨rfl, bs', rfl, hcut, htail⟩
    · -- what is left of the count is no other count than zero
      obtain rfl := List.map_eq_nil_iff.1 (List.append_eq_nil_iff.1 hnil).1
      rw [Text.trim_of_not_blank fun c hc => digits_not_blank _ c (hfirst.subset hc)] at htexts
      have hzero := Count.eq_zero_of_read?_eq_zero hne hfirst htexts
      rw [hzero] at hfirst
      refine .inl ⟨List.length_eq_zero_iff.1 hzero, congrArg Utf8.encode ?_⟩
      rcases List.prefix_cons_iff.1 hfirst with hnil | ⟨tail, rfl, htail⟩
      · exact absurd hnil hne
      · rw [List.prefix_nil.1 htail]
        rfl
    · have hlength : entries.length = (rules.map Rule.line).length := by
        rw [read?_trim_digits hcount] at htexts
        rw [List.length_map, Option.some.inj htexts]
      obtain ⟨before, last, q, hsplit, hq, hlast, rfl⟩ :=
        hcut.exists_of_lines hlossless htail hlength
      obtain ⟨before, tail, rfl, rfl, hr⟩ := List.map_eq_append_iff.1 hsplit
      obtain ⟨r, rfl, rfl⟩ := List.map_eq_singleton_iff.1 hr
      refine .inr ⟨before, r, q, rfl, hq, hlast, ?_⟩
      rw [Utf8.encode_append, Utf8.encode_append, Utf8.encode_unlines_cons, List.append_assoc]
      rfl

/-- **A listing that is read although it is cut off** has no rules and lacks its last line feed,
    or is cut within its last rule line. -/
theorem cutInRule_of_read (h : g.Lossless) (hcount : g.Countable) (hcut : Cut (lines g) bs)
    (hread : read bs = .ok g') :
    (g.rules = [] ∧ bs ++ [0x0A] = bytes g) ∨ ∃ rules r q, CutInRule g bs rules r q := by
  have hlossless : ∀ t ∈ lines g, t.Lossless := fun t => lossless_of_mem_lines h hcount
  rw [lines_eq] at hcut hlossless
  obtain ⟨hterminals, hlossless⟩ := List.forall_mem_append.1 hlossless
  obtain ⟨hnonterminals, hlossless⟩ := List.forall_mem_append.1 hlossless
  obtain ⟨hstart, hrules⟩ := List.forall_mem_append.1 hlossless
  obtain ⟨t, n, r, entries, rest, hlines, ht, hn, hr, -⟩ := read_eq_ok_iff.1 hread
  have hsections : bs.lines = (t :: g'.terminals.map Symbol.name).map Utf8.encode ++
      ((n :: g'.nonterminals.map Symbol.name).map Utf8.encode ++
        ([g'.entrypoint.name].map Utf8.encode ++ ((r :: entries).map Utf8.encode ++ rest))) := by
    rw [hlines]
    simp
  -- the sections before the rules are whole, each because there is a line behind it
  obtain ⟨-, bs₁, rfl, hcut, hlines₁⟩ := hcut.eq_of_counted hterminals
    (counted_symbolLines hcount.terminals) (by rwa [counted_cons_iff, List.length_map]) hsections
    (by simp)
  obtain ⟨-, bs₂, rfl, hcut, hlines₂⟩ := hcut.eq_of_counted hnonterminals
    (counted_symbolLines hcount.nonterminals) (by rwa [counted_cons_iff, List.length_map]) hlines₁
    (by simp)
  obtain ⟨-, bs₃, rfl, hcut, hlines₃⟩ := hcut.eq_of_lines hstart hlines₂ rfl (by simp)
  have hcounted : Counted (r :: entries) := hr
  rcases exists_of_cut_ruleLines hcut hrules hcount.rules hcounted hlines₃ with
    ⟨hnil, rfl⟩ | ⟨before, r, q, hsplit, hq, hline, rfl⟩
  · refine .inl ⟨hnil, ?_⟩
    rw [bytes, render, lines_eq, hnil, ruleLines, List.map_nil, List.length_nil]
    simp only [← List.append_assoc]
    rw [Utf8.encode_unlines_concat]
    simp
  · refine .inr ⟨before, r, q, hsplit, hq, hline, ?_⟩
    rw [dropLast_lines hsplit, headLines]
    simp

/-! ## What a listing cut off is read as -/

/-- Lines that are whole and a last one without a line feed. -/
theorem lines_of_unended {before : List Text} {q : Text} (h : ∀ t ∈ before, t.Lossless)
    (hq : q ≠ []) (hnewline : '\n' ∉ q) :
    Bytes.lines (Utf8.encode (Text.unlines before ++ q)) = (before ++ [q]).map Utf8.encode := by
  have hmem : 0x0A ∉ Utf8.encode q := fun hm =>
    hnewline (Utf8.newline_mem_encode_iff.1 hm)
  have hne : Utf8.encode q ≠ [] := fun hnil => hq (Utf8.encode_injective hnil)
  rw [Utf8.encode_append, Bytes.lines_of_lossless h, Bytes.lines_of_not_mem hmem hne,
    List.map_append]
  rfl

/-- The lines of a listing are read, whatever text with the words of a rule stands for its
    line. -/
theorem read_eq_of_lines {entries : List Text} (rules : List Rule) (hcount : g.Countable)
    (hlines : bs.lines = (headLines g ++ entries).map Utf8.encode)
    (hlength : entries.length = g.rules.length)
    (hwords : entries.map Text.words = rules.map Rule.names) :
    read bs = .ok { g with rules := rules } := by
  refine read_eq_ok_iff.2 ⟨_, _, _, entries, [], ?_, read?_trim_digits ?_, read?_trim_digits ?_,
    read?_trim_digits ?_, hwords⟩
  · rw [hlines, headLines, hlength]
    simp [symbolLines]
  · exact hcount.terminals
  · exact hcount.nonterminals
  · exact hlength ▸ hcount.rules

/-- A rule line starts with the name of its head, so what is left of it has a word. -/
theorem words_ne_nil_of_line {r : Rule} {q : Text} (h : ∀ s ∈ r.symbols, Text.IsWord s.name)
    (hq : q ≠ []) (hline : q <+: r.line) : Text.words q ≠ [] := by
  obtain ⟨c, q, rfl⟩ := List.exists_cons_of_ne_nil hq
  obtain ⟨more, hmore⟩ := hline
  obtain ⟨hne, hblank⟩ := h r.head List.mem_cons_self
  have hhead : r.line.head? = r.head.name.head? := by
    rw [Rule.line, Rule.symbols, List.map_cons]
    cases r.body.map Symbol.name with
    | nil => rfl
    | cons w ws => rw [Text.unwords, List.head?_append, List.head?_eq_some_head hne, Option.some_or]
  rw [← hmore] at hhead
  exact Text.words_ne_nil List.mem_cons_self (hblank c (List.mem_of_head? hhead.symm))

/-- A listing without rules is read without its last line feed. -/
theorem read_of_append_newline (h : g.Lossless) (hcount : g.Countable) (hrules : g.rules = [])
    (hbs : bs ++ [0x0A] = bytes g) : read bs = .ok g := by
  have hlossless : ∀ t ∈ lines g, t.Lossless := fun t => lossless_of_mem_lines h hcount
  have hsplit : lines g = (lines g).dropLast ++ [Count.digits 0] := by
    rw [lines_eq_headLines, hrules, headLines, hrules]
    simp
  have hbytes : bs = Utf8.encode (Text.unlines (lines g).dropLast ++ Count.digits 0) := by
    rw [bytes, render, hsplit, Utf8.encode_unlines_concat] at hbs
    exact List.append_cancel_right hbs
  have hlines : bs.lines = (headLines g ++ []).map Utf8.encode := by
    rw [hbytes, lines_of_unended (fun t ht => hlossless t (List.dropLast_subset _ ht)) (by decide)
      (by decide), ← hsplit, lines_eq_headLines, hrules, List.map_nil]
  have hread := read_eq_of_lines [] hcount hlines (by rw [hrules]; rfl) rfl
  rwa [← hrules] at hread

/-- A listing that is cut off within its last rule line is read with the words that are left
    there. -/
theorem read_of_cutInRule {rules : List Rule} {r : Rule} {q : Text} (h : g.Lossless)
    (hcount : g.Countable) (hcut : CutInRule g bs rules r q) :
    ∃ r' : Rule, r'.names = Text.words q ∧ read bs = .ok { g with rules := rules ++ [r'] } := by
  have hlossless : ∀ t ∈ lines g, t.Lossless := fun t => lossless_of_mem_lines h hcount
  have hr : r ∈ g.rules := by
    rw [hcut.rules]
    exact List.mem_append_right _ List.mem_cons_self
  have hline : r.line ∈ lines g := by
    rw [lines_eq_headLines]
    exact List.mem_append_right _ (List.mem_map_of_mem hr)
  have hwords := words_ne_nil_of_line (h.rules r hr) hcut.rest hcut.line
  obtain ⟨r', hr'⟩ := Option.ne_none_iff_exists'.1 (mt Rule.ofLine?_eq_none_iff.1 hwords)
  rw [Rule.ofLine?_eq_some_iff] at hr'
  have hlines : bs.lines = (headLines g ++ (rules.map Rule.line ++ [q])).map Utf8.encode := by
    rw [hcut.bytes, lines_of_unended (fun t ht => hlossless t (List.dropLast_subset _ ht)) hcut.rest
      fun hm => (hlossless _ hline).newline (hcut.line.subset hm), dropLast_lines hcut.rules,
      List.append_assoc]
  refine ⟨r', hr'.symm, read_eq_of_lines _ hcount hlines ?_ ?_⟩
  · rw [hcut.rules]
    simp
  · have hrules : ∀ r ∈ rules, Text.words r.line = r.names := fun r hr => Rule.words_line_iff.2
      (h.rules r (by rw [hcut.rules]; exact List.mem_append_left _ hr))
    rw [List.map_append, List.map_append, List.map_map, List.map_singleton, List.map_singleton, hr']
    exact congrArg (· ++ [r'.names]) (List.map_congr_left hrules)

/-- **Which listings are read although they are cut off.**  Either there are no rules and only
    the last line feed is missing, or the cut is within the last rule line, behind a character
    of it.  In the first case the grammar is read as it was, in the second the last rule is made
    of the words left.  In any case all else is as it was. -/
theorem read_cut_iff (h : g.Lossless) (hcount : g.Countable) (hcut : bs <+: bytes g)
    (hne : bs ≠ bytes g) :
    ((∃ g', read bs = .ok g') ↔
      (g.rules = [] ∧ bs ++ [0x0A] = bytes g) ∨ ∃ rules r q, CutInRule g bs rules r q) ∧
    (g.rules = [] → bs ++ [0x0A] = bytes g → read bs = .ok g) ∧
    (∀ rules r q, CutInRule g bs rules r q →
      ∃ r' : Rule, r'.names = Text.words q ∧
        read bs = .ok { g with rules := rules ++ [r'] }) ∧
    ∀ g', read bs = .ok g' → AgreeButLast g g' := by
  have hiff {g' : Grammar} (hread : read bs = .ok g') :
      (g.rules = [] ∧ bs ++ [0x0A] = bytes g) ∨ ∃ rules r q, CutInRule g bs rules r q :=
    cutInRule_of_read h hcount (cut_of_ne hcut hne) hread
  refine ⟨⟨?_, ?_⟩, read_of_append_newline h hcount, fun rules r q => read_of_cutInRule h hcount,
    ?_⟩
  · rintro ⟨g', hread⟩
    exact hiff hread
  · rintro (⟨hrules, hbs⟩ | ⟨rules, r, q, hrule⟩)
    · exact ⟨g, read_of_append_newline h hcount hrules hbs⟩
    · obtain ⟨r', -, hread⟩ := read_of_cutInRule h hcount hrule
      exact ⟨_, hread⟩
  · intro g' hread
    rcases hiff hread with ⟨hrules, hbs⟩ | ⟨rules, r, q, hrule⟩
    · rw [read_of_append_newline h hcount hrules hbs] at hread
      cases hread
      exact ⟨rfl, rfl, rfl, rfl, rfl⟩
    · obtain ⟨r', -, hread'⟩ := read_of_cutInRule h hcount hrule
      rw [hread'] at hread
      cases hread
      exact ⟨rfl, rfl, rfl, by simp [hrule.rules], by simp [hrule.rules]⟩

/-- A grammar of two rules, whose terminal has a name of two bytes. -/
def pairs : Grammar :=
  ⟨[⟨"é".toList⟩], [⟨"Goal".toList⟩], ⟨"Goal".toList⟩,
    [⟨⟨"Goal".toList⟩, [⟨"é".toList⟩]⟩, ⟨⟨"Goal".toList⟩, [⟨"é".toList⟩, ⟨"Goal".toList⟩]⟩]⟩

/-- Its listing, cut off within the last name. -/
def cutPairs : Bytes := Utf8.encode "1\né\n1\nGoal\nGoal\n2\nGoal é\nGoal é Go".toList

theorem lossless_pairs : pairs.Lossless :=
  ⟨⟨by decide +kernel, by decide +kernel⟩, by decide +kernel⟩

theorem read_cut_iff_pairs :
    (pairs.Lossless ∧ pairs.Countable ∧ cutPairs <+: bytes pairs ∧ cutPairs ≠ bytes pairs) ∧
    ((∃ g', read cutPairs = .ok g') ↔
      (pairs.rules = [] ∧ cutPairs ++ [0x0A] = bytes pairs) ∨
        ∃ rules r q, CutInRule pairs cutPairs rules r q) ∧
    (pairs.rules = [] → cutPairs ++ [0x0A] = bytes pairs → read cutPairs = .ok pairs) ∧
    (∀ rules r q, CutInRule pairs cutPairs rules r q →
      ∃ r' : Rule, r'.names = Text.words q ∧
        read cutPairs = .ok { pairs with rules := rules ++ [r'] }) ∧
    ∀ g', read cutPairs = .ok g' → AgreeButLast pairs g' := by
  have hcount : pairs.Countable := ⟨by decide, by decide, by decide⟩
  have hcut : cutPairs <+: bytes pairs := by decide +kernel
  have hne : cutPairs ≠ bytes pairs := by decide +kernel
  exact ⟨⟨lossless_pairs, hcount, hcut, hne⟩, read_cut_iff lossless_pairs hcount hcut hne⟩

end Listing

end OptGrammar
