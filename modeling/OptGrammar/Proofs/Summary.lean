/-
  Grammars with optional symbols — what a summary hides.

  The parts of a summary are told apart although nothing in it is escaped: its rows end at the
  line feeds, each title is followed by a count, and as many names follow as it says, however
  many of them are empty.  In a rule the arrow is the second text, whatever symbols are named
  like it.  Only a body of the one symbol that is named as an empty body is written cannot be
  told from an empty one.

  * `Rule.apparent`, `Grammar.apparent`: what a reader of the summary takes it for.
  * `Grammar.Legible`: a grammar whose names do not hold what parts them in a summary.

  Main statement: `summary_eq_summary_iff`, legible grammars have the same summary exactly if
  they are apparently the same.
-/
import OptGrammar.Proofs.Injective

namespace OptGrammar

/-! ## What parts texts -/

namespace Text

/-- The first of a character parts what is before it from what is behind it. -/
theorem append_cons_inj {c : Char} {t u x y : Text} (ht : c ∉ t) (hu : c ∉ u) :
    t ++ c :: x = u ++ c :: y ↔ t = u ∧ x = y := by
  constructor
  · intro h
    have hsplit := congrArg (List.splitOn c) h
    rw [List.splitOn_append_cons_self_of_not_mem ht,
      List.splitOn_append_cons_self_of_not_mem hu] at hsplit
    obtain rfl := (List.cons.inj hsplit).1
    exact ⟨rfl, (List.cons.inj (List.append_cancel_left h)).2⟩
  · rintro ⟨rfl, rfl⟩
    rfl

/-- A join tells its texts if their number is known, also when there are none. -/
theorem unwords_inj {ws vs : List Text} (hlength : ws.length = vs.length)
    (hw : ∀ w ∈ ws, ' ' ∉ w) (hv : ∀ v ∈ vs, ' ' ∉ v) : unwords ws = unwords vs ↔ ws = vs := by
  constructor
  · intro h
    by_cases hne : ws = []
    · subst hne
      exact (List.length_eq_zero_iff.1 hlength.symm).symm
    · have hne' : vs ≠ [] := by
        rintro rfl
        exact hne (List.length_eq_zero_iff.1 hlength)
      have hsplit := congrArg (List.splitOn ' ') h
      rwa [splitOn_unwords hne hw, splitOn_unwords hne' hv] at hsplit
  · exact congrArg unwords

end Text

/-! ## Rules -/

namespace Rule

/-- The rule that a rule is taken for in its summary. -/
def apparent (r : Rule) : Rule := if r.body = [⟨emptyBody⟩] then { r with body := [] } else r

/-- The symbols that stand for the body of a rule in its summary. -/
def shownBody (r : Rule) : List Symbol := if r.isEmpty then [⟨emptyBody⟩] else r.body

/-- The texts of the summary of a rule. -/
def summaryTexts (r : Rule) : List Text :=
  r.head.name :: "->".toList :: r.shownBody.map Symbol.name

variable {r r' : Rule}

/-- The summary of a rule is the join of its texts. -/
theorem summary_eq (r : Rule) : r.summary = Text.unwords r.summaryTexts := by
  have hjoin (w : Text) (symbols : List Symbol) :
      Text.unwords (w :: symbols.map Symbol.name) = w ++ symbols.flatMap fun s => ' ' :: s.name := by
    induction symbols generalizing w with
    | nil => simp [Text.unwords]
    | cons s symbols ih =>
      rw [List.map_cons, Text.unwords, ih, List.flatMap_cons]
      rfl
  rw [summary, summaryTexts, shownBody, Text.unwords, hjoin]
  split <;> simp

theorem head_apparent (r : Rule) : r.apparent.head = r.head := by
  rw [apparent]
  split <;> rfl

theorem body_apparent (r : Rule) :
    r.apparent.body = if r.shownBody = [⟨emptyBody⟩] then [] else r.shownBody := by
  rw [apparent, shownBody, isEmpty]
  by_cases hempty : r.body = []
  · simp [hempty]
  · by_cases hmark : r.body = [⟨emptyBody⟩] <;> simp [hempty, hmark]

theorem shownBody_eq (r : Rule) :
    r.shownBody = if r.apparent.body = [] then [⟨emptyBody⟩] else r.apparent.body := by
  rw [apparent, shownBody, isEmpty]
  by_cases hempty : r.body = []
  · simp [hempty]
  · by_cases hmark : r.body = [⟨emptyBody⟩] <;> simp [hempty, hmark]

/-- Bodies are shown alike exactly if they are taken for the same. -/
theorem shownBody_eq_iff : r.shownBody = r'.shownBody ↔ r.apparent.body = r'.apparent.body := by
  constructor
  · intro h
    rw [body_apparent, body_apparent, h]
  · intro h
    rw [shownBody_eq, shownBody_eq, h]

/-- **The texts of a summary tell the rule** up to what it is taken for. -/
theorem summaryTexts_eq_iff : r.summaryTexts = r'.summaryTexts ↔ r.apparent = r'.apparent := by
  have hparts : r.apparent = r'.apparent ↔
      r.head = r'.head ∧ r.apparent.body = r'.apparent.body := by
    rw [← head_apparent r, ← head_apparent r']
    cases r.apparent
    cases r'.apparent
    exact Iff.of_eq (mk.injEq ..)
  rw [hparts, ← shownBody_eq_iff]
  constructor
  · intro h
    obtain ⟨hhead, htail⟩ := List.cons.inj h
    exact ⟨Symbol.ext hhead, (List.map_inj_right fun _ _ => Symbol.ext).1 (List.cons.inj htail).2⟩
  · rintro ⟨hhead, hbody⟩
    rw [summaryTexts, summaryTexts, hhead, hbody]

/-- The texts of a summary are named by symbols of the rule, but for the arrow and an empty
    body. -/
theorem not_mem_of_mem_summaryTexts {c : Char} (harrow : c ∉ "->".toList) (hempty : c ∉ emptyBody)
    (h : ∀ s ∈ r.symbols, c ∉ s.name) : ∀ t ∈ r.summaryTexts, c ∉ t := by
  obtain ⟨hhead, hbody⟩ := List.forall_mem_cons.1 h
  refine List.forall_mem_cons.2 ⟨hhead, List.forall_mem_cons.2 ⟨harrow, fun t ht => ?_⟩⟩
  obtain ⟨s, hs, rfl⟩ := List.mem_map.1 ht
  rw [shownBody] at hs
  split at hs
  · rw [List.mem_singleton.1 hs]
    exact hempty
  · exact hbody s hs

/-- A summary is cut at its spaces into its texts. -/
theorem splitOn_summary (h : ∀ s ∈ r.symbols, ' ' ∉ s.name) :
    r.summary.splitOn ' ' = r.summaryTexts := by
  rw [summary_eq]
  exact Text.splitOn_unwords (List.cons_ne_nil _ _)
    (not_mem_of_mem_summaryTexts (by decide) (by decide) h)

/-- **Rules have the same summary exactly if they are taken for the same**, if their names have no
    spaces. -/
theorem summary_eq_iff (h : ∀ s ∈ r.symbols, ' ' ∉ s.name) (h' : ∀ s ∈ r'.symbols, ' ' ∉ s.name) :
    r.summary = r'.summary ↔ r.apparent = r'.apparent := by
  rw [← summaryTexts_eq_iff]
  constructor
  · intro heq
    rw [← splitOn_summary h, heq, splitOn_summary h']
  · intro heq
    rw [summary_eq, summary_eq, heq]

/-- The same for rules one after the other. -/
theorem map_summary_eq_iff {rules rules' : List Rule}
    (h : ∀ r ∈ rules, ∀ s ∈ r.symbols, ' ' ∉ s.name)
    (h' : ∀ r ∈ rules', ∀ s ∈ r.symbols, ' ' ∉ s.name) :
    rules.map summary = rules'.map summary ↔ rules.map apparent = rules'.map apparent := by
  induction rules generalizing rules' with
  | nil => simp [eq_comm]
  | cons r rules ih =>
    cases rules' with
    | nil => simp
    | cons r' rules' =>
      obtain ⟨hr, hrules⟩ := List.forall_mem_cons.1 h
      obtain ⟨hr', hrules'⟩ := List.forall_mem_cons.1 h'
      simp only [List.map_cons, List.cons.injEq, summary_eq_iff hr hr', ih hrules hrules']

end Rule

/-! ## Grammars -/

namespace Grammar

/-- The grammar that a grammar is taken for in its summary. -/
def apparent (g : Grammar) : Grammar := { g with rules := g.rules.map Rule.apparent }

/-- **A grammar whose names do not hold what parts them** in a summary: none has a line feed, and
    none but that of the symbol to start from has a space. -/
structure Legible (g : Grammar) : Prop where
  entrypoint : '\n' ∉ g.entrypoint.name
  names : ∀ s ∈ g.terminals ++ g.nonterminals, '\n' ∉ s.name ∧ ' ' ∉ s.name
  rules : ∀ r ∈ g.rules, ∀ s ∈ r.symbols, '\n' ∉ s.name ∧ ' ' ∉ s.name

/-- The rows of a summary. -/
def summaryRows (g : Grammar) : List Text :=
  ["Entrypoint: ".toList ++ g.entrypoint.name,
    summaryRow "Terminals" g.terminals,
    summaryRow "Nonterminals" g.nonterminals,
    "Rules (".toList ++ Count.digits g.rules.length ++ "):".toList] ++
  g.rules.map fun r => "  ".toList ++ r.summary

theorem summary_eq (g : Grammar) : g.summary = Text.unlines g.summaryRows := rfl

/-- **A row tells its symbols**: the title is followed by their number, and only then by names. -/
theorem summaryRow_inj {title : String} {symbols symbols' : List Symbol}
    (h : ∀ s ∈ symbols, ' ' ∉ s.name) (h' : ∀ s ∈ symbols', ' ' ∉ s.name) :
    summaryRow title symbols = summaryRow title symbols' ↔ symbols = symbols' := by
  constructor
  · intro heq
    have hclose (n : Nat) : ')' ∉ Count.digits n := Count.not_mem_digits (by decide) n
    simp only [summaryRow, List.append_assoc, List.append_cancel_left_eq] at heq
    obtain ⟨hcount, hnames⟩ := (Text.append_cons_inj (hclose _) (hclose _)).1 heq
    have hlength : symbols.length = symbols'.length := Count.digits_inj.1 hcount
    have hjoins : Text.unwords (symbols.map Symbol.name) =
        Text.unwords (symbols'.map Symbol.name) := @List.append_cancel_left _ [':', ' '] _ _ hnames
    rw [Text.unwords_inj (by simpa using hlength) (List.forall_mem_map.2 h)
      (List.forall_mem_map.2 h')] at hjoins
    exact (List.map_inj_right fun _ _ => Symbol.ext).1 hjoins
  · exact congrArg (summaryRow title)

/-- A row breaks only where a name does. -/
theorem newline_not_mem_summaryRow {title : String} {symbols : List Symbol}
    (htitle : '\n' ∉ title.toList) (h : ∀ s ∈ symbols, '\n' ∉ s.name) :
    '\n' ∉ summaryRow title symbols := by
  have hnames : '\n' ∉ Text.unwords (symbols.map Symbol.name) :=
    Text.not_mem_unwords (by decide) (List.forall_mem_map.2 h)
  have hcount : '\n' ∉ Count.digits symbols.length := Count.not_mem_digits (by decide) _
  simp [summaryRow, htitle, hcount, hnames]

namespace Legible

variable {g : Grammar}

theorem newline_not_mem_summaryRows (h : g.Legible) : ∀ t ∈ g.summaryRows, '\n' ∉ t := by
  obtain ⟨hterminals, hnonterminals⟩ := List.forall_mem_append.1 h.names
  have hcount : '\n' ∉ Count.digits g.rules.length := Count.not_mem_digits (by decide) _
  have hrule : ∀ r ∈ g.rules, '\n' ∉ r.summary := by
    intro r hr
    rw [Rule.summary_eq]
    exact Text.not_mem_unwords (by decide) (Rule.not_mem_of_mem_summaryTexts (by decide)
      (by decide) fun s hs => (h.rules r hr s hs).1)
  refine List.forall_mem_append.2 ⟨?_, ?_⟩
  · simp only [List.forall_mem_cons, List.not_mem_nil, false_imp_iff, implies_true, and_true]
    refine ⟨?_, newline_not_mem_summaryRow (by decide) fun s hs => (hterminals s hs).1,
      newline_not_mem_summaryRow (by decide) fun s hs => (hnonterminals s hs).1, ?_⟩
    · simp [h.entrypoint]
    · simp [hcount]
  · intro t ht
    obtain ⟨r, hr, rfl⟩ := List.mem_map.1 ht
    simp [hrule r hr]

end Legible

variable {g g' : Grammar}

/-- The rows of a summary tell the parts of the grammar one by one. -/
theorem summaryRows_inj (h : g.Legible) (h' : g'.Legible) :
    g.summaryRows = g'.summaryRows ↔ g.apparent = g'.apparent := by
  have hindent (rules : List Rule) : rules.map (fun r => "  ".toList ++ r.summary) =
      (rules.map Rule.summary).map ("  ".toList ++ ·) := List.map_map.symm
  have hrules : g.rules.map (fun r => "  ".toList ++ r.summary) =
      g'.rules.map (fun r => "  ".toList ++ r.summary) ↔
      g.rules.map Rule.apparent = g'.rules.map Rule.apparent := by
    rw [hindent, hindent, List.map_inj_right fun _ _ => List.append_cancel_left,
      Rule.map_summary_eq_iff (fun r hr s hs => (h.rules r hr s hs).2)
        fun r hr s hs => (h'.rules r hr s hs).2]
  have hrows (title : String) {f : Grammar → List Symbol}
      (hf : ∀ g : Grammar, ∀ s ∈ f g, s ∈ g.terminals ++ g.nonterminals) :
      summaryRow title (f g) = summaryRow title (f g') ↔ f g = f g' :=
    summaryRow_inj (fun s hs => (h.names s (hf g s hs)).2) fun s hs => (h'.names s (hf g' s hs)).2
  have hterminals := hrows "Terminals" fun g _ => List.mem_append_left g.nonterminals
  have hnonterminals := hrows "Nonterminals" fun g _ => List.mem_append_right g.terminals
  constructor
  · intro heq
    simp only [summaryRows, List.cons_append, List.nil_append, List.cons.injEq,
      List.append_cancel_left_eq, hterminals, hnonterminals, hrules] at heq
    obtain ⟨hentrypoint, hts, hns, -, hrs⟩ := heq
    rw [apparent, apparent, hts, hns, Symbol.ext hentrypoint, hrs]
  · intro heq
    rw [apparent, apparent, mk.injEq] at heq
    obtain ⟨hts, hns, hentrypoint, hrs⟩ := heq
    have hlength : g.rules.length = g'.rules.length := by simpa using congrArg List.length hrs
    rw [summaryRows, summaryRows, hts, hns, hentrypoint, hlength, hrules.2 hrs]

/-- **What a summary hides.**  Grammars have the same summary exactly if they are the same but for
    bodies of the one symbol that is named as an empty body is written, and empty ones. -/
theorem summary_eq_summary_iff (h : g.Legible) (h' : g'.Legible) :
    g.summary = g'.summary ↔ g.apparent = g'.apparent := by
  rw [← summaryRows_inj h h', summary_eq, summary_eq,
    Text.unlines_inj h.newline_not_mem_summaryRows h'.newline_not_mem_summaryRows]

/-- A grammar with a terminal without a name and one named like an arrow, and with rules that look
    alike. -/
def arrows : Grammar :=
  ⟨[⟨[]⟩, ⟨"->".toList⟩], [⟨"ε".toList⟩], ⟨"a goal".toList⟩,
    [⟨⟨[]⟩, [⟨"->".toList⟩, ⟨[]⟩]⟩, ⟨⟨"->".toList⟩, [⟨"ε".toList⟩]⟩, ⟨⟨"ε".toList⟩, []⟩]⟩

/-- The same grammar, but the empty body and the one that looks like it are exchanged. -/
def arrowsExchanged : Grammar :=
  { arrows with rules :=
    [⟨⟨[]⟩, [⟨"->".toList⟩, ⟨[]⟩]⟩, ⟨⟨"->".toList⟩, []⟩, ⟨⟨"ε".toList⟩, [⟨"ε".toList⟩]⟩] }

theorem summary_eq_summary_iff_arrows : (arrows.Legible ∧ arrowsExchanged.Legible) ∧
    (arrows.summary = arrowsExchanged.summary ↔ arrows.apparent = arrowsExchanged.apparent) ∧
    arrows.apparent = arrowsExchanged.apparent ∧ arrows ≠ arrowsExchanged := by
  have h : arrows.Legible := ⟨by decide +kernel, by decide +kernel, by decide +kernel⟩
  have h' : arrowsExchanged.Legible := ⟨by decide +kernel, by decide +kernel, by decide +kernel⟩
  exact ⟨⟨h, h'⟩, summary_eq_summary_iff h h', by decide +kernel, by decide +kernel⟩

end Grammar

end OptGrammar
