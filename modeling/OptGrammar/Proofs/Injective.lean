/-
  Grammars with optional symbols — a listing tells its grammar.

  A listing has no labels and no marks around a name, and still it can be taken apart in one way
  only.  Its lines end at the line feeds, the counts tell where a section ends, and a rule line is
  cut at its spaces, at each of them.  That a name is empty, or has blanks of another kind, is not
  in the way of this, although such a grammar is not always read back from its listing.

  * `Grammar.Separable`: a grammar whose names do not hold what parts them in a listing.

  Main statement: `bytes_eq_bytes_iff`, only one separable grammar has a given listing.
-/
import OptGrammar.Proofs.Listing

namespace OptGrammar

/-! ## What parts texts -/

namespace Text

variable {ts ws : List Text}

/-- Texts written one per line are cut apart at the line feeds. -/
theorem splitOn_unlines (h : ∀ t ∈ ts, '\n' ∉ t) : (unlines ts).splitOn '\n' = ts ++ [[]] := by
  induction ts with
  | nil => rfl
  | cons t ts ih =>
    obtain ⟨ht, htail⟩ := List.forall_mem_cons.1 h
    rw [unlines_cons, List.splitOn_append_cons_self_of_not_mem ht, ih htail, List.cons_append]

theorem unlines_inj {us : List Text} (h : ∀ t ∈ ts, '\n' ∉ t) (h' : ∀ u ∈ us, '\n' ∉ u) :
    unlines ts = unlines us ↔ ts = us := by
  constructor
  · intro heq
    have hsplit := congrArg (List.splitOn '\n') heq
    rw [splitOn_unlines h, splitOn_unlines h'] at hsplit
    exact List.append_cancel_right hsplit
  · exact congrArg unlines

theorem unwords_eq (ws : List Text) : unwords ws = [' '].intercalate ws := by
  induction ws with
  | nil => rfl
  | cons w ws ih =>
    cases ws with
    | nil => rw [unwords, List.intercalate_singleton]
    | cons v ws =>
      rw [unwords, ih, List.intercalate_cons_cons, List.append_assoc]
      rfl

/-- A join of one text or more is cut apart at the spaces, whether the texts are words or not. -/
theorem splitOn_unwords (hne : ws ≠ []) (h : ∀ w ∈ ws, ' ' ∉ w) :
    (unwords ws).splitOn ' ' = ws := by
  rw [unwords_eq, List.splitOn_intercalate ' ' h hne]

end Text

/-- A count is told by its digits. -/
theorem Count.digits_inj {n m : Nat} : digits n = digits m ↔ n = m := by
  constructor
  · intro h
    have hvalue := congrArg (Nat.ofDigitChars 10 · 0) h
    simpa [digits, Nat.ofDigitChars_toDigits] using hvalue
  · exact congrArg digits

/-! ## Grammars told by their listings -/

/-- **A grammar whose names do not hold what parts them**: no name has a line feed, and none in a
    rule has a space. -/
structure Grammar.Separable (g : Grammar) : Prop where
  names : ∀ s ∈ g.entrypoint :: g.terminals ++ g.nonterminals, '\n' ∉ s.name
  rules : ∀ r ∈ g.rules, ∀ s ∈ r.symbols, '\n' ∉ s.name ∧ ' ' ∉ s.name

namespace Rule

/-- A rule line is cut at its spaces into the names of the rule. -/
theorem splitOn_line {r : Rule} (h : ∀ s ∈ r.symbols, ' ' ∉ s.name) :
    r.line.splitOn ' ' = r.names := by
  refine Text.splitOn_unwords (List.cons_ne_nil _ _) fun w hw => ?_
  obtain ⟨s, hs, rfl⟩ := List.mem_map.1 hw
  exact h s hs

theorem map_line_inj {rules rules' : List Rule} (h : ∀ r ∈ rules, ∀ s ∈ r.symbols, ' ' ∉ s.name)
    (h' : ∀ r ∈ rules', ∀ s ∈ r.symbols, ' ' ∉ s.name) :
    rules.map line = rules'.map line ↔ rules = rules' := by
  have hnames {rules : List Rule} (h : ∀ r ∈ rules, ∀ s ∈ r.symbols, ' ' ∉ s.name) :
      (rules.map line).map (List.splitOn ' ') = rules.map names := by
    rw [List.map_map]
    exact List.map_congr_left fun r hr => splitOn_line (h r hr)
  constructor
  · intro heq
    have hcut := congrArg (List.map (List.splitOn ' ')) heq
    rw [hnames h, hnames h'] at hcut
    exact (List.map_inj_right fun _ _ => names_injective).1 hcut
  · exact congrArg (List.map line)

end Rule

namespace Listing

variable {g g' : Grammar}

/-- **The count of a section tells where it ends**, whatever its names are. -/
theorem symbolLines_append_inj {symbols symbols' : List Symbol} {rest rest' : List Text} :
    symbolLines symbols ++ rest = symbolLines symbols' ++ rest' ↔
      symbols = symbols' ∧ rest = rest' := by
  constructor
  · intro h
    rw [symbolLines, symbolLines, List.cons_append, List.cons_append] at h
    obtain ⟨hcount, htail⟩ := List.cons.inj h
    have hlength : symbols.length = symbols'.length := Count.digits_inj.1 hcount
    obtain ⟨hnames, hrest⟩ := List.append_inj htail (by simp [hlength])
    exact ⟨(List.map_inj_right fun _ _ => Symbol.ext).1 hnames, hrest⟩
  · rintro ⟨rfl, rfl⟩
    rfl

/-- The lines of a listing are told apart by the order of the sections and the counts. -/
theorem lines_inj (h : g.Separable) (h' : g'.Separable) : lines g = lines g' ↔ g = g' := by
  constructor
  · intro heq
    rw [lines, lines, List.append_assoc, List.append_assoc, symbolLines_append_inj,
      symbolLines_append_inj, List.cons.injEq, ruleLines, ruleLines, List.cons.injEq] at heq
    obtain ⟨hterminals, hnonterminals, hentrypoint, -, hrules⟩ := heq
    rw [Rule.map_line_inj (fun r hr s hs => (h.rules r hr s hs).2)
      fun r hr s hs => (h'.rules r hr s hs).2] at hrules
    cases g
    cases g'
    obtain rfl := Symbol.ext hentrypoint
    cases hterminals
    cases hnonterminals
    cases hrules
    rfl
  · exact congrArg lines

/-- **A listing tells its grammar**, if names have no line feeds and those in rules no spaces. -/
theorem bytes_eq_bytes_iff (h : g.Separable) (h' : g'.Separable) : bytes g = bytes g' ↔ g = g' := by
  constructor
  · intro heq
    have hlines {g : Grammar} (h : g.Separable) : ∀ t ∈ lines g, '\n' ∉ t :=
      newline_not_mem_lines h.names fun r hr s hs => (h.rules r hr s hs).1
    have htexts : Text.unlines (lines g) = Text.unlines (lines g') := Utf8.encode_injective heq
    rw [Text.unlines_inj (hlines h) (hlines h')] at htexts
    exact (lines_inj h h').1 htexts
  · exact congrArg bytes

/-- A grammar with a terminal without a name, and a rule that has this terminal once. -/
def nameless : Grammar :=
  ⟨[⟨[]⟩, ⟨"a b\r".toList⟩], [⟨"Goal\t".toList⟩], ⟨"Goal\t".toList⟩,
    [⟨⟨"Goal\t".toList⟩, [⟨[]⟩]⟩, ⟨⟨[]⟩, []⟩]⟩

/-- The same grammar, but the rule has the terminal twice. -/
def namelessTwice : Grammar :=
  { nameless with rules := [⟨⟨"Goal\t".toList⟩, [⟨[]⟩, ⟨[]⟩]⟩, ⟨⟨[]⟩, []⟩] }

theorem bytes_eq_bytes_iff_nameless : (nameless.Separable ∧ namelessTwice.Separable) ∧
    (bytes nameless = bytes namelessTwice ↔ nameless = namelessTwice) := by
  have h : nameless.Separable := ⟨by decide +kernel, by decide +kernel⟩
  have h' : namelessTwice.Separable := ⟨by decide +kernel, by decide +kernel⟩
  exact ⟨⟨h, h'⟩, bytes_eq_bytes_iff h h'⟩

end Listing

end OptGrammar
