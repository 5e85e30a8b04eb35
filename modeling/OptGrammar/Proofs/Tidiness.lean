/-
  Grammars with optional symbols — each symbol once and in one role.

  A draft gives a symbol one role and lists it once, whatever the calls are.  So what is put
  together from calls or expanded from a source is tidy.  A listing is read as it stands, and
  a name that it lists twice is listed twice in the grammar.

  * `Grammar.Tidy`: no symbol is listed twice.
  * `Origin`: where grammars come from.

  Main statement: `Origin.tidy_iff`, a grammar is tidy unless it is loaded from a listing with
  a name that is listed twice.
-/
import OptGrammar.Proofs.Expansion
import OptGrammar.Proofs.Fault
import OptGrammar.Proofs.Files
import OptGrammar.Proofs.Listing

namespace OptGrammar

open Reading Shorthand

/-- **A tidy grammar** lists each symbol once and in one role. -/
structure Grammar.Tidy (g : Grammar) : Prop where
  terminals : g.terminals.Nodup
  nonterminals : g.nonterminals.Nodup
  disjoint : ∀ s ∈ g.terminals, s ∉ g.nonterminals

theorem Grammar.tidy_iff_nodup {g : Grammar} : g.Tidy ↔
    (g.terminals.map Symbol.name ++ g.nonterminals.map Symbol.name).Nodup := by
  have hnames : (g.terminals.map Symbol.name ++ g.nonterminals.map Symbol.name).Nodup ↔
      (g.terminals ++ g.nonterminals).Nodup := by
    have hne (s s' : Symbol) : s.name ≠ s'.name ↔ s ≠ s' :=
      not_congr ⟨Symbol.ext, congrArg Symbol.name⟩
    rw [← List.map_append, List.Nodup, List.pairwise_map, List.Nodup]
    simp only [hne]
  rw [hnames, List.nodup_append]
  constructor
  · rintro ⟨hterminals, hnonterminals, hdisjoint⟩
    refine ⟨hterminals, hnonterminals, ?_⟩
    rintro s hs s' hs' rfl
    exact hdisjoint s hs hs'
  · rintro ⟨hterminals, hnonterminals, hdisjoint⟩
    exact ⟨hterminals, hnonterminals, fun s hs hs' => hdisjoint s hs s hs' rfl⟩

/-! ## Calls and sources -/

/-- **What is put together is tidy**: a symbol has the role of its first touch alone. -/
theorem Draft.Knows.tidy_finish {d : Draft} {touches : List (Symbol × Role)}
    {notes : List Symbol} (h : d.Knows touches notes) : d.finish.Tidy := by
  have hnodup (r : Role) : (d.symbolsWith r).Nodup := by
    rw [h.symbolsWith]
    exact (nodup_eraseDups _).filter _
  refine ⟨hnodup .terminal, hnodup .nonterminal, ?_⟩
  intro s hs hs'
  have hrole (r : Role) (hs : s ∈ d.symbolsWith r) : touches.lookup s = some r := by
    rw [h.symbolsWith, List.mem_filter] at hs
    exact of_decide_eq_true hs.2
  have hterminal := hrole .terminal hs
  rw [hrole .nonterminal hs'] at hterminal
  cases hterminal

theorem Draft.tidy_finish_run (steps : List Step) : (Draft.empty.run steps).finish.Tidy :=
  (Knows.empty.run steps).tidy_finish

/-- **What a source expands to is tidy.** -/
theorem tidy_of_expand {source : Bytes} {g : Grammar} (h : (expand source).result = .ok g) :
    g.Tidy := by
  obtain ⟨c, -, hheaded, rfl⟩ := expand_ok_iff.1 h
  rw [← c.finish_draft hheaded]
  exact (c.knows_draft hheaded).tidy_finish

/-! ## Listings -/

/-- A listing in whose sections of symbols no name is listed twice. -/
def Listing.Distinct (bs : Bytes) : Prop :=
  ∀ t ts n ns rest, bs.lines = (t :: ts).map Utf8.encode ++ ((n :: ns).map Utf8.encode ++ rest) →
    Counted (t :: ts) → Counted (n :: ns) → (ts ++ ns).Nodup

/-- **What is read from a listing is tidy** exactly if no name is listed twice. -/
theorem Listing.tidy_iff_of_read {bs : Bytes} {g : Grammar} (h : read bs = .ok g) :
    g.Tidy ↔ Distinct bs := by
  obtain ⟨t, n, r, lines, rest, hlines, ht, hn, -, -⟩ := read_eq_ok_iff.1 h
  have hsections : bs.lines = (t :: g.terminals.map Symbol.name).map Utf8.encode ++
      ((n :: g.nonterminals.map Symbol.name).map Utf8.encode ++
        ((g.entrypoint.name :: r :: lines).map Utf8.encode ++ rest)) := by
    rw [hlines]
    simp
  have hterminals : Counted (t :: g.terminals.map Symbol.name) := by
    rwa [counted_cons_iff, List.length_map]
  have hnonterminals : Counted (n :: g.nonterminals.map Symbol.name) := by
    rwa [counted_cons_iff, List.length_map]
  rw [Grammar.tidy_iff_nodup]
  constructor
  · intro hnodup t' ts n' ns rest' hlines' ht' hn'
    rw [hsections] at hlines'
    obtain ⟨hts, hrest⟩ := hterminals.append_inj ht' hlines'
    obtain ⟨hns, -⟩ := hnonterminals.append_inj hn' hrest
    rwa [← (List.cons.inj hts).2, ← (List.cons.inj hns).2]
  · intro hdistinct
    exact hdistinct t _ n _ _ hsections hterminals hnonterminals

/-! ## Files -/

theorem exists_of_toOption_eq_some {ε α : Type} {x : Except ε α} {a : α}
    (h : x.toOption = some a) : x = .ok a := by
  cases x with
  | error e => cases h
  | ok b =>
    cases h
    rfl

namespace Store

variable {s s' : Store} {g : Grammar} {path input output : Text}

theorem eq_ok_of_faultAt {α : Type} {x : Except StreamFault α} {a : α}
    (h : faultAt path x = .ok a) : x = .ok a := by
  cases x with
  | error cause => cases h
  | ok b =>
    cases h
    rfl

/-- A grammar that is loaded is read from the bytes of its file. -/
theorem read_of_loadFile (h : s.loadFile path = .ok g) :
    ∃ bs, s.read? path = .ok bs ∧ Listing.read bs = .ok g := by
  obtain ⟨bs, hbytes, h⟩ := exists_of_bind_eq_ok h
  refine ⟨bs, eq_ok_of_faultAt hbytes, ?_⟩
  cases hread : Listing.read bs with
  | error fault =>
    rw [hread] at h
    cases h
  | ok g' =>
    rw [hread] at h
    cases h
    rfl

/-- A grammar that is expanded between files is of the bytes of the first. -/
theorem expand_of_expandFile (h : (s.expandFile input output).2 = .ok (g, s')) :
    ∃ bs, s.read? input = .ok bs ∧ (expand bs).result = .ok g := by
  obtain ⟨g', hsource, h⟩ := exists_of_bind_eq_ok h
  obtain ⟨s₁, -, h⟩ := exists_of_bind_eq_ok h
  cases h
  replace hsource : (s.expandSource input).2 = .ok g := hsource
  rw [expandSource] at hsource
  cases hread : s.read? input with
  | error cause =>
    rw [hread] at hsource
    cases hsource
  | ok bs =>
    rw [hread] at hsource
    cases hresult : (expand bs).result with
    | error fault =>
      simp only [hresult] at hsource
      cases hsource
    | ok g₁ =>
      simp only [hresult] at hsource
      cases hsource
      exact ⟨bs, rfl, hresult⟩

end Store

/-! ## Origins -/

/-- **Where grammars come from.** -/
inductive Origin
  /-- A draft that calls were made on. -/
  | calls (steps : List Draft.Step)
  /-- A source, expanded into a sink. -/
  | source (bytes : Bytes) (sink : Sink)
  /-- A source in a file, expanded into another file. -/
  | sourceFile (store : Store) (input output : Text)
  /-- A listing in a file. -/
  | listingFile (store : Store) (path : Text)

namespace Origin

/-- The grammar from there, if there is one. -/
def grammar? : Origin → Option Grammar
  | .calls steps => some (Draft.empty.run steps).finish
  | .source bytes sink => (expandInto bytes sink).1.toOption
  | .sourceFile store input output => (store.expandFile input output).2.toOption.map Prod.fst
  | .listingFile store path => (store.loadFile path).toOption

/-- Whether no name is listed twice in a listing there. -/
def Distinct : Origin → Prop
  | .calls _ | .source .. | .sourceFile .. => True
  | .listingFile store path => ∀ bs, store.read? path = .ok bs → Listing.Distinct bs

/-- **A grammar is tidy** unless it is loaded from a listing with a name listed twice. -/
theorem tidy_iff {o : Origin} {g : Grammar} (h : o.grammar? = some g) : g.Tidy ↔ o.Distinct := by
  cases o with
  | calls steps =>
    cases h
    exact iff_of_true (Draft.tidy_finish_run steps) trivial
  | source bytes sink =>
    have hinto : expandInto bytes sink = (.ok g, (expandInto bytes sink).2) :=
      Prod.ext (exists_of_toOption_eq_some h) rfl
    exact iff_of_true (tidy_of_expand (expandInto_ok hinto).1) trivial
  | sourceFile store input output =>
    obtain ⟨⟨g', store'⟩, hfile, rfl⟩ := Option.map_eq_some_iff.1 h
    obtain ⟨bs, -, hexpand⟩ := Store.expand_of_expandFile (exists_of_toOption_eq_some hfile)
    exact iff_of_true (tidy_of_expand hexpand) trivial
  | listingFile store path =>
    obtain ⟨bs, hbytes, hread⟩ := Store.read_of_loadFile (exists_of_toOption_eq_some h)
    rw [Listing.tidy_iff_of_read hread]
    constructor
    · intro hdistinct bs' hbytes'
      rw [hbytes] at hbytes'
      cases hbytes'
      exact hdistinct
    · intro hdistinct
      exact hdistinct bs hbytes

/-- The file of a listing in which names are listed more than once. -/
def repeated : Origin :=
  .listingFile (Store.empty.put (Location.working.child "a.cfg".toList)
    (.file (Utf8.encode "2\nid\nid\n3\nid\nExpr\nExpr\nExpr\n0\n".toList))) "a.cfg".toList

/-- The grammar that is loaded from there. -/
def repeatedGrammar : Grammar :=
  ⟨[⟨"id".toList⟩, ⟨"id".toList⟩], [⟨"id".toList⟩, ⟨"Expr".toList⟩, ⟨"Expr".toList⟩],
    ⟨"Expr".toList⟩, []⟩

theorem grammar?_repeated : repeated.grammar? = some repeatedGrammar := by decide +kernel

theorem tidy_iff_repeated : repeated.grammar? = some repeatedGrammar ∧
    (repeatedGrammar.Tidy ↔ repeated.Distinct) :=
  ⟨grammar?_repeated, tidy_iff grammar?_repeated⟩

theorem not_tidy_of_origin : ¬ ∀ (o : Origin) (g : Grammar), o.grammar? = some g → g.Tidy := by
  intro h
  have htidy := h repeated repeatedGrammar grammar?_repeated
  exact absurd htidy.terminals (by decide)

end Origin

end OptGrammar
