/-
  Grammars with optional symbols — the pass over a source.

  The pass reads a source line by line into calls on a draft.  It gets to the end exactly
  if the source says something and has a header over every body, and its calls are then
  those of the content.

  Main statements: `pass_eq_iff`, when the pass ends without a fault and with which draft;
  `Content.finish_draft`, the draft is one of the grammar that the source stands for.
-/
import OptGrammar.Proofs.Calls
import OptGrammar.Proofs.Content
import OptGrammar.Proofs.Reading

namespace OptGrammar.Shorthand

/-! ## The rule section -/

/-- The header that is current behind lines; `head` is current in front of them. -/
def current (head : Option Symbol) : List Line → Option Symbol
  | [] => head
  | line :: rest => current (line.header?.or head) rest

theorem current_of_header?_eq_none {head : Option Symbol} {lines : List Line}
    (h : ∀ line ∈ lines, line.header? = none) : current head lines = head := by
  induction lines with
  | nil => rfl
  | cons line lines ih =>
    rw [current, h line List.mem_cons_self]
    exact ih fun l hl => h l (List.mem_cons_of_mem _ hl)

theorem placed_append (head : Option Symbol) (lines more : List Line) :
    placed head (lines ++ more) = placed head lines ++ placed (current head lines) more := by
  induction lines generalizing head with
  | nil => rfl
  | cons line lines ih =>
    rw [List.cons_append, placed, ih, placed, current]
    rfl

/-- **Texts under headers make the calls that they say**, and the lines behind them go on from
    there. -/
theorem steps_append {head : Option Symbol} {texts : List Text}
    (h : ∀ words, (none, Line.body words) ∉ placed head (kept texts)) (number : Nat)
    (rest : List Bytes) : steps head number (texts.map Utf8.encode ++ rest) =
      let more := steps (current head (kept texts)) (number + texts.length) rest
      ((placed head (kept texts)).filterMap callOf? ++ more.1, more.2) := by
  induction texts generalizing head number with
  | nil => rfl
  | cons t texts ih =>
    have hnumber : number + (t :: texts).length = number + 1 + texts.length := by
      rw [List.length_cons]
      omega
    rw [List.map_cons, List.cons_append, steps, Utf8.decode_encode, hnumber]
    dsimp only
    cases hline : Line.ofText t with
    | silent =>
      rw [kept_cons_silent hline] at h ⊢
      exact ih h (number + 1)
    | header name =>
      rw [kept_cons (by simp [hline]), hline, placed_header] at h ⊢
      dsimp only
      rw [ih (fun words hm => h words (List.mem_cons_of_mem _ hm))]
      rfl
    | body words =>
      rw [kept_cons (by simp [hline]), hline, placed_body] at h ⊢
      cases head with
      | none => exact absurd List.mem_cons_self (h words)
      | some s =>
        dsimp only
        rw [ih (fun words hm => h words (List.mem_cons_of_mem _ hm))]
        rfl

theorem steps_map_encode {head : Option Symbol} {texts : List Text}
    (h : ∀ words, (none, Line.body words) ∉ placed head (kept texts)) (number : Nat) :
    steps head number (texts.map Utf8.encode) =
      ((placed head (kept texts)).filterMap callOf?, none) := by
  simpa [steps] using steps_append h number []

/-- Lines that are read without a fault are texts with a header over every body. -/
theorem eq_map_encode_of_steps {head : Option Symbol} {number : Nat} {raws : List Bytes}
    (h : (steps head number raws).2 = none) : ∃ texts, raws = texts.map Utf8.encode ∧
      ∀ words, (none, Line.body words) ∉ placed head (kept texts) := by
  induction raws generalizing head number with
  | nil => exact ⟨[], rfl, by simp [kept, placed]⟩
  | cons raw raws ih =>
    rw [steps] at h
    split at h
    · cases h
    · rename_i t ht
      rw [Utf8.decode_eq_some_iff] at ht
      subst ht
      split at h
      · rename_i hline
        obtain ⟨texts, rfl, hplaced⟩ := ih h
        exact ⟨t :: texts, rfl, by rwa [kept_cons_silent hline]⟩
      · rename_i name hline
        obtain ⟨texts, rfl, hplaced⟩ := ih h
        refine ⟨t :: texts, rfl, ?_⟩
        intro words hm
        rw [kept_cons (by simp [hline]), hline, placed_header] at hm
        rcases List.mem_cons.1 hm with hm | hm
        · cases hm
        · exact hplaced words hm
      · rename_i words hline
        split at h
        · cases h
        · rename_i s
          obtain ⟨texts, rfl, hplaced⟩ := ih h
          refine ⟨t :: texts, rfl, ?_⟩
          intro words hm
          rw [kept_cons (by simp [hline]), hline, placed_body] at hm
          rcases List.mem_cons.1 hm with hm | hm
          · cases hm
          · exact hplaced words hm

/-! ## The terminals -/

theorem terminals_run_iff {cur cur' : Cursor} {symbols : List Symbol} :
    terminals.run cur = (.ok symbols, cur') ↔
      ∃ first lines, cur.rest = (first :: lines).map Utf8.encode ++ cur'.rest ∧
        Count.read? (Text.trim first) = some lines.length ∧
        symbols = lines.map (fun t => ⟨Text.trim t⟩) ∧
        cur'.number = cur.number + 1 + lines.length := by
  simp only [terminals, Reading.bind_run_iff, Reading.pure_run_iff]
  constructor
  · rintro ⟨n, cur₁, hcount, lines, cur₂, hlines, rfl, rfl⟩
    obtain ⟨first, hrest, hn, hnumber⟩ := Reading.section_run_iff.1 ⟨n, cur₁, hcount, hlines⟩
    exact ⟨first, lines, hrest, hn, rfl, hnumber⟩
  · rintro ⟨first, lines, hrest, hn, rfl, hnumber⟩
    obtain ⟨n, cur₁, hcount, hlines⟩ := Reading.section_run_iff.2 ⟨first, hrest, hn, hnumber⟩
    exact ⟨n, cur₁, hcount, lines, cur', hlines, rfl, rfl⟩

/-- The terminals of a source are read from its first lines. -/
theorem terminals_run_of_lines {source : Bytes} {first : Text} {lines : List Text}
    {rest : List Bytes} (hlines : source.lines = (first :: lines).map Utf8.encode ++ rest)
    (hcount : Count.read? (Text.trim first) = some lines.length) :
    terminals.run (.ofBytes source) =
      (.ok (lines.map fun t => ⟨Text.trim t⟩), ⟨rest, 1 + lines.length⟩) :=
  terminals_run_iff.2 ⟨first, lines, hlines, hcount, rfl, by simp [Cursor.ofBytes]⟩

/-! ## The pass -/

/-- The draft that the calls of a source are made on. -/
def Content.draft (c : Content) : Draft := (declare c.terminals).run c.calls

/-- **A pass over lines that are texts makes their calls**, and the lines behind them go on from
    there. -/
theorem pass_of_lines {source : Bytes} {first : Text} {terminals texts : List Text}
    {rest : List Bytes} {c : Content}
    (hlines : source.lines = (first :: (terminals ++ texts)).map Utf8.encode ++ rest)
    (hcount : Count.read? (Text.trim first) = some terminals.length)
    (hc : c = ⟨terminals.map fun t => ⟨Text.trim t⟩, kept texts⟩) (hheaded : c.Headed) :
    pass source =
      let more := steps (current none c.lines) (1 + terminals.length + texts.length) rest
      ⟨c.draft.run more.1, more.2⟩ := by
  subst hc
  have hfront : source.lines = (first :: terminals).map Utf8.encode ++
      (texts.map Utf8.encode ++ rest) := by
    rw [hlines, ← List.cons_append, List.map_append, List.append_assoc]
  rw [pass, terminals_run_of_lines hfront hcount]
  dsimp only
  rw [steps_append hheaded, Draft.run_append]
  rfl

/-- **The pass ends without a fault** exactly if the source says something and has a header
    over every body. -/
theorem pass_eq_iff {source : Bytes} {d : Draft} : pass source = ⟨d, none⟩ ↔
    ∃ c, Content.of? source = some c ∧ c.Headed ∧ d = c.draft := by
  constructor
  · intro h
    rw [pass] at h
    split at h
    · cases h
    · rename_i symbols cur hrun
      obtain ⟨first, lines, hrest, hcount, rfl, -⟩ := terminals_run_iff.1 hrun
      obtain ⟨hd, hfault⟩ := Pass.mk.inj h
      obtain ⟨texts, htexts, hplaced⟩ := eq_map_encode_of_steps hfault
      rw [htexts, steps_map_encode hplaced] at hd
      rw [htexts, ← List.map_append, List.cons_append] at hrest
      exact ⟨_, Content.of?_eq_some_iff.2 ⟨first, lines, texts, hrest, hcount, rfl⟩, hplaced,
        hd.symm⟩
  · rintro ⟨c, hc, hheaded, rfl⟩
    obtain ⟨first, lines, texts, hlines, hcount, hcontent⟩ := Content.of?_eq_some_iff.1 hc
    rw [← List.append_nil (List.map _ _)] at hlines
    rw [pass_of_lines hlines hcount hcontent hheaded]
    rfl

/-! ## The draft of a source -/

theorem declare_eq (symbols : List Symbol) : declare symbols =
    (Draft.empty.run (symbols.map .terminal)).emit (.readTerminals symbols.length) := by
  rw [declare, Draft.run, List.foldl_map]
  rfl

theorem knows_declare (symbols : List Symbol) :
    (declare symbols).Knows (symbols.map (·, .terminal)) [] := by
  have h := (Draft.Knows.empty.run (symbols.map .terminal)).emit (.readTerminals symbols.length)
  have hnotes : (symbols.map Draft.Step.terminal).flatMap Draft.Step.notes = [] := by
    simp [Draft.Step.notes]
  rw [← declare_eq, hnotes, List.flatMap_map] at h
  simpa [Draft.Step.touches, ← List.map_eq_flatMap] using h

theorem rules_declare (symbols : List Symbol) : (declare symbols).rules = [] := by
  rw [declare_eq, Draft.rules_emit, Draft.rules_run, List.filterMap_map]
  exact List.filterMap_eq_nil_iff.2 fun _ _ => rfl

theorem entrypoint_declare (symbols : List Symbol) :
    (declare symbols).entrypoint = Draft.defaultEntrypoint := by
  have : (symbols.map Draft.Step.terminal).filterMap Draft.Step.start? = [] := by
    rw [List.filterMap_map]
    exact List.filterMap_eq_nil_iff.2 fun _ _ => rfl
  rw [declare_eq, Draft.entrypoint_emit, Draft.entrypoint_run, this]
  rfl

/-- Under headers, what calls give is what their lines give. -/
theorem flatMap_callOf? {β : Type} {f : Draft.Step → List β} {g : Line → List β}
    (hsilent : g .silent = []) (hheader : ∀ name, f (.header ⟨name⟩) = g (.header name))
    (hbody : ∀ s words, f (.rule ⟨s, words.map Symbol.mk⟩) = g (.body words))
    {head : Option Symbol} {lines : List Line}
    (h : ∀ words, (none, Line.body words) ∉ placed head lines) :
    ((placed head lines).filterMap callOf?).flatMap f = lines.flatMap g := by
  induction lines generalizing head with
  | nil => rfl
  | cons line lines ih =>
    have hrest := ih fun words hm => h words (List.mem_cons_of_mem _ hm)
    cases line with
    | silent =>
      rw [placed_silent, List.filterMap_cons_none rfl, List.flatMap_cons, hsilent]
      exact hrest
    | header name => simpa [callOf?, hheader, Line.header?] using hrest
    | body words =>
      cases head with
      | none => exact absurd List.mem_cons_self (h words)
      | some s => simpa [callOf?, hbody, Line.header?] using hrest

theorem lookup_map_const {s : Symbol} {symbols : List Symbol} {r : Role} :
    (symbols.map (·, r)).lookup s = if s ∈ symbols then some r else none := by
  induction symbols with
  | nil => rfl
  | cons s₁ symbols ih =>
    rw [List.map_cons, List.lookup_cons, ih]
    by_cases h : s = s₁ <;> simp [h, beq_false_of_ne]

namespace Content

variable (c : Content)

/-- The touches of a source: its terminals, then the symbols in headers and bodies. -/
def touches : List (Symbol × Role) :=
  c.terminals.map (·, .terminal) ++ c.occurrences.map (·, .nonterminal)

theorem lookup_touches (s : Symbol) : c.touches.lookup s =
    if s ∈ c.terminals then some .terminal
    else if s ∈ c.occurrences then some .nonterminal else none := by
  rw [touches, List.lookup_append, lookup_map_const, lookup_map_const]
  split <;> rfl

theorem lookup_touches_of_terminal {s : Symbol} (h : s ∈ c.terminals.eraseDups) :
    c.touches.lookup s = some .terminal := by
  rw [lookup_touches, if_pos (List.mem_eraseDups.1 h)]

theorem lookup_touches_of_nonterminal {s : Symbol}
    (h : s ∈ (c.occurrences.filter fun s => s ∉ c.terminals).eraseDups) :
    c.touches.lookup s = some .nonterminal := by
  obtain ⟨hs, hterminal⟩ := List.mem_filter.1 (List.mem_eraseDups.1 h)
  rw [lookup_touches, if_neg (of_decide_eq_true hterminal), if_pos hs]

theorem eraseDups_touches : (c.touches.map Prod.fst).eraseDups =
    c.terminals.eraseDups ++ (c.occurrences.filter fun s => s ∉ c.terminals).eraseDups := by
  rw [touches, List.map_append, List.map_map, List.map_map, List.eraseDups_append]
  simp [Function.comp_def, List.removeAll]

theorem knows_draft (h : c.Headed) : c.draft.Knows c.touches c.occurrences := by
  have hrun := (knows_declare c.terminals).run c.calls
  have htouches : c.calls.flatMap Draft.Step.touches = c.occurrences.map (·, .nonterminal) := by
    rw [occurrences, List.map_flatMap]
    exact flatMap_callOf? rfl (fun _ => rfl) (fun _ _ => rfl) h
  have hnotes : c.calls.flatMap Draft.Step.notes = c.occurrences :=
    flatMap_callOf? rfl (fun _ => rfl) (fun _ _ => rfl) h
  rwa [htouches, hnotes] at hrun

/-- **The roles of a source**: its terminals, then the other symbols in headers and bodies. -/
theorem roles_draft (h : c.Headed) : c.draft.roles =
    c.terminals.eraseDups.map (·, .terminal) ++
      (c.occurrences.filter fun s => s ∉ c.terminals).eraseDups.map (·, .nonterminal) := by
  rw [(c.knows_draft h).roles_eq, eraseDups_touches, List.filterMap_append]
  congr 1
  · rw [← List.filterMap_eq_map]
    refine List.filterMap_congr fun s hs => ?_
    rw [c.lookup_touches_of_terminal hs]
    rfl
  · rw [← List.filterMap_eq_map]
    refine List.filterMap_congr fun s hs => ?_
    rw [c.lookup_touches_of_nonterminal hs]
    rfl

theorem terminals_draft (h : c.Headed) :
    c.draft.symbolsWith .terminal = c.terminals.eraseDups := by
  simp [Draft.symbolsWith, roles_draft c h, List.filter_map, Function.comp_def]

theorem nonterminals_draft (h : c.Headed) : c.draft.symbolsWith .nonterminal =
    (c.occurrences.filter fun s => s ∉ c.terminals).eraseDups := by
  simp [Draft.symbolsWith, roles_draft c h, List.filter_map, Function.comp_def]

theorem rules_draft : c.draft.rules = c.rules := by
  have : (fun p => (callOf? p).bind Draft.Step.rule?) = ruleOf? := by
    funext ⟨head, line⟩
    cases line <;> cases head <;> rfl
  rw [draft, Draft.rules_run, rules_declare, List.nil_append, calls, List.filterMap_filterMap,
    this]
  rfl

theorem entrypoint_draft : c.draft.entrypoint = Draft.defaultEntrypoint := by
  have : c.calls.filterMap Draft.Step.start? = [] := by
    rw [calls, List.filterMap_filterMap]
    refine List.filterMap_eq_nil_iff.2 fun ⟨head, line⟩ _ => ?_
    cases line <;> cases head <;> rfl
  rw [draft, Draft.entrypoint_run, this, entrypoint_declare]
  rfl

/-- The rules made up for a source are those of its optional symbols, by their bases. -/
theorem synthesized_draft (h : c.Headed) : c.draft.synthesized =
    c.bases.flatMap fun b => [⟨b.optional, []⟩, ⟨b.optional, [b]⟩] := by
  rw [Draft.synthesized, (c.knows_draft h).optionals, Symbol.flatMap_expansion]
  rfl

/-- **The draft of a source is one of the grammar that the source stands for.** -/
theorem finish_draft (h : c.Headed) : c.draft.finish = c.grammar := by
  rw [Draft.finish, terminals_draft c h, nonterminals_draft c h, entrypoint_draft, rules_draft,
    synthesized_draft c h]
  rfl

end Content

end OptGrammar.Shorthand
