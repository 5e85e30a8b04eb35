/-
  Grammars with optional symbols — what the log of an expansion tells.

  The log says of each symbol once what its role is, and of each optional symbol once that it
  was found.  What it remarks besides are oddities of the source, the number of terminals and
  the numbers of the finished grammar.  An expansion that fails has logged what the lines in
  front of the fault gave rise to.

  * `Event.isRemark`: an event that tells neither a role nor an optional symbol.
  * `Step.remarks`, `Content.remarks`: what is remarked on a call and on a whole source.
  * `Tells`: a log tells what is read of a source.

  Main statements: `Knows.remarks_run`, what is remarked on a run of calls; `log_expand`, the
  whole log of an expansion.
-/
import Mathlib.Data.List.Basic
import OptGrammar.Proofs.Front
import OptGrammar.Proofs.Runs

namespace OptGrammar

/-- Whether an event tells neither a role nor an optional symbol. -/
def Event.isRemark : Event → Bool
  | .classified .. | .foundOptional _ => false
  | _ => true

theorem Event.isRemark_of_warn {e : Event} (h : e.level = .warn) : e.isRemark = true := by
  cases e with
  | classified | foundOptional => cases h
  | _ => rfl

namespace Draft

variable {d : Draft} {touches : List (Symbol × Role)} {notes : List Symbol}

/-! ## Remarks on calls -/

/-- The remarks in the log of a draft. -/
def remarks (d : Draft) : List Event := d.log.filter Event.isRemark

theorem remarks_emit (d : Draft) (e : Event) :
    (d.emit e).remarks = d.remarks ++ [e].filter Event.isRemark := List.filter_append ..

@[simp]
theorem remarks_classify (d : Draft) (s : Symbol) (r : Role) :
    (d.classify s r).remarks = d.remarks := by
  rw [classify]
  split
  · rfl
  · exact (remarks_emit _ _).trans (List.append_nil _)

@[simp]
theorem remarks_note (d : Draft) (s : Symbol) : (d.note s).remarks = d.remarks := by
  rw [note]
  split
  · exact (remarks_emit _ _).trans (List.append_nil _)
  · rfl

theorem remarks_foldl_meet (d : Draft) (body : List Symbol) :
    (body.foldl meet d).remarks = d.remarks := by
  induction body generalizing d with
  | nil => rfl
  | cons s body ih => rw [List.foldl_cons, ih, meet, remarks_note, remarks_classify]

namespace Step

/-- **What is remarked on a call** when some symbols have been touched. -/
def remarks (touches : List (Symbol × Role)) : Step → List Event
  | .terminal s => (if s.name = [] then [.emptyTerminal] else []) ++
      if touches.lookup s = some .nonterminal then [.refusedTerminal s] else []
  | .header s => if touches.lookup s = some .terminal then [.headerOnTerminal s] else []
  | .rule _ | .startAt _ => []

/-- What is remarked on some calls, one after the other. -/
def remarksOf (touches : List (Symbol × Role)) : List Step → List Event
  | [] => []
  | step :: steps => step.remarks touches ++ remarksOf (touches ++ step.touches) steps

end Step

theorem Knows.remarks_terminal (h : d.Knows touches notes) (s : Symbol) :
    (d.terminal s).remarks = d.remarks ++ (Step.terminal s).remarks touches := by
  obtain ⟨named, hnamed, hknows, hremarks⟩ : ∃ named,
      (if s.name.isEmpty then d.emit .emptyTerminal else d) = named ∧
      named.Knows touches notes ∧
      named.remarks = d.remarks ++ if s.name = [] then [.emptyTerminal] else [] := by
    by_cases hs : s.name = []
    · exact ⟨d.emit .emptyTerminal, by simp [hs], h.emit _, by simp [hs, remarks_emit,
        Event.isRemark]⟩
    · exact ⟨d, by simp [hs], h, by simp [hs]⟩
  -- the warning about the name comes first and leaves the role open
  have hrole : (named.classify s .terminal).role? s =
      (touches.lookup s).or (some .terminal) := by
    rw [role?_classify, hknows.role?, List.lookup_cons_self]
  rw [Draft.terminal, hnamed]
  simp only [hrole, Step.remarks]
  cases touches.lookup s with
  | none => simp [hremarks]
  | some r =>
    cases r with
    | terminal => simp [hremarks]
    | nonterminal => simp [hremarks, remarks_emit, Event.isRemark]

theorem Knows.remarks_header (h : d.Knows touches notes) (s : Symbol) :
    (d.header s).remarks = d.remarks ++ (Step.header s).remarks touches := by
  have hrole : (d.classify s .nonterminal).role? s =
      (touches.lookup s).or (some .nonterminal) := by
    rw [role?_classify, h.role?, List.lookup_cons_self]
  simp only [Draft.header, hrole, Step.remarks, remarks_note]
  cases touches.lookup s with
  | none => simp
  | some r =>
    cases r with
    | terminal => simp [remarks_emit, Event.isRemark]
    | nonterminal => simp

theorem Knows.remarks_apply (h : d.Knows touches notes) (step : Step) :
    (d.apply step).remarks = d.remarks ++ step.remarks touches := by
  cases step with
  | terminal s => exact h.remarks_terminal s
  | header s => exact h.remarks_header s
  | rule r =>
    rw [Step.remarks, List.append_nil]
    exact remarks_foldl_meet d r.body
  | startAt s => exact (List.append_nil _).symm

/-- **What a run of calls adds to the remarks.** -/
theorem Knows.remarks_run (h : d.Knows touches notes) (steps : List Step) :
    (d.run steps).remarks = d.remarks ++ Step.remarksOf touches steps := by
  induction steps generalizing d touches notes with
  | nil => exact (List.append_nil _).symm
  | cons step steps ih =>
    rw [run_cons, ih (h.apply step), h.remarks_apply, List.append_assoc]
    rfl

namespace Step

/-- A declaration of terminals in front of all else is remarked on for empty names only. -/
theorem remarksOf_terminals (h : ∀ s, touches.lookup s ≠ some .nonterminal)
    (symbols : List Symbol) : remarksOf touches (symbols.map .terminal) =
      (symbols.filter fun s => s.name = []).map fun _ => .emptyTerminal := by
  induction symbols generalizing touches with
  | nil => rfl
  | cons s symbols ih =>
    have hnext : ∀ s', (touches ++ (Step.terminal s).touches).lookup s' ≠ some .nonterminal := by
      intro s'
      rw [List.lookup_append, ne_eq, Option.or_eq_some_iff, not_or, lookup_touches_iff]
      exact ⟨h s', by simp [Step.touches]⟩
    rw [List.map_cons, remarksOf, ih hnext, remarks, if_neg (h s), List.append_nil]
    by_cases hs : s.name = [] <;> simp [hs]

theorem lookup_touches_ne_terminal {step : Step} (h : ∀ s, step ≠ .terminal s) (s : Symbol) :
    step.touches.lookup s ≠ some .terminal := by
  intro hs
  rw [lookup_touches_iff] at hs
  cases step with
  | terminal s' => exact h s' rfl
  | header | rule | startAt => simp [touches] at hs

/-- Behind the declaration of terminals it does not matter what else was touched. -/
theorem remarks_append {step step' : Step} (h : ∀ s, step ≠ .terminal s)
    (h' : ∀ s, step' ≠ .terminal s) :
    step.remarks (touches ++ step'.touches) = step.remarks touches := by
  have hlookup (s : Symbol) : (touches ++ step'.touches).lookup s = some .terminal ↔
      touches.lookup s = some .terminal := by
    rw [List.lookup_append, Option.or_eq_some_iff]
    simp [lookup_touches_ne_terminal h' s]
  cases step with
  | terminal s => exact absurd rfl (h s)
  | header s => simp only [remarks, hlookup]
  | rule | startAt => rfl

theorem remarksOf_eq_flatMap {steps : List Step} (h : ∀ s, .terminal s ∉ steps) :
    remarksOf touches steps = steps.flatMap (remarks touches) := by
  induction steps generalizing touches with
  | nil => rfl
  | cons step steps ih =>
    have hstep : ∀ s, step ≠ .terminal s := fun s hs => h s (hs ▸ List.mem_cons_self)
    have hsteps : ∀ s, .terminal s ∉ steps := fun s hs => h s (List.mem_cons_of_mem _ hs)
    rw [remarksOf, ih hsteps, List.flatMap_cons]
    congr 1
    -- the calls behind this one are made after more touches, but to the same effect
    refine List.flatMap_congr fun step' hmem => remarks_append ?_ hstep
    intro s hs
    exact hsteps s (hs ▸ hmem)

end Step

end Draft

namespace Shorthand.Content

variable {c : Content}

theorem faithful_draft (c : Content) : c.draft.Faithful := by
  rw [draft, declare_eq]
  exact ((Draft.Faithful.empty.run _).emit rfl rfl).run _

theorem terminal_not_mem_calls (c : Content) (s : Symbol) : .terminal s ∉ c.calls := by
  rw [calls, List.mem_filterMap]
  rintro ⟨⟨head, line⟩, -, hcall⟩
  cases line <;> cases head <;> cases hcall

/-- What is remarked on a line behind the declaration of terminals. -/
def lineRemarks (c : Content) (line : Line) : List Event :=
  (line.header?.toList.filter (· ∈ c.terminals)).map .headerOnTerminal

theorem flatMap_lineRemarks (c : Content) : c.lines.flatMap c.lineRemarks =
    (c.headers.filter (· ∈ c.terminals)).map .headerOnTerminal := by
  rw [headers, List.filterMap_eq_flatMap_toList, List.filter_flatMap, List.map_flatMap]
  rfl

theorem remarks_declare (symbols : List Symbol) : (declare symbols).remarks =
    ((symbols.filter fun s => s.name = []).map fun _ => .emptyTerminal) ++
      [.readTerminals symbols.length] := by
  rw [declare_eq, Draft.remarks_emit, Draft.Knows.empty.remarks_run,
    Draft.Step.remarksOf_terminals (by simp)]
  rfl

/-- What is remarked on a source: the terminals without a name, the number of terminals, and the
    headers that name a terminal. -/
def remarks (c : Content) : List Event :=
  ((c.terminals.filter fun s => s.name = []).map fun _ => .emptyTerminal) ++
    .readTerminals c.terminals.length ::
      (c.headers.filter (· ∈ c.terminals)).map .headerOnTerminal

theorem remarks_draft (h : c.Headed) : c.draft.remarks = c.remarks := by
  have hcalls : c.calls.flatMap (Draft.Step.remarks (c.terminals.map (·, .terminal))) =
      c.lines.flatMap c.lineRemarks := by
    refine flatMap_callOf? rfl ?_ (fun _ _ => rfl) h
    intro name
    rw [Draft.Step.remarks, lookup_map_const, lineRemarks, Line.header?]
    by_cases hs : (⟨name⟩ : Symbol) ∈ c.terminals <;> simp [hs]
  rw [draft, (knows_declare c.terminals).remarks_run,
    Draft.Step.remarksOf_eq_flatMap c.terminal_not_mem_calls, remarks_declare, hcalls,
    flatMap_lineRemarks, remarks, List.append_assoc]
  rfl

end Shorthand.Content

open Reading Shorthand

/-! ## The log of an expansion -/

/-- **A log tells what is read of a source**: each symbol once with its role, the terminals
    before the others, each optional symbol once, and as a warning every terminal without a name
    and every header that names a terminal. -/
structure Tells (log : List Event) (c : Content) : Prop where
  classified : log.filterMap Event.classified? =
    c.terminals.eraseDups.map (·, .terminal) ++
      (c.occurrences.filter fun s => s ∉ c.terminals).eraseDups.map (·, .nonterminal)
  foundOptional : log.filterMap Event.foundOptional? =
    (c.occurrences.filter Symbol.isOptional).eraseDups
  warnings : log.filter (fun e => e.level = .warn) =
    ((c.terminals.filter fun s => s.name = []).map fun _ => .emptyTerminal) ++
      (c.headers.filter (· ∈ c.terminals)).map .headerOnTerminal
  refused : ∀ s, .refusedTerminal s ∉ log

variable {source : Bytes} {c : Content}

/-- The warnings of a log are among its remarks. -/
theorem filter_warn_eq (log : List Event) : log.filter (fun e => e.level = .warn) =
    (log.filter Event.isRemark).filter fun e => e.level = .warn := by
  rw [List.filter_filter]
  refine List.filter_congr fun e _ => ?_
  by_cases he : e.level = .warn <;> simp [he, Event.isRemark_of_warn]

theorem warnings_draft (h : c.Headed) : c.draft.log.filter (fun e => e.level = .warn) =
    ((c.terminals.filter fun s => s.name = []).map fun _ => .emptyTerminal) ++
      (c.headers.filter (· ∈ c.terminals)).map .headerOnTerminal := by
  have hall {α : Type} (f : α → Event) (hf : ∀ a, (f a).level = .warn) (l : List α) :
      (l.map f).filter (fun e => e.level = .warn) = l.map f := by
    refine List.filter_eq_self.2 fun e he => ?_
    obtain ⟨a, -, rfl⟩ := List.mem_map.1 he
    exact decide_eq_true (hf a)
  have hremarks : c.draft.log.filter Event.isRemark = c.remarks := Content.remarks_draft h
  rw [filter_warn_eq, hremarks, Content.remarks, List.filter_append,
    List.filter_cons_of_neg (by simp [Event.level]), hall _ fun _ => rfl, hall _ fun _ => rfl]

theorem tells_draft (h : c.Headed) : Tells c.draft.log c := by
  refine ⟨?_, ?_, warnings_draft h, ?_⟩
  · rw [c.faithful_draft.roles, c.roles_draft h]
  · rw [c.faithful_draft.optionals, (c.knows_draft h).optionals]
  · intro s hs
    have hwarning : Event.refusedTerminal s ∈ c.draft.log.filter fun e => e.level = .warn :=
      List.mem_filter.2 ⟨hs, rfl⟩
    rw [warnings_draft h] at hwarning
    simp at hwarning

/-- What is logged when the draft of a source is finished. -/
theorem finished_draft (h : c.Headed) : c.draft.finished =
    .built c.grammar.terminals.length c.grammar.nonterminals.length c.rules.length
      (2 * c.bases.length) := by
  have hsynthesized : c.draft.synthesized.length = 2 * c.bases.length := by
    rw [c.synthesized_draft h, List.length_flatMap]
    simp [Nat.mul_comm]
  rw [Draft.finished, c.terminals_draft h, c.nonterminals_draft h, c.rules_draft, hsynthesized]
  rfl

/-- The numbers of a finished grammar are no part of what is told. -/
theorem Tells.concat_built {log : List Event} (h : Tells log c) (t n w s : Nat) :
    Tells (log ++ [.built t n w s]) c := by
  refine ⟨?_, ?_, ?_, ?_⟩
  · rw [List.filterMap_append, h.classified]
    exact List.append_nil _
  · rw [List.filterMap_append, h.foundOptional]
    exact List.append_nil _
  · rw [List.filter_append, h.warnings]
    exact List.append_nil _
  · intro s' hs
    rcases List.mem_append.1 hs with hs | hs
    · exact h.refused s' hs
    · simp at hs

/-- **The log of an expansion tells the truth about the pass.**  It is empty if the section of
    terminals is at fault.  Otherwise it tells what is read of the source before reading stops,
    and what it remarks besides are the warnings about terminals, their number, the warnings
    about headers and, if there is a grammar, the numbers of that grammar.  The roles told are
    then those in the grammar, and the optional symbols found are those that it has two rules
    for. -/
theorem log_expand (source : Bytes) :
    (∀ k fault, FailsAt (SectionFault .terminal 0) source.lines k fault →
      expand source = ⟨[], .error fault⟩) ∧
    ((∃ k fault, FailsAt (SectionFault .terminal 0) source.lines k fault) ∨
      ∃ c stop, Front source c stop) ∧
    (∀ c fault, Front source c (some fault) →
      (expand source).result = .error fault ∧ Tells (expand source).log c ∧
      (expand source).log.filter Event.isRemark = c.remarks) ∧
    ∀ c, Front source c none → ∃ (g : Grammar) (bases : List Symbol),
      (expand source).result = .ok g ∧ Tells (expand source).log c ∧
      (expand source).log.filterMap Event.classified? =
        g.terminals.map (·, .terminal) ++ g.nonterminals.map (·, .nonterminal) ∧
      (expand source).log.filterMap Event.foundOptional? = bases.map Symbol.optional ∧
      g.rules = c.rules ++ bases.flatMap (fun b => [⟨b.optional, []⟩, ⟨b.optional, [b]⟩]) ∧
      (expand source).log.filter Event.isRemark = c.remarks ++
        [.built g.terminals.length g.nonterminals.length c.rules.length (2 * bases.length)] := by
  refine ⟨?_, exists_front source, ?_, ?_⟩
  · intro k fault h
    rw [expand, pass_of_sectionFault h]
    rfl
  · intro c fault hfront
    have hexpand : expand source = ⟨c.draft.log, .error fault⟩ := by
      rw [expand, pass_of_front hfront]
    rw [hexpand]
    exact ⟨rfl, tells_draft hfront.headed, Content.remarks_draft hfront.headed⟩
  · intro c hfront
    have hheaded := hfront.headed
    have hexpand : expand source = ⟨c.draft.log ++ [.built c.grammar.terminals.length
        c.grammar.nonterminals.length c.rules.length (2 * c.bases.length)], .ok c.grammar⟩ := by
      rw [expand, pass_of_front hfront]
      dsimp only
      rw [c.finish_draft hheaded, finished_draft hheaded]
      rfl
    have htells := (tells_draft hheaded).concat_built c.grammar.terminals.length
      c.grammar.nonterminals.length c.rules.length (2 * c.bases.length)
    rw [hexpand]
    refine ⟨c.grammar, c.bases, rfl, htells, htells.classified, ?_, rfl, ?_⟩
    · rw [Content.map_optional_bases]
      exact htells.foundOptional
    · rw [List.filter_append]
      exact congrArg (· ++ _) (Content.remarks_draft hheaded)

/-- A source that fails on its last line has logged what is in front of that. -/
example : (expand (Utf8.encode "2\nid\n\nid:\nid Tail(opt)\n".toList ++ [0xFF])).log =
    [.classified ⟨"id".toList⟩ .terminal, .emptyTerminal, .classified ⟨[]⟩ .terminal,
      .readTerminals 2, .headerOnTerminal ⟨"id".toList⟩,
      .classified ⟨"Tail(opt)".toList⟩ .nonterminal, .foundOptional ⟨"Tail(opt)".toList⟩] := by
  decide +kernel

end OptGrammar
