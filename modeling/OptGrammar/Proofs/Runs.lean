/-
  Grammars with optional symbols — what any run of calls puts together.

  A run is some calls on the draft that nothing was added to, in any order.  Of a run the
  first touch of a symbol decides its role, and the notes of optional symbols decide which
  rules are made up.  Further calls only add to what is there.

  * `FirstTouch`: the role that the first call touching a symbol offers it.
  * `touched`: the symbols that calls touch, in the order of the first touch.
  * `marked`: the optional symbols that calls note, in the order of the first note.
  * `Extends`: what further calls keep of a draft.

  Main statements: `roles_run`, which symbols of a run have which role, and that they keep
  it; `rules_finish_run`, the rules that a run comes to.
-/
import OptGrammar.Proofs.Tidiness

namespace OptGrammar

/-- The symbols that a grammar lists in a role. -/
def Grammar.symbolsWith (g : Grammar) : Role → List Symbol
  | .terminal => g.terminals
  | .nonterminal => g.nonterminals

namespace Draft

theorem symbolsWith_finish (d : Draft) (r : Role) : d.finish.symbolsWith r = d.symbolsWith r := by
  cases r <;> rfl

/-! ## The first touch -/

/-- **The first of some calls that touches a symbol** offers it a role. -/
inductive FirstTouch (s : Symbol) (r : Role) : List Step → Prop
  | here {step steps} : (s, r) ∈ step.touches → FirstTouch s r (step :: steps)
  | later {step steps} : s ∉ step.touches.map Prod.fst → FirstTouch s r steps →
      FirstTouch s r (step :: steps)

/-- The symbols that some calls touch, in the order of the first touch. -/
def touched (steps : List Step) : List Symbol :=
  ((steps.flatMap Step.touches).map Prod.fst).eraseDups

variable {steps : List Step} {s : Symbol} {r : Role}

theorem mem_touched_iff :
    s ∈ touched steps ↔ ∃ step ∈ steps, s ∈ step.touches.map Prod.fst := by
  rw [touched, List.mem_eraseDups, List.map_flatMap, List.mem_flatMap]

/-- A call offers the symbols that it touches one role. -/
theorem Step.lookup_touches_iff {step : Step} :
    step.touches.lookup s = some r ↔ (s, r) ∈ step.touches := by
  have hconst (symbols : List Symbol) (r' : Role) :
      (symbols.map (·, r')).lookup s = some r ↔ (s, r) ∈ symbols.map (·, r') := by
    rw [Shorthand.lookup_map_const]
    simp only [List.mem_map, Prod.mk.injEq, Option.ite_none_right_eq_some, Option.some.injEq]
    constructor
    · rintro ⟨hs, rfl⟩
      exact ⟨s, hs, rfl, rfl⟩
    · rintro ⟨_, hs, rfl, rfl⟩
      exact ⟨hs, rfl⟩
  cases step with
  | terminal s₁ => exact hconst [s₁] .terminal
  | header s₁ => exact hconst [s₁] .nonterminal
  | rule r₁ => exact hconst r₁.body .nonterminal
  | startAt s₁ => exact hconst [] .nonterminal

theorem lookup_flatMap_touches_iff :
    (steps.flatMap Step.touches).lookup s = some r ↔ FirstTouch s r steps := by
  induction steps with
  | nil =>
    constructor
    · intro h
      cases h
    · intro h
      cases h
  | cons step steps ih =>
    rw [List.flatMap_cons, List.lookup_append]
    by_cases hs : s ∈ step.touches.map Prod.fst
    · obtain ⟨⟨s₁, r₁⟩, hmem, rfl⟩ := List.mem_map.1 hs
      have hlookup := Step.lookup_touches_iff.2 hmem
      rw [hlookup, Option.some_or, ← hlookup, Step.lookup_touches_iff]
      constructor
      · exact .here
      · intro h
        cases h with
        | here h => exact h
        | later hnot => exact absurd hs hnot
    · have hnone : step.touches.lookup s = none := by
        cases hlookup : step.touches.lookup s with
        | none => rfl
        | some r₁ => exact absurd (List.mem_map_of_mem (Step.lookup_touches_iff.1 hlookup)) hs
      rw [hnone, Option.none_or, ih]
      constructor
      · exact .later hs
      · intro h
        cases h with
        | here hmem => exact absurd (List.mem_map_of_mem hmem) hs
        | later _ h => exact h

theorem knows_run (steps : List Step) :
    (empty.run steps).Knows (steps.flatMap Step.touches) (steps.flatMap Step.notes) :=
  Knows.empty.run steps

/-- **The first touch of a symbol decides its role.** -/
theorem role?_run_iff : (empty.run steps).role? s = some r ↔ FirstTouch s r steps := by
  rw [(knows_run steps).role?, lookup_flatMap_touches_iff]

/-- A symbol that is not touched has no role. -/
theorem role?_run_eq_none_iff : (empty.run steps).role? s = none ↔
    ∀ step ∈ steps, s ∉ step.touches.map Prod.fst := by
  rw [← Option.not_isSome_iff_eq_none, (knows_run steps).isSome_role?_iff, ← List.mem_eraseDups,
    ← touched, mem_touched_iff]
  simp only [not_exists, not_and]

/-- The symbols of a role are the touched ones that have it, in the order of the touch. -/
theorem symbolsWith_run (steps : List Step) (r : Role) : (empty.run steps).symbolsWith r =
    (touched steps).filter fun s => (empty.run steps).role? s = some r := by
  rw [(knows_run steps).symbolsWith, touched]
  simp only [(knows_run steps).role?]

/-! ## Further calls -/

/-- **What further calls keep of a draft**: they add roles and rules behind those there. -/
structure Extends (d d' : Draft) : Prop where
  roles : d.roles <+: d'.roles
  rules : d.rules <+: d'.rules

namespace Extends

variable {d d' d'' : Draft}

theorem refl (d : Draft) : d.Extends d := ⟨List.prefix_rfl, List.prefix_rfl⟩

theorem trans (h : d.Extends d') (h' : d'.Extends d'') : d.Extends d'' :=
  ⟨h.roles.trans h'.roles, h.rules.trans h'.rules⟩

theorem classify (d : Draft) (s : Symbol) (r : Role) : d.Extends (d.classify s r) := by
  rw [Draft.classify]
  split
  · exact refl d
  · exact ⟨List.prefix_append .., List.prefix_rfl⟩

theorem note (d : Draft) (s : Symbol) : d.Extends (d.note s) := by
  rw [Draft.note]
  split
  · exact ⟨List.prefix_rfl, List.prefix_rfl⟩
  · exact refl d

theorem emit (d : Draft) (e : Event) : d.Extends (d.emit e) := ⟨List.prefix_rfl, List.prefix_rfl⟩

theorem terminal (d : Draft) (s : Symbol) : d.Extends (d.terminal s) := by
  have hnamed : d.Extends (if s.name.isEmpty then d.emit .emptyTerminal else d) := by
    split
    · exact emit d _
    · exact refl d
  rw [Draft.terminal]
  generalize (if s.name.isEmpty then d.emit .emptyTerminal else d) = named at hnamed ⊢
  split
  · exact hnamed.trans (classify ..)
  · exact (hnamed.trans (classify ..)).trans (emit ..)

theorem header (d : Draft) (s : Symbol) : d.Extends (d.header s) := by
  simp only [Draft.header]
  split
  · exact ((classify d s .nonterminal).trans (emit ..)).trans (note ..)
  · exact (classify d s .nonterminal).trans (note ..)

theorem foldl_meet (d : Draft) (body : List Symbol) : d.Extends (body.foldl Draft.meet d) := by
  induction body generalizing d with
  | nil => exact refl d
  | cons s body ih => exact ((classify d s .nonterminal).trans (note ..)).trans (ih _)

theorem apply (d : Draft) (step : Step) : d.Extends (d.apply step) := by
  cases step with
  | terminal s => exact terminal d s
  | header s => exact header d s
  | rule r =>
    have hbody := foldl_meet d r.body
    exact ⟨hbody.roles, hbody.rules.trans (List.prefix_append ..)⟩
  | startAt s => exact ⟨List.prefix_rfl, List.prefix_rfl⟩

/-- **Calls only add to a draft.** -/
theorem run (d : Draft) (steps : List Step) : d.Extends (d.run steps) := by
  induction steps generalizing d with
  | nil => exact refl d
  | cons step steps ih => exact (apply d step).trans (ih _)

/-- A symbol keeps the role it has. -/
theorem role? (h : d.Extends d') {s : Symbol} {r : Role} (hs : d.role? s = some r) :
    d'.role? s = some r := by
  obtain ⟨more, hmore⟩ := h.roles
  rw [Draft.role?] at hs ⊢
  rw [← hmore, List.lookup_append, hs]
  rfl

/-- The symbols of a role stay in front. -/
theorem symbolsWith (h : d.Extends d') (r : Role) : d.symbolsWith r <+: d'.symbolsWith r :=
  (h.roles.filter _).map _

end Extends

theorem symbolsWith_finish_append (steps more : List Step) (r : Role) :
    (empty.run steps).finish.symbolsWith r <+: (empty.run (steps ++ more)).finish.symbolsWith r := by
  rw [symbolsWith_finish, symbolsWith_finish, run_append]
  exact (Extends.run _ more).symbolsWith r

theorem mem_symbolsWith_run_iff :
    s ∈ (empty.run steps).symbolsWith r ↔ (empty.run steps).role? s = some r := by
  rw [symbolsWith_run, List.mem_filter, decide_eq_true_iff, and_iff_right_iff_imp]
  intro hs
  rw [touched, List.mem_eraseDups, ← (knows_run steps).isSome_role?_iff, hs]
  rfl

/-- **The roles of a run.**  The first call that touches a symbol decides its role, and a symbol
    that is not touched has none.  The grammar lists in each role the symbols that have it, each
    once, in the order of the first touch, and none in both.  Further calls change no role, and
    what was listed before stays in front. -/
theorem roles_run (steps : List Step) :
    (∀ s r, (empty.run steps).role? s = some r ↔ FirstTouch s r steps) ∧
    (∀ s, (empty.run steps).role? s = none ↔
      ∀ step ∈ steps, s ∉ step.touches.map Prod.fst) ∧
    (∀ r s, s ∈ (empty.run steps).finish.symbolsWith r ↔ (empty.run steps).role? s = some r) ∧
    (∀ r, (empty.run steps).finish.symbolsWith r =
      (touched steps).filter fun s => (empty.run steps).role? s = some r) ∧
    (empty.run steps).finish.Tidy ∧
    ∀ more,
      (∀ s r, (empty.run steps).role? s = some r →
        (empty.run (steps ++ more)).role? s = some r) ∧
      (∀ r, (empty.run steps).finish.symbolsWith r <+:
        (empty.run (steps ++ more)).finish.symbolsWith r) ∧
      (empty.run steps).rules <+: (empty.run (steps ++ more)).rules := by
  refine ⟨fun s r => role?_run_iff, fun s => role?_run_eq_none_iff, ?_, ?_,
    tidy_finish_run steps, ?_⟩
  · intro r s
    rw [symbolsWith_finish, mem_symbolsWith_run_iff]
  · intro r
    rw [symbolsWith_finish, symbolsWith_run]
  · intro more
    refine ⟨?_, symbolsWith_finish_append steps more, ?_⟩
    · intro s r hs
      rw [run_append]
      exact (Extends.run _ more).role? hs
    · rw [run_append]
      exact (Extends.run _ more).rules

/-- A symbol that is a terminal first stays one, also as a header; a head is not touched. -/
example : (empty.run [.terminal ⟨['a']⟩, .header ⟨['a']⟩, .rule ⟨⟨['H']⟩, [⟨['a']⟩, ⟨['b']⟩]⟩,
    .terminal ⟨['b']⟩]).roles = [(⟨['a']⟩, .terminal), (⟨['b']⟩, .nonterminal)] := by decide

/-! ## Rules -/

/-- The optional symbols that some calls note, in the order of the first note. -/
def marked (steps : List Step) : List Symbol :=
  ((steps.flatMap Step.notes).filter Symbol.isOptional).eraseDups

theorem Step.mem_notes_iff {step : Step} :
    s ∈ step.notes ↔ step = .header s ∨ ∃ r, step = .rule r ∧ s ∈ r.body := by
  cases step <;> simp [notes, eq_comm]

theorem mem_marked_iff : s ∈ marked steps ↔ s.isOptional = true ∧
    ∃ step ∈ steps, step = .header s ∨ ∃ r, step = .rule r ∧ s ∈ r.body := by
  rw [marked, List.mem_eraseDups, List.mem_filter, List.mem_flatMap, and_comm]
  simp only [Step.mem_notes_iff]

theorem rules_finish (steps : List Step) : (empty.run steps).finish.rules =
    steps.filterMap Step.rule? ++ (marked steps).flatMap Symbol.expansion := by
  rw [finish, rules_run, synthesized, (knows_run steps).optionals]
  rfl

/-- **The rules of a run.**  The rules of the calls come first, in order and as they are.  Behind
    them each optional symbol that is a header or stands in a body has its two rules, in the
    order of the first note; no other symbol has any.  Only symbols that calls touch are listed,
    and the last symbol set to start from counts. -/
theorem rules_finish_run (steps : List Step) :
    (∃ bases : List Symbol, bases.map Symbol.optional = marked steps ∧
      (empty.run steps).finish.rules = steps.filterMap Step.rule? ++
        bases.flatMap fun b => [⟨b.optional, []⟩, ⟨b.optional, [b]⟩]) ∧
    (marked steps).Nodup ∧
    (∀ s, s ∈ marked steps ↔ s.isOptional = true ∧
      ∃ step ∈ steps, step = .header s ∨ ∃ r, step = .rule r ∧ s ∈ r.body) ∧
    (∀ s, (∃ r, s ∈ (empty.run steps).finish.symbolsWith r) ↔
      ∃ step ∈ steps, s ∈ step.touches.map Prod.fst) ∧
    (empty.run steps).finish.entrypoint =
      (steps.filterMap Step.start?).getLast?.getD ⟨"Goal".toList⟩ := by
  refine ⟨?_, nodup_eraseDups _, fun s => mem_marked_iff, ?_, entrypoint_run empty steps⟩
  · have hoptional : ∀ s ∈ marked steps, s.isOptional = true := fun s hs =>
      (mem_marked_iff.1 hs).1
    refine ⟨(marked steps).filterMap Symbol.base?,
      Symbol.map_optional_filterMap_base? hoptional, ?_⟩
    rw [rules_finish, Symbol.flatMap_expansion]
  · intro s
    simp only [symbolsWith_finish, mem_symbolsWith_run_iff]
    rw [← Option.isSome_iff_exists, (knows_run steps).isSome_role?_iff, ← mem_touched_iff, touched,
      List.mem_eraseDups]

end Draft

end OptGrammar
