/-
  Grammars with optional symbols — what calls make of a draft.

  A call touches symbols, offering each a role, and notes symbols in case they are
  optional.  A draft then knows of its calls what a list of touches and a list of notes
  tell: the first touch of a symbol decides its role.

  Main statements: `Knows.run`, calls add their touches and notes to what is known;
  `Knows.roles_eq` and `Knows.symbolsWith`, the roles are those of the first touches, in order.
-/
import Mathlib.Data.List.Basic
import Mathlib.Data.List.Induction
import OptGrammar.Draft

namespace OptGrammar

/-- Erasing repetitions leaves none. -/
theorem nodup_eraseDups {α : Type} [BEq α] [LawfulBEq α] : ∀ l : List α, l.eraseDups.Nodup
  | [] => by simp
  | a :: l => by
    rw [List.eraseDups_cons, List.nodup_cons]
    exact ⟨by simp, nodup_eraseDups _⟩
termination_by l => l.length
decreasing_by exact Nat.lt_succ_of_le (List.length_filter_le ..)

theorem eraseDups_append_singleton {α : Type} [BEq α] [LawfulBEq α] (l : List α) (a : α) :
    (l ++ [a]).eraseDups = if a ∈ l then l.eraseDups else l.eraseDups ++ [a] := by
  rw [List.eraseDups_append]
  by_cases h : a ∈ l <;> simp [List.removeAll, List.eraseDups_cons, h]

theorem length_eraseDups_le {α : Type} [BEq α] [LawfulBEq α] (l : List α) :
    l.eraseDups.length ≤ l.length :=
  (nodup_eraseDups l).length_le_of_subset fun _ => List.mem_eraseDups.1

/-- Without repetitions nothing is erased. -/
theorem eraseDups_of_nodup {α : Type} [BEq α] [LawfulBEq α] {l : List α} (h : l.Nodup) :
    l.eraseDups = l := by
  induction l with
  | nil => rfl
  | cons a l ih =>
    rw [List.nodup_cons] at h
    have hfilter : l.filter (fun b => !b == a) = l := by
      refine List.filter_eq_self.2 fun b hb => ?_
      have hne : b ≠ a := fun he => h.1 (he ▸ hb)
      simp [hne]
    rw [List.eraseDups_cons, hfilter, ih h.2]

theorem eraseDups_filter {α : Type} [BEq α] [LawfulBEq α] (p : α → Bool) (l : List α) :
    (l.filter p).eraseDups = l.eraseDups.filter p := by
  induction l using List.reverseRecOn with
  | nil => rfl
  | append_singleton l a ih =>
    rw [List.filter_append, eraseDups_append_singleton]
    by_cases ha : p a = true
    · rw [List.filter_cons_of_pos ha, List.filter_nil, eraseDups_append_singleton, ih]
      by_cases hm : a ∈ l <;> simp [hm, ha]
    · rw [List.filter_cons_of_neg ha, List.filter_nil, List.append_nil, ih]
      split
      · rfl
      · simp [ha]

/-- What is there already is erased behind it. -/
theorem eraseDups_append_cons_of_mem {α : Type} [BEq α] [LawfulBEq α] {a : α} {l : List α}
    (h : a ∈ l) (m : List α) : (l ++ a :: m).eraseDups = (l ++ m).eraseDups := by
  rw [List.eraseDups_append, List.eraseDups_append]
  simp [List.removeAll, h]

theorem eraseDups_perm {α : Type} [BEq α] [LawfulBEq α] {l m : List α} (h : l.Perm m) :
    l.eraseDups.Perm m.eraseDups := by
  refine (List.perm_ext_iff_of_nodup (nodup_eraseDups l) (nodup_eraseDups m)).2 fun a => ?_
  rw [List.mem_eraseDups, List.mem_eraseDups, h.mem_iff]

namespace Draft

/-! ## Touches and notes -/

namespace Step

/-- The symbols that a call touches, each with the role that it is offered. -/
def touches : Step → List (Symbol × Role)
  | .terminal s => [(s, .terminal)]
  | .header s => [(s, .nonterminal)]
  | .rule r => r.body.map (·, .nonterminal)
  | .startAt _ => []

/-- The symbols that a call notes if they are optional. -/
def notes : Step → List Symbol
  | .header s => [s]
  | .rule r => r.body
  | .terminal _ | .startAt _ => []

/-- The rule that a call adds. -/
def rule? : Step → Option Rule
  | .rule r => some r
  | _ => none

/-- The symbol to start from that a call sets. -/
def start? : Step → Option Symbol
  | .startAt s => some s
  | _ => none

end Step

/-- What a draft knows after some touches and notes. -/
structure Knows (d : Draft) (touches : List (Symbol × Role)) (notes : List Symbol) : Prop where
  role? : ∀ s, d.role? s = touches.lookup s
  roles : d.roles.map Prod.fst = (touches.map Prod.fst).eraseDups
  optionals : d.optionals = (notes.filter Symbol.isOptional).eraseDups

theorem lookup_of_mem {roles : List (Symbol × Role)} {s : Symbol} {r : Role}
    (hnodup : (roles.map Prod.fst).Nodup) (h : (s, r) ∈ roles) : roles.lookup s = some r := by
  induction roles with
  | nil => cases h
  | cons p roles ih =>
    obtain ⟨s₁, r₁⟩ := p
    rw [List.map_cons, List.nodup_cons] at hnodup
    rcases List.mem_cons.1 h with h | h
    · cases h
      exact List.lookup_cons_self
    · have hne : s ≠ s₁ := fun he => hnodup.1 (List.mem_map.2 ⟨_, h, he⟩)
      rw [List.lookup_cons, beq_false_of_ne hne]
      exact ih hnodup.2 h

namespace Knows

variable {d : Draft} {touches : List (Symbol × Role)} {notes : List Symbol}

theorem empty : Draft.empty.Knows [] [] := ⟨fun _ => rfl, rfl, rfl⟩

theorem emit (h : d.Knows touches notes) (e : Event) : (d.emit e).Knows touches notes :=
  ⟨h.role?, h.roles, h.optionals⟩

/-- A symbol has a role if it was touched. -/
theorem isSome_role?_iff (h : d.Knows touches notes) {s : Symbol} :
    (d.role? s).isSome ↔ s ∈ touches.map Prod.fst := by
  rw [h.role?, List.lookup_isSome_iff]
  simp

theorem classify (h : d.Knows touches notes) (s : Symbol) (r : Role) :
    (d.classify s r).Knows (touches ++ [(s, r)]) notes := by
  refine ⟨?_, ?_, ?_⟩
  · intro s'
    rw [role?_classify, h.role?, List.lookup_append]
  · have hs := h.isSome_role?_iff (s := s)
    rw [List.map_append, List.map_singleton, eraseDups_append_singleton, ← h.roles,
      Draft.classify]
    split
    · rename_i hr
      rw [if_pos (hs.1 (by simp [hr]))]
    · rename_i hr
      rw [if_neg fun hm => absurd (hs.2 hm) (by simp [hr])]
      simp [Draft.emit]
  · rw [← h.optionals, Draft.classify]
    split <;> rfl

theorem note (h : d.Knows touches notes) (s : Symbol) :
    (d.note s).Knows touches (notes ++ [s]) := by
  refine ⟨fun s' => (role?_note d s s').trans (h.role? s'), ?_, ?_⟩
  · rw [← h.roles, Draft.note]
    split <;> rfl
  · rw [List.filter_append, Draft.note]
    by_cases hs : s.isOptional = true
    · rw [List.filter_cons_of_pos hs, List.filter_nil, eraseDups_append_singleton, ← h.optionals]
      by_cases hm : s ∈ notes.filter Symbol.isOptional
      · have : s ∈ d.optionals := by rwa [h.optionals, List.mem_eraseDups]
        rw [if_neg (by simp [this]), if_pos hm]
      · have : s ∉ d.optionals := by rwa [h.optionals, List.mem_eraseDups]
        rw [if_pos (by simp [hs, this]), if_neg hm]
        rfl
    · rw [List.filter_cons_of_neg hs, List.filter_nil, List.append_nil, if_neg (by simp [hs]),
        h.optionals]

/-! ## Calls -/

theorem terminal (h : d.Knows touches notes) (s : Symbol) :
    (d.terminal s).Knows (touches ++ [(s, .terminal)]) notes := by
  have h₁ : (if s.name.isEmpty then d.emit .emptyTerminal else d).Knows touches notes := by
    split
    · exact h.emit _
    · exact h
  rw [Draft.terminal]
  generalize (if s.name.isEmpty then d.emit .emptyTerminal else d) = named at h₁ ⊢
  split
  · exact h₁.classify s .terminal
  · exact (h₁.classify s .terminal).emit _

theorem header (h : d.Knows touches notes) (s : Symbol) :
    (d.header s).Knows (touches ++ [(s, .nonterminal)]) (notes ++ [s]) := by
  simp only [Draft.header]
  split
  · exact ((h.classify s .nonterminal).emit _).note s
  · exact (h.classify s .nonterminal).note s

theorem foldl_meet (h : d.Knows touches notes) (body : List Symbol) :
    (body.foldl Draft.meet d).Knows (touches ++ body.map (·, .nonterminal)) (notes ++ body) := by
  induction body generalizing d touches notes with
  | nil => simpa using h
  | cons s body ih =>
    have := ih ((h.classify s .nonterminal).note s)
    rwa [List.append_assoc, List.append_assoc] at this

theorem rule (h : d.Knows touches notes) (r : Rule) :
    (d.rule r).Knows (touches ++ r.body.map (·, .nonterminal)) (notes ++ r.body) :=
  ⟨(h.foldl_meet r.body).role?, (h.foldl_meet r.body).roles, (h.foldl_meet r.body).optionals⟩

theorem apply (h : d.Knows touches notes) (step : Step) :
    (d.apply step).Knows (touches ++ step.touches) (notes ++ step.notes) := by
  cases step with
  | terminal s => rw [Step.notes, List.append_nil]; exact h.terminal s
  | header s => exact h.header s
  | rule r => exact h.rule r
  | startAt s =>
    rw [Step.touches, Step.notes, List.append_nil, List.append_nil]
    exact ⟨h.role?, h.roles, h.optionals⟩

/-- **Calls add their touches and their notes to what a draft knows.** -/
theorem run (h : d.Knows touches notes) (steps : List Step) :
    (d.run steps).Knows (touches ++ steps.flatMap Step.touches)
      (notes ++ steps.flatMap Step.notes) := by
  induction steps generalizing d touches notes with
  | nil => simpa using h
  | cons step steps ih => simpa using ih (h.apply step)

/-- A symbol has the role that it was touched with first. -/
theorem lookup_of_mem_roles (h : d.Knows touches notes) {s : Symbol} {r : Role}
    (hs : (s, r) ∈ d.roles) : touches.lookup s = some r := by
  have hnodup : (d.roles.map Prod.fst).Nodup := h.roles ▸ nodup_eraseDups _
  rw [← h.role?]
  exact lookup_of_mem hnodup hs

/-- **The roles of a draft are those of the first touches**, in the order of the touches. -/
theorem roles_eq (h : d.Knows touches notes) : d.roles =
    (touches.map Prod.fst).eraseDups.filterMap fun s => (touches.lookup s).map (s, ·) := by
  rw [← h.roles, List.filterMap_map]
  conv => lhs; rw [← List.filterMap_some (l := d.roles)]
  refine List.filterMap_congr fun p hp => ?_
  rw [Function.comp_apply, h.lookup_of_mem_roles hp]
  rfl

/-- **The symbols of a role are those first touched with it**, in the order of that touch. -/
theorem symbolsWith (h : d.Knows touches notes) (r : Role) :
    d.symbolsWith r =
      (touches.map Prod.fst).eraseDups.filter fun s => touches.lookup s = some r := by
  rw [Draft.symbolsWith, ← h.roles, List.filter_map]
  refine congrArg _ (List.filter_congr fun p hp => ?_)
  rw [Function.comp_apply, h.lookup_of_mem_roles hp]
  simp

end Knows

/-! ## Rules and the symbol to start from -/

section

variable (d : Draft)

@[simp]
theorem rules_classify (s : Symbol) (r : Role) : (d.classify s r).rules = d.rules := by
  rw [classify]; split <;> rfl

@[simp]
theorem entrypoint_classify (s : Symbol) (r : Role) :
    (d.classify s r).entrypoint = d.entrypoint := by
  rw [classify]; split <;> rfl

@[simp]
theorem rules_note (s : Symbol) : (d.note s).rules = d.rules := by
  rw [note]; split <;> rfl

@[simp]
theorem entrypoint_note (s : Symbol) : (d.note s).entrypoint = d.entrypoint := by
  rw [note]; split <;> rfl

@[simp]
theorem rules_emit (e : Event) : (d.emit e).rules = d.rules := rfl

@[simp]
theorem entrypoint_emit (e : Event) : (d.emit e).entrypoint = d.entrypoint := rfl

theorem rules_foldl_meet (body : List Symbol) : (body.foldl meet d).rules = d.rules := by
  induction body generalizing d with
  | nil => rfl
  | cons s body ih => simp [ih, meet]

theorem entrypoint_foldl_meet (body : List Symbol) :
    (body.foldl meet d).entrypoint = d.entrypoint := by
  induction body generalizing d with
  | nil => rfl
  | cons s body ih => simp [ih, meet]

/-- A call adds its rule, if it has one, at the end. -/
theorem rules_apply (step : Step) : (d.apply step).rules = d.rules ++ step.rule?.toList := by
  cases step with
  | terminal s => simp only [apply, terminal]; split <;> split <;> simp [Step.rule?]
  | header s => simp only [apply, header]; split <;> simp [Step.rule?]
  | rule r => simp [apply, Draft.rule, Step.rule?, rules_foldl_meet]
  | startAt s => simp [apply, startAt, Step.rule?]

/-- Only `startAt` sets the symbol to start from. -/
theorem entrypoint_apply (step : Step) :
    (d.apply step).entrypoint = step.start?.getD d.entrypoint := by
  cases step with
  | terminal s => simp only [apply, terminal]; split <;> split <;> simp [Step.start?]
  | header s => simp only [apply, header]; split <;> simp [Step.start?]
  | rule r => simp [apply, Draft.rule, Step.start?, entrypoint_foldl_meet]
  | startAt s => rfl

/-- **The rules of calls are kept in order.** -/
theorem rules_run (steps : List Step) :
    (d.run steps).rules = d.rules ++ steps.filterMap Step.rule? := by
  induction steps generalizing d with
  | nil => simp
  | cons step steps ih =>
    rw [run_cons, ih, rules_apply, List.append_assoc, List.filterMap_cons]
    cases step.rule? <;> rfl

/-- **The last symbol set to start from counts.** -/
theorem entrypoint_run (steps : List Step) :
    (d.run steps).entrypoint = (steps.filterMap Step.start?).getLast?.getD d.entrypoint := by
  induction steps generalizing d with
  | nil => rfl
  | cons step steps ih =>
    rw [run_cons, ih, entrypoint_apply, List.filterMap_cons]
    cases step.start? with
    | none => rfl
    | some s => simp [List.getLast?_cons]

end

end Draft

end OptGrammar
