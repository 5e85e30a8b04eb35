/-
  Grammars with optional symbols — derivations and readings.

  The rules of optional symbols are added to rules, or each rule is read in all ways that
  its optional symbols allow.  Where no symbol is left optional, both derive the same:

  * a reading is derived from its rule by the rules of the symbols left out or unmarked;
  * of a derivation, the steps at optional symbols are left out, and the rules used are read
    as those steps have it.

  Main statements: `derives_of_readings` and `exists_reading`, the two directions for any
  rules.
-/
import Mathlib.Logic.Relation
import OptGrammar.Derivation

namespace OptGrammar

/-! ## Derivations -/

namespace Derives

variable {rules rules' : List Rule} {u v w u' v' : List Symbol}

theorem iff_reflTransGen : Derives rules u v ↔ Relation.ReflTransGen (Produces rules) u v := by
  constructor
  · intro h
    induction h with
    | refl => exact .refl
    | tail _ hstep ih => exact ih.tail hstep
  · intro h
    induction h with
    | refl => exact .refl u
    | tail _ hstep ih => exact ih.tail hstep

theorem trans (h : Derives rules u v) (h' : Derives rules v w) : Derives rules u w :=
  iff_reflTransGen.2 ((iff_reflTransGen.1 h).trans (iff_reflTransGen.1 h'))

theorem of_rule {r : Rule} (h : r ∈ rules) : Derives rules [r.head] r.body :=
  .tail (.refl _) ⟨r, h, [], [], rfl, by simp⟩

/-- What is derived is derived in any place. -/
theorem within (h : Derives rules u v) (before after : List Symbol) :
    Derives rules (before ++ u ++ after) (before ++ v ++ after) := by
  induction h with
  | refl => exact .refl _
  | tail _ hstep ih =>
    obtain ⟨r, hr, l, l', rfl, rfl⟩ := hstep
    exact ih.tail ⟨r, hr, before ++ l, l' ++ after, by simp, by simp⟩

theorem append (h : Derives rules u v) (h' : Derives rules u' v') :
    Derives rules (u ++ u') (v ++ v') := by
  have h₁ := h.within [] u'
  have h₂ := h'.within v []
  rw [List.nil_append, List.nil_append] at h₁
  rw [List.append_nil, List.append_nil] at h₂
  exact h₁.trans h₂

/-- Rules that are derived can be done without. -/
theorem of_forall (hrules : ∀ r ∈ rules, Derives rules' [r.head] r.body)
    (h : Derives rules u v) : Derives rules' u v := by
  induction h with
  | refl => exact .refl _
  | tail _ hstep ih =>
    obtain ⟨r, hr, before, after, rfl, rfl⟩ := hstep
    have := (hrules r hr).within before after
    rw [List.append_assoc, List.singleton_append] at this
    exact ih.trans this

end Derives

/-! ## Readings -/

section

variable {u v : List Symbol}

theorem mem_bodyReadings_append {x : List Symbol} : x ∈ bodyReadings (u ++ v) ↔
    ∃ y ∈ bodyReadings u, ∃ z ∈ bodyReadings v, x = y ++ z := by
  induction u generalizing x with
  | nil => simp [bodyReadings]
  | cons s u ih =>
    simp only [List.cons_append, bodyReadings, List.mem_flatMap, List.mem_map]
    constructor
    · rintro ⟨p, hp, x', hx', rfl⟩
      obtain ⟨y, hy, z, hz, rfl⟩ := ih.1 hx'
      exact ⟨p ++ y, ⟨p, hp, y, hy, rfl⟩, z, hz, (List.append_assoc ..).symm⟩
    · rintro ⟨_, ⟨p, hp, y, hy, rfl⟩, z, hz, rfl⟩
      exact ⟨p, hp, y ++ z, ih.2 ⟨y, hy, z, hz, rfl⟩, (List.append_assoc ..).symm⟩

theorem bodyReadings_singleton (s : Symbol) : bodyReadings [s] = s.readings := by
  simp [bodyReadings]

/-- A symbol can always be kept. -/
theorem mem_readings_self (s : Symbol) : [s] ∈ s.readings := by
  rw [Symbol.readings]
  split <;> simp

theorem Symbol.readings_of_not_optional {s : Symbol} (h : s.isOptional = false) :
    s.readings = [[s]] := by
  have : s.base? = none := by simp [Symbol.base?, h]
  rw [Symbol.readings, this]

/-- Where nothing is optional there is one reading. -/
theorem bodyReadings_of_not_optional (h : ∀ s ∈ u, s.isOptional = false) :
    bodyReadings u = [u] := by
  induction u with
  | nil => rfl
  | cons s u ih =>
    rw [bodyReadings, Symbol.readings_of_not_optional (h s (by simp)),
      ih fun t ht => h t (by simp [ht])]
    rfl

end

/-! ## Both directions -/

section

variable {rules : List Rule} {optionals : List Symbol}

/-- **The reading of a row is derived from it** by the rules of its optional symbols. -/
theorem derives_of_mem_bodyReadings {u v : List Symbol}
    (hu : ∀ s ∈ u, s.isOptional = true → s ∈ optionals) (hv : v ∈ bodyReadings u) :
    Derives (rules ++ optionals.flatMap Symbol.expansion) u v := by
  induction u generalizing v with
  | nil =>
    rw [bodyReadings, List.mem_singleton] at hv
    exact hv ▸ .refl _
  | cons s u ih =>
    simp only [bodyReadings, List.mem_flatMap, List.mem_map] at hv
    obtain ⟨p, hp, v, hv, rfl⟩ := hv
    have hrest := ih (fun t ht => hu t (by simp [ht])) hv
    refine Derives.append (u := [s]) ?_ hrest
    rw [Symbol.readings] at hp
    split at hp
    · rw [List.mem_singleton.1 hp]
      exact .refl _
    · rename_i b hb
      have hs := hu s List.mem_cons_self (Symbol.isOptional_of_base? hb)
      have hrule {body : List Symbol} (hbody : body = [] ∨ body = [b]) :
          ⟨s, body⟩ ∈ rules ++ optionals.flatMap Symbol.expansion :=
        List.mem_append_right _ (List.mem_flatMap.2 ⟨s, hs, Symbol.mem_expansion hb hbody⟩)
      simp only [List.mem_cons, List.not_mem_nil, or_false] at hp
      rcases hp with rfl | rfl | rfl
      · exact .of_rule (hrule (.inl rfl))
      · exact .of_rule (hrule (.inr rfl))
      · exact .refl _

theorem derives_of_readings
    (hrules : ∀ r ∈ rules, ∀ s ∈ r.body, s.isOptional = true → s ∈ optionals)
    {u v : List Symbol} (h : Derives (rules.flatMap Rule.readings) u v) :
    Derives (rules ++ optionals.flatMap Symbol.expansion) u v := by
  refine h.of_forall fun r' hr' => ?_
  obtain ⟨r, hr, hr'⟩ := List.mem_flatMap.1 hr'
  obtain ⟨body, hbody, rfl⟩ := List.mem_map.1 hr'
  exact (Derives.of_rule (List.mem_append_left _ hr)).trans
    (derives_of_mem_bodyReadings (hrules r hr) hbody)

/-- One step back: a row has a reading from which that of the next row is derived. -/
theorem exists_reading_of_produces {u v v' : List Symbol}
    (hbase : ∀ s ∈ optionals, ∀ b, s.base? = some b → b.isOptional = false)
    (h : Produces (rules ++ optionals.flatMap Symbol.expansion) u v) (hv : v' ∈ bodyReadings v) :
    ∃ u' ∈ bodyReadings u, Derives (rules.flatMap Rule.readings) u' v' := by
  obtain ⟨r, hr, before, after, rfl, rfl⟩ := h
  obtain ⟨xy, hxy, z, hz, rfl⟩ := mem_bodyReadings_append.1 hv
  obtain ⟨x, hx, y, hy, rfl⟩ := mem_bodyReadings_append.1 hxy
  have hrow {p : List Symbol} (hp : p ∈ r.head.readings) :
      x ++ p ++ z ∈ bodyReadings (before ++ r.head :: after) := by
    rw [← List.singleton_append, ← List.append_assoc, mem_bodyReadings_append]
    refine ⟨x ++ p, mem_bodyReadings_append.2 ⟨x, hx, p, ?_, rfl⟩, z, hz, rfl⟩
    rwa [bodyReadings_singleton]
  rcases List.mem_append.1 hr with hr | hr
  · -- a rule that is written out: its head is kept and its body is read
    refine ⟨x ++ [r.head] ++ z, hrow (mem_readings_self _), Derives.within ?_ x z⟩
    exact .of_rule (r := ⟨r.head, y⟩) (List.mem_flatMap.2 ⟨r, hr, List.mem_map.2 ⟨y, hy, rfl⟩⟩)
  · -- a rule of an optional symbol: no step is needed
    refine ⟨x ++ y ++ z, hrow ?_, .refl _⟩
    obtain ⟨s, hs, hr⟩ := List.mem_flatMap.1 hr
    cases hb : s.base? with
    | none => simp [Symbol.expansion, hb] at hr
    | some b =>
      have hread : s.readings = [[], [b], [s]] := by rw [Symbol.readings, hb]
      rcases (Symbol.mem_expansion_iff hb).1 hr with rfl | rfl
      · rw [bodyReadings, List.mem_singleton] at hy
        rw [hread, hy]
        simp
      · rw [bodyReadings_singleton, Symbol.readings_of_not_optional (hbase s hs b hb),
          List.mem_singleton] at hy
        rw [hread, hy]
        simp

theorem exists_reading {u w : List Symbol}
    (hbase : ∀ s ∈ optionals, ∀ b, s.base? = some b → b.isOptional = false)
    (hw : ∀ s ∈ w, s.isOptional = false)
    (h : Derives (rules ++ optionals.flatMap Symbol.expansion) u w) :
    ∃ u' ∈ bodyReadings u, Derives (rules.flatMap Rule.readings) u' w := by
  rw [Derives.iff_reflTransGen] at h
  induction h using Relation.ReflTransGen.head_induction_on with
  | refl => exact ⟨w, by simp [bodyReadings_of_not_optional hw], .refl w⟩
  | head hstep _ ih =>
    obtain ⟨v', hv', hderives⟩ := ih
    obtain ⟨u', hu', hstep'⟩ := exists_reading_of_produces hbase hstep hv'
    exact ⟨u', hu', hstep'.trans hderives⟩

end

end OptGrammar
