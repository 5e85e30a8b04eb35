/-
  Grammars with optional symbols — what a source says before reading stops.

  A source that is refused for its rule section has said something all the same: its terminals,
  and the lines in front of the one at fault.

  * `Front`: what a source says up to its end or to the fault in its rule section.

  Main statements: `pass_of_front`, the pass makes the calls of the front and nothing else;
  `exists_front`, a source without a front is at fault in its section of terminals.
-/
import OptGrammar.Proofs.SourceFault

namespace OptGrammar.Shorthand

open Reading

variable {source : Bytes} {c : Content} {stop : Option Fault}

/-! ## Headers over bodies -/

/-- **A rule section has a header before its bodies** exactly if its lines have. -/
theorem headed_iff {texts : List Text} :
    Headed texts ↔ ∀ words, (none, Line.body words) ∉ placed none (kept texts) := by
  induction texts with
  | nil => exact iff_of_true headed_nil fun words => List.not_mem_nil
  | cons t texts ih =>
    cases hline : Line.ofText t with
    | silent =>
      have hheader : ¬ IsHeader t := by simp [isHeader_iff, hline]
      have hbody : ¬ IsBody t := by simp [isBody_iff, hline]
      rw [headed_cons_silent_iff hheader hbody, kept_cons_silent hline, ih]
    | header name =>
      rw [kept_cons (by simp [hline]), hline, placed_header]
      refine iff_of_true (headed_cons_header (isHeader_iff.2 ⟨name, hline⟩)) ?_
      intro words hm
      rcases List.mem_cons.1 hm with h | h
      · cases h
      · exact none_not_mem_placed _ _ _ h
    | body words =>
      rw [kept_cons (by simp [hline]), hline, placed_body]
      refine iff_of_false (not_headed_cons_body (isBody_iff.2 ⟨words, hline⟩)) ?_
      exact fun h => h words List.mem_cons_self

/-! ## Fronts -/

/-- **What a source says before reading stops**: all of it, or its terminals and the lines in
    front of the fault in its rule section. -/
inductive Front (source : Bytes) : Content → Option Fault → Prop
  | whole {content} : Content.of? source = some content → content.Headed →
      Front source content none
  | cut {first terminals texts rest fault} :
      source.lines = (first :: (terminals ++ texts)).map Utf8.encode ++ rest →
      Count.read? (Text.trim first) = some terminals.length →
      RuleFault (1 + terminals.length) texts rest.head? fault →
      Front source ⟨terminals.map fun t => ⟨Text.trim t⟩, kept texts⟩ (some fault)

theorem RuleFault.headed {before : Nat} {texts : List Text} {next : Option Bytes} {fault : Fault}
    (h : RuleFault before texts next fault) : Headed texts := by
  cases h with
  | notUtf8 hheaded => exact hheaded
  | orphan hheaded => exact hheaded

/-- The front of a source has a header over every body. -/
theorem Front.headed (h : Front source c stop) : c.Headed := by
  cases h with
  | whole _ hheaded => exact hheaded
  | cut _ _ hfault => exact headed_iff.1 hfault.headed

/-- The pass stops at a fault without a call. -/
theorem steps_of_ruleFault {number before : Nat} {texts : List Text} {rest : List Bytes}
    {fault : Fault} (h : RuleFault before texts rest.head? fault)
    (hnumber : number = before + texts.length) :
    steps (current none (kept texts)) number rest = ([], some fault) := by
  subst hnumber
  generalize hnext : rest.head? = next at h
  cases h with
  | notUtf8 _ hd =>
    obtain ⟨more, rfl⟩ := List.head?_eq_some_iff.1 hnext
    rw [steps, hd]
  | orphan _ horphan =>
    obtain ⟨more, rfl⟩ := List.head?_eq_some_iff.1 hnext
    obtain ⟨words, hwords⟩ := isBody_iff.1 horphan.1
    -- no header is in front of an orphan, so none is current
    have hnone : ∀ line ∈ kept texts, line.header? = none := by
      intro line hline
      cases line with
      | header name =>
        obtain ⟨t, ht, hname⟩ := exists_of_mem_kept hline
        exact absurd (isHeader_iff.2 ⟨name, hname⟩) (horphan.2 t ht)
      | silent | body => rfl
    rw [current_of_header?_eq_none hnone, steps, Utf8.decode_encode]
    simp only [hwords]

/-- **The pass makes the calls of the front** and stops where the front does. -/
theorem pass_of_front (h : Front source c stop) : pass source = ⟨c.draft, stop⟩ := by
  have hheaded := h.headed
  cases h with
  | whole hc => exact pass_eq_iff.2 ⟨c, hc, hheaded, rfl⟩
  | cut hlines hcount hfault =>
    rw [pass_of_lines hlines hcount rfl hheaded]
    dsimp only
    rw [steps_of_ruleFault hfault rfl]
    rfl

/-- **A source has a front** unless its section of terminals is at fault. -/
theorem exists_front (source : Bytes) :
    (∃ k fault, FailsAt (SectionFault .terminal 0) source.lines k fault) ∨
      ∃ c stop, Front source c stop := by
  cases hpass : pass source with
  | mk d fault =>
    cases fault with
    | none =>
      obtain ⟨c, hc, hheaded, -⟩ := pass_eq_iff.1 hpass
      exact .inr ⟨c, none, .whole hc hheaded⟩
    | some fault =>
      obtain ⟨k, texts, rest, hlines, hk, hfault⟩ := pass_fault_iff.1 (congrArg Pass.fault hpass)
      cases hfault with
      | terminals hfault => exact .inl ⟨k, fault, texts, rest, hlines, hk, hfault⟩
      | @rules counted texts _ _ hcounted hfault =>
        cases counted with
        | nil => exact hcounted.elim
        | cons first terminals =>
          rw [List.length_cons, Nat.add_comm] at hfault
          exact .inr ⟨_, _, .cut hlines hcounted hfault⟩

/-- A pass that fails in the section of terminals makes no call. -/
theorem pass_of_sectionFault {k : Nat} {fault : Fault}
    (h : FailsAt (SectionFault .terminal 0) source.lines k fault) :
    pass source = ⟨.empty, some fault⟩ := by
  have hrun : (terminals.run (.ofBytes source)).1 = .error fault :=
    section_map_error_iff.2 ⟨k, h⟩
  rw [pass]
  cases hresult : terminals.run (.ofBytes source) with
  | mk result cur =>
    rw [hresult] at hrun
    dsimp only at hrun
    subst hrun
    rfl

end OptGrammar.Shorthand
