/-
  Grammars with optional symbols — what the layout of a source does not change.

  Blank lines and comments say nothing, nor do blanks at the ends of a line or between the words
  of a body, and a header says nothing new while it is current.  Sources that differ only in
  these come to the same: to one grammar, or both to a body without a header.

  * `repeats`: a line that is the header current there.
  * `fresh`: lines without the headers that are repeated.
  * `Content.Alike`: contents with the same terminals and, but for repeated headers, the same
    lines.

  Main statements: `placed_fresh`, without repeated headers all other lines stand under the
  same headers; `expandInto_of_alike`, sources that are alike come to the same.
-/
import OptGrammar.Proofs.Expansion

namespace OptGrammar

namespace Shorthand

/-! ## Repeated headers -/

/-- Whether a line is the header that is current there. -/
def repeats : Option Symbol × Line → Bool
  | (head, .header name) => head = some ⟨name⟩
  | _ => false

/-- Lines without the headers that are repeated. -/
def fresh (head : Option Symbol) (lines : List Line) : List Line :=
  ((placed head lines).filter fun p => !repeats p).map Prod.snd

section

variable {head : Option Symbol} {name : Text} {rest : List Line}

theorem fresh_cons_repeated : fresh (some ⟨name⟩) (.header name :: rest) =
    fresh (some ⟨name⟩) rest := by
  simp [fresh, repeats]

theorem fresh_cons_header (h : head ≠ some ⟨name⟩) : fresh head (.header name :: rest) =
    .header name :: fresh (some ⟨name⟩) rest := by
  simp [fresh, repeats, h]

theorem fresh_cons_silent : fresh head (.silent :: rest) = .silent :: fresh head rest := by
  simp [fresh, repeats]

theorem fresh_cons_body {words : List Text} : fresh head (.body words :: rest) =
    .body words :: fresh head rest := by
  simp [fresh, repeats]

end

/-- **Without repeated headers all other lines stand under the same headers.** -/
theorem placed_fresh (head : Option Symbol) (lines : List Line) :
    placed head (fresh head lines) = (placed head lines).filter fun p => !repeats p := by
  induction lines generalizing head with
  | nil => rfl
  | cons line lines ih =>
    cases line with
    | silent => rw [fresh_cons_silent, placed_silent, ih, placed_silent]; rfl
    | body words => rw [fresh_cons_body, placed_body, ih, placed_body]; rfl
    | header name =>
      by_cases h : head = some ⟨name⟩
      · subst h
        rw [fresh_cons_repeated, ih, placed_header, List.filter_cons_of_neg (by simp [repeats])]
      · rw [fresh_cons_header h, placed_header, ih, placed_header,
          List.filter_cons_of_pos (by simp [repeats, h])]

/-- A header that is repeated names no symbol for the first time. -/
theorem eraseDups_symbols_fresh {head : Option Symbol} {before : List Symbol}
    (h : ∀ s, head = some s → s ∈ before) (lines : List Line) :
    (before ++ (fresh head lines).flatMap Line.symbols).eraseDups =
      (before ++ lines.flatMap Line.symbols).eraseDups := by
  induction lines generalizing head before with
  | nil => rfl
  | cons line lines ih =>
    cases line with
    | silent =>
      rw [fresh_cons_silent]
      exact ih h
    | body words =>
      rw [fresh_cons_body, List.flatMap_cons, List.flatMap_cons, ← List.append_assoc,
        ← List.append_assoc]
      exact ih fun s hs => List.mem_append_left _ (h s hs)
    | header name =>
      by_cases hhead : head = some ⟨name⟩
      · subst hhead
        rw [fresh_cons_repeated, List.flatMap_cons, Line.symbols, List.singleton_append,
          eraseDups_append_cons_of_mem (h _ rfl)]
        exact ih h
      · rw [fresh_cons_header hhead, List.flatMap_cons, List.flatMap_cons, ← List.append_assoc,
          ← List.append_assoc]
        refine ih fun s hs => List.mem_append_right _ ?_
        cases hs
        exact List.mem_singleton_self _

/-! ## Contents that are alike -/

namespace Content

/-- **Contents that are alike**: they have the same terminals, and the same lines when headers
    that are repeated are left out. -/
structure Alike (c c' : Content) : Prop where
  terminals : c.terminals = c'.terminals
  lines : fresh none c.lines = fresh none c'.lines

variable {c c' : Content}

theorem filterMap_ruleOf?_fresh (c : Content) :
    (placed none (fresh none c.lines)).filterMap ruleOf? = c.rules := by
  rw [placed_fresh, List.filterMap_filter, rules]
  refine List.filterMap_congr fun p _ => ?_
  obtain ⟨head, line⟩ := p
  cases line <;> simp [repeats, ruleOf?]

theorem headed_iff_fresh :
    c.Headed ↔ ∀ words, (none, Line.body words) ∉ placed none (fresh none c.lines) := by
  simp [Headed, placed_fresh, repeats]

theorem eraseDups_occurrences_fresh (c : Content) :
    ((fresh none c.lines).flatMap Line.symbols).eraseDups = c.occurrences.eraseDups := by
  have hnone : ∀ s, (none : Option Symbol) = some s → s ∈ ([] : List Symbol) := by simp
  exact eraseDups_symbols_fresh hnone c.lines

namespace Alike

theorem rules (h : c.Alike c') : c.rules = c'.rules := by
  rw [← c.filterMap_ruleOf?_fresh, h.lines, c'.filterMap_ruleOf?_fresh]

theorem headed_iff (h : c.Alike c') : c.Headed ↔ c'.Headed := by
  rw [headed_iff_fresh, h.lines, ← headed_iff_fresh]

theorem occurrences (h : c.Alike c') : c.occurrences.eraseDups = c'.occurrences.eraseDups := by
  rw [← c.eraseDups_occurrences_fresh, h.lines, c'.eraseDups_occurrences_fresh]

/-- **Contents that are alike stand for the same grammar.** -/
theorem grammar (h : c.Alike c') : c.grammar = c'.grammar := by
  have hsymbols (p : Symbol → Bool) :
      (c.occurrences.filter p).eraseDups = (c'.occurrences.filter p).eraseDups := by
    rw [eraseDups_filter, h.occurrences, ← eraseDups_filter]
  rw [Content.grammar, Content.grammar, bases, bases, optionals, optionals, hsymbols, hsymbols,
    h.rules, h.terminals]

end Alike

end Content

/-! ## A body without a header -/

/-- A rule section that has a body without a header is read up to such a body. -/
theorem exists_missingHeader_of_steps {texts : List Text}
    (h : ∃ words, (none, Line.body words) ∈ placed none (kept texts)) (number : Nat) :
    ∃ line content,
      (steps none number (texts.map Utf8.encode)).2 = some (.missingHeader line content) := by
  induction texts generalizing number with
  | nil =>
    obtain ⟨words, hm⟩ := h
    cases hm
  | cons t texts ih =>
    rw [List.map_cons, steps, Utf8.decode_encode]
    dsimp only
    cases hline : Line.ofText t with
    | silent =>
      rw [kept_cons_silent hline] at h
      exact ih h (number + 1)
    | header name =>
      obtain ⟨words, hm⟩ := h
      rw [kept_cons (by simp [hline]), hline, placed_header] at hm
      rcases List.mem_cons.1 hm with hm | hm
      · cases hm
      · exact absurd hm (none_not_mem_placed _ _ _)
    | body words => exact ⟨_, _, rfl⟩

end Shorthand

open Shorthand

/-- **A source that says something is only refused for a body without a header.** -/
theorem expandInto_of_not_headed {source : Bytes} {c : Content} (hc : Content.of? source = some c)
    (h : ¬ c.Headed) : ∃ line content, ∀ sink : Sink,
      expandInto source sink = (.error (.missingHeader line content), sink) := by
  obtain ⟨first, terminals, texts, hlines, hcount, rfl⟩ := Content.of?_eq_some_iff.1 hc
  have hbody : ∃ words, (none, Line.body words) ∈ placed none (kept texts) := by
    simpa [Content.Headed] using h
  rw [← List.cons_append, List.map_append] at hlines
  obtain ⟨line, content, hsteps⟩ := exists_missingHeader_of_steps hbody (1 + terminals.length)
  have hresult : (expand source).result = .error (.missingHeader line content) := by
    rw [expand, Shorthand.pass, terminals_run_of_lines hlines hcount]
    dsimp only
    rw [hsteps]
  exact ⟨line, content, fun sink => by rw [expandInto, hresult]⟩

/-- **The layout of a source does not matter.**  Two sources that have the same terminals, and the
    same headers and bodies once blank lines, comments and repeated headers are left out, are both
    expanded to one grammar, and what is written is the same; or both are refused for a body
    without a header, and nothing is written. -/
theorem expandInto_of_alike {source source' : Bytes} {c c' : Content}
    (hc : Content.of? source = some c) (hc' : Content.of? source' = some c') (h : c.Alike c') :
    (∃ g, (expand source).result = .ok g ∧ (expand source').result = .ok g ∧
      ∀ sink : Sink, expandInto source' sink = expandInto source sink ∧
        ((Listing.bytes g).length ≤ sink.room → expandInto source sink =
          (.ok g, { sink with held := sink.held ++ Listing.bytes g }))) ∨
    ((∃ line content, ∀ sink : Sink,
        expandInto source sink = (.error (.missingHeader line content), sink)) ∧
      ∃ line content, ∀ sink : Sink,
        expandInto source' sink = (.error (.missingHeader line content), sink)) := by
  by_cases hheaded : c.Headed
  · have hg : (expand source).result = .ok c.grammar := expand_ok_iff.2 ⟨c, hc, hheaded, rfl⟩
    have hg' : (expand source').result = .ok c.grammar :=
      expand_ok_iff.2 ⟨c', hc', h.headed_iff.1 hheaded, h.grammar⟩
    refine .inl ⟨c.grammar, hg, hg', fun sink => ⟨?_, fun hroom => ?_⟩⟩
    · rw [expandInto_eq hg', expandInto_eq hg]
    · rw [expandInto_eq hg, if_pos hroom, Sink.fill_of_le hroom]
  · exact .inr ⟨expandInto_of_not_headed hc hheaded,
      expandInto_of_not_headed hc' fun hheaded' => hheaded (h.headed_iff.2 hheaded')⟩

/-- The source of sums in another layout, with a header that is repeated. -/
def looseSums : Bytes := Utf8.encode
  ("+02\r\n\tid \r\nPLUS\n Goal:\r\n#\n  Goal:\n id  Tail(opt)\n" ++
    "Tail(opt):\n\nPLUS\tid\t\tTail(opt)").toList

/-- What that source says. -/
def looseContent : Content where
  terminals := sumsContent.terminals
  lines := .header "Goal".toList :: sumsContent.lines

theorem expandInto_of_alike_sums :
    Content.of? sums = some sumsContent ∧ Content.of? looseSums = some looseContent ∧
    sumsContent.Alike looseContent ∧
    ((∃ g, (expand sums).result = .ok g ∧ (expand looseSums).result = .ok g ∧
      ∀ sink : Sink, expandInto looseSums sink = expandInto sums sink ∧
        ((Listing.bytes g).length ≤ sink.room → expandInto sums sink =
          (.ok g, { sink with held := sink.held ++ Listing.bytes g }))) ∨
    ((∃ line content, ∀ sink : Sink,
        expandInto sums sink = (.error (.missingHeader line content), sink)) ∧
      ∃ line content, ∀ sink : Sink,
        expandInto looseSums sink = (.error (.missingHeader line content), sink))) := by
  have hloose : Content.of? looseSums = some looseContent := by decide +kernel
  have halike : sumsContent.Alike looseContent := ⟨rfl, by decide +kernel⟩
  exact ⟨of?_sums, hloose, halike, expandInto_of_alike of?_sums hloose halike⟩

end OptGrammar
