/-
  Grammars with optional symbols — listings in canonical form.

  A reader takes more than what is written: counts with blanks around them, a plus sign or zeros in
  front, rule lines with any blanks, carriage returns before the line feeds, a last line without
  one, and whatever is behind the last rule.  A listing that was read is written again byte for
  byte exactly if it makes use of none of this.

  * `Count.Plain`: digits without a zero too many in front.
  * `Text.Spaced`: words with single spaces between them and nothing around.
  * `Bytes.unlines`: lines that are all ended.
  * `Listing.PlainLines`, `Listing.Canonical`: a listing as it is written.

  Main statements: `Count.plain_iff`, the plain counts are the counts written;
  `Bytes.unlines_lines_iff`, when bytes are found again from their lines;
  `bytes_eq_iff_canonical`, when a listing that was read is written again.
-/
import OptGrammar.Proofs.Resaving
import OptGrammar.Proofs.Truncation

namespace OptGrammar

/-! ## Counts -/

namespace Count

/-- **A count in plain digits**: it has a digit, and no zero in front unless it is zero. -/
structure Plain (t : Text) : Prop where
  nonempty : t ≠ []
  digit : ∀ c ∈ t, c.isDigit = true
  zero : t.head? = some '0' → t = ['0']

theorem plain_digits (n : Nat) : Plain (digits n) := by
  refine ⟨digits_ne_nil n, fun _ => isDigit_of_mem_digits, fun hzero => ?_⟩
  rcases Nat.eq_zero_or_pos n with rfl | hn
  · rfl
  · obtain ⟨rest, hrest⟩ := List.head?_eq_some_iff.1 hzero
    have hpos : 0 < Nat.ofDigitChars 10 ['0'] 0 :=
      ofDigitChars_pos hn (by simp) (hrest ▸ ⟨rest, rfl⟩)
    exact absurd hpos (by decide)

/-- A digit is all that is written of its value. -/
theorem exists_digits_eq_singleton {c : Char} (h : c.isDigit = true) :
    ∃ d, d < 10 ∧ digits d = [c] := by
  obtain ⟨hlow, hhigh⟩ : 48 ≤ c.toNat ∧ c.toNat ≤ 57 := Char.isDigit_iff_toNat.1 h
  have hlt : c.toNat - 48 < 10 := by omega
  refine ⟨c.toNat - 48, hlt, ?_⟩
  rw [digits, Nat.toDigits_of_lt_base hlt, List.cons.injEq]
  refine ⟨Char.toNat_inj.1 ?_, rfl⟩
  rw [Nat.toNat_digitChar_of_lt_ten hlt]
  omega

/-- Behind a number that is not zero, digits go on as digits of a number. -/
theorem exists_digits_eq_append {n : Nat} {ds : Text} (hn : 0 < n)
    (h : ∀ c ∈ ds, c.isDigit = true) : ∃ m, digits m = digits n ++ ds := by
  induction ds generalizing n with
  | nil => exact ⟨n, (List.append_nil _).symm⟩
  | cons c ds ih =>
    obtain ⟨hc, hds⟩ := List.forall_mem_cons.1 h
    obtain ⟨d, hd, hdigit⟩ := exists_digits_eq_singleton hc
    obtain ⟨m, hm⟩ := ih (n := 10 * n + d) (by omega) hds
    refine ⟨m, ?_⟩
    have happend : digits n ++ digits d = digits (10 * n + d) :=
      Nat.toDigits_append_toDigits (by omega) hn hd
    calc digits m = digits (10 * n + d) ++ ds := hm
      _ = digits n ++ [c] ++ ds := by rw [← happend, hdigit]
      _ = digits n ++ c :: ds := List.append_assoc ..

/-- **The plain counts are the counts written.** -/
theorem plain_iff {t : Text} : Plain t ↔ ∃ n, digits n = t := by
  constructor
  · rintro ⟨hne, hdigit, hzero⟩
    obtain ⟨c, ds, rfl⟩ := List.exists_cons_of_ne_nil hne
    obtain ⟨hc, hds⟩ := List.forall_mem_cons.1 hdigit
    obtain ⟨d, -, hd⟩ := exists_digits_eq_singleton hc
    rcases Nat.eq_zero_or_pos d with rfl | hpos
    · -- a zero in front is all there is
      obtain rfl : '0' = c := List.head_eq_of_cons_eq hd
      exact ⟨0, (hzero rfl).symm⟩
    · obtain ⟨m, hm⟩ := exists_digits_eq_append hpos hds
      exact ⟨m, by rw [hm, hd, List.singleton_append]⟩
  · rintro ⟨n, rfl⟩
    exact plain_digits n

/-- A count that is read from the digits written is that count. -/
theorem eq_of_read?_digits {n m : Nat} (h : read? (digits m) = some n) : m = n := by
  rw [read?_of_isDigit (digits_ne_nil m) fun _ => isDigit_of_mem_digits,
    extend_eq_some_iff (by decide)] at h
  rw [← h.2.1, digits, Nat.ofDigitChars_toDigits (by omega) (by omega)]

/-- Of the lines that hold a count, one is plain: the one written. -/
theorem eq_digits_iff {t : Text} {n : Nat} (h : read? (Text.trim t) = some n) :
    t = digits n ↔ Plain t := by
  constructor
  · rintro rfl
    exact plain_digits n
  · intro hplain
    obtain ⟨m, rfl⟩ := plain_iff.1 hplain
    rw [Text.trim_of_not_blank (Listing.digits_not_blank m)] at h
    rw [eq_of_read?_digits h]

end Count

/-! ## Rule lines -/

/-- **A text of words with single spaces between them** and no blank around. -/
def Text.Spaced (t : Text) : Prop := unwords (words t) = t

theorem Text.spaced_unwords {ws : List Text} (h : ∀ w ∈ ws, IsWord w) : Spaced (unwords ws) := by
  rw [Spaced, words_unwords h]

/-- Of the lines with the words of rules, those that are spaced are the lines written. -/
theorem Rule.eq_map_line_iff {entries : List Text} {rules : List Rule}
    (h : entries.map Text.words = rules.map names) :
    entries = rules.map line ↔ ∀ t ∈ entries, Text.Spaced t := by
  have hlines : entries.map (fun t => Text.unwords (Text.words t)) = rules.map line := by
    have hunwords := congrArg (List.map Text.unwords) h
    rwa [List.map_map, List.map_map] at hunwords
  have hspaced : entries.map (fun t => Text.unwords (Text.words t)) = entries.map id ↔
      ∀ t ∈ entries, Text.Spaced t := List.map_inj_left
  rw [hlines, List.map_id] at hspaced
  rw [← hspaced, eq_comm]

/-! ## Line ends -/

namespace Bytes

variable {bs l rest : Bytes}

/-- Lines that are all ended, the last one too. -/
def unlines (ls : List Bytes) : Bytes := ls.flatMap (· ++ [0x0A])

@[simp]
theorem unlines_cons (l : Bytes) (ls : List Bytes) :
    unlines (l :: ls) = l ++ 0x0A :: unlines ls := by
  simp [unlines]

/-- A carriage return before a line feed is at the end of a line. -/
theorem return_infix_iff (h : 0x0A ∉ l) : [0x0D, 0x0A] <:+: l ++ 0x0A :: rest ↔
    l.getLast? = some 0x0D ∨ [0x0D, 0x0A] <:+: rest := by
  induction l with
  | nil => simp [List.infix_cons_iff]
  | cons b l ih =>
    rw [List.mem_cons, not_or] at h
    rw [List.cons_append, List.infix_cons_iff, ih h.2, List.cons_prefix_cons]
    cases l with
    | nil => simp [eq_comm]
    | cons c l =>
      have hc : ¬ [0x0A] <+: c :: l ++ 0x0A :: rest := by
        rw [List.cons_append, List.cons_prefix_cons]
        rintro ⟨rfl, -⟩
        exact h.2 List.mem_cons_self
      rw [List.getLast?_cons_cons]
      exact or_iff_right fun hprefix => hc hprefix.2

/-- The line before a line feed is kept exactly if it does not end in a carriage return. -/
theorem unlines_lines_append_newline (h : 0x0A ∉ l) :
    unlines (lines (l ++ 0x0A :: rest)) = l ++ 0x0A :: rest ↔
      l.getLast? ≠ some 0x0D ∧ unlines (lines rest) = rest := by
  rw [lines_append_newline h, unlines_cons]
  by_cases hlast : l.getLast? = some 0x0D
  · obtain ⟨u, rfl⟩ := List.getLast?_eq_some_iff.1 hlast
    rw [List.reverse_append, List.append_assoc]
    simp [dropReturn]
  · rw [dropReturn_reverse_of_getLast? hlast, List.append_cancel_left_eq, List.cons.injEq]
    simp [hlast]

/-- **Bytes are found again from their lines** exactly if there are no carriage returns before
    line feeds and the last line is ended. -/
theorem unlines_lines_iff : unlines (lines bs) = bs ↔
    ¬ [0x0D, 0x0A] <:+: bs ∧ (bs = [] ∨ bs.getLast? = some 0x0A) := by
  induction bs using lineInduction with
  | last l hl =>
    have hlast : l.getLast? ≠ some 0x0A := fun h => hl (List.mem_of_getLast? h)
    by_cases hne : l = []
    · subst hne
      simp [unlines]
    · rw [lines_of_not_mem hl hne]
      simp [unlines, hne, hlast]
  | line l rest hl ih =>
    have hended : (l ++ 0x0A :: rest).getLast? = some 0x0A ↔
        rest = [] ∨ rest.getLast? = some 0x0A := by
      cases rest <;> simp
    rw [unlines_lines_append_newline hl, ih, return_infix_iff hl, hended, not_or, and_assoc]
    simp

end Bytes

theorem Utf8.encode_unlines (ts : List Text) :
    encode (Text.unlines ts) = Bytes.unlines (ts.map encode) := by
  induction ts with
  | nil => rfl
  | cons t ts ih => rw [encode_unlines_cons, ih, List.map_cons, Bytes.unlines_cons]

/-! ## Listings -/

namespace Listing

open Reading

variable {g : Grammar} {bs : Bytes}

/-- The lines of a listing with right counts in plain digits, rule lines with single spaces, and
    nothing behind them. -/
def PlainLines (lines : List Bytes) : Prop :=
  ∃ t terminals n nonterminals start r rules,
    lines = (t :: terminals ++ n :: nonterminals ++ start :: r :: rules).map Utf8.encode ∧
    (Counted (t :: terminals) ∧ Counted (n :: nonterminals) ∧ Counted (r :: rules)) ∧
    (Count.Plain t ∧ Count.Plain n ∧ Count.Plain r) ∧ ∀ line ∈ rules, Text.Spaced line

/-- **A listing as it is written**: there is nothing in its lines to put right, and each of them,
    the last one too, is ended by a line feed alone. -/
structure Canonical (bs : Bytes) : Prop where
  lines : PlainLines bs.lines
  returns : ¬ [0x0D, 0x0A] <:+: bs
  ended : bs.getLast? = some 0x0A

/-- What was read is written again exactly if its lines are those written and all are ended. -/
theorem bytes_eq_iff_lines (h : read bs = .ok g) : bytes g = bs ↔
    bs.lines = (lines g).map Utf8.encode ∧ Bytes.unlines bs.lines = bs := by
  constructor
  · rintro rfl
    have hcount := countable_of_read h
    have hlossless := (read_bytes_eq_iff hcount).1 h
    have hlines : (bytes g).lines = (lines g).map Utf8.encode :=
      Bytes.lines_unlines_of_lossless fun t => lossless_of_mem_lines hlossless hcount
    exact ⟨hlines, by rw [hlines, ← Utf8.encode_unlines, bytes, render]⟩
  · rintro ⟨hlines, hbs⟩
    rw [bytes, render, Utf8.encode_unlines, ← hlines, hbs]

/-- **The counts tell where the sections of a listing end.** -/
theorem sections_inj {ts ns rs ts' ns' rs' : List Text} {start start' : Text}
    {rest rest' : List Bytes} (h : Counted ts ∧ Counted ns ∧ Counted rs)
    (h' : Counted ts' ∧ Counted ns' ∧ Counted rs')
    (heq : (ts ++ ns ++ start :: rs).map Utf8.encode ++ rest =
      (ts' ++ ns' ++ start' :: rs').map Utf8.encode ++ rest') :
    ts = ts' ∧ ns = ns' ∧ start = start' ∧ rs = rs' ∧ rest = rest' := by
  simp only [List.map_append, List.map_cons, List.append_assoc, List.cons_append] at heq
  obtain ⟨hterminals, heq⟩ := h.1.append_inj h'.1 heq
  obtain ⟨hnonterminals, heq⟩ := h.2.1.append_inj h'.2.1 heq
  obtain ⟨hstart, heq⟩ := List.cons.inj heq
  obtain ⟨hrules, hrest⟩ := h.2.2.append_inj h'.2.2 heq
  exact ⟨hterminals, hnonterminals, Utf8.encode_injective hstart, hrules, hrest⟩

/-- The lines of what was read are those written exactly if there is nothing in them to put
    right. -/
theorem plainLines_iff (h : read bs = .ok g) :
    PlainLines bs.lines ↔ bs.lines = (lines g).map Utf8.encode := by
  constructor
  · rintro ⟨t', terminals, n', nonterminals, start, r', rules, hlines', hcounted',
      ⟨htplain, hnplain, hrplain⟩, hspaced⟩
    obtain ⟨t, n, r, entries, rest, hlines, ht, hn, hr, hwords⟩ := read_eq_ok_iff.1 h
    have hcounted : Counted (t :: g.terminals.map Symbol.name) ∧
        Counted (n :: g.nonterminals.map Symbol.name) ∧ Counted (r :: entries) := by
      simpa [counted_cons_iff] using ⟨ht, hn, hr⟩
    have hlength : entries.length = g.rules.length := by
      simpa using congrArg List.length hwords
    -- so the sections are those that were read, and there are no other lines
    obtain ⟨hterminals, hnonterminals, -, hentries, hrest⟩ := sections_inj hcounted hcounted'
      (hlines.symm.trans (hlines'.trans (List.append_nil _).symm))
    cases hterminals
    cases hnonterminals
    cases hentries
    rw [hlines, hrest, List.append_nil, Listing.lines, symbolLines, symbolLines, ruleLines,
      (Count.eq_digits_iff ht).2 htplain, (Count.eq_digits_iff hn).2 hnplain,
      (Count.eq_digits_iff hr).2 hrplain, hlength, (Rule.eq_map_line_iff hwords).2 hspaced]
  · intro heq
    have hcount := countable_of_read h
    refine ⟨_, _, _, _, _, _, _, heq, ⟨counted_symbolLines hcount.terminals,
      counted_symbolLines hcount.nonterminals, ?_⟩, ⟨Count.plain_digits _, Count.plain_digits _,
      Count.plain_digits _⟩, ?_⟩
    · rw [counted_cons_iff, List.length_map, read?_trim_digits hcount.rules]
    · intro line hline
      obtain ⟨r, hr, rfl⟩ := List.mem_map.1 hline
      refine Text.spaced_unwords fun w hw => ?_
      obtain ⟨s, hs, rfl⟩ := List.mem_map.1 hw
      exact (readable_of_read h).rules r hr s hs

/-- **A listing that was read is written again** byte for byte exactly if it is canonical. -/
theorem bytes_eq_iff_canonical (h : read bs = .ok g) : bytes g = bs ↔ Canonical bs := by
  have hne : bs ≠ [] := by
    rintro rfl
    cases h
  rw [bytes_eq_iff_lines h, ← plainLines_iff h, Bytes.unlines_lines_iff]
  constructor
  · rintro ⟨hlines, hreturns, hnil | hended⟩
    · exact absurd hnil hne
    · exact ⟨hlines, hreturns, hended⟩
  · rintro ⟨hlines, hreturns, hended⟩
    exact ⟨hlines, hreturns, .inr hended⟩

/-- A listing with a plus sign, a zero in front, more spaces than one, and a line behind the last
    rule. -/
def loose : Bytes := Utf8.encode "+1\nid\n 01\nGoal\nGoal\n1\nGoal  id\n\n".toList

/-- The grammar that is listed there. -/
def looseGrammar : Grammar :=
  ⟨[⟨"id".toList⟩], [⟨"Goal".toList⟩], ⟨"Goal".toList⟩, [⟨⟨"Goal".toList⟩, [⟨"id".toList⟩]⟩]⟩

theorem bytes_eq_iff_canonical_loose :
    read loose = .ok looseGrammar ∧ (bytes looseGrammar = loose ↔ Canonical loose) := by
  have h : read loose = .ok looseGrammar := by decide +kernel
  exact ⟨h, bytes_eq_iff_canonical h⟩

end Listing

end OptGrammar
