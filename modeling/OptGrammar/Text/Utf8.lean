/-
  Grammars with optional symbols — texts as bytes.

  * `encode`: the UTF-8 bytes of a text.
  * `decode`: the text of UTF-8 bytes, none for any other bytes.

  `decode` reads a form of one to four bytes, as its first byte announces, takes the
  number that the form spells and accepts the form only as the encoding of that very
  character.  Overlong forms, surrogates and numbers beyond the last character all
  fail this one test.

  Main statements: `decode_eq_some_iff`, bytes decode to a text exactly when they are
  its encoding; `mem_encode_iff`, an ASCII byte stands only for its own character.
-/
import OptGrammar.Text.Blank

namespace OptGrammar

/-- Raw bytes, as a file holds them. -/
abbrev Bytes := List UInt8

namespace Utf8

/-- The UTF-8 bytes of a text. -/
def encode (t : Text) : Bytes := t.flatMap String.utf8EncodeChar

@[simp]
theorem encode_nil : encode [] = [] := rfl

@[simp]
theorem encode_cons (c : Char) (t : Text) :
    encode (c :: t) = String.utf8EncodeChar c ++ encode t := by
  simp [encode]

@[simp]
theorem encode_append (t u : Text) : encode (t ++ u) = encode t ++ encode u := by
  simp [encode]

theorem encode_unlines_cons (t : Text) (ts : List Text) :
    encode (Text.unlines (t :: ts)) = encode t ++ 0x0A :: encode (Text.unlines ts) := by
  rw [Text.unlines_cons, encode_append, encode_cons]
  rfl

/-! ## Decoding -/

/-- The character with number `n`, if `form` is its encoding. -/
def spelled (n : Nat) (form : Bytes) : Option Char :=
  if String.utf8EncodeChar (Char.ofNat n) = form then some (Char.ofNat n) else none

/-- The payload of the byte `b` when its `k` low values count. -/
def payload (b : UInt8) (k : Nat) : Nat := b.toNat % k

/-- The text of bytes that follow the text `done`, given backwards. -/
def decodeOnto (done : Text) : Bytes → Option Text
  | [] => some done.reverse
  | a :: rest =>
    if a < 0x80 then
      (spelled a.toNat [a]).bind fun ch => decodeOnto (ch :: done) rest
    else match rest with
    | [] => none
    | b :: rest =>
      if a < 0xE0 then
        (spelled (payload a 32 * 64 + payload b 64) [a, b]).bind fun ch =>
          decodeOnto (ch :: done) rest
      else match rest with
      | [] => none
      | c :: rest =>
        if a < 0xF0 then
          (spelled ((payload a 16 * 64 + payload b 64) * 64 + payload c 64) [a, b, c]).bind
            fun ch => decodeOnto (ch :: done) rest
        else match rest with
        | [] => none
        | d :: rest =>
          (spelled (((payload a 8 * 64 + payload b 64) * 64 + payload c 64) * 64 + payload d 64)
            [a, b, c, d]).bind fun ch => decodeOnto (ch :: done) rest

/-- The text of UTF-8 bytes, none if the bytes are not UTF-8. -/
def decode (bs : Bytes) : Option Text := decodeOnto [] bs

/-! ## Decoding undoes encoding -/

section

variable {done : Text} {a b c d : UInt8} {rest : Bytes}

theorem spelled_eq_some {n : Nat} {form : Bytes} {c : Char} (h : spelled n form = some c) :
    form = String.utf8EncodeChar c := by
  simp only [spelled] at h
  split at h
  · rename_i hf
    cases h
    exact hf.symm
  · cases h

theorem spelled_encode (c : Char) : spelled c.toNat (String.utf8EncodeChar c) = some c := by
  simp [spelled, Char.ofNat_toNat]

theorem decodeOnto_one (h : a < 0x80) : decodeOnto done (a :: rest) =
    (spelled a.toNat [a]).bind fun ch => decodeOnto (ch :: done) rest := by
  rw [decodeOnto.eq_def]; simp only [if_pos h]

theorem decodeOnto_two (h : ¬ a < 0x80) (h2 : a < 0xE0) : decodeOnto done (a :: b :: rest) =
    (spelled (payload a 32 * 64 + payload b 64) [a, b]).bind fun ch =>
      decodeOnto (ch :: done) rest := by
  rw [decodeOnto.eq_def]; simp only [if_neg h, if_pos h2]

theorem decodeOnto_three (h : ¬ a < 0x80) (h2 : ¬ a < 0xE0) (h3 : a < 0xF0) :
    decodeOnto done (a :: b :: c :: rest) =
    (spelled ((payload a 16 * 64 + payload b 64) * 64 + payload c 64) [a, b, c]).bind fun ch =>
      decodeOnto (ch :: done) rest := by
  rw [decodeOnto.eq_def]; simp only [if_neg h, if_neg h2, if_pos h3]

theorem decodeOnto_four (h : ¬ a < 0x80) (h2 : ¬ a < 0xE0) (h3 : ¬ a < 0xF0) :
    decodeOnto done (a :: b :: c :: d :: rest) =
    (spelled (((payload a 8 * 64 + payload b 64) * 64 + payload c 64) * 64 + payload d 64)
      [a, b, c, d]).bind fun ch => decodeOnto (ch :: done) rest := by
  rw [decodeOnto.eq_def]; simp only [if_neg h, if_neg h2, if_neg h3]

private theorem ofNat_lt_iff {v : Nat} {k : UInt8} (hv : v < 256) :
    UInt8.ofNat v < k ↔ v < k.toNat := by
  simp [UInt8.lt_iff_toNat_lt, Nat.mod_eq_of_lt hv]

/-- The encoding of a character in front is read as that character. -/
theorem decodeOnto_utf8EncodeChar_append (c : Char) (done : Text) (bs : Bytes) :
    decodeOnto done (String.utf8EncodeChar c ++ bs) = decodeOnto (c :: done) bs := by
  have hs := spelled_encode c
  have hv : c.toNat < 0x110000 := by
    have := c.valid
    simp only [UInt32.isValidChar, Nat.isValidChar] at this
    show c.val.toNat < _
    omega
  simp only [String.utf8EncodeChar, Char.toNat] at hs hv ⊢
  generalize c.val.toNat = v at hs hv ⊢
  split
  · rename_i h1
    rw [if_pos h1] at hs
    have hlt : UInt8.ofNat v < 0x80 := (ofNat_lt_iff (by omega)).2 (by simp; omega)
    rw [List.singleton_append, decodeOnto_one hlt]
    have hv2 : (UInt8.ofNat v).toNat = v := by simp; omega
    rw [hv2, hs]; rfl
  · rename_i h1
    rw [if_neg h1] at hs
    split
    · rename_i h2
      rw [if_pos h2] at hs
      have h0 : ¬ UInt8.ofNat (v / 64 % 32 + 192) < 0x80 := by rw [ofNat_lt_iff (by omega)]; simp
      have h0' : UInt8.ofNat (v / 64 % 32 + 192) < 0xE0 := by
        rw [ofNat_lt_iff (by omega)]; simp; omega
      rw [List.cons_append, List.singleton_append, decodeOnto_two h0 h0']
      have hn : payload (UInt8.ofNat (v / 64 % 32 + 192)) 32 * 64 +
          payload (UInt8.ofNat (v % 64 + 128)) 64 = v := by
        simp [payload]; omega
      rw [hn, hs]; rfl
    · rename_i h2
      rw [if_neg h2] at hs
      split
      · rename_i h3
        rw [if_pos h3] at hs
        have h0 : ¬ UInt8.ofNat (v / 4096 % 16 + 224) < 0x80 := by
          rw [ofNat_lt_iff (by omega)]; simp
        have h0' : ¬ UInt8.ofNat (v / 4096 % 16 + 224) < 0xE0 := by
          rw [ofNat_lt_iff (by omega)]; simp
        have h0'' : UInt8.ofNat (v / 4096 % 16 + 224) < 0xF0 := by
          rw [ofNat_lt_iff (by omega)]; simp; omega
        simp only [List.cons_append, List.nil_append]
        rw [decodeOnto_three h0 h0' h0'']
        have hn : (payload (UInt8.ofNat (v / 4096 % 16 + 224)) 16 * 64 +
            payload (UInt8.ofNat (v / 64 % 64 + 128)) 64) * 64 +
            payload (UInt8.ofNat (v % 64 + 128)) 64 = v := by
          simp [payload]; omega
        rw [hn, hs]; rfl
      · rename_i h3
        rw [if_neg h3] at hs
        have h0 : ¬ UInt8.ofNat (v / 262144 % 8 + 240) < 0x80 := by
          rw [ofNat_lt_iff (by omega)]; simp
        have h0' : ¬ UInt8.ofNat (v / 262144 % 8 + 240) < 0xE0 := by
          rw [ofNat_lt_iff (by omega)]; simp
        have h0'' : ¬ UInt8.ofNat (v / 262144 % 8 + 240) < 0xF0 := by
          rw [ofNat_lt_iff (by omega)]; simp
        simp only [List.cons_append, List.nil_append]
        rw [decodeOnto_four h0 h0' h0'']
        have hn : ((payload (UInt8.ofNat (v / 262144 % 8 + 240)) 8 * 64 +
            payload (UInt8.ofNat (v / 4096 % 64 + 128)) 64) * 64 +
            payload (UInt8.ofNat (v / 64 % 64 + 128)) 64) * 64 +
            payload (UInt8.ofNat (v % 64 + 128)) 64 = v := by
          simp [payload]; omega
        rw [hn, hs]; rfl

/-- The encoding of a text in front is read as that text. -/
theorem decodeOnto_encode_append (t done : Text) (bs : Bytes) :
    decodeOnto done (encode t ++ bs) = decodeOnto (t.reverse ++ done) bs := by
  induction t generalizing done with
  | nil => rfl
  | cons c t ih =>
    rw [encode_cons, List.append_assoc, decodeOnto_utf8EncodeChar_append, ih]
    simp

/-- Whatever is decoded spells the bytes read. -/
theorem eq_encode_of_decodeOnto {t : Text} {bs : Bytes} (h : decodeOnto done bs = some t) :
    ∃ u, t = done.reverse ++ u ∧ bs = encode u := by
  have extend {form : Bytes} {n : Nat} {bs : Bytes} {done : Text}
      (ih : ∀ ch, decodeOnto (ch :: done) bs = some t →
        ∃ u, t = (ch :: done).reverse ++ u ∧ bs = encode u)
      (h : ((spelled n form).bind fun ch => decodeOnto (ch :: done) bs) = some t) :
      ∃ u, t = done.reverse ++ u ∧ form ++ bs = encode u := by
    obtain ⟨ch, hch, h⟩ := Option.bind_eq_some_iff.1 h
    obtain ⟨u, rfl, rfl⟩ := ih ch h
    exact ⟨ch :: u, by simp, by simp [spelled_eq_some hch]⟩
  fun_induction decodeOnto done bs with
  | case1 done => exact ⟨[], by simpa using h.symm, rfl⟩
  | case2 done a rest h0 ih => exact extend ih h
  | case3 | case5 | case7 => cases h
  | case4 done a h0 b rest h1 ih => exact extend ih h
  | case6 done a h0 b h1 c rest h2 ih => exact extend ih h
  | case8 done a h0 b h1 c h2 d rest ih => exact extend ih h

/-- Decoding gives back the text encoded. -/
@[simp]
theorem decode_encode (t : Text) : decode (encode t) = some t := by
  have h := decodeOnto_encode_append t [] []
  simpa [decode, decodeOnto] using h

/-- **Bytes decode to a text exactly when they are its encoding.** -/
theorem decode_eq_some_iff {bs : Bytes} {t : Text} : decode bs = some t ↔ bs = encode t := by
  constructor
  · intro h
    obtain ⟨u, rfl, rfl⟩ := eq_encode_of_decodeOnto h
    rfl
  · rintro rfl
    exact decode_encode t

theorem encode_injective {t u : Text} (h : encode t = encode u) : t = u := by
  have := decode_encode t
  rw [h, decode_encode] at this
  exact (Option.some.inj this).symm

/-- The first bytes of a text that are a text are its first characters. -/
theorem prefix_of_encode {t u : Text} (h : encode t <+: encode u) : t <+: u := by
  obtain ⟨more, h⟩ := h
  have hdecode : decodeOnto t.reverse more = some u := by
    have := decodeOnto_encode_append t [] more
    rw [h, List.append_nil] at this
    rw [← this]
    exact decode_encode u
  obtain ⟨v, rfl, -⟩ := eq_encode_of_decodeOnto hdecode
  rw [List.reverse_reverse]
  exact List.prefix_append t v

end

/-! ## ASCII bytes -/

/-- An ASCII byte is all of the encoding that it stands in. -/
theorem utf8EncodeChar_of_mem {c : Char} {b : UInt8} (hb : b < 0x80)
    (h : b ∈ String.utf8EncodeChar c) : String.utf8EncodeChar c = [b] ∧ c.toNat = b.toNat := by
  have hb : b.toNat < 128 := by simpa [UInt8.lt_iff_toNat_lt] using hb
  have high {v : Nat} (hv : 128 ≤ v) (hv' : v < 256) : b ≠ UInt8.ofNat v := by
    rintro rfl
    rw [UInt8.toNat_ofNat'] at hb
    omega
  simp only [String.utf8EncodeChar, Char.toNat] at h ⊢
  generalize c.val.toNat = v at h ⊢
  split at h
  · rename_i h1
    rw [List.mem_singleton] at h
    subst h
    simp only [h1, if_true, true_and]
    rw [UInt8.toNat_ofNat']
    omega
  · exfalso
    split at h
    · simp only [List.mem_cons, List.not_mem_nil, or_false] at h
      rcases h with h | h
      · exact high (by omega) (by omega) h
      · exact high (by omega) (by omega) h
    · split at h
      · simp only [List.mem_cons, List.not_mem_nil, or_false] at h
        rcases h with h | h | h
        · exact high (by omega) (by omega) h
        · exact high (by omega) (by omega) h
        · exact high (by omega) (by omega) h
      · simp only [List.mem_cons, List.not_mem_nil, or_false] at h
        rcases h with h | h | h | h
        · exact high (by omega) (by omega) h
        · exact high (by omega) (by omega) h
        · exact high (by omega) (by omega) h
        · exact high (by omega) (by omega) h

/-- An ASCII byte stands in an encoding only for its own character. -/
theorem mem_encode_iff {c : Char} (hc : c.toNat < 128) {t : Text} :
    UInt8.ofNat c.toNat ∈ encode t ↔ c ∈ t := by
  have hlt : UInt8.ofNat c.toNat < 0x80 := by
    rw [UInt8.lt_iff_toNat_lt, UInt8.toNat_ofNat']
    simp
    omega
  simp only [encode, List.mem_flatMap]
  constructor
  · rintro ⟨d, hd, h⟩
    have := (utf8EncodeChar_of_mem hlt h).2
    rw [UInt8.toNat_ofNat', Nat.mod_eq_of_lt (by omega)] at this
    rwa [← Char.toNat_inj.1 this]
  · intro h
    refine ⟨c, h, ?_⟩
    simp only [String.utf8EncodeChar]
    rw [if_pos (by show c.toNat ≤ 127; omega)]
    exact List.mem_singleton.2 rfl

theorem newline_mem_encode_iff {t : Text} : 0x0A ∈ encode t ↔ '\n' ∈ t :=
  mem_encode_iff (c := '\n') (by decide)

end Utf8

end OptGrammar
