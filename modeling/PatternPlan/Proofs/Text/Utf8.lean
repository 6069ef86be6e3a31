import PatternPlan.Text.Glyph

/-!
# Reading bytes loses nothing

A byte string read as glyphs is written back as the same bytes, and the bytes of a string are read
as its characters.

* `Utf8.bytes_first` — the first glyph stands for the bytes it takes;
* `Text.bytes_ofBytes` — **the glyphs of a byte string are its bytes**;
* `Utf8.first_encode` — the bytes of a character are read as that character;
* `Text.ofBytes_toUTF8` — **the bytes of a string are read as its characters**.
-/

namespace PatternPlan

/-! ### One character -/

namespace Utf8

theorem toNat_ofNat {n : Nat} (h : n.isValidChar) : (Char.ofNat n).val.toNat = n := by
  rw [Char.ofNat, dif_pos h]
  rfl

theorem ofNat_toNat_eq {b : UInt8} {n : Nat} (h : n = b.toNat) : UInt8.ofNat n = b := by
  rw [h, UInt8.ofNat_toNat]

/-- A character below U+0080 is one byte. -/
theorem encode_one {b : UInt8} (h : b.toNat < 0x80) :
    String.utf8EncodeChar (Char.ofNat b.toNat) = [b] := by
  have hv : (Char.ofNat b.toNat).val.toNat = b.toNat := toNat_ofNat (.inl (by omega))
  rw [String.utf8EncodeChar]
  simp only [hv]
  rw [if_pos (by omega), UInt8.ofNat_toNat]

/-- The bounds of a continuation byte. -/
theorem isTail_iff {b : UInt8} : isTail b = true ↔ 0x80 ≤ b.toNat ∧ b.toNat ≤ 0xBF := by
  simp [isTail, UInt8.le_iff_toNat_le]

theorem encode_two {b b1 : UInt8} (hb : 0xC2 ≤ b.toNat ∧ b.toNat ≤ 0xDF) (h1 : isTail b1 = true) :
    String.utf8EncodeChar (Char.ofNat (b.toNat % 32 * 64 + payload b1)) = [b, b1] := by
  rw [isTail_iff] at h1
  rw [payload]
  have hv : (Char.ofNat (b.toNat % 32 * 64 + b1.toNat % 64)).val.toNat =
    b.toNat % 32 * 64 + b1.toNat % 64 := toNat_ofNat (.inl (by omega))
  rw [String.utf8EncodeChar]
  simp only [hv]
  rw [if_neg (by omega), if_pos (by omega), ofNat_toNat_eq (b := b) (by omega),
    ofNat_toNat_eq (b := b1) (by omega)]

/-- What the second byte may be: it is a continuation byte, and a first byte that could begin an
overlong form, a surrogate or a number above U+10FFFF leaves it less room. -/
theorem secondAllowed_iff {b b1 : UInt8} :
    secondAllowed b b1 = true ↔ 0x80 ≤ b1.toNat ∧ b1.toNat ≤ 0xBF ∧ (b.toNat = 0xE0 → 0xA0 ≤ b1.toNat) ∧
      (b.toNat = 0xED → b1.toNat ≤ 0x9F) ∧ (b.toNat = 0xF0 → 0x90 ≤ b1.toNat) ∧
      (b.toNat = 0xF4 → b1.toNat ≤ 0x8F) := by
  have heq (c : UInt8) : b = c ↔ b.toNat = c.toNat := UInt8.toNat_inj.symm
  rw [secondAllowed]
  simp only [heq, isTail, UInt8.le_iff_toNat_le, UInt8.reduceToNat]
  split
  · simp; omega
  split
  · simp; omega
  split
  · simp; omega
  split
  · simp; omega
  · simp; omega

theorem encode_three {b b1 b2 : UInt8} (hb : 0xE0 ≤ b.toNat ∧ b.toNat ≤ 0xEF)
    (h1 : secondAllowed b b1 = true) (h2 : isTail b2 = true) :
    String.utf8EncodeChar (Char.ofNat (b.toNat % 16 * 4096 + payload b1 * 64 + payload b2)) =
      [b, b1, b2] := by
  rw [secondAllowed_iff] at h1
  rw [isTail_iff] at h2
  simp only [payload]
  have hvalid : Nat.isValidChar (b.toNat % 16 * 4096 + b1.toNat % 64 * 64 + b2.toNat % 64) := by
    rw [Nat.isValidChar]
    omega
  rw [String.utf8EncodeChar]
  simp only [toNat_ofNat hvalid]
  rw [if_neg (by omega), if_neg (by omega), if_pos (by omega), ofNat_toNat_eq (b := b) (by omega),
    ofNat_toNat_eq (b := b1) (by omega), ofNat_toNat_eq (b := b2) (by omega)]

theorem encode_four {b b1 b2 b3 : UInt8} (hb : 0xF0 ≤ b.toNat ∧ b.toNat ≤ 0xF4)
    (h1 : secondAllowed b b1 = true) (h2 : isTail b2 = true) (h3 : isTail b3 = true) :
    String.utf8EncodeChar (Char.ofNat
      (b.toNat % 8 * 262144 + payload b1 * 4096 + payload b2 * 64 + payload b3)) =
      [b, b1, b2, b3] := by
  rw [secondAllowed_iff] at h1
  rw [isTail_iff] at h2 h3
  simp only [payload]
  have hvalid : Nat.isValidChar
      (b.toNat % 8 * 262144 + b1.toNat % 64 * 4096 + b2.toNat % 64 * 64 + b3.toNat % 64) := by
    rw [Nat.isValidChar]
    omega
  rw [String.utf8EncodeChar]
  simp only [toNat_ofNat hvalid]
  rw [if_neg (by omega), if_neg (by omega), if_neg (by omega), ofNat_toNat_eq (b := b) (by omega),
    ofNat_toNat_eq (b := b1) (by omega), ofNat_toNat_eq (b := b2) (by omega),
    ofNat_toNat_eq (b := b3) (by omega)]

/-- **The first glyph stands for the bytes it takes.** -/
theorem bytes_first (b : UInt8) (rest : List UInt8) :
    (first b rest).1.bytes = b :: rest.take (first b rest).2 := by
  fun_cases first b rest with
  | case1 _ hlt =>
    rw [UInt8.lt_iff_toNat_lt] at hlt
    exact encode_one hlt
  | case2 _ hb b1 rest h1 =>
    rw [Bool.and_eq_true, decide_eq_true_eq, decide_eq_true_eq, UInt8.le_iff_toNat_le,
      UInt8.le_iff_toNat_le] at hb
    exact encode_two hb h1
  | case5 _ _ hb b1 b2 rest htail =>
    rw [Bool.and_eq_true, decide_eq_true_eq, decide_eq_true_eq, UInt8.le_iff_toNat_le,
      UInt8.le_iff_toNat_le] at hb
    rw [Bool.and_eq_true] at htail
    exact encode_three hb htail.1 htail.2
  | case8 _ _ _ hb b1 b2 b3 rest htail =>
    rw [Bool.and_eq_true, decide_eq_true_eq, decide_eq_true_eq, UInt8.le_iff_toNat_le,
      UInt8.le_iff_toNat_le] at hb
    rw [Bool.and_eq_true, Bool.and_eq_true] at htail
    exact encode_four hb htail.1.1 htail.1.2 htail.2
  | case3 | case4 | case6 | case7 | case9 | case10 | case11 => rfl

theorem first_one {b : UInt8} (h : b.toNat < 0x80) (rest : List UInt8) :
    first b rest = (.char (Char.ofNat b.toNat), 0) := by
  rw [first.eq_def, if_pos (UInt8.lt_iff_toNat_lt.mpr h)]

theorem first_two {b b1 : UInt8} (hb : 0xC2 ≤ b.toNat ∧ b.toNat ≤ 0xDF) (h1 : isTail b1 = true)
    (rest : List UInt8) :
    first b (b1 :: rest) = (.char (Char.ofNat (b.toNat % 32 * 64 + payload b1)), 1) := by
  rw [first.eq_def, if_neg (by simp only [UInt8.lt_iff_toNat_lt, UInt8.reduceToNat]; omega), if_pos]
  · simp only [h1, if_true]
  · simpa [UInt8.le_iff_toNat_le] using hb

theorem first_three {b b1 b2 : UInt8} (hb : 0xE0 ≤ b.toNat ∧ b.toNat ≤ 0xEF)
    (h1 : secondAllowed b b1 = true) (h2 : isTail b2 = true) (rest : List UInt8) :
    first b (b1 :: b2 :: rest) =
      (.char (Char.ofNat (b.toNat % 16 * 4096 + payload b1 * 64 + payload b2)), 2) := by
  rw [first.eq_def, if_neg (by simp only [UInt8.lt_iff_toNat_lt, UInt8.reduceToNat]; omega),
    if_neg (by simp [UInt8.le_iff_toNat_le]; omega), if_pos]
  · simp only [h1, h2, Bool.and_true, if_true]
  · simpa [UInt8.le_iff_toNat_le] using hb

theorem first_four {b b1 b2 b3 : UInt8} (hb : 0xF0 ≤ b.toNat ∧ b.toNat ≤ 0xF4)
    (h1 : secondAllowed b b1 = true) (h2 : isTail b2 = true) (h3 : isTail b3 = true)
    (rest : List UInt8) :
    first b (b1 :: b2 :: b3 :: rest) = (.char (Char.ofNat
      (b.toNat % 8 * 262144 + payload b1 * 4096 + payload b2 * 64 + payload b3)), 3) := by
  rw [first.eq_def, if_neg (by simp only [UInt8.lt_iff_toNat_lt, UInt8.reduceToNat]; omega),
    if_neg (by simp [UInt8.le_iff_toNat_le]; omega), if_neg (by simp [UInt8.le_iff_toNat_le]; omega), if_pos]
  · simp only [h1, h2, h3, Bool.and_true, if_true]
  · simpa [UInt8.le_iff_toNat_le] using hb

theorem toNat_byte {n : Nat} (h : n < 256) : (UInt8.ofNat n).toNat = n := by
  rw [UInt8.toNat_ofNat']
  omega

/-- The bytes of a character are read as that character, whatever follows them. -/
theorem first_encode (c : Char) (rest : List UInt8) :
    ∃ b tail, String.utf8EncodeChar c = b :: tail ∧ first b (tail ++ rest) = (.char c, tail.length) := by
  have hchar {n : Nat} (h : n = c.val.toNat) : Char.ofNat n = c := by
    rw [h]
    exact Char.ofNat_toNat c
  have hvalid : c.val.toNat.isValidChar := c.valid
  rw [Nat.isValidChar] at hvalid
  rw [String.utf8EncodeChar]
  generalize c.val.toNat = v at *
  split
  · refine ⟨_, _, rfl, ?_⟩
    have h0 := toNat_byte (n := v) (by omega)
    rw [first_one (by omega), h0, hchar rfl]
    rfl
  split
  · refine ⟨_, _, rfl, ?_⟩
    have h0 := toNat_byte (n := v / 64 % 32 + 192) (by omega)
    have h1 := toNat_byte (n := v % 64 + 128) (by omega)
    rw [List.cons_append, first_two (by omega) (by rw [isTail_iff]; omega), payload, h0, h1,
      hchar (by omega)]
    rfl
  split
  · refine ⟨_, _, rfl, ?_⟩
    have h0 := toNat_byte (n := v / 4096 % 16 + 224) (by omega)
    have h1 := toNat_byte (n := v / 64 % 64 + 128) (by omega)
    have h2 := toNat_byte (n := v % 64 + 128) (by omega)
    rw [List.cons_append, List.cons_append,
      first_three (by omega) (by rw [secondAllowed_iff]; omega) (by rw [isTail_iff]; omega), payload,
      payload, h0, h1, h2, hchar (by omega)]
    rfl
  · refine ⟨_, _, rfl, ?_⟩
    have h0 := toNat_byte (n := v / 262144 % 8 + 240) (by omega)
    have h1 := toNat_byte (n := v / 4096 % 64 + 128) (by omega)
    have h2 := toNat_byte (n := v / 64 % 64 + 128) (by omega)
    have h3 := toNat_byte (n := v % 64 + 128) (by omega)
    rw [List.cons_append, List.cons_append, List.cons_append,
      first_four (by omega) (by rw [secondAllowed_iff]; omega) (by rw [isTail_iff]; omega)
        (by rw [isTail_iff]; omega), payload, payload, payload, h0, h1, h2, h3, hchar (by omega)]
    rfl

end Utf8

/-! ### Whole texts -/

namespace Text

theorem ofBytes_nil : ofBytes [] = [] := by rw [ofBytes]

theorem ofBytes_cons (b : UInt8) (rest : List UInt8) :
    ofBytes (b :: rest) = (Utf8.first b rest).1 :: ofBytes (rest.drop (Utf8.first b rest).2) := by
  rw [ofBytes]

theorem bytes_cons (g : Glyph) (t : Text) : bytes (g :: t) = g.bytes ++ bytes t :=
  List.flatMap_cons

theorem bytes_append (s t : Text) : bytes (s ++ t) = bytes s ++ bytes t :=
  List.flatMap_append

/-- **Reading loses nothing**: the glyphs of a byte string are its bytes. -/
theorem bytes_ofBytes (bs : List UInt8) : (ofBytes bs).bytes = bs := by
  fun_induction ofBytes bs with
  | case1 => rfl
  | case2 b rest g ih =>
    have hfirst : g.1.bytes = b :: rest.take g.2 := Utf8.bytes_first b rest
    rw [bytes_cons, ih, hfirst, List.cons_append, List.take_append_drop]

/-- The width of a text is the number of its bytes. -/
theorem width_eq (t : Text) : width t = t.bytes.length := by
  induction t with
  | nil => rfl
  | cons g t ih =>
    have hg : g.width = g.bytes.length := by
      cases g with
      | char c => exact (String.length_utf8EncodeChar c).symm
      | stray b => rfl
    rw [width_cons, bytes_cons, List.length_append, ih, hg]

/-- The bytes of characters are read as those characters. -/
theorem ofBytes_encode (cs : List Char) :
    ofBytes (cs.flatMap String.utf8EncodeChar) = cs.map .char := by
  induction cs with
  | nil => exact ofBytes_nil
  | cons c cs ih =>
    obtain ⟨b, tail, hencode, hfirst⟩ := Utf8.first_encode c (cs.flatMap String.utf8EncodeChar)
    rw [List.flatMap_cons, hencode, List.cons_append, ofBytes_cons, hfirst, List.drop_left, ih,
      List.map_cons]

theorem toUTF8_toList (s : String) :
    s.toUTF8.data.toList = s.toList.flatMap String.utf8EncodeChar := by
  show s.toByteArray.data.toList = _
  rw [← String.utf8Encode_toList, List.utf8Encode, List.toList_data_toByteArray]

/-- **The bytes of a string are read as its characters.** -/
theorem ofBytes_toUTF8 (s : String) : ofBytes s.toUTF8.data.toList = ofString s := by
  rw [toUTF8_toList, ofBytes_encode]
  rfl

end Text

end PatternPlan
