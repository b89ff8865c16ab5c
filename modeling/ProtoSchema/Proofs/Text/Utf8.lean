import Mathlib.Data.List.Basic
import ProtoSchema.Text.Utf8

/-!
# Bytes and the texts that stand for them

Every sequence of bytes is decoded to a text that stands for just these bytes, and the bytes
of characters are decoded to those characters. Both rest on one fact: a sequence of several
bytes is read as a character exactly where the bytes of that character stand.
-/
namespace ProtoSchema.Utf8

variable {b low high : UInt8} {rest bytes : List UInt8} {c : Char} {bits n value : ℕ}

/-! ## Leading bytes -/

theorem lead?_two (h₁ : 0xC2 ≤ b.toNat) (h₂ : b.toNat < 0xE0) :
    lead? b = some ⟨1, 0x80, 0xBF, b.toNat - 0xC0⟩ := by
  have not_low : ¬b < 0xC2 := by
    rw [UInt8.lt_iff_toNat_lt]
    exact Nat.not_lt.mpr h₁
  have below : b < 0xE0 := by
    rw [UInt8.lt_iff_toNat_lt]
    exact h₂
  rw [lead?, if_neg not_low, if_pos below]

/-- No overlong form starts with `E0`, and no surrogate with `ED`. -/
theorem lead?_three (h₁ : 0xE0 ≤ b.toNat) (h₂ : b.toNat < 0xF0) :
    ∃ low high, lead? b = some ⟨2, low, high, b.toNat - 0xE0⟩ ∧
      low.toNat = (if b.toNat = 0xE0 then 0xA0 else 0x80) ∧
      high.toNat = (if b.toNat = 0xED then 0x9F else 0xBF) := by
  simp only [lead?, UInt8.lt_iff_toNat_lt, ← UInt8.toNat_inj, UInt8.reduceToNat]
  rw [if_neg (by omega), if_neg (by omega)]
  by_cases hE0 : b.toNat = 0xE0
  · exact ⟨0xA0, 0xBF, by rw [if_pos hE0, hE0], by rw [if_pos hE0]; rfl, by rw [hE0]; rfl⟩
  by_cases hED : b.toNat = 0xED
  · exact ⟨0x80, 0x9F, by
      rw [if_neg hE0, if_pos hED, hED], by rw [hED]; rfl, by rw [if_pos hED]; rfl⟩
  · exact ⟨0x80, 0xBF, by rw [if_neg hE0, if_neg hED, if_pos h₂], by rw [if_neg hE0]; rfl,
      by rw [if_neg hED]; rfl⟩

/-- No overlong form starts with `F0`, and nothing above the last code point with `F4`. -/
theorem lead?_four (h₁ : 0xF0 ≤ b.toNat) (h₂ : b.toNat ≤ 0xF4) :
    ∃ low high, lead? b = some ⟨3, low, high, b.toNat - 0xF0⟩ ∧
      low.toNat = (if b.toNat = 0xF0 then 0x90 else 0x80) ∧
      high.toNat = (if b.toNat = 0xF4 then 0x8F else 0xBF) := by
  simp only [lead?, UInt8.lt_iff_toNat_lt, ← UInt8.toNat_inj, UInt8.reduceToNat]
  rw [if_neg (by omega), if_neg (by omega), if_neg (by omega), if_neg (by omega),
    if_neg (by omega)]
  by_cases hF0 : b.toNat = 0xF0
  · exact ⟨0x90, 0xBF, by rw [if_pos hF0, hF0], by rw [if_pos hF0]; rfl, by rw [hF0]; rfl⟩
  by_cases hF4 : b.toNat = 0xF4
  · exact ⟨0x80, 0x8F, by rw [hF4]; rfl, by rw [hF4]; rfl, by rw [if_pos hF4]; rfl⟩
  · exact ⟨0x80, 0xBF, by rw [if_neg hF0, if_pos (by omega)], by rw [if_neg hF0]; rfl,
      by rw [if_neg hF4]; rfl⟩

theorem lead?_range {l : Lead} (h : lead? b = some l) : 0xC2 ≤ b.toNat ∧ b.toNat ≤ 0xF4 := by
  simp only [lead?, UInt8.lt_iff_toNat_lt, ← UInt8.toNat_inj, UInt8.reduceToNat] at h
  grind

/-! ## Sequences -/

/-- The forms of several bytes and the code points they are for. -/
inductive Form : List UInt8 → ℕ → Prop where
  | two {b x : UInt8} : 0xC2 ≤ b.toNat → b.toNat < 0xE0 → 0x80 ≤ x.toNat → x.toNat ≤ 0xBF →
    Form [b, x] ((b.toNat - 0xC0) * 64 + (x.toNat - 0x80))
  | three {b x y : UInt8} : 0xE0 ≤ b.toNat → b.toNat < 0xF0 →
    (if b.toNat = 0xE0 then 0xA0 else 0x80) ≤ x.toNat →
    x.toNat ≤ (if b.toNat = 0xED then 0x9F else 0xBF) → 0x80 ≤ y.toNat → y.toNat ≤ 0xBF →
    Form [b, x, y] (((b.toNat - 0xE0) * 64 + (x.toNat - 0x80)) * 64 + (y.toNat - 0x80))
  | four {b x y z : UInt8} : 0xF0 ≤ b.toNat → b.toNat ≤ 0xF4 →
    (if b.toNat = 0xF0 then 0x90 else 0x80) ≤ x.toNat →
    x.toNat ≤ (if b.toNat = 0xF4 then 0x8F else 0xBF) → 0x80 ≤ y.toNat → y.toNat ≤ 0xBF →
    0x80 ≤ z.toNat → z.toNat ≤ 0xBF →
    Form [b, x, y, z]
      ((((b.toNat - 0xF0) * 64 + (x.toNat - 0x80)) * 64 + (y.toNat - 0x80)) * 64 +
      (z.toNat - 0x80))

/-- A form is for the number of a character. -/
theorem Form.isValidChar (h : Form bytes value) : value.isValidChar := by
  unfold Nat.isValidChar
  cases h <;> grind

theorem Form.lead_high (h : Form (b :: bytes) value) : 0x80 ≤ b.toNat := by
  cases h <;> omega

/-- A code point has one form. -/
theorem Form.unique {bytes' : List UInt8} (h : Form bytes value) (h' : Form bytes' value) :
    bytes = bytes' := by
  generalize hv : value = value' at h'
  cases h <;> cases h' <;> simp only [List.cons.injEq, and_true, ← UInt8.toNat_inj] <;> grind

/-- Characters above the ASCII range are encoded in their form. -/
theorem form_encodeChar (c : Char) (h : 0x80 ≤ c.val.toNat) :
    Form (encodeChar c) c.val.toNat := by
  have valid : c.val.toNat < 0xD800 ∨ 0xDFFF < c.val.toNat ∧ c.val.toNat < 0x110000 := c.valid
  generalize hv : c.val.toNat = v at h valid
  simp only [encodeChar, String.utf8EncodeChar, hv, if_neg (show ¬v ≤ 0x7F by omega)]
  have byte {m : ℕ} (hm : m < 256) : (UInt8.ofNat m).toNat = m := by
    rw [UInt8.toNat_ofNat']
    omega
  split
  · have form := @Form.two (UInt8.ofNat (v / 64 % 32 + 192)) (UInt8.ofNat (v % 64 + 128))
    rw [byte (by omega), byte (by omega)] at form
    convert form _ _ _ _ using 1 <;> omega
  split
  · have form :=
      @Form.three (UInt8.ofNat (v / 4096 % 16 + 224)) (UInt8.ofNat (v / 64 % 64 + 128))
      (UInt8.ofNat (v % 64 + 128))
    rw [byte (by omega), byte (by omega), byte (by omega)] at form
    convert form _ _ _ _ _ _ using 1 <;> first | omega | split <;> omega
  · have form :=
      @Form.four (UInt8.ofNat (v / 262144 % 8 + 240)) (UInt8.ofNat (v / 4096 % 64 + 128))
      (UInt8.ofNat (v / 64 % 64 + 128)) (UInt8.ofNat (v % 64 + 128))
    rw [byte (by omega), byte (by omega), byte (by omega), byte (by omega)] at form
    convert form _ _ _ _ _ _ _ _ using 1 <;> first | omega | split <;> omega

theorem tail_zero : tail low high bits 0 rest = .ok value ↔ bits = value := by
  simp [tail]

theorem tail_succ : tail low high bits (n + 1) rest = .ok value ↔
    ∃ x rest', rest = x :: rest' ∧ (low.toNat ≤ x.toNat ∧ x.toNat ≤ high.toNat) ∧
      tail 0x80 0xBF (bits * 64 + (x.toNat - 0x80)) n rest' = .ok value := by
  cases rest with
  | nil => simp [tail]
  | cons x rest =>
    simp only [tail, UInt8.le_iff_toNat_le, List.cons.injEq]
    split
    · next h =>
      cases ht : tail 0x80 0xBF (bits * 64 + (x.toNat - 0x80)) n rest <;> simp_all
    · next h => simpa using fun h₁ h₂ => absurd ⟨h₁, h₂⟩ h

/-- A sequence of bytes is a character if its first byte announces it and the tails are in
range. -/
theorem sequence_eq_ok_iff : sequence b rest = .ok (c, n) ↔
    ∃ l, lead? b = some l ∧ l.tails = n ∧
    ∃ value, tail l.low l.high l.bits l.tails rest = .ok value ∧ Char.ofNat value = c := by
  unfold sequence
  cases lead? b with
  | none => simp
  | some l =>
    cases h : tail l.low l.high l.bits l.tails rest <;> simp [Except.map, h, and_comm]

/-- A form is read as the character it is for, whatever follows it. -/
theorem Form.sequence (h : Form (b :: bytes) value) :
    sequence b (bytes ++ rest) = .ok (Char.ofNat value, bytes.length) := by
  rw [sequence_eq_ok_iff]
  cases h with
  | @two _ x h₁ h₂ hx hx' =>
    refine ⟨_, lead?_two h₁ h₂, rfl, _, ?_, rfl⟩
    exact tail_succ.mpr ⟨x, rest, rfl, ⟨hx, hx'⟩, tail_zero.mpr rfl⟩
  | @three _ x y h₁ h₂ hx hx' hy hy' =>
    obtain ⟨low, high, hl, hlow, hhigh⟩ := lead?_three h₁ h₂
    refine ⟨_, hl, rfl, _, ?_, rfl⟩
    refine tail_succ.mpr ⟨x, y :: rest, rfl, ⟨hlow ▸ hx, hhigh ▸ hx'⟩, ?_⟩
    exact tail_succ.mpr ⟨y, rest, rfl, ⟨hy, hy'⟩, tail_zero.mpr rfl⟩
  | @four _ x y z h₁ h₂ hx hx' hy hy' hz hz' =>
    obtain ⟨low, high, hl, hlow, hhigh⟩ := lead?_four h₁ h₂
    refine ⟨_, hl, rfl, _, ?_, rfl⟩
    refine tail_succ.mpr ⟨x, y :: z :: rest, rfl, ⟨hlow ▸ hx, hhigh ▸ hx'⟩, ?_⟩
    refine tail_succ.mpr ⟨y, z :: rest, rfl, ⟨hy, hy'⟩, ?_⟩
    exact tail_succ.mpr ⟨z, rest, rfl, ⟨hz, hz'⟩, tail_zero.mpr rfl⟩

/-- What is read as a character is a form. -/
theorem exists_form (h : Utf8.sequence b rest = .ok (c, n)) : ∃ bytes rest' value,
    rest = bytes ++ rest' ∧ bytes.length = n ∧ Form (b :: bytes) value ∧
    Char.ofNat value = c := by
  obtain ⟨l, hl, rfl, value, ht, hc⟩ := sequence_eq_ok_iff.mp h
  obtain ⟨hfirst, hlast⟩ := lead?_range hl
  by_cases h₁ : b.toNat < 0xE0
  · obtain rfl := Option.some.inj (hl.symm.trans (lead?_two hfirst h₁))
    obtain ⟨x, rest, rfl, ⟨hx, hx'⟩, ht⟩ := tail_succ.mp ht
    obtain rfl := tail_zero.mp ht
    exact ⟨[x], rest, _, rfl, rfl, .two hfirst h₁ hx hx', hc⟩
  by_cases h₂ : b.toNat < 0xF0
  · obtain ⟨low, high, hl', hlow, hhigh⟩ := lead?_three (Nat.le_of_not_lt h₁) h₂
    obtain rfl := Option.some.inj (hl.symm.trans hl')
    obtain ⟨x, rest, rfl, ⟨hx, hx'⟩, ht⟩ := tail_succ.mp ht
    obtain ⟨y, rest, rfl, ⟨hy, hy'⟩, ht⟩ := tail_succ.mp ht
    obtain rfl := tail_zero.mp ht
    have form := Form.three (Nat.le_of_not_lt h₁) h₂ (hlow ▸ hx) (hhigh ▸ hx') hy hy'
    exact ⟨[x, y], rest, _, rfl, rfl, form, hc⟩
  · obtain ⟨low, high, hl', hlow, hhigh⟩ := lead?_four (Nat.le_of_not_lt h₂) hlast
    obtain rfl := Option.some.inj (hl.symm.trans hl')
    obtain ⟨x, rest, rfl, ⟨hx, hx'⟩, ht⟩ := tail_succ.mp ht
    obtain ⟨y, rest, rfl, ⟨hy, hy'⟩, ht⟩ := tail_succ.mp ht
    obtain ⟨z, rest, rfl, ⟨hz, hz'⟩, ht⟩ := tail_succ.mp ht
    obtain rfl := tail_zero.mp ht
    have form := Form.four (Nat.le_of_not_lt h₂) hlast (hlow ▸ hx) (hhigh ▸ hx') hy hy' hz hz'
    exact ⟨[x, y, z], rest, _, rfl, rfl, form, hc⟩

theorem toNat_ofNat (h : value.isValidChar) : (Char.ofNat value).val.toNat = value := by
  rw [Char.ofNat, dif_pos h]
  rfl

/-- The bytes of a form are those of its character. -/
theorem Form.encodeChar_eq (h : Form bytes value) :
    encodeChar (Char.ofNat value) = bytes := by
  have number := toNat_ofNat h.isValidChar
  have high : 0x80 ≤ value := by cases h <;> grind
  have form := form_encodeChar (Char.ofNat value) (by rw [number]; exact high)
  rw [number] at form
  exact form.unique h

theorem encodeChar_ascii (h : c.val.toNat < 0x80) :
    encodeChar c = [UInt8.ofNat c.val.toNat] := by
  have low : c.val.toNat ≤ 0x7F := by omega
  simp only [encodeChar, String.utf8EncodeChar, if_pos low]

/-! ## Round trips -/

/-- No byte is lost in decoding. -/
theorem encode_decode (bytes : List UInt8) : encode (decode bytes) = bytes := by
  fun_induction decode bytes with
  | case1 => rfl
  | case2 b rest hb c n hs ih =>
    obtain ⟨bytes, rest', value, rfl, rfl, form, rfl⟩ := exists_form hs
    rw [List.drop_left] at ih ⊢
    rw [encode, form.encodeChar_eq, ih, List.cons_append]
  | case3 b rest hb e hs ih => rw [encode, ih]
  | case4 b rest hb ih =>
    have low : b.toNat < 0x80 := by simpa [UInt8.le_iff_toNat_le] using hb
    have number : (Char.ofNat b.toNat).val.toNat = b.toNat := toNat_ofNat (.inl (by omega))
    rw [encode, encodeChar_ascii (by rw [number]; exact low), number, UInt8.ofNat_toNat, ih,
      List.singleton_append]

/-- A character is one byte that stands for itself, or a sequence that is read as the
character. -/
theorem encodeChar_cases (c : Char) : ∃ b bytes, encodeChar c = b :: bytes ∧
    (bytes = [] ∧ ¬0x80 ≤ b ∧ Char.ofNat b.toNat = c ∨
      0x80 ≤ b ∧ ∀ rest, sequence b (bytes ++ rest) = .ok (c, bytes.length)) := by
  by_cases hc : c.val.toNat < 0x80
  · have number : (UInt8.ofNat c.val.toNat).toNat = c.val.toNat := by
      rw [UInt8.toNat_ofNat']
      omega
    refine ⟨_, [], encodeChar_ascii hc, .inl ⟨rfl, ?_, ?_⟩⟩
    · rw [UInt8.le_iff_toNat_le, number]
      exact Nat.not_le.mpr hc
    · rw [number, show c.val.toNat = c.toNat from rfl, Char.ofNat_toNat]
  · have form := form_encodeChar c (Nat.le_of_not_lt hc)
    obtain ⟨b, bytes, hbytes⟩ :=
      List.exists_cons_of_ne_nil (String.utf8EncodeChar_ne_nil (c := c))
    replace hbytes : encodeChar c = b :: bytes := hbytes
    rw [hbytes] at form
    refine ⟨b, bytes, hbytes, .inr ⟨UInt8.le_iff_toNat_le.mpr form.lead_high, fun rest => ?_⟩⟩
    rw [form.sequence, show c.val.toNat = c.toNat from rfl, Char.ofNat_toNat]

/-- The bytes of a character are read as that character. -/
theorem decode_encodeChar (c : Char) (rest : List UInt8) :
    decode (encodeChar c ++ rest) = .char c :: decode rest := by
  obtain ⟨b, bytes, hbytes, ⟨rfl, low, number⟩ | ⟨high, hsequence⟩⟩ := encodeChar_cases c
  · rw [hbytes, List.singleton_append, decode, dif_neg low, number]
  · rw [hbytes, List.cons_append, decode, dif_pos high]
    simp only [hsequence, List.drop_left]

/-- What is UTF-8 is read as its characters. -/
theorem decode_flatMap (cs : List Char) : decode (cs.flatMap encodeChar) =
      Text.ofChars cs := by
  induction cs with
  | nil => simp [decode, Text.ofChars]
  | cons c cs ih =>
    rw [List.flatMap_cons, decode_encodeChar, ih]
    rfl

/-- The bytes of a character are decoded as that character, whatever follows. -/
theorem decodeFrom_encodeChar (offset : ℕ) (c : Char) (rest : List UInt8) :
    decodeFrom offset (encodeChar c ++ rest) =
      (decodeFrom (offset + (encodeChar c).length) rest).map (c :: ·) := by
  obtain ⟨b, bytes, hbytes, ⟨rfl, low, number⟩ | ⟨high, hsequence⟩⟩ := encodeChar_cases c
  · rw [hbytes, List.singleton_append, decodeFrom, if_neg low, number]
    rfl
  · rw [hbytes, List.cons_append, decodeFrom, if_pos high]
    simp only [hsequence, List.drop_left, List.length_cons]
    rw [Nat.add_assoc, Nat.add_comm 1]

/-- What is UTF-8 throughout is not refused. -/
theorem decodeStrict_flatMap (cs : List Char) :
    decodeStrict (cs.flatMap encodeChar) = .ok cs := by
  suffices h : ∀ offset, decodeFrom offset (cs.flatMap encodeChar) = .ok cs from h 0
  induction cs with
  | nil => exact fun offset => by rw [List.flatMap_nil, decodeFrom]
  | cons c cs ih =>
    intro offset
    rw [List.flatMap_cons, decodeFrom_encodeChar, ih]
    rfl

theorem encode_ofChars (cs : List Char) :
    encode (Text.ofChars cs) = cs.flatMap encodeChar := by
  induction cs with
  | nil => rfl
  | cons c cs ih =>
    rw [List.flatMap_cons, ← ih]
    rfl

/-- Characters are not confused in their bytes. -/
theorem encode_ofChars_inj {cs cs' : List Char}
    (h : encode (Text.ofChars cs) = encode (Text.ofChars cs')) : cs = cs' := by
  have texts := congrArg decode h
  rw [encode_ofChars, encode_ofChars, decode_flatMap, decode_flatMap] at texts
  exact List.map_injective_iff.mpr (fun _ _ => Glyph.char.inj) texts

end ProtoSchema.Utf8
