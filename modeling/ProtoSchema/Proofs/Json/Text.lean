import ProtoSchema.Document.Writer
import ProtoSchema.Proofs.Json.Reader
import ProtoSchema.Proofs.Number.Digits
import ProtoSchema.Proofs.StringLiteral

/-!
# Strings in JSON

A text between quotes is read as that text, whatever glyphs stand next to each other: every
escape says where it ends, and no glyph has the code of a high surrogate.
-/
namespace ProtoSchema.Json

open Lexicon (not_isSurrogate_char)
open Numeral (all_isHexDigit_fixedHex ofDigits_fixedHex)
open Text (fixedHex)

variable {n : ℕ}

/-! ## Escapes -/

theorem hexCode?_fixedHex (h : n < 0x10000) : hexCode? (fixedHex 4 n) = some n := by
  rw [hexCode?, all_isHexDigit_fixedHex, if_pos rfl, ofDigits_fixedHex]
  exact congrArg some (Nat.mod_eq_of_lt h)

/-- An escape by code is read as the code. -/
theorem scanString_unicode (h : n < 0x10000) (cs : List Char) :
    scanString ('\\' :: 'u' :: fixedHex 4 n ++ cs) =
      (scanString cs).map fun s => (n :: s.1, s.2) := by
  obtain ⟨d₁, d₂, d₃, d₄, digits⟩ : ∃ d₁ d₂ d₃ d₄, fixedHex 4 n = [d₁, d₂, d₃, d₄] :=
    ⟨_, _, _, _, rfl⟩
  have code := hexCode?_fixedHex h
  rw [digits] at code ⊢
  simp [scanString, code]

/-- A glyph inside quotes is read as its code. -/
theorem scanString_escaped (g : Glyph) (cs : List Char) :
    scanString (Document.escaped g ++ cs) =
      (scanString cs).map fun s => (g.code :: s.1, s.2) := by
  cases g with
  | stray b =>
    have : b.val.toNat < 0x100 := b.val.toNat_lt
    exact scanString_unicode (by rw [Glyph.code]; omega) cs
  | char c =>
    rw [Document.escaped]
    split
    · next h => subst h; rfl
    split
    · next h => subst h; rfl
    split
    · next h => subst h; rfl
    split
    · next h => subst h; rfl
    split
    · next h => subst h; rfl
    split
    · next h => subst h; rfl
    split
    · next h => subst h; rfl
    split
    · next control => exact scanString_unicode (by omega) cs
    · next quote backslash _ _ _ _ _ visible =>
      rw [List.singleton_append, scanString.eq_def]
      simp [quote, backslash, visible, Glyph.code]

/-- A text up to the closing quote is read as its codes. -/
theorem scanString_text (t : Text) (rest : List Char) :
    scanString (t.flatMap Document.escaped ++ '"' :: rest) =
      some (t.map Glyph.code, rest) := by
  induction t with
  | nil => exact scanString.eq_def ('"' :: rest)
  | cons g t ih =>
    rw [List.flatMap_cons, List.append_assoc, scanString_escaped, ih]
    rfl

/-! ## Codes -/

/-- A character, or a byte that is none, is told by its code. -/
theorem glyph?_code (g : Glyph) : glyph? g.code = some g := by
  cases g with
  | char c =>
    have valid : (Glyph.char c).code.isValidChar := c.valid
    simp only [glyph?, if_pos valid]
    simp [Glyph.code]
  | stray b =>
    have low : 0x80 ≤ b.val.toNat := UInt8.le_iff_toNat_le.mp b.high
    have high : b.val.toNat < 0x100 := b.val.toNat_lt
    have code : (Glyph.stray b).code = 0xDC00 + b.val.toNat := rfl
    have surrogate : ¬(0xDC00 + b.val.toNat).isValidChar := by
      unfold Nat.isValidChar
      omega
    have byte : UInt8.ofNat b.val.toNat = b.val := by simp
    simp [glyph?, code, surrogate, byte, b.high]

/-- Codes without the first half of a pair of surrogates are left alone. -/
theorem joinSurrogates_eq {codes : List ℕ} (h : ∀ n ∈ codes, n < 0xD800 ∨ 0xDC00 ≤ n) :
    joinSurrogates codes = codes := by
  fun_induction joinSurrogates codes with
  | case1 high low codes surrogates =>
    have := h high (by simp)
    omega
  | case2 high low codes _ ih => rw [ih fun n hn => h n (by simp_all)]
  | case3 codes => rfl

/-- No code of a text is the first half of a pair: a byte that is no character has the second
half. -/
theorem code_not_high (g : Glyph) : g.code < 0xD800 ∨ 0xDC00 ≤ g.code := by
  cases g with
  | char c =>
    have := not_isSurrogate_char c
    unfold Lexicon.IsSurrogate at this
    omega
  | stray b => exact .inr (Nat.le_add_right _ _)

/-- The text of the codes of a text. -/
theorem text?_codes (t : Text) : text? (t.map Glyph.code) = some t := by
  have codes : ∀ n ∈ t.map Glyph.code, n < 0xD800 ∨ 0xDC00 ≤ n := by
    simpa using fun g _ => code_not_high g
  rw [text?, joinSurrogates_eq codes, List.mapM_map]
  simpa [Function.comp_def, glyph?_code] using List.mapM_pure (m := Option) (f := id)

end ProtoSchema.Json
