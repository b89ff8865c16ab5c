import ProtoSchema.Proofs.Json.Text

/-!
# Quoted text, read back

A quoted text is read glyph by glyph up to the mark that it begins with. Every escape says how
long it is, and a mark inside is escaped, so the text is found again whatever glyphs it has.
What is written is printable, which no newline is.
-/
namespace ProtoSchema.Listing

open Json (glyph? glyph?_code hexCode?)
open Text (codeEscape fixedHex isPrintable quoteMark quoted quotedGlyph)

variable {mark : Char} {n : ℕ} {g : Glyph}

/-! ## Reading -/

/-- The glyph with a code in hexadecimal digits. -/
def coded? (digits : List Char) : Option Glyph := (hexCode? digits).bind glyph?

/-- What a backslash and one character stand for. -/
def unescaped (c : Char) : Char :=
  if c = 'n' then '\n' else if c = 'r' then '\r' else if c = 't' then '\t' else c

/-- The glyphs up to the closing mark, behind which nothing stands. -/
def glyphs? (mark : Char) : List Char → Option Text
  | [] => none
  | c :: cs =>
    if c = mark then if cs.isEmpty then some [] else none
    else if c ≠ '\\' then (glyphs? mark cs).map (.char c :: ·)
    else match cs with
      | 'x' :: d₁ :: d₂ :: cs =>
        (coded? [d₁, d₂]).bind fun g => (glyphs? mark cs).map (g :: ·)
      | 'u' :: d₁ :: d₂ :: d₃ :: d₄ :: cs =>
        (coded? [d₁, d₂, d₃, d₄]).bind fun g => (glyphs? mark cs).map (g :: ·)
      | 'U' :: d₁ :: d₂ :: d₃ :: d₄ :: d₅ :: d₆ :: d₇ :: d₈ :: cs =>
        (coded? [d₁, d₂, d₃, d₄, d₅, d₆, d₇, d₈]).bind fun g => (glyphs? mark cs).map (g :: ·)
      | e :: cs => (glyphs? mark cs).map (.char (unescaped e) :: ·)
      | [] => none

/-- The text of its quoted form. -/
def unquote? : List Char → Option Text
  | mark :: cs => if mark ∈ ['\'', '"'] then glyphs? mark cs else none
  | [] => none

/-! ## Escapes -/

theorem coded?_fixedHex (w : ℕ) (h : n < 16 ^ w) (hg : glyph? n = some g) :
    coded? (fixedHex w n) = some g := by
  rw [coded?, hexCode?, Numeral.all_isHexDigit_fixedHex, if_pos rfl,
    Numeral.ofDigits_fixedHex, Nat.mod_eq_of_lt h]
  exact hg

theorem ne_backslash (hmark : mark ∈ ['\'', '"']) : '\\' ≠ mark := by
  rintro rfl
  exact absurd hmark (by decide)

/-- An escape by code is read as the glyph with the code, in each of its lengths. -/
theorem glyphs?_codeEscape (hmark : mark ∈ ['\'', '"']) (h : n < 16 ^ 8)
    (hg : glyph? n = some g) (cs : List Char) :
    glyphs? mark (codeEscape n ++ cs) = (glyphs? mark cs).map (g :: ·) := by
  have hm := ne_backslash hmark
  unfold codeEscape
  split
  · next short =>
    obtain ⟨d₁, d₂, digits⟩ : ∃ d₁ d₂, fixedHex 2 n = [d₁, d₂] := ⟨_, _, rfl⟩
    have code := coded?_fixedHex 2 short hg
    rw [digits] at code ⊢
    simp [glyphs?, hm, code]
  split
  · next _ short =>
    obtain ⟨d₁, d₂, d₃, d₄, digits⟩ : ∃ d₁ d₂ d₃ d₄, fixedHex 4 n = [d₁, d₂, d₃, d₄] :=
      ⟨_, _, _, _, rfl⟩
    have code := coded?_fixedHex 4 short hg
    rw [digits] at code ⊢
    simp [glyphs?, hm, code]
  · obtain ⟨d₁, d₂, d₃, d₄, d₅, d₆, d₇, d₈, digits⟩ : ∃ d₁ d₂ d₃ d₄ d₅ d₆ d₇ d₈,
        fixedHex 8 n = [d₁, d₂, d₃, d₄, d₅, d₆, d₇, d₈] := ⟨_, _, _, _, _, _, _, _, rfl⟩
    have code := coded?_fixedHex 8 h hg
    rw [digits] at code ⊢
    simp [glyphs?, hm, code]

theorem code_lt (g : Glyph) : g.code < 16 ^ 8 := by
  cases g with
  | char c =>
    have valid : (Glyph.char c).code.isValidChar := c.valid
    unfold Nat.isValidChar at valid
    omega
  | stray b =>
    have : b.val.toNat < 0x100 := b.val.toNat_lt
    rw [Glyph.code]
    omega

/-- A character behind a backslash that stands for itself. -/
theorem glyphs?_escaped (hmark : mark ∈ ['\'', '"']) {c : Char} (hc : c = mark ∨ c = '\\')
    (cs : List Char) :
    glyphs? mark ('\\' :: c :: cs) = (glyphs? mark cs).map (.char c :: ·) := by
  have hm := ne_backslash hmark
  simp only [List.mem_cons, List.not_mem_nil, or_false] at hmark
  rcases hmark with rfl | rfl <;> rcases hc with rfl | rfl <;> simp [glyphs?, unescaped]

/-- A glyph between marks is read as that glyph. -/
theorem glyphs?_quotedGlyph (hmark : mark ∈ ['\'', '"']) (g : Glyph) (cs : List Char) :
    glyphs? mark (quotedGlyph mark g ++ cs) = (glyphs? mark cs).map (g :: ·) := by
  have hm := ne_backslash hmark
  cases g with
  | stray b => exact glyphs?_codeEscape hmark (code_lt _) (glyph?_code _) cs
  | char c =>
    rw [quotedGlyph]
    split
    · next h => exact glyphs?_escaped hmark h cs
    split
    · next h => subst h; simp [glyphs?, hm, unescaped]
    split
    · next h => subst h; simp [glyphs?, hm, unescaped]
    split
    · next h => subst h; simp [glyphs?, hm, unescaped]
    split
    · next plain _ _ _ _ =>
      rw [List.singleton_append, glyphs?.eq_def]
      simp [not_or.mp plain]
    · exact glyphs?_codeEscape hmark (code_lt (.char c)) (glyph?_code (.char c)) cs

/-! ## Whole texts -/

theorem quoted_eq (t : Text) :
    quoted t = quoteMark t :: (t.flatMap (quotedGlyph (quoteMark t)) ++ [quoteMark t]) := rfl

theorem quoteMark_mem (t : Text) : quoteMark t ∈ ['\'', '"'] := by
  unfold quoteMark
  split <;> simp

/-- A text in quotes is read back, up to the quote that closes it. -/
theorem glyphs?_closed (hmark : mark ∈ ['\'', '"']) (t : Text) :
    glyphs? mark (t.flatMap (quotedGlyph mark) ++ [mark]) = some t := by
  induction t with
  | nil => simp [glyphs?]
  | cons g t ih =>
    rw [List.flatMap_cons, List.append_assoc, glyphs?_quotedGlyph hmark, ih]
    rfl

/-- A quoted text is read back as the text. -/
theorem unquote?_quoted (t : Text) : unquote? (quoted t) = some t := by
  have closed := glyphs?_closed (quoteMark_mem t) t
  rw [quoted_eq, unquote?, if_pos (quoteMark_mem t), closed]

/-! ## Printable characters -/

/-- No control is printable, and so no newline. -/
theorem isPrintable_control {c : Char} (h : c.toNat < 0x20) : isPrintable c = false := by
  have range : (0x0, 0x1F) ∈ Text.unprintableRanges := List.mem_toArray.mpr (.head _)
  rw [isPrintable, if_neg (by omega), Bool.not_eq_false']
  exact Array.any_eq_true'.mpr ⟨_, range, by simp; omega⟩

theorem isPrintable_ascii {c : Char} (h : 0x20 ≤ c.toNat ∧ c.toNat < 0x7F) :
    isPrintable c = true := if_pos h

theorem isPrintable_fixedHex (w n : ℕ) : ∀ c ∈ fixedHex w n, isPrintable c = true := by
  intro c hc
  have digit := List.all_eq_true.mp (Numeral.all_isHexDigit_fixedHex w n) c hc
  rw [Numeral.isHexDigit_iff] at digit
  exact isPrintable_ascii (by omega)

theorem isPrintable_codeEscape (n : ℕ) : ∀ c ∈ codeEscape n, isPrintable c = true := by
  have escape (letter : Char) (hl : letter ∈ ['x', 'u', 'U']) (w : ℕ) :
      ∀ c ∈ '\\' :: letter :: fixedHex w n, isPrintable c = true := by
    have letters : ∀ l ∈ ['x', 'u', 'U'], isPrintable l = true :=
      List.forall_iff_forall_mem.mp (by decide)
    simp only [List.forall_mem_cons]
    exact ⟨by decide, letters letter hl, isPrintable_fixedHex w n⟩
  unfold codeEscape
  split
  · exact escape 'x' (by decide) 2
  split
  · exact escape 'u' (by decide) 4
  · exact escape 'U' (by decide) 8

/-- What is written for a character can be printed. -/
theorem isPrintable_quotedGlyph (hmark : mark ∈ ['\'', '"']) (g : Glyph) :
    ∀ c ∈ quotedGlyph mark g, isPrintable c = true := by
  have marks : ∀ m ∈ ['\'', '"'], isPrintable m = true :=
    List.forall_iff_forall_mem.mp (by decide)
  cases g with
  | stray b => exact isPrintable_codeEscape _
  | char c =>
    rw [quotedGlyph]
    split
    · next h =>
      rcases h with rfl | rfl
      · simpa using ⟨by decide, marks c hmark⟩
      · exact List.forall_iff_forall_mem.mp (by decide)
    split
    · exact List.forall_iff_forall_mem.mp (by decide)
    split
    · exact List.forall_iff_forall_mem.mp (by decide)
    split
    · exact List.forall_iff_forall_mem.mp (by decide)
    split
    · next h => exact List.forall_mem_singleton.mpr h
    · exact isPrintable_codeEscape _

/-- A quoted text is printable. -/
theorem isPrintable_quoted (t : Text) : ∀ c ∈ quoted t, isPrintable c = true := by
  have marks : ∀ m ∈ ['\'', '"'], isPrintable m = true :=
    List.forall_iff_forall_mem.mp (by decide)
  have hmark := quoteMark_mem t
  rw [quoted_eq]
  simp only [List.forall_mem_cons, List.forall_mem_append, List.mem_flatMap,
    forall_exists_index, and_imp]
  refine ⟨marks _ hmark, fun c g _ hc => isPrintable_quotedGlyph hmark g c hc,
    marks _ hmark, nofun⟩

end ProtoSchema.Listing
