import Mathlib.Data.List.TakeWhile
import ProtoSchema.Number.Numeral

/-!
# Reading numerals

What has the shape of a numeral in a schema source can be read as a number, as long as its
digits are no more than may be read. The reading allows for blanks, signs and underscores; a
numeral with a shape has none of them, so every one of these allowances leaves it as it is.
-/
namespace ProtoSchema.Numeral

/-- The characters of numerals in a schema source: letters, digits, points and signs. -/
def IsPlain (c : Char) : Prop := 0x2B ≤ c.toNat ∧ c.toNat < 0x7F ∧ c ≠ '_'

theorem isDigit_iff {c : Char} : c.isDigit = true ↔ 0x30 ≤ c.toNat ∧ c.toNat ≤ 0x39 := by
  simp only [Char.isDigit, Bool.and_eq_true, decide_eq_true_eq, UInt32.le_iff_toNat_le]
  rfl

theorem isHexDigit_iff {c : Char} : isHexDigit c = true ↔ 0x30 ≤ c.toNat ∧ c.toNat ≤ 0x39 ∨
    0x61 ≤ c.toNat ∧ c.toNat ≤ 0x66 ∨ 0x41 ≤ c.toNat ∧ c.toNat ≤ 0x46 := by
  simp only [isHexDigit, Bool.or_eq_true, isDigit_iff, Bool.and_eq_true, decide_eq_true_eq,
    Char.le_def, UInt32.le_iff_toNat_le, or_assoc]
  rfl

theorem isOctalDigit_iff {c : Char} : isOctalDigit c = true ↔ 0x30 ≤ c.toNat ∧
    c.toNat ≤ 0x37 := by
  simp only [isOctalDigit, Bool.and_eq_true, decide_eq_true_eq, Char.le_def,
    UInt32.le_iff_toNat_le]
  rfl

theorem IsPlain.not_blank {c : Char} (h : IsPlain c) : Text.isBlank c = false := by
  have := h.1
  have := h.2.1
  simp only [Text.isBlank, Text.blankRanges, List.any_cons, List.any_nil, Bool.or_false,
    Bool.or_eq_false_iff, Bool.and_eq_false_iff, decide_eq_false_iff_not]
  omega

/-! ## What the reading leaves as it is -/

theorem toAscii_ofChars {cs : List Char} (h : ∀ c ∈ cs, IsPlain c) :
    toAscii (Text.ofChars cs) = cs := by
  induction cs with
  | nil => rfl
  | cons c cs ih =>
    have := (h c (by simp)).2.1
    simp only [toAscii, Text.ofChars, List.map_cons, if_pos this] at ih ⊢
    rw [ih fun d hd => h d (by simp [hd])]

theorem trim_eq {cs : List Char} (h : ∀ c ∈ cs, IsPlain c) : trim cs = cs := by
  have drop {ds : List Char} (hd : ∀ c ∈ ds, IsPlain c) : ds.dropWhile Text.isBlank = ds := by
    cases ds with
    | nil => rfl
    | cons d ds => rw [List.dropWhile_cons_of_neg (by simp [(hd d (by simp)).not_blank])]
  rw [trim, drop h, drop (by simpa using h), List.reverse_reverse]

theorem underscore_notMem {cs : List Char} (h : ∀ c ∈ cs, IsPlain c) : '_' ∉ cs :=
  fun hm => (h _ hm).2.2 rfl

theorem filter_eq {cs : List Char} (h : ∀ c ∈ cs, IsPlain c) : cs.filter (· ≠ '_') = cs :=
  List.filter_eq_self.mpr fun c hc => by simpa using (h c hc).2.2

theorem IsPlain.of_isHexDigit {c : Char} (h : isHexDigit c = true) : IsPlain c := by
  rw [isHexDigit_iff] at h
  refine ⟨by omega, by omega, ?_⟩
  rintro rfl
  revert h
  decide

theorem splitSign_eq {c : Char} {cs : List Char} (hp : c ≠ '+') (hm : c ≠ '-') :
    splitSign (c :: cs) = (false, c :: cs) := by
  unfold splitSign
  split <;> simp_all

theorem separatesDigits_eq {p : Char → Bool} {cs : List Char} (h : ∀ c ∈ cs, p c = true)
    (hu : '_' ∉ cs) : separatesDigits p cs = true := by
  induction cs with
  | nil => rfl
  | cons c cs ih =>
    have hc : c ≠ '_' := fun hc => hu (by simp [hc])
    unfold separatesDigits
    split <;> simp_all

/-! ## Whole numbers -/

/-- How digits of a base are read: as the number that they denote, if they are not too
many. -/
def limited (limit : Option ℕ) (base : ℕ) (digits : List Char) : Except NumeralError ℤ :=
  (checkLength limit base digits).map fun _ => ofDigits base digits

/-- Digits of a base alone are read as the number that they denote. -/
theorem readInteger_ofChars (limit : Option ℕ) {base : Nat} {c : Char} {cs : List Char}
    (hex : ∀ d ∈ c :: cs, isHexDigit d = true) (h : ∀ d ∈ c :: cs, isDigitOf base d = true) :
    readInteger base (Text.ofChars (c :: cs)) limit = limited limit base (c :: cs) := by
  have plain : ∀ d ∈ c :: cs, IsPlain d := fun d hd => .of_isHexDigit (hex d hd)
  have first : c ≠ '+' ∧ c ≠ '-' := by
    have := hex c (by simp)
    constructor <;> (rintro rfl; revert this; decide)
  have hu := underscore_notMem plain
  have mark : dropBaseMark base (c :: cs) = c :: cs := by
    unfold dropBaseMark
    split
    · rename_i m rest heq
      have := hex m (by simp [heq])
      rw [isHexDigit_iff] at this
      rw [if_neg, heq]
      rintro (⟨-, rfl | rfl⟩ | ⟨-, rfl | rfl⟩) <;> revert this <;> decide
    · rfl
  have grouped : isGrouped (isDigitOf base) (c :: cs) = true := by
    rw [isGrouped, h c (by simp), Bool.true_and]
    exact separatesDigits_eq (fun d hd => h d (by simp [hd])) fun hm => hu (by simp [hm])
  rw [readInteger, toAscii_ofChars plain, trim_eq plain, splitSign_eq first.1 first.2]
  simp only [mark, grouped, filter_eq plain, limited]
  cases checkLength limit base (c :: cs) <;> rfl

/-- The least digits of the three kinds. -/
theorem toNat_least : '0'.toNat = 0x30 ∧ 'a'.toNat = 0x61 ∧ 'A'.toNat = 0x41 := by decide

theorem isDigitOf_hex {c : Char} (h : isHexDigit c = true) : isDigitOf 16 c = true := by
  have := toNat_least
  rw [isDigitOf, decide_eq_true_eq, digitValue]
  split_ifs with h₁ h₂ h₃
  · rw [isDigit_iff] at h₁
    omega
  · have : c.toNat ≤ 0x66 := h₂.2
    omega
  · have : c.toNat ≤ 0x46 := h₃.2
    omega
  · rcases isHexDigit_iff.mp h with h | h | h
    · exact absurd (isDigit_iff.mpr h) h₁
    · exact absurd h h₂
    · exact absurd h h₃

theorem isDigitOf_decimal {c : Char} (h : c.isDigit = true) : isDigitOf 10 c = true := by
  have := toNat_least
  rw [isDigitOf, decide_eq_true_eq, digitValue, if_pos h]
  rw [isDigit_iff] at h
  omega

theorem isDigitOf_octal {c : Char} (h : isOctalDigit c = true) : isDigitOf 8 c = true := by
  have := toNat_least
  rw [isOctalDigit_iff] at h
  rw [isDigitOf, decide_eq_true_eq, digitValue, if_pos (isDigit_iff.mpr (by omega))]
  omega

theorem isHexDigit_of_isDigit {c : Char} (h : c.isDigit = true) : isHexDigit c = true := by
  simp [isHexDigit, h]

theorem isHexDigit_of_isOctalDigit {c : Char} (h : isOctalDigit c = true) :
    isHexDigit c = true := by
  rw [isOctalDigit_iff] at h
  exact isHexDigit_iff.mpr (by omega)

/-- The base that a whole number is written in, and its digits. -/
def radix : List Char → ℕ × List Char
  | '0' :: 'x' :: digits => (16, digits)
  | '0' :: 'X' :: digits => (16, digits)
  | '0' :: d :: digits => (8, '0' :: d :: digits)
  | digits => (10, digits)

/-- Digits in base 16 are read as the number that they denote. -/
theorem readInteger_hex (limit : Option ℕ) {digits : List Char}
    (h : (!digits.isEmpty && digits.all isHexDigit) = true) :
    readInteger 16 (Text.ofChars digits) limit = limited limit 16 digits := by
  simp only [Bool.and_eq_true, Bool.not_eq_true', List.isEmpty_eq_false_iff,
    List.all_eq_true] at h
  obtain ⟨d, ds, rfl⟩ := List.exists_cons_of_ne_nil h.1
  exact readInteger_ofChars limit h.2 fun c hc => isDigitOf_hex (h.2 c hc)

/-- A leading zero with another digit behind it stands for base eight. -/
theorem radix_octal {d : Char} {ds : List Char} (hx : d ≠ 'x') (hX : d ≠ 'X') :
    radix ('0' :: d :: ds) = (8, '0' :: d :: ds) := by
  unfold radix
  split <;> simp_all

theorem readLiteral_octal (limit : Option ℕ) {d : Char} {ds : List Char} (hx : d ≠ 'x')
    (hX : d ≠ 'X') : readLiteral (Text.ofChars ('0' :: d :: ds)) limit =
      readInteger 8 (Text.ofChars ('0' :: d :: ds)) limit := by
  simp only [Text.ofChars, List.map_cons]
  unfold readLiteral
  split <;> simp_all

/-- Without a leading zero the base is ten. -/
theorem radix_decimal {first : Char} (h : first ≠ '0') (ds : List Char) :
    radix (first :: ds) = (10, first :: ds) := by
  unfold radix
  split <;> simp_all

theorem readLiteral_decimal (limit : Option ℕ) {first : Char} (h : first ≠ '0')
    (ds : List Char) : readLiteral (Text.ofChars (first :: ds)) limit =
      readInteger 10 (Text.ofChars (first :: ds)) limit := by
  simp only [Text.ofChars, List.map_cons]
  unfold readLiteral
  split <;> simp_all

/-- What has the shape of a whole number is read in its base. -/
theorem readLiteral_eq (limit : Option ℕ) {cs : List Char} (h : isIntegerShape cs = true) :
    readLiteral (Text.ofChars cs) limit = limited limit (radix cs).1 (radix cs).2 := by
  unfold isIntegerShape at h
  split at h
  · exact readInteger_hex limit h
  · exact readInteger_hex limit h
  · next digits hx hX =>
    have octal : ∀ c ∈ '0' :: digits, isOctalDigit c = true :=
      List.forall_mem_cons.mpr ⟨by decide, List.all_eq_true.mp h⟩
    have hex : ∀ c ∈ '0' :: digits, isHexDigit c = true := fun c hc =>
      isHexDigit_of_isOctalDigit (octal c hc)
    cases digits with
    | nil =>
      have read : readLiteral (Text.ofChars ['0']) limit =
          readInteger 10 (Text.ofChars ['0']) limit := rfl
      rw [read]
      exact readInteger_ofChars limit hex (List.forall_mem_singleton.mpr (by decide))
    | cons d ds =>
      have hdx : d ≠ 'x' := fun hd => hx ds (by rw [hd])
      have hdX : d ≠ 'X' := fun hd => hX ds (by rw [hd])
      rw [readLiteral_octal limit hdx hdX, radix_octal hdx hdX]
      exact readInteger_ofChars limit hex fun c hc => isDigitOf_octal (octal c hc)
  · next first digits _ _ h0 =>
    have decimal : ∀ c ∈ first :: digits, c.isDigit = true := by simpa using h
    rw [readLiteral_decimal limit h0, radix_decimal h0]
    exact readInteger_ofChars limit (fun c hc => isHexDigit_of_isDigit (decimal c hc))
      fun c hc => isDigitOf_decimal (decimal c hc)
  · cases h

/-! ## Numerals that are too long -/

/-- Is a numeral short enough to be read? Only in base ten it may be too long. -/
def Fits (limit : Option ℕ) (cs : List Char) : Prop :=
  (radix cs).1 = 10 → ∀ most ∈ limit, cs.length ≤ most

theorem Fits.unlimited (cs : List Char) : Fits none cs := fun _ => nofun

/-- A whole number is written in base eight or sixteen, or in base ten with nothing but
digits. -/
theorem radix_cases {cs : List Char} (h : isIntegerShape cs = true) :
    (radix cs).1 = 8 ∨ (radix cs).1 = 16 ∨
      radix cs = (10, cs) ∧ cs ≠ [] ∧ ∀ c ∈ cs, c.isDigit = true := by
  unfold isIntegerShape at h
  split at h
  · exact .inr (.inl rfl)
  · exact .inr (.inl rfl)
  · next digits hx hX =>
    cases digits with
    | nil => exact .inr (.inr ⟨rfl, List.cons_ne_nil _ _, List.forall_mem_singleton.mpr rfl⟩)
    | cons d ds =>
      have hdx : d ≠ 'x' := fun hd => hx ds (by rw [hd])
      have hdX : d ≠ 'X' := fun hd => hX ds (by rw [hd])
      exact .inl (by rw [radix_octal hdx hdX])
  · next first digits _ _ h0 =>
    exact .inr (.inr ⟨radix_decimal h0 digits, List.cons_ne_nil _ _, by simpa using h⟩)
  · cases h

/-- Digits in base ten are refused exactly if there are too many of them. -/
theorem checkLength_decimal {cs : List Char} (hne : cs ≠ [])
    (h : ∀ c ∈ cs, c.isDigit = true) (most : ℕ) :
    checkLength (some most) 10 cs =
      if most < cs.length then .error (.tooLong most cs.length) else .ok () := by
  have digit (c : Char) (hc : c ∈ cs) : isDigitOf 10 c = true := isDigitOf_decimal (h c hc)
  have plain (c : Char) (hc : c ∈ cs) : IsPlain c :=
    .of_isHexDigit (isHexDigit_of_isDigit (h c hc))
  have run : cs.takeWhile (fun c => isDigitOf 10 c || decide (c = '_')) = cs :=
    List.takeWhile_eq_self_iff.mpr fun c hc => by rw [digit c hc, Bool.true_or]
  have grouped : isGrouped (isDigitOf 10) cs = true := by
    obtain ⟨c, ds, rfl⟩ := List.exists_cons_of_ne_nil hne
    rw [isGrouped, digit c (.head _), Bool.true_and]
    exact separatesDigits_eq (fun d hd => digit d (.tail _ hd))
      fun hm => underscore_notMem plain (.tail _ hm)
  simp only [checkLength, run, filter_eq plain, grouped]
  simp

/-- In a base that is a power of two there are never too many digits. -/
theorem checkLength_binary (limit : Option ℕ) {base : ℕ} (h : base &&& (base - 1) = 0)
    (digits : List Char) : checkLength limit base digits = .ok () := by
  unfold checkLength
  split
  · rfl
  · exact if_neg fun many => many.1 h

/-- A numeral that is short enough is read as the number that its digits denote. -/
theorem readLiteral_of_fits {limit : Option ℕ} {cs : List Char} (h : isIntegerShape cs = true)
    (hfits : Fits limit cs) :
    readLiteral (Text.ofChars cs) limit = .ok (ofDigits (radix cs).1 (radix cs).2) := by
  have allowed : checkLength limit (radix cs).1 (radix cs).2 = .ok () := by
    rcases radix_cases h with base | base | ⟨base, hne, digits⟩
    · rw [base, checkLength_binary limit rfl]
    · rw [base, checkLength_binary limit rfl]
    · cases limit with
      | none => rfl
      | some most =>
        rw [base, checkLength_decimal hne digits, if_neg]
        exact (hfits (congrArg Prod.fst base) most rfl).not_gt
  rw [readLiteral_eq limit h, limited, allowed]
  rfl

/-- A numeral that is too long is refused for that. -/
theorem readLiteral_tooLong {most : ℕ} {cs : List Char} (h : isIntegerShape cs = true)
    (hfits : ¬Fits (some most) cs) :
    readLiteral (Text.ofChars cs) (some most) = .error (.tooLong most cs.length) := by
  obtain ⟨decimal, long⟩ : (radix cs).1 = 10 ∧ most < cs.length := by simpa [Fits] using hfits
  rcases radix_cases h with base | base | ⟨base, hne, digits⟩
  · omega
  · omega
  · rw [readLiteral_eq _ h, limited, base, checkLength_decimal hne digits, if_pos long]
    rfl

/-- Without a limit, what has the shape of a whole number is read as one. -/
theorem readLiteral_ofChars {cs : List Char} (h : isIntegerShape cs = true) :
    ∃ n : ℕ, readLiteral (Text.ofChars cs) none = .ok n :=
  ⟨_, readLiteral_of_fits h (.unlimited cs)⟩

/-! ## Fractions -/

theorem IsPlain.of_isDigit {c : Char} (h : c.isDigit = true) : IsPlain c :=
  .of_isHexDigit (isHexDigit_of_isDigit h)

theorem isPlain_of_isExponentShape {cs : List Char} (h : isExponentShape cs = true) :
    ∀ c ∈ cs, IsPlain c := by
  have mark {e : Char} (h : (decide (e = 'e') || decide (e = 'E')) = true) : IsPlain e := by
    simp only [Bool.or_eq_true, decide_eq_true_eq] at h
    rcases h with rfl | rfl <;> exact ⟨by decide, by decide, by decide⟩
  unfold isExponentShape at h
  split at h
  · rename_i e rest
    split at h <;> simp only [Bool.and_eq_true, List.all_eq_true] at h <;>
      simp only [List.mem_cons, forall_eq_or_imp]
    · exact ⟨mark h.1.1, ⟨by decide, by decide, by decide⟩, fun c hc =>
        .of_isDigit (h.2 c hc)⟩
    · exact ⟨mark h.1.1, ⟨by decide, by decide, by decide⟩, fun c hc =>
        .of_isDigit (h.2 c hc)⟩
    · exact ⟨mark h.1.1, fun c hc => .of_isDigit (h.2 c hc)⟩
  · simp at h

theorem readExponent?_of_shape {cs : List Char} (h : isExponentShape cs = true) :
    ∃ e, readExponent? cs = some e := by
  unfold isExponentShape at h
  split at h
  · rename_i e rest
    unfold readExponent? splitSign
    split at h <;> simp only [Bool.and_eq_true, Bool.or_eq_true, decide_eq_true_eq] at h
    · simp [h]
    · simp [h]
    · simp_all
  · simp at h

/-- The parts of a numeral for a fraction: its first digits, the point and the digits behind
it or neither, and the exponent or nothing. -/
theorem isRealShape_cases {cs : List Char} (h : isRealShape cs = true) :
    (∃ rest, cs.dropWhile Char.isDigit = '.' :: rest ∧
      (rest.dropWhile Char.isDigit = [] ∨ isExponentShape (rest.dropWhile Char.isDigit)) ∧
      (cs.takeWhile Char.isDigit ≠ [] ∨ rest.takeWhile Char.isDigit ≠ [])) ∨
    isExponentShape (cs.dropWhile Char.isDigit) ∧ cs.takeWhile Char.isDigit ≠ [] := by
  unfold isRealShape isFractionShape at h
  split at h
  · rename_i rest hrest
    refine .inl ⟨rest, hrest, ?_⟩
    simpa using h
  · refine .inr ?_
    simp only [Bool.and_eq_true, Bool.not_eq_true', List.isEmpty_eq_false_iff] at h
    exact h.symm

theorem isPlain_of_isRealShape {cs : List Char} (h : isRealShape cs = true) :
    ∀ c ∈ cs, IsPlain c := by
  have digits (ds : List Char) : ∀ c ∈ ds.takeWhile Char.isDigit, IsPlain c := fun c hc =>
    .of_isDigit (List.mem_takeWhile_imp hc)
  have split (ds : List Char) (h : ∀ c ∈ ds.dropWhile Char.isDigit, IsPlain c) :
      ∀ c ∈ ds, IsPlain c := by
    intro c hc
    rw [← List.takeWhile_append_dropWhile (p := Char.isDigit) (l := ds),
      List.mem_append] at hc
    exact hc.elim (digits ds c) (h c)
  refine split cs ?_
  rcases isRealShape_cases h with ⟨rest, hrest, hfrac, -⟩ | ⟨hexp, -⟩
  · rw [hrest]
    simp only [List.mem_cons, forall_eq_or_imp]
    refine ⟨⟨by decide, by decide, by decide⟩, split rest ?_⟩
    rcases hfrac with hnil | hexp
    · simp [hnil]
    · exact isPlain_of_isExponentShape hexp
  · exact isPlain_of_isExponentShape hexp

/-- A numeral for a fraction starts with a digit or a point. -/
theorem head_of_isRealShape {cs : List Char} (h : isRealShape cs = true) :
    ∃ c ds, cs = c :: ds ∧ (c.isDigit = true ∨ c = '.') := by
  cases cs with
  | nil => simp [isRealShape, isExponentShape] at h
  | cons c ds =>
    refine ⟨c, ds, rfl, ?_⟩
    by_cases hc : c.isDigit = true
    · exact .inl hc
    · rcases isRealShape_cases h with ⟨rest, hrest, -⟩ | ⟨-, hne⟩
      · rw [List.dropWhile_cons_of_neg hc] at hrest
        exact .inr (List.cons.inj hrest).1
      · rw [List.takeWhile_cons_of_neg hc] at hne
        exact absurd rfl hne

theorem underscoresFit_eq {before : Char} {cs : List Char} (h : '_' ∉ cs) :
    underscoresFit before cs = true := by
  induction cs generalizing before with
  | nil => rfl
  | cons c cs ih =>
    have hc : c ≠ '_' := fun hc => h (by simp [hc])
    unfold underscoresFit
    split <;> simp_all

theorem readDecimal?_of_shape {cs : List Char} (h : isRealShape cs = true) :
    ∃ d, readDecimal? cs = some d := by
  unfold readDecimal?
  rcases isRealShape_cases h with ⟨rest, hrest, hfrac, hne⟩ | ⟨hexp, hne⟩
  · have hexp : ∃ e, readExponent? (rest.dropWhile Char.isDigit) = some e := by
      rcases hfrac with hnil | hexp
      · exact ⟨0, by rw [hnil]; rfl⟩
      · exact readExponent?_of_shape hexp
    obtain ⟨e, he⟩ := hexp
    simp only [hrest, List.isEmpty_iff, he]
    rw [if_neg (fun hnil => hne.elim (absurd hnil.1) (absurd hnil.2))]
    exact ⟨_, rfl⟩
  · obtain ⟨e, he⟩ := readExponent?_of_shape hexp
    have point : ∀ rest, cs.dropWhile Char.isDigit ≠ '.' :: rest := by
      intro rest hrest
      rw [hrest] at hexp
      simp [isExponentShape] at hexp
    rcases hrest : cs.dropWhile Char.isDigit with _ | ⟨c, rest⟩ <;> rw [hrest] at he point
    · simp [hne, he]
    · simp [hne, he]

/-- Digits and points are no letters. -/
theorem toLower_eq_self {c : Char} (h : c.isDigit = true ∨ c = '.') : c.toLower = c := by
  refine dif_neg ?_
  rintro ⟨hA, -⟩
  have hA : 0x41 ≤ c.toNat := hA
  rcases h with h | rfl
  · rw [isDigit_iff] at h
    omega
  · revert hA
    decide

/-- What has the shape of a fraction is read as one. -/
theorem readReal_ofChars {cs : List Char} (h : isRealShape cs = true) :
    ∃ x, readReal (Text.ofChars cs) = .ok x := by
  have plain := isPlain_of_isRealShape h
  obtain ⟨c, ds, hcs, hc⟩ := head_of_isRealShape h
  have sign : splitSign cs = (false, cs) := by
    rw [hcs]
    apply splitSign_eq <;> (rintro rfl; revert hc; decide)
  have word {w : List Char} (hw : ∀ x ∈ w.head?, x.isDigit = false ∧ x ≠ '.') (hne : w ≠ []) :
      cs.map Char.toLower ≠ w := by
    have lower := toLower_eq_self hc
    rintro rfl
    obtain ⟨hd, hp⟩ := hw c (by simp [hcs, lower])
    rcases hc with hc | hc
    · exact absurd hc (by simp [hd])
    · exact hp hc
  obtain ⟨d, hd⟩ := readDecimal?_of_shape h
  refine ⟨.ofDecimal false d, ?_⟩
  rw [readReal, toAscii_ofChars plain, trim_eq plain, filter_eq plain, sign]
  simp only [underscoresFit_eq (underscore_notMem plain), hd]
  rw [if_neg (by simp), if_neg, if_neg]
  · exact word (by simp) (by simp)
  · rintro (hw | hw)
    · exact word (by simp) (by simp) hw
    · exact word (by simp) (by simp) hw

end ProtoSchema.Numeral
