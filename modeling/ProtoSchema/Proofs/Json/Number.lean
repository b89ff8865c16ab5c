import ProtoSchema.Document.Writer
import ProtoSchema.Proofs.Json.Reader
import ProtoSchema.Proofs.Number.Written

/-!
# Numbers in JSON

The text of an integer is read as that integer, and the text of a finite double as that
double.
-/
namespace ProtoSchema

open Binary64 (Decimal exponentText IsWhole IsExponent Written)

variable {ws fs cs : List Char} {d : Decimal} {e : ℤ} {negative : Bool}

/-! ## Exponents -/

theorem Binary64.exists_exponentText (e : ℤ) : ∃ ds,
    exponentText e = 'e' :: (if e < 0 then '-' else '+') :: ds ∧ ds ≠ [] ∧
      (∀ c ∈ ds, c.isDigit = true) ∧ Numeral.ofDigits 10 ds = e.natAbs := by
  have digits := isDigit_of_mem_toDigits (n := e.natAbs)
  have value := ofDigits_toDigits e.natAbs
  unfold exponentText
  by_cases short : (Nat.toDigits 10 e.natAbs).length < 2
  · refine ⟨'0' :: Nat.toDigits 10 e.natAbs, by simp only [if_pos short], by simp, ?_, value⟩
    rintro c (_ | ⟨_, hc⟩)
    · decide
    · exact digits c hc
  · exact ⟨_, by simp only [if_neg short], Nat.toDigits_ne_nil, digits, value⟩

theorem Binary64.isExponentShape_exponentText (e : ℤ) :
    Numeral.isExponentShape (exponentText e) = true := by
  obtain ⟨ds, hds, hne, digits, -⟩ := exists_exponentText e
  rw [hds]
  split <;> simpa [Numeral.isExponentShape] using ⟨hne, digits⟩

theorem Binary64.readExponent?_exponentText (e : ℤ) :
    Numeral.readExponent? (exponentText e) = some e := by
  obtain ⟨ds, hds, hne, digits, value⟩ := exists_exponentText e
  have shape : ds.isEmpty = false ∧ ds.all Char.isDigit = true := by simpa using ⟨hne, digits⟩
  rw [hds]
  split
  · next negative =>
    simp [Numeral.readExponent?, Numeral.splitSign, shape, value,
      Int.ofNat_natAbs_of_nonpos negative.le]
  · next positive =>
    simp [Numeral.readExponent?, Numeral.splitSign, shape, value,
      Int.natAbs_of_nonneg (Int.not_lt.mp positive)]

theorem Binary64.IsExponent.readExponent? (h : IsExponent cs e) :
    Numeral.readExponent? cs = some e := by
  cases h with
  | absent => rfl
  | present => exact readExponent?_exponentText e

theorem Binary64.IsExponent.shape (h : IsExponent cs e) :
    cs = [] ∨ Numeral.isExponentShape cs = true := by
  cases h with
  | absent => exact .inl rfl
  | present => exact .inr (isExponentShape_exponentText e)

/-! ## Digits before something else -/

theorem Binary64.IsExponent.takeWhile (h : IsExponent cs e)
    (hf : ∀ c ∈ fs, c.isDigit = true) :
    (fs ++ cs).takeWhile Char.isDigit = fs ∧ (fs ++ cs).dropWhile Char.isDigit = cs := by
  rw [List.takeWhile_append_of_pos hf, List.dropWhile_append_of_pos hf]
  cases h with
  | absent => simp
  | present =>
    obtain ⟨ds, hds, -⟩ := exists_exponentText e
    have letter : 'e'.isDigit = false := by decide
    simp [hds, letter]

theorem takeWhile_point (hw : ∀ c ∈ ws, c.isDigit = true) (cs : List Char) :
    (ws ++ '.' :: cs).takeWhile Char.isDigit = ws ∧
      (ws ++ '.' :: cs).dropWhile Char.isDigit = '.' :: cs := by
  have point : '.'.isDigit = false := by decide
  rw [List.takeWhile_append_of_pos hw, List.dropWhile_append_of_pos hw]
  simp [point]

/-- The text of a decimal is read as that decimal. -/
theorem Binary64.Written.readDecimal? (h : Written cs d) :
    Numeral.readDecimal? cs = some d := by
  cases h with
  | @point ws fs cs e whole hne digits exponent =>
    obtain ⟨before, behind⟩ := takeWhile_point whole.isDigit (fs ++ cs)
    obtain ⟨fraction, tail⟩ := exponent.takeWhile digits
    simp [Numeral.readDecimal?, before, behind, fraction, tail, hne, exponent.readExponent?]
  | @scaled ws e whole =>
    obtain ⟨before, behind⟩ := (IsExponent.present e).takeWhile whole.isDigit
    obtain ⟨ds, hds, -⟩ := exists_exponentText e
    have exponent := readExponent?_exponentText e
    rw [hds] at before behind exponent ⊢
    simp [Numeral.readDecimal?, before, behind, whole.ne_nil, exponent]

namespace Json

/-! ## Numbers without a sign -/

theorem isWhole_of (h : IsWhole ws) : isWhole ws = true := by
  cases h with
  | zero => rfl
  | @digits c ds hc digits =>
    unfold isWhole
    split
    · simp_all
    · exact absurd (List.cons.inj ‹_›).1 hc
    · exact List.all_eq_true.mpr digits

/-- Digits alone are read as a whole number. -/
theorem magnitude?_whole (negative : Bool) (h : IsWhole ws) : magnitude? negative ws =
    some
      (.integer (if negative then -Numeral.ofDigits 10 ws else Numeral.ofDigits 10 ws)) := by
  have digits : ws.takeWhile Char.isDigit = ws := List.takeWhile_eq_self_iff.mpr h.isDigit
  simp [magnitude?, digits, isWhole_of h]

/-- Digits with a point or an exponent are read as the magnitude nearest to what they
write. -/
theorem magnitude?_written (negative : Bool) (h : Written cs d) :
    magnitude? negative cs = some (.real (Binary64.ofDecimal negative d)) := by
  have decimal := h.readDecimal?
  cases h with
  | @point ws fs cs e whole hne digits exponent =>
    obtain ⟨before, behind⟩ := takeWhile_point whole.isDigit (fs ++ cs)
    obtain ⟨fraction, tail⟩ := exponent.takeWhile digits
    simp [magnitude?, decimal, before, behind, fraction, tail, hne, isWhole_of whole,
      Numeral.isFractionShape, exponent.shape]
  | @scaled ws e whole =>
    obtain ⟨before, behind⟩ := (IsExponent.present e).takeWhile whole.isDigit
    obtain ⟨ds, hds, -⟩ := Binary64.exists_exponentText e
    have exponent := Binary64.isExponentShape_exponentText e
    rw [hds] at before behind exponent decimal ⊢
    simp [magnitude?, decimal, before, behind, isWhole_of whole, exponent]

/-! ## Words -/

/-- The text of a value that stands without quotes. -/
structure IsWord (cs : List Char) (d : Document) : Prop where
  characters : ∀ c ∈ cs, isWordCharacter c = true
  value : word? cs = some d

/-- What is read as a number and holds no blank and no mark is one word of a document. -/
theorem IsWord.of_number {cs : List Char} {d : Document}
    (hcs : ∀ c ∈ cs, isWordCharacter c = true) (h : number? cs = some d) : IsWord cs d := by
  refine ⟨hcs, ?_⟩
  rw [word?, if_neg, if_neg, if_neg, h]
  all_goals
    rintro rfl
    cases h

theorem isWordCharacter_of_isDigit {c : Char} (h : c.isDigit = true) :
    isWordCharacter c = true := by
  simp [isWordCharacter, Char.isAlphanum, h]

theorem isWordCharacter_of_isExponent (h : IsExponent cs e) : ∀ c ∈ cs,
    isWordCharacter c = true := by
  cases h with
  | absent => nofun
  | present =>
    obtain ⟨ds, hds, -, digits, -⟩ := Binary64.exists_exponentText e
    rw [hds]
    intro c hc
    simp only [List.mem_cons] at hc
    rcases hc with rfl | rfl | hc
    · decide
    · split <;> decide
    · exact isWordCharacter_of_isDigit (digits c hc)

theorem isWordCharacter_of_written (h : Written cs d) : ∀ c ∈ cs,
    isWordCharacter c = true := by
  intro c hc
  cases h with
  | point whole _ digits exponent =>
    simp only [List.mem_append, List.mem_cons] at hc
    rcases hc with hc | rfl | hc | hc
    · exact isWordCharacter_of_isDigit (whole.isDigit c hc)
    · decide
    · exact isWordCharacter_of_isDigit (digits c hc)
    · exact isWordCharacter_of_isExponent exponent c hc
  | scaled whole =>
    rcases List.mem_append.mp hc with hc | hc
    · exact isWordCharacter_of_isDigit (whole.isDigit c hc)
    · exact isWordCharacter_of_isExponent (.present _) c hc

/-- A number without its sign does not begin with one. -/
theorem number?_of_digit {c : Char} (hc : c.isDigit = true) (cs : List Char) :
    number? (c :: cs) = magnitude? false (c :: cs) := by
  unfold number?
  split
  · obtain rfl := (List.cons.inj ‹_›).1
    exact absurd hc (by decide)
  · rfl

theorem number?_of_whole (h : IsWhole ws) (cs : List Char) :
    number? (ws ++ cs) = magnitude? false (ws ++ cs) := by
  obtain ⟨c, ds, rfl⟩ := List.exists_cons_of_ne_nil h.ne_nil
  exact number?_of_digit (h.isDigit c (by simp)) (ds ++ cs)

/-- The text of a number with its sign. -/
theorem isWord_signed {d : Document} (hcs : ∀ c ∈ cs, isWordCharacter c = true)
    (hnumber : number? cs = magnitude? false cs) (h : magnitude? negative cs = some d) :
    IsWord (if negative then '-' :: cs else cs) d := by
  cases negative with
  | false => exact .of_number hcs (hnumber.trans h)
  | true =>
    refine .of_number (fun c hc => ?_) h
    rcases List.mem_cons.mp hc with rfl | hc
    · decide
    · exact hcs c hc

/-- An integer is read back. -/
theorem isWord_integer (n : ℤ) : IsWord (toString n).toList (.integer n) := by
  have whole := Binary64.isWhole_toDigits n.natAbs
  have characters : ∀ c ∈ Nat.toDigits 10 n.natAbs, isWordCharacter c = true := fun c hc =>
    isWordCharacter_of_isDigit (whole.isDigit c hc)
  have unsigned := number?_of_whole whole []
  rw [List.append_nil] at unsigned
  have word := isWord_signed characters unsigned (magnitude?_whole (decide (n < 0)) whole)
  rw [Binary64.ofDigits_toDigits] at word
  rw [Int.toString_eq_repr, Int.repr_eq_if]
  split
  · next h =>
    have positive : decide (n < 0) = false := by simpa using h
    rw [positive] at word
    simp only [Nat.toList_repr, show n.toNat = n.natAbs by omega]
    simpa [Int.natAbs_of_nonneg h] using word
  · next h =>
    have negative : decide (n < 0) = true := by simpa using h
    rw [negative] at word
    simp only [String.toList_append, Nat.toList_repr, show (-n).toNat = n.natAbs by omega]
    simpa [Int.ofNat_natAbs_of_nonpos (Int.not_le.mp h).le] using word

/-- A finite double is read back. -/
theorem isWord_real {x : Binary64} (hx : x.isFinite = true) :
    IsWord (Document.writeReal x) (.real x) := by
  cases x with
  | finite negative rank =>
    obtain ⟨cs, d, htext, written, same⟩ := Document.realLayout.text_written negative rank
    have read := magnitude?_written negative written
    rw [same] at read
    have unsigned : number? cs = magnitude? false cs := by
      cases written with
      | point whole => exact number?_of_whole whole _
      | scaled whole => exact number?_of_whole whole _
    rw [show Document.writeReal (.finite negative rank) = _ from htext]
    exact isWord_signed (isWordCharacter_of_written written) unsigned read
  | infinite => cases hx
  | nan => cases hx

theorem isWord_null : IsWord "null".toList .null := ⟨List.all_eq_true.mp (by decide), rfl⟩

theorem isWord_bool (b : Bool) : IsWord (toString b).toList (.bool b) := by
  cases b
  · exact ⟨List.all_eq_true.mp (by decide), rfl⟩
  · exact ⟨List.all_eq_true.mp (by decide), rfl⟩

end Json

end ProtoSchema
