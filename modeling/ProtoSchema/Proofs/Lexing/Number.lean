import Mathlib.Computability.Language
import Mathlib.Data.List.TakeWhile
import Mathlib.Order.CompletePartialOrder
import ProtoSchema.Proofs.Joining.Characters
import ProtoSchema.Proofs.Tokenization

/-!
# Numbers by themselves

What has the shape of a number is a run of characters such as numbers are read in, so it is
one token where nothing else stands.
-/
namespace ProtoSchema.Lexicon

open scoped Computability

variable {w : List Char} {kind : TokenKind} {text : Text} {p : Char → Prop}
  {K L : Language Char}

/-! ## Shapes are runs -/

theorem isNumberChar_of_isAlphanum {c : Char} (h : c.isAlphanum = true) :
    Lexeme.isNumberChar c = true ∨ Lexeme.isExponentMark c = true := by
  simp only [Lexeme.isNumberChar, Lexeme.isExponentMark, h, Bool.true_or, Bool.true_and,
    Bool.and_eq_true, Bool.or_eq_true, decide_eq_true_eq]
  tauto

theorem isAlphanum_of_isHexDigit {c : Char} (h : Numeral.isHexDigit c = true) :
    c.isAlphanum = true := by
  rw [Numeral.isHexDigit_iff] at h
  have bounds : c.isAlphanum = (decide (c.val ≥ 65 ∧ c.val ≤ 90) ||
      (decide (c.val ≥ 97) && decide (c.val ≤ 122)) ||
      (decide (c.val ≥ 48) && decide (c.val ≤ 57))) := rfl
  simp only [bounds, Bool.or_eq_true, Bool.and_eq_true, decide_eq_true_eq,
    UInt32.le_iff_toNat_le, ge_iff_le]
  change ((0x41 ≤ c.toNat ∧ c.toNat ≤ 0x5A) ∨ (0x61 ≤ c.toNat ∧ c.toNat ≤ 0x7A)) ∨
    (0x30 ≤ c.toNat ∧ c.toNat ≤ 0x39)
  omega

theorem isAlphanum_of_isDigit {c : Char} (h : c.isDigit = true) : c.isAlphanum = true :=
  isAlphanum_of_isHexDigit (Numeral.isHexDigit_of_isDigit h)

theorem one_le_runParts (h : ∀ c, p c → c.isAlphanum = true) : one p ≤ runPart∗ := by
  rintro _ ⟨c, hc, rfl⟩
  refine (le_kstar : runPart ≤ runPart∗) (mem_runPart.mpr ?_)
  rcases isNumberChar_of_isAlphanum (h c hc) with hc | hc
  · exact .inl ⟨c, hc, rfl⟩
  · exact .inr (.inl ⟨c, hc, rfl⟩)

theorem mul_le_runParts (hK : K ≤ runPart∗) (hL : L ≤ runPart∗) : K * L ≤ runPart∗ :=
  (mul_le_mul' hK hL).trans (kstar_mul_kstar runPart).le

theorem star_le_runParts (hL : L ≤ runPart∗) : L∗ ≤ runPart∗ :=
  (kstar_mono hL).trans (kstar_idem runPart).le

theorem optional_le_runParts (hL : L ≤ runPart∗) : 1 + L ≤ runPart∗ :=
  add_le one_le_kstar hL

theorem point_le_runParts : ({['.']} : Language Char) ≤ runPart∗ := by
  rintro _ rfl
  exact (le_kstar : runPart ≤ runPart∗) (mem_runPart.mpr (.inl ⟨'.', by decide, rfl⟩))

theorem digits_le_runParts : digits ≤ runPart∗ :=
  have digit := one_le_runParts (p := (·.isDigit)) fun _ => isAlphanum_of_isDigit
  mul_le_runParts digit (star_le_runParts digit)

theorem exponent_le_runParts : exponent ≤ runPart∗ := by
  have marked : exponentMark * (1 + sign) ≤ runPart := le_add_self
  rw [exponent, ← mul_assoc]
  exact mul_le_runParts (marked.trans le_kstar) digits_le_runParts

/-- A shape that starts with a digit and goes on with parts of a run is a numeric run. -/
theorem one_mul_le (hp : ∀ c, p c → c.isDigit = true) (hL : L ≤ runPart∗) :
    one p * L ≤ numericRun := by
  intro w hw
  obtain ⟨c, u, hc, hu, rfl⟩ := mem_one_mul.mp hw
  exact mem_numericRun.mpr ⟨c, u, hp c hc, hL hu, .inl rfl⟩

/-- A shape that starts with a point and a digit is a numeric run. -/
theorem point_mul_le (hp : ∀ c, p c → c.isDigit = true) (hL : L ≤ runPart∗) :
    {['.']} * (one p * L) ≤ numericRun := by
  intro w hw
  obtain ⟨v, hv, rfl⟩ := mem_singleton_mul.mp hw
  obtain ⟨c, u, hc, hu, rfl⟩ := mem_one_mul.mp hv
  exact mem_numericRun.mpr ⟨c, u, hp c hc, hL hu, .inr rfl⟩

/-- An integer is a digit and what may go on a run. -/
theorem integerShape_le : integerShape ≤ numericRun := by
  have zero : ({['0']} : Language Char) = one (· = '0') := by
    ext w
    exact ⟨fun hw => ⟨'0', rfl, hw⟩, fun ⟨c, hc, hw⟩ => hc ▸ hw⟩
  have hexadecimal := one_le_runParts (p := (Numeral.isHexDigit ·)) fun _ =>
    isAlphanum_of_isHexDigit
  rw [integerShape, zero]
  refine add_le (add_le (one_mul_le (fun c hc => hc.1) ?_) (one_mul_le ?_ ?_))
    (one_mul_le ?_ ?_)
  · exact star_le_runParts (one_le_runParts fun _ => isAlphanum_of_isDigit)
  · rintro _ rfl
    rfl
  · exact star_le_runParts (one_le_runParts fun _ hc =>
      isAlphanum_of_isHexDigit (Numeral.isHexDigit_of_isOctalDigit hc))
  · rintro _ rfl
    rfl
  · refine mul_le_runParts (one_le_runParts ?_)
      (mul_le_runParts hexadecimal (star_le_runParts hexadecimal))
    simp only [List.mem_cons, List.not_mem_nil, or_false]
    rintro c (rfl | rfl) <;> rfl

/-- A fraction is a digit, with a point in front or not, and what may go on a run. -/
theorem realShape_le : realShape ≤ numericRun := by
  have digit := one_le_runParts (p := (·.isDigit)) fun _ => isAlphanum_of_isDigit
  have star := star_le_runParts digit
  have optional := optional_le_runParts exponent_le_runParts
  rw [realShape, digits]
  simp only [mul_assoc]
  refine add_le (add_le (one_mul_le (fun _ => id) ?_) (one_mul_le (fun _ => id) ?_))
    (point_mul_le (fun _ => id) ?_)
  · exact mul_le_runParts star
      (mul_le_runParts point_le_runParts (mul_le_runParts star optional))
  · exact mul_le_runParts star exponent_le_runParts
  · exact mul_le_runParts star optional

/-! ## Shapes exclude one another -/

/-- Behind the first digits of an integer stands nothing, or the mark of base sixteen. -/
theorem dropWhile_of_isIntegerShape (h : Numeral.isIntegerShape w = true) :
    ∀ c ∈ (w.dropWhile Char.isDigit).head?, c ∈ ['x', 'X'] := by
  have digits {ds : List Char} (hds : ∀ d ∈ ds, d.isDigit = true) :
      ∀ c ∈ (ds.dropWhile Char.isDigit).head?, c ∈ ['x', 'X'] := by
    rw [List.dropWhile_eq_nil_iff.mpr hds]
    nofun
  unfold Numeral.isIntegerShape at h
  split at h
  · rintro c ⟨⟩
    decide
  · rintro c ⟨⟩
    decide
  · refine digits (List.forall_mem_cons.mpr ⟨rfl, fun d hd => ?_⟩)
    rw [Numeral.isDigit_iff]
    have := Numeral.isOctalDigit_iff.mp (List.all_eq_true.mp h d hd)
    omega
  · exact digits (by simpa using h)
  · cases h

/-- No text is both an integer and a fraction. -/
theorem not_isRealShape (h : Numeral.isIntegerShape w = true) :
    Numeral.isRealShape w = false := by
  rw [Bool.eq_false_iff]
  intro hr
  have head := dropWhile_of_isIntegerShape h
  rcases Numeral.isRealShape_cases hr with ⟨rest, hrest, -, -⟩ | ⟨hexp, -⟩
  · rw [hrest] at head
    exact absurd (head '.' rfl) (by decide)
  · obtain ⟨e, u, he, -, hw⟩ := mem_exponentMark_mul.mp (isExponentShape_iff.mp hexp)
    rw [hw] at head
    have other : ∀ c ∈ ['x', 'X'], Lexeme.isExponentMark c = false :=
      List.forall_iff_forall_mem.mp (by decide)
    rw [other e (head e rfl)] at he
    cases he

/-! ## A lexeme where nothing else stands -/

/-- Behind characters of one line the column has grown by their number. -/
theorem positionAfter_of_newline_notMem (h : '\n' ∉ w) :
    positionAfter w = ⟨1, 1 + w.length⟩ := by
  have column : w.reverse.takeWhile (· ≠ '\n') = w.reverse := by
    rw [List.takeWhile_eq_self_iff]
    rintro c hc
    rw [List.mem_reverse] at hc
    simpa using fun heq : c = '\n' => h (heq ▸ hc)
  rw [positionAfter, column, List.count_eq_zero.mpr h, List.length_reverse]

/-- The source of a lexeme alone is its token. -/
theorem tokenize_lexeme (h : IsLexeme w kind text) : tokenize w =
    .ok [tokenOf kind text ⟨1, 1⟩, tokenOf .endOfInput [] ⟨1, 1 + w.length⟩] := by
  have finish : Tiling w [] _ none := .finish (longestTrivia_of_stuck .nil stuck_nil)
  have tile : Tiling [] ([] ++ (w ++ [])) _ none := h.tile .nil nofun (fun _ => nofun) finish
  have front : w.head? ≠ some '\uFEFF' := by
    obtain ⟨c, u, rfl, hc, -⟩ := h.head
    rintro ⟨⟩
    exact hc (.head _)
  have start : positionAfter [] = ⟨1, 1⟩ := rfl
  simp only [List.nil_append, List.append_nil] at tile
  rw [tile.tokenize (unmarked_eq front)]
  simp only [List.map_cons, List.map_nil, start,
    positionAfter_of_newline_notMem h.newline_notMem]

/-- The source of a number alone is its token. -/
theorem tokenize_number (h : TokenKind.ofNumber w ≠ .malformedNumber) : tokenize w =
    .ok [⟨.ofNumber w, Text.ofChars w, ⟨1, 1⟩, false⟩,
      ⟨.endOfInput, [], ⟨1, 1 + w.length⟩, false⟩] := by
  have kind := ofNumber_iff.mp (rfl : TokenKind.ofNumber w = _)
  have run : w ∈ numericRun := by
    generalize TokenKind.ofNumber w = kind at h kind
    cases kind with
    | integer hw => exact integerShape_le hw
    | real _ hw => exact realShape_le hw
    | malformed _ _ => exact absurd rfl h
  have other : TokenKind.ofNumber w ≠ .identifier := by
    generalize TokenKind.ofNumber w = kind at kind
    cases kind <;> nofun
  rw [tokenize_lexeme (.number run kind)]
  simp [tokenOf, other]

end ProtoSchema.Lexicon
