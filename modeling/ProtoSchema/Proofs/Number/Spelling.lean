import Mathlib.Data.List.Induction
import Mathlib.Data.Nat.Digits.Defs
import ProtoSchema.Proofs.Number.Written

/-!
# Spellings of whole numbers

A number has many spellings: in base ten without needless zeros, and in base eight or sixteen
behind the mark of the base, with zeros in front, the letters in either case. Each has the
shape of a whole number and is read as the number, unless it is too long.
-/
namespace ProtoSchema.Numeral

variable {n : ℕ} {c : Char} {cs ds : List Char}

/-- The number that digits denote by their places, the most significant first. -/
def positional (base : ℕ) (ds : List Char) : ℕ :=
  Nat.ofDigits base (ds.map digitValue).reverse

/-- The spellings of a number. -/
inductive Spells (n : ℕ) : List Char → Prop where
  | decimal : Spells n (Nat.toDigits 10 n)
  | octal (zeros : ℕ) : Spells n ('0' :: (List.replicate zeros '0' ++ Nat.toDigits 8 n))
  | hexadecimal {mark : Char} {ds : List Char} (zeros : ℕ) : mark ∈ ['x', 'X'] →
    ds.map Char.toLower = Nat.toDigits 16 n →
    Spells n ('0' :: mark :: (List.replicate zeros '0' ++ ds))

theorem ofDigits_eq_positional (base : ℕ) (ds : List Char) :
    ofDigits base ds = positional base ds := by
  induction ds using List.reverseRecOn with
  | nil => rfl
  | append_singleton ds c ih =>
    rw [ofDigits_concat, ih, positional, positional, List.map_append, List.reverse_append]
    simp only [List.map_cons, List.map_nil, List.reverse_singleton, List.singleton_append,
      Nat.ofDigits_cons]
    rw [Nat.mul_comm, Nat.add_comm]

/-! ## Shapes and their bases -/

theorem decimal_shape (hc : c ≠ '0') (h : ∀ d ∈ c :: ds, d.isDigit = true) :
    isIntegerShape (c :: ds) = true ∧ radix (c :: ds) = (10, c :: ds) := by
  refine ⟨?_, radix_decimal hc ds⟩
  unfold isIntegerShape
  split <;> simp_all

theorem octal_shape (hne : ds ≠ []) (h : ∀ d ∈ ds, isOctalDigit d = true) :
    isIntegerShape ('0' :: ds) = true ∧ radix ('0' :: ds) = (8, '0' :: ds) := by
  obtain ⟨d, ds, rfl⟩ := List.exists_cons_of_ne_nil hne
  have mark (m : Char) (hm : isOctalDigit m = false) : d ≠ m := by
    rintro rfl
    rw [h d (by simp)] at hm
    cases hm
  have hx := mark 'x' (by decide)
  have hX := mark 'X' (by decide)
  refine ⟨?_, radix_octal hx hX⟩
  rw [isIntegerShape.eq_3 _ (by simpa using hx) (by simpa using hX)]
  exact List.all_eq_true.mpr h

theorem hexadecimal_shape {mark : Char} (hm : mark ∈ ['x', 'X']) (hne : ds ≠ [])
    (h : ∀ d ∈ ds, isHexDigit d = true) :
    isIntegerShape ('0' :: mark :: ds) = true ∧ radix ('0' :: mark :: ds) = (16, ds) := by
  simp only [List.mem_cons, List.not_mem_nil, or_false] at hm
  rcases hm with rfl | rfl
  · exact ⟨by simpa [isIntegerShape] using ⟨hne, h⟩, rfl⟩
  · exact ⟨by simpa [isIntegerShape] using ⟨hne, h⟩, rfl⟩

/-! ## Spellings -/

theorem forall_mem_zeros {P : Char → Prop} (h : P '0') (zeros : ℕ) :
    ∀ d ∈ List.replicate zeros '0', P d := fun _ hd => List.eq_of_mem_replicate hd ▸ h

/-- A spelling has the shape of a whole number, and its digits denote what it spells. -/
theorem Spells.shape (h : Spells n cs) :
    isIntegerShape cs = true ∧ ofDigits (radix cs).1 (radix cs).2 = n := by
  cases h with
  | decimal =>
    have value : ofDigits 10 (Nat.toDigits 10 n) = n :=
      ofDigits_toDigits (by decide) (by decide) n
    generalize Nat.toDigits 10 n = ds, Binary64.isWhole_toDigits n = whole at value
    cases whole with
    | zero => exact ⟨rfl, value⟩
    | digits hc hds =>
      obtain ⟨shape, base⟩ := decimal_shape hc hds
      exact ⟨shape, by rw [base, value]⟩
  | octal zeros =>
    have octal : ∀ d ∈ List.replicate zeros '0' ++ Nat.toDigits 8 n, isOctalDigit d = true :=
      List.forall_mem_append.mpr ⟨forall_mem_zeros (by decide) zeros,
        forall_mem_toDigits (by decide) (by decide) n⟩
    have value : ofDigits 8 ('0' :: (List.replicate zeros '0' ++ Nat.toDigits 8 n)) = n :=
      (ofDigits_zeros_append 8 (zeros + 1) _).trans
        (ofDigits_toDigits (by decide) (by decide) n)
    obtain ⟨shape, base⟩ := octal_shape (by simp [Nat.toDigits_ne_nil]) octal
    exact ⟨shape, by rw [base, value]⟩
  | @hexadecimal mark ds zeros hm hds =>
    have ne_nil : ds ≠ [] := by
      rintro rfl
      exact Nat.toDigits_ne_nil hds.symm
    have digit : ∀ d ∈ ds, isHexDigit d = true := by
      intro d hd
      rw [← (toLower_digit d).2]
      have all :=
        forall_mem_toDigits (P := (isHexDigit · = true)) (by decide) isHexDigit_digitChar n
      exact all _ (hds ▸ List.mem_map_of_mem hd)
    have value : ofDigits 16 (List.replicate zeros '0' ++ ds) = n := by
      rw [ofDigits_zeros_append, ← ofDigits_map_toLower, hds,
        ofDigits_toDigits (by decide) (by decide)]
    obtain ⟨shape, base⟩ := hexadecimal_shape hm (by simp [ne_nil])
      (List.forall_mem_append.mpr ⟨forall_mem_zeros (by decide) zeros, digit⟩)
    exact ⟨shape, by rw [base, value]⟩

/-- A spelling that is short enough is read as what it spells. -/
theorem Spells.readLiteral {limit : Option ℕ} (h : Spells n cs) (hfits : Fits limit cs) :
    readLiteral (Text.ofChars cs) limit = .ok n := by
  rw [readLiteral_of_fits h.shape.1 hfits, h.shape.2]

end ProtoSchema.Numeral
