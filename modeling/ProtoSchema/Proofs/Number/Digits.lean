import Mathlib.Algebra.Group.Nat.Defs
import ProtoSchema.Proofs.Numeral

/-!
# Digits

Digits that are written out denote the number they were made of, in every base up to sixteen.
Zeros in front and the case of letters make no difference.
-/
namespace ProtoSchema.Numeral

open Text (fixedHex)

variable {base : ℕ}

theorem ofDigits_concat (base : ℕ) (ds : List Char) (c : Char) :
    ofDigits base (ds ++ [c]) = ofDigits base ds * base + digitValue c := by
  rw [ofDigits, List.foldl_append]
  rfl

theorem digitValue_digitChar : ∀ d < 16, digitValue d.digitChar = d := by decide

theorem isHexDigit_digitChar : ∀ d < 16, isHexDigit d.digitChar = true := by decide

/-- Zeros in front do not count. -/
theorem ofDigits_zeros_append (base zeros : ℕ) (ds : List Char) :
    ofDigits base (List.replicate zeros '0' ++ ds) = ofDigits base ds := by
  have zero : digitValue '0' = 0 := by decide
  induction zeros with
  | zero => rfl
  | succ zeros ih =>
    rw [List.replicate_succ, List.cons_append, ← ih]
    simp only [ofDigits, List.foldl_cons, zero, Nat.zero_mul]

/-! ## All the digits of a number -/

/-- Digits written out denote what they were made of. -/
theorem ofDigits_toDigits (hb : 1 < base) (hb' : base ≤ 16) (n : ℕ) :
    ofDigits base (Nat.toDigits base n) = n := by
  induction n using Nat.strongRecOn with | ind n ih
  rcases Nat.lt_or_ge n base with small | large
  · rw [Nat.toDigits_of_lt_base small]
    simpa [ofDigits] using digitValue_digitChar n (by omega)
  · have last : n % base < base := Nat.mod_lt _ (by omega)
    rw [Nat.toDigits_of_base_le hb large, ofDigits_concat,
      ih _ (Nat.div_lt_self (by omega) hb),
      digitValue_digitChar _ (by omega), Nat.mul_comm, Nat.div_add_mod]

/-- What holds of the digits of a base holds of the digits of every number in it. -/
theorem forall_mem_toDigits {P : Char → Prop} (hb : 1 < base) (h : ∀ d < base, P d.digitChar)
    (n : ℕ) : ∀ c ∈ Nat.toDigits base n, P c := by
  induction n using Nat.strongRecOn with | ind n ih
  rcases Nat.lt_or_ge n base with small | large
  · rw [Nat.toDigits_of_lt_base small]
    exact List.forall_mem_singleton.mpr (h n small)
  · rw [Nat.toDigits_of_base_le hb large, List.forall_mem_append]
    exact ⟨ih _ (Nat.div_lt_self (by omega) hb),
      List.forall_mem_singleton.mpr (h _ (Nat.mod_lt _ (by omega)))⟩

/-! ## The last digits of a number -/

/-- A fixed number of hexadecimal digits write a number up to what they have no room for. -/
theorem ofDigits_fixedHex (w n : ℕ) : ofDigits 16 (fixedHex w n) = n % 16 ^ w := by
  induction w generalizing n with
  | zero => simp [fixedHex, ofDigits, Nat.mod_one]
  | succ w ih =>
    rw [fixedHex, ofDigits_concat, ih, digitValue_digitChar _ (Nat.mod_lt n (by decide)),
      Nat.pow_succ', Nat.mod_mul, Nat.add_comm, Nat.mul_comm]

theorem all_isHexDigit_fixedHex (w n : ℕ) : (fixedHex w n).all isHexDigit = true := by
  induction w generalizing n with
  | zero => rfl
  | succ w ih => simp [fixedHex, ih, isHexDigit_digitChar (n % 16) (Nat.mod_lt n (by decide))]

/-! ## Letters in either case -/

/-- The case of a letter makes no difference to its value. -/
theorem toLower_digit (c : Char) :
    digitValue c.toLower = digitValue c ∧ isHexDigit c.toLower = isHexDigit c := by
  have upper : ∀ k ∈ List.range' 0x41 26,
      digitValue (Char.ofNat k).toLower = digitValue (Char.ofNat k) ∧
        isHexDigit (Char.ofNat k).toLower = isHexDigit (Char.ofNat k) := by decide
  by_cases h : 0x41 ≤ c.toNat ∧ c.toNat ≤ 0x5A
  · rw [← Char.ofNat_toNat c]
    exact upper _ (List.mem_range'_1.mpr (by omega))
  · have same : c.toLower = c := dif_neg h
    rw [same]
    exact ⟨rfl, rfl⟩

/-- A digit has the same value in either case. -/
theorem ofDigits_map_toLower (base : ℕ) (ds : List Char) :
    ofDigits base (ds.map Char.toLower) = ofDigits base ds := by
  rw [ofDigits, List.foldl_map]
  simp only [(toLower_digit _).1]
  rfl

end ProtoSchema.Numeral
