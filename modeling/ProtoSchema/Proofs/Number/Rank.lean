import Mathlib.Tactic.Ring
import Mathlib.Tactic.NormNum
import ProtoSchema.Number.Shortest

/-!
# The rank of a decimal

A decimal is rounded by its value alone: zeros at the end of its digits do not matter. The
exact decimal of a magnitude is rounded to that magnitude, so the shortest one is too.
-/
namespace ProtoSchema.Binary64

variable {k m num den rank : ℕ} {x : ℤ}

/-! ## Ratios -/

theorem roundDiv_mul (hk : 0 < k) (num den : ℕ) :
    roundDiv (k * num) (k * den) = roundDiv num den := by
  have half : 2 * (k * (num % den)) = k * (2 * (num % den)) := by ring
  simp only [roundDiv, Nat.mul_div_mul_left _ _ hk, Nat.mul_mod_mul_left, half,
    Nat.mul_lt_mul_left hk, Nat.mul_right_inj hk.ne']

/-- The nearest rank of a fraction does not depend on how it is reduced. -/
theorem nearestRank_mul (hk : 0 < k) (num den : ℕ) :
    nearestRank (k * num) (k * den) = nearestRank num den := by
  have quotient : k * num * unitsInOne / (k * den) = num * unitsInOne / den := by
    rw [Nat.mul_assoc, Nat.mul_div_mul_left _ _ hk]
  simp only [nearestRank, quotient]
  rw [Nat.mul_assoc, Nat.mul_assoc, roundDiv_mul hk]

/-! ## Zeros at the end -/

theorem toDigits_mul_ten (hm : 0 < m) :
    Nat.toDigits 10 (m * 10) = Nat.toDigits 10 m ++ ['0'] := by
  have := Nat.toDigits_append_toDigits (b := 10) (by decide) hm (d := 0) (by decide)
  rw [Nat.add_zero, Nat.toDigits_zero, Nat.mul_comm] at this
  exact this.symm

theorem toDigits_mul_pow (hm : 0 < m) (k : ℕ) :
    Nat.toDigits 10 (m * 10 ^ k) = Nat.toDigits 10 m ++ List.replicate k '0' := by
  induction k with
  | zero => simp
  | succ k ih =>
    rw [Nat.pow_succ, ← Nat.mul_assoc, toDigits_mul_ten (by positivity), ih,
      List.append_assoc, List.replicate_succ']

theorem digitCount_mul_pow (hm : 0 < m) (k : ℕ) :
    digitCount (m * 10 ^ k) = digitCount m + k := by
  rw [digitCount, digitCount, toDigits_mul_pow hm, List.length_append, List.length_replicate]

/-- More zeros and a smaller exponent make no difference. -/
theorem Decimal.rank_mul_pow (hm : 0 < m) (k : ℕ) (x : ℤ) :
    Decimal.rank ⟨m * 10 ^ k, x - k⟩ = Decimal.rank ⟨m, x⟩ := by
  have place : x - k + (digitCount (m * 10 ^ k) : ℕ) = x + (digitCount m : ℕ) := by
    rw [digitCount_mul_pow hm]
    push_cast
    ring
  have positive : m * 10 ^ k ≠ 0 := by positivity
  simp only [Decimal.rank, place, positive, hm.ne', false_or, Nat.pow_eq]
  congr 2
  rcases le_or_gt (k : ℤ) x with hx | hx
  · -- Both exponents are at least zero.
    obtain ⟨n, rfl⟩ : ∃ n : ℕ, x = n + k := ⟨(x - k).toNat, by omega⟩
    have same : m * 10 ^ k * 10 ^ n = m * 10 ^ (n + k) := by ring
    rw [if_pos (by omega), if_pos (by omega), show ((n : ℤ) + k - k).toNat = n by omega,
      show ((n : ℤ) + k).toNat = n + k by omega, same]
  · rw [if_neg (by omega)]
    rcases le_or_gt 0 x with hx₀ | hx₀
    · obtain ⟨n, rfl⟩ : ∃ n : ℕ, x = n := ⟨x.toNat, by omega⟩
      obtain ⟨j, rfl⟩ : ∃ j : ℕ, k = n + j := ⟨k - n, by omega⟩
      have num : m * 10 ^ (n + j) = 10 ^ j * (m * 10 ^ n) := by ring
      have scaled := nearestRank_mul (k := 10 ^ j) (by positivity) (m * 10 ^ n) 1
      rw [Nat.mul_one] at scaled
      rw [if_pos (by omega), show (-((n : ℤ) - (n + j : ℕ))).toNat = j by omega,
        show (n : ℤ).toNat = n by omega, num, scaled]
    · obtain ⟨n, rfl⟩ : ∃ n : ℕ, x = -n := ⟨(-x).toNat, by omega⟩
      have den : 10 ^ (n + k) = 10 ^ k * 10 ^ n := by ring
      rw [if_neg (by omega), show (-(-(n : ℤ) - k)).toNat = n + k by omega,
        show (-(-(n : ℤ))).toNat = n by
        omega, den, Nat.mul_comm m, nearestRank_mul (by positivity)]

/-! ## The exact decimal -/

theorem units_pos (h : 0 < rank) : 0 < units rank := by
  rw [units, Nat.pow_eq]
  split
  · exact h
  · have : 0 < binade := by decide
    positivity

theorem roundDiv_exact {n : ℕ} (hn : 0 < n) (m : ℕ) : roundDiv (m * n) n = m := by
  simp [roundDiv, hn]

theorem unitsInOne_pos : 0 < unitsInOne := Nat.two_pow_pos 1074

/-- A whole number of units is rounded to its first 53 binary digits. -/
theorem nearestRank_unitsInOne (n : ℕ) : nearestRank n unitsInOne =
    (n.log2 - 52) * binade + roundDiv n (2 ^ (n.log2 - 52)) := by
  simp only [nearestRank, Nat.mul_div_cancel n unitsInOne_pos, Nat.pow_eq]
  rw [Nat.mul_comm n, roundDiv_mul unitsInOne_pos]

/-- A magnitude is the nearest to itself. -/
theorem nearestRank_units (rank : ℕ) : nearestRank (units rank) unitsInOne = rank := by
  rw [nearestRank_unitsInOne, units, Nat.pow_eq]
  split
  · next h =>
    have small : rank.log2 - 52 = 0 := by
      rcases Nat.eq_zero_or_pos rank with rfl | hr
      · rfl
      · have : rank.log2 < 52 := (Nat.log2_lt hr.ne').mpr h
        omega
    rw [small, Nat.zero_mul, Nat.zero_add, Nat.pow_zero]
    simpa using roundDiv_exact Nat.one_pos rank
  · next h =>
    have first : 0 < rank / binade := Nat.div_pos (Nat.le_of_not_lt h) (by decide)
    have rest : rank % binade < binade := Nat.mod_lt _ (by decide)
    have whole := Nat.div_add_mod rank binade
    generalize rank / binade = q at first whole
    generalize rank % binade = m at rest whole
    have binary : binade = 2 ^ 52 := rfl
    have log : ((binade + m) * 2 ^ (q - 1)).log2 = 52 + (q - 1) := by
      have positive : (binade + m) * 2 ^ (q - 1) ≠ 0 :=
        (Nat.mul_pos (by omega) (Nat.two_pow_pos _)).ne'
      rw [Nat.log2_eq_iff positive, Nat.add_right_comm, Nat.pow_add, Nat.pow_add]
      exact ⟨Nat.mul_le_mul_right _ (by omega), Nat.mul_lt_mul_of_pos_right (by omega)
        (by positivity)⟩
    rw [log, Nat.add_sub_cancel_left, roundDiv_exact (by positivity)]
    obtain ⟨p, rfl⟩ : ∃ p, q = p + 1 := ⟨q - 1, by omega⟩
    rw [Nat.add_sub_cancel, ← whole]
    ring

/-- Every magnitude is below this many units. -/
def unitLimit : ℕ := 2 ^ 53 * 2 ^ 2045

theorem units_lt (h : rank < rankLimit) : units rank < unitLimit := by
  have positive : 0 < 2 ^ 2045 := by decide +kernel
  rw [units, unitLimit, Nat.pow_eq]
  split
  · next hr =>
    have small : binade < 2 ^ 53 := by decide
    exact (hr.trans small).trans_le (Nat.le_mul_of_pos_right _ positive)
  · have rest : rank % binade < 2 ^ 52 := Nat.mod_lt _ (by decide)
    have first : rank / binade < 2047 := Nat.div_lt_of_lt_mul h
    have power : 2 ^ (rank / binade - 1) ≤ 2 ^ 2045 :=
      Nat.pow_le_pow_right (by decide) (by omega)
    have binary : binade = 2 ^ 52 := rfl
    exact Nat.mul_lt_mul_of_lt_of_le (by omega) power positive

/-- One unit is this many times `10 ^ -1074`. -/
def unitScale : ℕ := 5 ^ 1074

/-- The exact decimal counts the units, each of which is a whole number of the last places. -/
theorem exactDecimal_eq (rank : ℕ) : exactDecimal rank = ⟨units rank * unitScale, -1074⟩ := by
  rw [exactDecimal, unitScale, Nat.pow_eq]

theorem unitScale_pos : 0 < unitScale := by decide +kernel

/-- The exact decimal is rounded to the magnitude that it is. -/
theorem exactDecimal_rank (h : 0 < rank) (hlt : rank < rankLimit) :
    (exactDecimal rank).rank = rank := by
  have positive := units_pos h
  have low : ¬digitCount (units rank * unitScale) ≤ 743 := by
    rw [digitCount, Nat.length_toDigits_le_iff (by decide) (by decide), Nat.not_lt]
    refine Nat.le_trans ?_ (Nat.le_mul_of_pos_left unitScale positive)
    decide +kernel
  have high : digitCount (units rank * unitScale) ≤ 1384 := by
    rw [digitCount, Nat.length_toDigits_le_iff (by decide) (by decide)]
    refine Nat.lt_of_lt_of_le (Nat.mul_lt_mul_of_pos_right (units_lt hlt) unitScale_pos) ?_
    decide +kernel
  have ne : units rank * unitScale ≠ 0 := (Nat.mul_pos positive unitScale_pos).ne'
  rw [exactDecimal_eq, Decimal.rank]
  simp only [ne, false_or, Nat.pow_eq]
  rw [if_neg (by omega), if_neg (by omega), if_neg (by decide)]
  have scale : 10 ^ (-(-1074 : ℤ)).toNat = unitScale * unitsInOne := by decide +kernel
  rw [scale, Nat.mul_comm, nearestRank_mul unitScale_pos, nearestRank_units]

/-- The shortest decimal of a magnitude is read as that magnitude. -/
theorem shortest_rank (h : 0 < rank) (hlt : rank < rankLimit) :
    (shortest rank).rank = rank := by
  unfold shortest
  cases hfound : (List.range 17).findSome? fun n =>
      (neighbours rank (n + 1)).find? fun d => d.rank = rank with
  | none => exact exactDecimal_rank h hlt
  | some d =>
    obtain ⟨n, -, hn⟩ := List.exists_of_findSome?_eq_some hfound
    simpa using List.find?_some hn

end ProtoSchema.Binary64
