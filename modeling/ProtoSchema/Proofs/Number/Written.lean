import Mathlib.Data.List.TakeWhile
import ProtoSchema.Proofs.Number.Digits
import ProtoSchema.Proofs.Number.Rank

/-!
# Decimals in writing

A decimal that is set out, in either way, denotes a decimal of the same value: only zeros at
the end of its digits come and go.
-/
namespace ProtoSchema.Binary64

open Numeral (ofDigits readExponent?)

variable {c : Char} {ds ws fs cs : List Char} {n m k : ℕ} {x e : ℤ}

/-! ## Digits -/

theorem isDigit_of_mem_toDigits : ∀ c ∈ Nat.toDigits 10 n, c.isDigit = true := fun _ =>
  Nat.isDigit_of_mem_toDigits (by decide) (by decide)

@[simp] theorem ofDigits_toDigits (n : ℕ) : ofDigits 10 (Nat.toDigits 10 n) = n :=
  Numeral.ofDigits_toDigits (by decide) (by decide) n

theorem isDigit_of_mem_zeros : ∀ c ∈ List.replicate k '0', c.isDigit = true := by
  intro c hc
  rw [List.eq_of_mem_replicate hc]
  decide

theorem ofDigits_append_zeros (ds : List Char) (k : ℕ) :
    ofDigits 10 (ds ++ List.replicate k '0') = ofDigits 10 ds * 10 ^ k := by
  induction k with
  | zero => simp
  | succ k ih =>
    rw [List.replicate_succ', ← List.append_assoc, ofDigits, List.foldl_append,
      ← ofDigits, ih,
      Nat.pow_succ, ← Nat.mul_assoc]
    rfl

/-- A number above zero has no zero in front. -/
theorem exists_toDigits (hn : 0 < n) : ∃ d ds, Nat.toDigits 10 n = d :: ds ∧ d ≠ '0' := by
  induction n using Nat.strongRecOn with
  | ind n ih =>
    rcases Nat.lt_or_ge n 10 with small | large
    · have digit : ∀ n < 10, 0 < n → n.digitChar ≠ '0' := by decide
      exact ⟨_, [], Nat.toDigits_of_lt_base small, digit n small hn⟩
    · obtain ⟨d, ds, hds, hd⟩ := ih (n / 10) (by omega) (by omega)
      rw [Nat.toDigits_of_base_le (by decide) large, hds]
      exact ⟨d, _, rfl, hd⟩

/-- The digits of a whole number, without needless zeros in front. -/
inductive IsWhole : List Char → Prop
  | zero : IsWhole ['0']
  | digits {c : Char} {ds : List Char} : c ≠ '0' → (∀ d ∈ c :: ds, d.isDigit = true) →
    IsWhole (c :: ds)

theorem IsWhole.isDigit (h : IsWhole ds) : ∀ c ∈ ds, c.isDigit = true := by
  cases h with
  | zero => exact List.forall_mem_singleton.mpr rfl
  | digits _ hds => exact hds

theorem IsWhole.ne_nil (h : IsWhole ds) : ds ≠ [] := by
  cases h <;> simp

theorem isWhole_toDigits (n : ℕ) : IsWhole (Nat.toDigits 10 n) := by
  rcases Nat.eq_zero_or_pos n with rfl | hn
  · exact .zero
  · obtain ⟨d, ds, hds, hd⟩ := exists_toDigits hn
    have digits := isDigit_of_mem_toDigits (n := n)
    rw [hds] at digits ⊢
    exact .digits hd digits

/-- The zeros at the end of digits are not significant. -/
theorem exists_significant (ds : List Char) :
    ∃ k, ds = significant ds ++ List.replicate k '0' := by
  have zeros := List.eq_replicate_of_mem (a := '0') (l := ds.reverse.takeWhile (· = '0'))
    fun c hc => by simpa using List.mem_takeWhile_imp hc
  refine ⟨(ds.reverse.takeWhile (· = '0')).length, ?_⟩
  rw [← List.reverse_replicate, ← zeros, significant, ← List.reverse_append,
    List.takeWhile_append_dropWhile, List.reverse_reverse]

/-- The first digit of a number above zero is significant. -/
theorem exists_significant_toDigits (h : 0 < n) : ∃ c ds k, c ≠ '0' ∧
    significant (Nat.toDigits 10 n) = c :: ds ∧
    Nat.toDigits 10 n = c :: ds ++ List.replicate k '0' := by
  obtain ⟨k, hk⟩ := exists_significant (Nat.toDigits 10 n)
  obtain ⟨c, cs, hn, hc⟩ := exists_toDigits h
  rw [hn] at hk ⊢
  cases hs : significant (c :: cs) with
  | nil =>
    rw [hs] at hk
    cases k with
    | zero => simp at hk
    | succ k => exact absurd (List.cons.inj hk).1 hc
  | cons d ds =>
    rw [hs] at hk
    obtain rfl : c = d := (List.cons.inj hk).1
    exact ⟨c, ds, k, hc, rfl, hk⟩

/-! ## Decimals -/

/-- Nothing, or the text of an exponent. -/
inductive IsExponent : List Char → ℤ → Prop
  | absent : IsExponent [] 0
  | present (e : ℤ) : IsExponent (exponentText e) e

/-- The texts of reals: digits with a point among them or with an exponent, and the decimals
that they denote. -/
inductive Written : List Char → Decimal → Prop
  | point {ws fs cs : List Char} {e : ℤ} : IsWhole ws → fs ≠ [] →
    (∀ c ∈ fs, c.isDigit = true) → IsExponent cs e →
    Written (ws ++ '.' :: (fs ++ cs)) ⟨ofDigits 10 (ws ++ fs), e - fs.length⟩
  | scaled {ws : List Char} {e : ℤ} : IsWhole ws →
    Written (ws ++ exponentText e) ⟨ofDigits 10 ws, e⟩

theorem Written.of_eq {cs cs' : List Char} {n n' : ℕ} {x x' : ℤ} (h : Written cs ⟨n, x⟩)
    (hcs : cs = cs') (hn : n = n') (hx : x = x') : Written cs' ⟨n', x'⟩ := by
  subst hcs hn hx
  exact h

/-- Digits with a point among them or behind them, which may take zeros to reach it, write the
number they stand for. -/
theorem positional_written (hc : c ≠ '0') (h : ∀ d ∈ c :: ds, d.isDigit = true) (place : ℤ) :
    ∃ j : ℕ,
    Written (positional (c :: ds) place)
      ⟨ofDigits 10 (c :: ds) * 10 ^ j, place - (c :: ds).length - j⟩ := by
  unfold positional
  split
  · -- All digits stand behind the point.
    next hplace =>
    obtain ⟨k, rfl⟩ : ∃ k : ℕ, place = -k := ⟨(-place).toNat, by omega⟩
    have fraction : ∀ d ∈ List.replicate k '0' ++ c :: ds, d.isDigit = true := fun d hd =>
      (List.mem_append.mp hd).elim (isDigit_of_mem_zeros d) (h d)
    have written := Written.point .zero (by simp) fraction .absent
    have value : ofDigits 10 (['0'] ++ (List.replicate k '0' ++ c :: ds)) =
        ofDigits 10 (c :: ds) :=
      Numeral.ofDigits_zeros_append 10 (k + 1) (c :: ds)
    refine ⟨0, written.of_eq (by simp) (by rw [value, Nat.pow_zero, Nat.mul_one]) ?_⟩
    rw [List.length_append, List.length_replicate]
    omega
  · next hplace =>
    obtain ⟨p, rfl⟩ : ∃ p : ℕ, place = p + 1 := ⟨(place - 1).toNat, by omega⟩
    have number : ((p : ℤ) + 1).toNat = p + 1 := by omega
    simp only [number, List.isEmpty_iff]
    split
    · -- All digits stand before the point, with zeros behind them.
      next hfraction =>
      have short : (c :: ds).length ≤ p + 1 := List.drop_eq_nil_iff.mp hfraction
      obtain ⟨k, hk⟩ : ∃ k, p + 1 = (c :: ds).length + k :=
        ⟨_, (Nat.add_sub_cancel' short).symm⟩
      have zeros : p + 1 - (c :: ds).length = k := by omega
      have whole : IsWhole (c :: ds ++ List.replicate k '0') := .digits hc fun d hd =>
        (List.mem_append.mp hd).elim (h d) (isDigit_of_mem_zeros d)
      have written :=
        Written.point whole (List.cons_ne_nil '0' [])
          (List.forall_mem_singleton.mpr rfl) .absent
      have value := ofDigits_append_zeros (c :: ds) (k + 1)
      rw [List.replicate_succ', ← List.append_assoc] at value
      rw [List.take_of_length_le short, zeros]
      refine ⟨k + 1, written.of_eq rfl value ?_⟩
      rw [List.length_singleton]
      omega
    · -- The point stands among the digits.
      next hfraction =>
      have long : p + 1 < (c :: ds).length := by
        rw [List.drop_eq_nil_iff] at hfraction
        omega
      have length : ((c :: ds).take (p + 1)).length = p + 1 := List.length_take_of_le long.le
      have whole : IsWhole ((c :: ds).take (p + 1)) :=
        .digits hc fun d hd => h d (List.mem_of_mem_take (i := p + 1) hd)
      have written :=
        Written.point whole hfraction (fun d hd => h d (List.mem_of_mem_drop hd)) .absent
      rw [List.take_append_drop] at written
      refine ⟨0, written.of_eq ?_ (by simp) ?_⟩
      · rw [length, Nat.sub_self, List.replicate_zero, List.append_nil, List.append_nil]
      · rw [List.length_drop]
        omega

/-- One digit before the point and an exponent write the number the digits stand for. -/
theorem scientific_written (hc : c ≠ '0') (h : ∀ d ∈ c :: ds, d.isDigit = true) (place : ℤ) :
    Written (scientific (c :: ds) place)
      ⟨ofDigits 10 (c :: ds), place - (c :: ds).length⟩ := by
  have whole : IsWhole [c] := .digits hc fun d hd => h d (by simp_all)
  cases ds with
  | nil => exact .scaled whole
  | cons d ds =>
    have fraction : ∀ b ∈ d :: ds, b.isDigit = true :=
      fun b hb => h b (List.mem_cons_of_mem c hb)
    have written :=
      Written.point whole (List.cons_ne_nil d ds) fraction (.present (place - 1))
    refine written.of_eq (by simp [scientific]) rfl ?_
    simp only [List.length_cons]
    omega

/-- A decimal that is set out denotes one that is rounded alike. -/
theorem Layout.decimal_written (layout : Layout) {d : Decimal} (h : 0 < d.digits) :
    ∃ d', Written (layout.decimal d) d' ∧ d'.rank = d.rank := by
  obtain ⟨n, x⟩ := d
  obtain ⟨c, ds, k, hc, hds, hk⟩ := exists_significant_toDigits h
  have digits : ∀ d ∈ c :: ds ++ List.replicate k '0', d.isDigit = true :=
    hk ▸ isDigit_of_mem_toDigits
  have value : n = ofDigits 10 (c :: ds) * 10 ^ k := by
    rw [← ofDigits_append_zeros, ← hk, ofDigits_toDigits]
  have length : (Nat.toDigits 10 n).length = (c :: ds).length + k := by
    rw [hk, List.length_append, List.length_replicate]
  simp only [Layout.decimal, length, hds]
  have positive : 0 < ofDigits 10 (c :: ds) := Nat.pos_of_mul_pos_right (value ▸ h)
  have rank (j : ℕ) : Decimal.rank ⟨ofDigits 10 (c :: ds) * 10 ^ j, x + k - j⟩ =
      Decimal.rank ⟨n, x⟩ := by
    rw [Decimal.rank_mul_pow positive, ← Decimal.rank_mul_pow positive k, ← value,
      Int.add_sub_cancel]
  have place : x + ((c :: ds).length + k : ℕ) - (c :: ds).length = x + k := by
    push_cast
    ring
  have first : ∀ d ∈ c :: ds, d.isDigit = true :=
    fun d hd => digits d (List.mem_append_left _ hd)
  split
  · obtain ⟨j, written⟩ := positional_written hc first (x + ((c :: ds).length + k : ℕ))
    rw [place] at written
    exact ⟨_, written, rank j⟩
  · have written := scientific_written hc first (x + ((c :: ds).length + k : ℕ))
    rw [place] at written
    refine ⟨_, written, ?_⟩
    have same := rank 0
    rwa [Nat.pow_zero, Nat.mul_one, Int.natCast_zero, Int.sub_zero] at same

theorem shortest_pos {rank : ℕ} (h : 0 < rank) (hlt : rank < rankLimit) :
    0 < (shortest rank).digits := by
  rw [Nat.pos_iff_ne_zero]
  intro zero
  have same := shortest_rank h hlt
  rw [Decimal.rank, if_pos (.inl zero)] at same
  exact h.ne same

/-- The text of a finite double denotes a decimal that is rounded to it. -/
theorem Layout.text_written (layout : Layout) (negative : Bool)
    (rank : Fin rankLimit) : ∃ cs d,
    layout.text (.finite negative rank) = (if negative then '-' :: cs else cs) ∧
    Written cs d ∧
      ofDecimal negative d = .finite negative rank := by
  have rounded {d : Decimal} (h : d.rank = rank) :
      ofDecimal negative d = .finite negative rank := by
    simp [ofDecimal, h]
  by_cases zero : rank.val = 0
  · have written : Written ['0', '.', '0'] _ :=
      .point .zero (List.cons_ne_nil '0' []) (List.forall_mem_singleton.mpr rfl) .absent
    refine ⟨_, _, by rw [Layout.text, if_pos zero], written, rounded ?_⟩
    rw [Decimal.rank, if_pos (.inl rfl), zero]
  · obtain ⟨d, written, same⟩ :=
      layout.decimal_written (shortest_pos (Nat.pos_of_ne_zero zero) rank.isLt)
    refine ⟨_, d, by rw [Layout.text, if_neg zero], written, rounded ?_⟩
    rw [same, shortest_rank (Nat.pos_of_ne_zero zero) rank.isLt]

end ProtoSchema.Binary64
