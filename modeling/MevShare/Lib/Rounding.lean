import Mathlib.Algebra.Order.Ring.Int
import Mathlib.Order.Bounds.Basic
import Mathlib.Tactic.Common
/-!
# Rounding to significant digits

A number rounded up to `p` significant digits in some base is the least one from
there on that can be written with `p` digits and trailing zeros. The rounding
divides by the power of the base that leaves `p` digits; it may carry into a new
digit, and the number is then a power of the base.
-/

namespace Lib

/-- `p` digits in base `b`, followed by zeros. -/
def Significant (b : ℤ) (p : ℕ) (m : ℤ) : Prop := ∃ (k : ℤ) (e : ℕ), 0 ≤ k ∧ k < b ^ p ∧ m = k * b ^ e

/-- The quotient, rounded up. -/
def ceilQuotient (n a : ℤ) : ℤ := if n / a * a ≠ n then n / a + 1 else n / a

variable {a b n k : ℤ} {p d : ℕ}

theorem ceilQuotient_le_iff (ha : 0 < a) : ceilQuotient n a ≤ k ↔ n ≤ k * a := by
  have hlow : n / a * a ≤ n := Int.ediv_mul_le n ha.ne'
  have hhigh : n < (n / a + 1) * a := Int.lt_ediv_add_one_mul_self n ha
  unfold ceilQuotient
  split
  · rename_i hne
    constructor
    · intro h
      exact hhigh.le.trans (mul_le_mul_of_nonneg_right h ha.le)
    · intro h
      exact lt_of_mul_lt_mul_right (lt_of_lt_of_le (lt_of_le_of_ne hlow hne) h) ha.le
  · rename_i heq
    rw [not_not] at heq
    constructor
    · intro h
      rw [← heq]
      exact mul_le_mul_of_nonneg_right h ha.le
    · intro h
      rw [← heq] at h
      exact le_of_mul_le_mul_right h ha

theorem le_ceilQuotient_mul (ha : 0 < a) : n ≤ ceilQuotient n a * a := (ceilQuotient_le_iff ha).1 le_rfl

theorem isLeast_significant_self (hn : 0 ≤ n) (h : n < b ^ p) : IsLeast {m | n ≤ m ∧ Significant b p m} n :=
  ⟨⟨le_rfl, n, 0, hn, h, by rw [pow_zero, mul_one]⟩, fun _ hm => hm.1⟩

/-- A number of `d` digits is rounded up by keeping `p` of them. -/
theorem isLeast_significant_ceil (hb : 1 < b) (hp : 1 ≤ p) (hd : p ≤ d) (hlow : b ^ d ≤ n) (hhigh : n < b ^ (d + 1)) :
    IsLeast {m | n ≤ m ∧ Significant b p m} (ceilQuotient n (b ^ (d + 1 - p)) * b ^ (d + 1 - p)) := by
  have hb0 : 0 < b := by omega
  have hpow : ∀ e : ℕ, 0 < b ^ e := fun e => pow_pos hb0 e
  refine ⟨⟨le_ceilQuotient_mul (hpow _), ?_⟩, ?_⟩
  · have hpos : 0 ≤ ceilQuotient n (b ^ (d + 1 - p)) := by
      by_contra hneg
      have h := le_ceilQuotient_mul (n := n) (hpow (d + 1 - p))
      have hle := mul_nonpos_of_nonpos_of_nonneg (not_le.1 hneg).le (hpow (d + 1 - p)).le
      have hn := (hpow d).trans_le hlow
      omega
    have hle : ceilQuotient n (b ^ (d + 1 - p)) ≤ b ^ p := by
      rw [ceilQuotient_le_iff (hpow _), ← pow_add]
      exact hhigh.le.trans (le_of_eq (by congr 1; omega))
    rcases hle.lt_or_eq with hlt | heq
    · exact ⟨_, _, hpos, hlt, rfl⟩
    · -- the carry: the digits that are kept were all the highest one
      refine ⟨1, d + 1, zero_le_one, one_lt_pow₀ hb (by omega), ?_⟩
      rw [heq, ← pow_add, one_mul]
      congr 1
      omega
  · rintro m ⟨hnm, k, e, hk, hkp, rfl⟩
    -- fewer zeros than the rounding leaves would make the number too small
    have he : d + 1 - p ≤ e := by
      by_contra he
      have hsmall : k * b ^ e < b ^ p * b ^ e := mul_lt_mul_of_pos_right hkp (hpow e)
      have hbig : b ^ p * b ^ e ≤ b ^ d := by
        rw [← pow_add]
        exact pow_le_pow_right₀ hb.le (by omega)
      omega
    have hsplit : k * b ^ e = k * b ^ (e - (d + 1 - p)) * b ^ (d + 1 - p) := by
      rw [mul_assoc, ← pow_add]
      congr 2
      omega
    rw [hsplit] at hnm ⊢
    exact mul_le_mul_of_nonneg_right ((ceilQuotient_le_iff (hpow _)).2 hnm) (hpow _).le

end Lib
