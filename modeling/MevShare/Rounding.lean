import MevShare.Hints
import MevShare.Lib.Rounding
/-!
# What the numbers of a hint give away

`RoundUpWithPrecision` counts the digits in the decimal text and keeps the first
ones. For a number that is not negative the result is the least number from
there on with that many significant digits, and a hint contains the gas price
and the gas used only in this form.
-/
open Lib

namespace MevShare

variable {n : Int} {p : Nat}

/-- The length of the decimal text says between which powers of ten a number is. -/
theorem length_toString_le_iff {k : Nat} (hn : 0 ≤ n) (hk : 0 < k) : (toString n).length ≤ k ↔ n < 10 ^ k := by
  obtain ⟨m, rfl⟩ := Int.eq_ofNat_of_zero_le hn
  have hcast : (m : Int) < 10 ^ k ↔ m < 10 ^ k := by norm_cast
  rw [hcast]
  exact Nat.length_repr_le_iff hk

theorem roundUpWithPrecision_isLeast (hn : 0 ≤ n) (hp : 1 ≤ p) :
    IsLeast {m | n ≤ m ∧ Significant 10 p m} (roundUpWithPrecision n p) := by
  unfold roundUpWithPrecision
  by_cases hlen : (toString n).length ≤ p
  · simp only [hlen, ↓reduceIte]
    exact isLeast_significant_self hn ((length_toString_le_iff hn hp).1 hlen)
  · simp only [hlen, ↓reduceIte]
    obtain ⟨d, hd⟩ : ∃ d, (toString n).length = d + 1 := Nat.exists_eq_succ_of_ne_zero (by omega)
    have hhigh : n < 10 ^ (d + 1) := (length_toString_le_iff hn (Nat.succ_pos d)).1 hd.le
    have hlow : 10 ^ d ≤ n := by
      rw [← not_lt, ← length_toString_le_iff hn (by omega : 0 < d)]
      omega
    rw [hd]
    exact isLeast_significant_ceil (by decide) hp (by omega) hlow hhigh

theorem roundUpWithPrecision_mono {n' : Int} (hn : 0 ≤ n) (hp : 1 ≤ p) (h : n ≤ n') :
    roundUpWithPrecision n p ≤ roundUpWithPrecision n' p := by
  refine (roundUpWithPrecision_isLeast (hn.trans h) hp).mono (roundUpWithPrecision_isLeast hn hp) ?_
  rintro m ⟨hm, hsig⟩
  exact ⟨h.trans hm, hsig⟩

theorem roundUpWithPrecision_idem (hn : 0 ≤ n) (hp : 1 ≤ p) :
    roundUpWithPrecision (roundUpWithPrecision n p) p = roundUpWithPrecision n p := by
  obtain ⟨⟨hle, hsig⟩, -⟩ := roundUpWithPrecision_isLeast hn hp
  refine (roundUpWithPrecision_isLeast (hn.trans hle) hp).unique ⟨⟨le_rfl, hsig⟩, ?_⟩
  rintro m ⟨hm, -⟩
  exact hm

/-- The two numbers of a simulation enter a hint through their rounding only. -/
theorem extractHints_of_rounded {D : Deps} {s s' : SimMevBundleResponse} (hlogs : s.bodyLogs = s'.bodyLogs)
    (hprice : roundUpWithPrecision s.mevGasPrice hintGasPriceNumberPrecisionDigits =
      roundUpWithPrecision s'.mevGasPrice hintGasPriceNumberPrecisionDigits)
    (hgas : roundUpWithPrecision s.gasUsed.toInt64.toInt hintGasNumberPrecisionDigits =
      roundUpWithPrecision s'.gasUsed.toInt64.toInt hintGasNumberPrecisionDigits)
    (bundle : SendMevBundleArgs) (shareGasUsed shareMevGasPrice : Bool) :
    extractHints D bundle s shareGasUsed shareMevGasPrice = extractHints D bundle s' shareGasUsed shareMevGasPrice := by
  unfold extractHints roundedGasUsed roundedMevGasPrice
  rw [hlogs, hprice, hgas]

/-- Rounding up gives the least number with the wanted precision, so it is
monotone and idempotent; two simulations whose numbers are rounded to the same
have the same hint. -/
theorem round_up_least (n : Int) (p : Nat) (hn : 0 ≤ n) (hp : 1 ≤ p) :
    IsLeast {m : Int | n ≤ m ∧ ∃ (k : Int) (e : Nat), 0 ≤ k ∧ k < 10 ^ p ∧ m = k * 10 ^ e} (roundUpWithPrecision n p) ∧
      (∀ n', n ≤ n' → roundUpWithPrecision n p ≤ roundUpWithPrecision n' p) ∧
      roundUpWithPrecision (roundUpWithPrecision n p) p = roundUpWithPrecision n p ∧
      ∀ (D : Deps) (s s' : SimMevBundleResponse), s.bodyLogs = s'.bodyLogs →
        roundUpWithPrecision s.mevGasPrice hintGasPriceNumberPrecisionDigits =
          roundUpWithPrecision s'.mevGasPrice hintGasPriceNumberPrecisionDigits →
        roundUpWithPrecision s.gasUsed.toInt64.toInt hintGasNumberPrecisionDigits =
          roundUpWithPrecision s'.gasUsed.toInt64.toInt hintGasNumberPrecisionDigits →
        ∀ (bundle : SendMevBundleArgs) (shareGasUsed shareMevGasPrice : Bool),
          extractHints D bundle s shareGasUsed shareMevGasPrice = extractHints D bundle s' shareGasUsed shareMevGasPrice := by
  refine ⟨roundUpWithPrecision_isLeast hn hp, ?_, roundUpWithPrecision_idem hn hp, ?_⟩
  · intro n' h
    exact roundUpWithPrecision_mono hn hp h
  · intro D s s' hlogs hprice hgas bundle shareGasUsed shareMevGasPrice
    exact extractHints_of_rounded hlogs hprice hgas bundle shareGasUsed shareMevGasPrice

/-- A carry: two digits of 999 are 1000, which is also what 991 is rounded to. -/
theorem round_up_carry :
    roundUpWithPrecision 999 2 = 1000 ∧ roundUpWithPrecision 991 2 = 1000 ∧
      IsLeast {m : Int | 999 ≤ m ∧ ∃ (k : Int) (e : Nat), 0 ≤ k ∧ k < 10 ^ 2 ∧ m = k * 10 ^ e} (roundUpWithPrecision 999 2) :=
  ⟨by decide, by decide, (round_up_least 999 2 (by decide) (by decide)).1⟩

end MevShare
