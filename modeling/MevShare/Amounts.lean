import MevShare.Database
import MevShare.Lib.Decimal
/-!
# Amounts in the database

`dbIntToEth` writes an amount of wei as ether, with eighteen digits after the
point, into columns of type `numeric(28, 18)`. The rows of the model hold the
amount in wei: nothing is lost between the two, and the column takes the text as
long as the amount is below ten billion ether.
-/
open Lib

namespace MevShare

def ethToWei : Nat := 10 ^ 18

/-- `SetFrac` reduces the fraction. -/
def dbIntToEth (i : Int) : List Char := floatString 18 (mkRat i ethToWei)

/-- A column `numeric(precision, scale)` holds the text as it is. -/
def FitsNumeric (precision scale : Nat) (s : List Char) : Prop :=
  (wholePart s).length ≤ precision - scale ∧ (fractionPart s).length ≤ scale

theorem den_dvd_ethToWei (i : Int) : (mkRat i ethToWei).den ∣ 10 ^ 18 := by
  rw [Rat.den_mkRat, if_neg (by decide)]
  exact Nat.div_dvd_of_dvd (Nat.gcd_dvd_left ethToWei i.natAbs)

theorem decimalValue_dbIntToEth (i : Int) : decimalValue (dbIntToEth i) = some ((i : ℚ) / ethToWei) := by
  rw [dbIntToEth, decimalValue_floatString (by decide) (den_dvd_ethToWei i), Rat.mkRat_eq_div]

/-- Reducing the fraction does not change the whole part. -/
theorem whole_ether (i : Int) :
    (mkRat i ethToWei).num.natAbs / (mkRat i ethToWei).den = i.natAbs / ethToWei := by
  rw [Rat.num_mkRat, Rat.den_mkRat, if_neg (by decide), if_neg (by decide)]
  have hg : ethToWei.gcd i.natAbs ∣ i.natAbs := Nat.gcd_dvd_right _ _
  rw [Int.natAbs_ediv_of_dvd (Int.natCast_dvd.2 hg), Int.natAbs_natCast]
  exact div_div_of_dvd (Nat.gcd_pos_of_pos_left _ (by decide)) hg (Nat.gcd_dvd_left _ _)

/-- The text that an amount of wei is stored as stands for exactly that amount in
ether, different amounts have different texts, and a column `numeric(28, 18)`
holds it unless the amount is ten billion ether or more. -/
theorem amount_column_exact (i : Int) :
    decimalValue (dbIntToEth i) = some ((i : ℚ) / ethToWei) ∧
    (∀ j, dbIntToEth j = dbIntToEth i → j = i) ∧
    (FitsNumeric 28 18 (dbIntToEth i) ↔ i.natAbs < 10 ^ 28) := by
  refine ⟨decimalValue_dbIntToEth i, fun j hj => ?_, ?_⟩
  · have heq := congrArg decimalValue hj
    rw [decimalValue_dbIntToEth, decimalValue_dbIntToEth, Option.some.injEq] at heq
    have hpos : ((ethToWei : Nat) : ℚ) ≠ 0 := by exact_mod_cast (by decide : ethToWei ≠ 0)
    exact_mod_cast (div_left_inj' hpos).1 heq
  · rw [FitsNumeric, dbIntToEth, floatString_exact (by decide) (den_dvd_ethToWei i), wholePart_fixedText,
      fractionPart_fixedText, length_padded (by decide) (fraction_lt (Rat.den_pos _) (den_dvd_ethToWei i)), whole_ether,
      and_iff_left le_rfl, Nat.length_toDigits_le_iff (by decide) (by decide), Nat.div_lt_iff_lt_mul (by decide)]
    rfl

example : String.ofList (dbIntToEth (-1500000000000000000)) = "-1.500000000000000000" := by decide +kernel

end MevShare
