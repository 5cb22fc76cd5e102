import Mathlib.Algebra.Ring.Nat
import Mathlib.Data.List.Basic
import Mathlib.Tactic.Common
/-!
# Numbers as bytes and as doubles

Big-endian bytes as `binary.BigEndian` writes and reads them, for any width, and
the conversion of an integer to a 64-bit float. A double that holds an integer
is modelled by that integer; `toDouble` is the integer it is rounded to.
-/

namespace Lib

/-! ## Big-endian bytes -/

/-- The `n` lowest bytes of `v`, the most significant one first. -/
def putBigEndian : Nat → Nat → List UInt8
  | 0, _ => []
  | n + 1, v => UInt8.ofNat (v / 256 ^ n) :: putBigEndian n (v % 256 ^ n)

def bigEndian : List UInt8 → Nat
  | [] => 0
  | b :: l => b.toNat * 256 ^ l.length + bigEndian l

@[simp] theorem length_putBigEndian (n v : Nat) : (putBigEndian n v).length = n := by
  induction n generalizing v with
  | zero => rfl
  | succ n ih => simp [putBigEndian, ih]

theorem bigEndian_putBigEndian {n v : Nat} (h : v < 256 ^ n) : bigEndian (putBigEndian n v) = v := by
  induction n generalizing v with
  | zero =>
    simp only [Nat.pow_zero, Nat.lt_one_iff] at h
    simp [putBigEndian, bigEndian, h]
  | succ n ih =>
    have hpos : 0 < 256 ^ n := Nat.pow_pos (by decide)
    have hbyte : v / 256 ^ n < 256 := by
      rw [Nat.div_lt_iff_lt_mul hpos]
      rwa [Nat.pow_succ, Nat.mul_comm] at h
    have hhead : (UInt8.ofNat (v / 256 ^ n)).toNat = v / 256 ^ n := UInt8.toNat_ofNat_of_lt' hbyte
    simp only [putBigEndian, bigEndian, length_putBigEndian, hhead, ih (Nat.mod_lt _ hpos)]
    exact Nat.div_add_mod' v (256 ^ n)

theorem bigEndian_lt (l : List UInt8) : bigEndian l < 256 ^ l.length := by
  induction l with
  | nil => decide
  | cons b l ih =>
    have hbyte : b.toNat + 1 ≤ 256 := b.toNat_lt
    calc b.toNat * 256 ^ l.length + bigEndian l
      _ < b.toNat * 256 ^ l.length + 256 ^ l.length := Nat.add_lt_add_left ih _
      _ = (b.toNat + 1) * 256 ^ l.length := (Nat.succ_mul ..).symm
      _ ≤ 256 * 256 ^ l.length := Nat.mul_le_mul_right _ hbyte
      _ = 256 ^ (l.length + 1) := by rw [Nat.pow_succ, Nat.mul_comm]

theorem putBigEndian_bigEndian (l : List UInt8) : putBigEndian l.length (bigEndian l) = l := by
  induction l with
  | nil => rfl
  | cons b l ih =>
    have hlow := bigEndian_lt l
    have hdiv : (b.toNat * 256 ^ l.length + bigEndian l) / 256 ^ l.length = b.toNat := by
      rw [Nat.add_comm, Nat.add_mul_div_right _ _ (Nat.pow_pos (by decide)), Nat.div_eq_of_lt hlow, Nat.zero_add]
    have hmod : (b.toNat * 256 ^ l.length + bigEndian l) % 256 ^ l.length = bigEndian l := by
      rw [Nat.mul_add_mod_self_right, Nat.mod_eq_of_lt hlow]
    simp only [List.length_cons, putBigEndian, bigEndian, hdiv, hmod, UInt8.ofNat_toNat, ih]

/-- The bytes by their places. -/
theorem putBigEndian_eq_map (n v : Nat) :
    putBigEndian n v = (List.range n).map fun i => UInt8.ofNat (v / 256 ^ (n - 1 - i)) := by
  induction n generalizing v with
  | zero => rfl
  | succ n ih =>
    rw [putBigEndian, ih, List.range_succ_eq_map, List.map_cons, List.map_map]
    refine congrArg₂ List.cons (by simp) (List.map_congr_left fun i hi => ?_)
    have hi := List.mem_range.1 hi
    rw [Function.comp_apply, show n + 1 - 1 - i.succ = n - 1 - i by omega]
    -- the bytes above place `n` do not matter below it
    have hsplit : 256 ^ n = 256 ^ (n - 1 - i) * (256 * 256 ^ i) := by
      rw [← Nat.pow_succ', ← Nat.pow_add]
      congr 1
      omega
    apply UInt8.toNat_inj.1
    rw [UInt8.toNat_ofNat', UInt8.toNat_ofNat', hsplit, Nat.mod_mul_right_div_self, Nat.mod_mul_right_mod]

/-- Numbers of one width compare like their bytes, whatever follows these. -/
theorem putBigEndian_append_lt {n v w : Nat} (hv : v < 256 ^ n) (hw : w < 256 ^ n) {x y : List UInt8} :
    putBigEndian n v ++ x < putBigEndian n w ++ y ↔ v < w ∨ (v = w ∧ x < y) := by
  induction n generalizing v w with
  | zero =>
    simp only [Nat.pow_zero, Nat.lt_one_iff] at hv hw
    simp [putBigEndian, hv, hw]
  | succ n ih =>
    have hpos : 0 < 256 ^ n := Nat.pow_pos (by decide)
    have hbyte {u : Nat} (hu : u < 256 ^ (n + 1)) : (UInt8.ofNat (u / 256 ^ n)).toNat = u / 256 ^ n := by
      refine UInt8.toNat_ofNat_of_lt' ?_
      rw [Nat.div_lt_iff_lt_mul hpos]
      rwa [Nat.pow_succ, Nat.mul_comm] at hu
    have hv' := Nat.div_add_mod v (256 ^ n)
    have hw' := Nat.div_add_mod w (256 ^ n)
    have hvr := Nat.mod_lt v hpos
    have hwr := Nat.mod_lt w hpos
    simp only [putBigEndian, List.cons_append, List.cons_lt_cons_iff, UInt8.lt_iff_toNat_lt, ← UInt8.toNat_inj,
      hbyte hv, hbyte hw, ih hvr hwr]
    -- the first bytes decide, or they are equal and the rest does
    rcases Nat.lt_trichotomy (v / 256 ^ n) (w / 256 ^ n) with hlt | heq | hgt
    · have hmul := Nat.mul_le_mul_left (256 ^ n) (Nat.succ_le_of_lt hlt)
      rw [Nat.succ_eq_add_one, Nat.mul_add, Nat.mul_one] at hmul
      simp only [hlt, true_or, true_iff]
      exact .inl (by omega)
    · rw [heq] at hv' ⊢
      simp only [Nat.lt_irrefl, false_or, true_and]
      constructor
      · rintro (h | ⟨h, hxy⟩)
        · exact .inl (by omega)
        · exact .inr ⟨by omega, hxy⟩
      · rintro (h | ⟨h, hxy⟩)
        · exact .inl (by omega)
        · exact .inr ⟨by omega, hxy⟩
    · have hmul := Nat.mul_le_mul_left (256 ^ n) (Nat.succ_le_of_lt hgt)
      rw [Nat.succ_eq_add_one, Nat.mul_add, Nat.mul_one] at hmul
      constructor
      · rintro (h | ⟨h, -⟩) <;> omega
      · rintro (h | ⟨h, -⟩) <;> omega

/-- A number is determined by its bytes. -/
theorem eq_of_bytes {n v w : Nat} (hv : v < 256 ^ n) (hw : w < 256 ^ n)
    (h : ∀ k < n, UInt8.ofNat (v / 256 ^ k) = UInt8.ofNat (w / 256 ^ k)) : v = w := by
  induction n generalizing v w with
  | zero => omega
  | succ n ih =>
    have hlow : v % 256 = w % 256 := by simpa using congrArg UInt8.toNat (h 0 (Nat.succ_pos n))
    have hhigh : v / 256 = w / 256 := by
      rw [Nat.pow_succ] at hv hw
      refine ih (Nat.div_lt_of_lt_mul (by omega)) (Nat.div_lt_of_lt_mul (by omega)) fun k hk => ?_
      have hbyte := h (k + 1) (Nat.succ_lt_succ hk)
      rwa [Nat.pow_succ', ← Nat.div_div_eq_div_mul, ← Nat.div_div_eq_div_mul] at hbyte
    omega

/-! ## Doubles -/

/-- `n / 2 ^ e` rounded to the nearest integer, ties to even. -/
def roundedQuotient (n e : Nat) : Nat :=
  let q := n / 2 ^ e
  let r := n % 2 ^ e
  if 2 * r < 2 ^ e ∨ (2 * r = 2 ^ e ∧ q % 2 = 0) then q else q + 1

/-- The integer that a natural number becomes as a double: 53 significant bits
are kept. -/
def toDouble (n : Nat) : Nat :=
  let e := n.log2 - 52
  roundedQuotient n e * 2 ^ e

theorem toDouble_of_le {n : Nat} (h : n ≤ 2 ^ 53) : toDouble n = n := by
  rcases Nat.lt_or_eq_of_le h with hlt | rfl
  · have hlog : n.log2 - 52 = 0 := by
      rcases Nat.eq_zero_or_pos n with rfl | hpos
      · simp
      · have := (Nat.log2_lt (by omega : n ≠ 0)).2 hlt
        omega
    simp [toDouble, hlog, roundedQuotient, Nat.mod_one]
  · decide

/-- Rounding does not go below a bound that a double can hold. -/
theorem le_toDouble {k n : Nat} (hk : k ≤ 2 ^ 53) (h : k ≤ n) : k ≤ toDouble n := by
  by_cases hn : n ≤ 2 ^ 53
  · rwa [toDouble_of_le hn]
  · have hne : n ≠ 0 := by omega
    have hlog : 53 ≤ n.log2 := (Nat.le_log2 hne).2 (by omega)
    have hquot : n / 2 ^ (n.log2 - 52) ≤ roundedQuotient n (n.log2 - 52) := by
      simp only [roundedQuotient]
      split <;> omega
    have hlow : 2 ^ 52 ≤ n / 2 ^ (n.log2 - 52) := by
      rw [Nat.le_div_iff_mul_le (Nat.two_pow_pos _), ← Nat.pow_add]
      exact le_trans (Nat.pow_le_pow_right (by decide) (by omega)) ((Nat.le_log2 hne).1 le_rfl)
    have htwo : 2 ^ 1 ≤ 2 ^ (n.log2 - 52) := Nat.pow_le_pow_right (by decide) (by omega)
    calc k ≤ 2 ^ 52 * 2 ^ 1 := hk
      _ ≤ roundedQuotient n (n.log2 - 52) * 2 ^ (n.log2 - 52) := Nat.mul_le_mul (le_trans hlow hquot) htwo

end Lib
