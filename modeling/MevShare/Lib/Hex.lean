import Mathlib.Data.Nat.Digits.Lemmas
/-!
# Hexadecimal text

Bytes are written with two digits each, numbers with as few as possible. Digits
are written in lower case and read in either.
-/

namespace Lib

def hexDigit (n : Nat) : Char := Char.ofNat (if n < 10 then 48 + n else 87 + n)

def hexValue (c : Char) : Option Nat :=
  if '0' ≤ c ∧ c ≤ '9' then some (c.toNat - 48)
  else if 'a' ≤ c ∧ c ≤ 'f' then some (c.toNat - 87)
  else if 'A' ≤ c ∧ c ≤ 'F' then some (c.toNat - 55)
  else none

theorem hexValue_hexDigit {n : Nat} (h : n < 16) : hexValue (hexDigit n) = some n := by
  interval_cases n <;> decide

/-! ## Bytes -/

def encodeHex (bytes : List UInt8) : List Char :=
  bytes.flatMap fun b => [hexDigit (b.toNat / 16), hexDigit (b.toNat % 16)]

def decodeHex : List Char → Option (List UInt8)
  | [] => some []
  | [_] => none
  | high :: low :: rest => do
    let h ← hexValue high
    let l ← hexValue low
    let bytes ← decodeHex rest
    return UInt8.ofNat (16 * h + l) :: bytes

theorem length_encodeHex (bytes : List UInt8) : (encodeHex bytes).length = 2 * bytes.length := by
  simp [encodeHex, List.length_flatMap, Nat.mul_comm]

theorem decodeHex_encodeHex (bytes : List UInt8) : decodeHex (encodeHex bytes) = some bytes := by
  induction bytes with
  | nil => rfl
  | cons b bytes ih =>
    have hlt := b.toNat_lt
    have hhigh : hexValue (hexDigit (b.toNat / 16)) = some (b.toNat / 16) := hexValue_hexDigit (by omega)
    have hlow : hexValue (hexDigit (b.toNat % 16)) = some (b.toNat % 16) := hexValue_hexDigit (by omega)
    have hbyte : UInt8.ofNat (16 * (b.toNat / 16) + b.toNat % 16) = b := by
      rw [Nat.div_add_mod, UInt8.ofNat_toNat]
    have hcons : encodeHex (b :: bytes) = hexDigit (b.toNat / 16) :: hexDigit (b.toNat % 16) :: encodeHex bytes := rfl
    simp only [hcons, decodeHex, hhigh, hlow, ih, Option.bind_eq_bind, Option.bind_some, Option.pure_def, hbyte]

theorem encodeHex_injective : Function.Injective encodeHex := by
  intro bytes bytes' h
  have heq := congrArg decodeHex h
  rwa [decodeHex_encodeHex, decodeHex_encodeHex, Option.some.injEq] at heq

/-! ## Numbers -/

/-- The digits from the most significant one down; zero is one digit. -/
def hexNumber (n : Nat) : List Char := if n = 0 then ['0'] else (Nat.digits 16 n).reverse.map hexDigit

def readHexNumber (digits : List Char) : Option Nat :=
  digits.foldlM (fun acc c => (hexValue c).map fun d => 16 * acc + d) 0

/-- Reading goes on from what the digits before stand for. -/
theorem foldlM_hexDigit {ds : List Nat} (h : ∀ d ∈ ds, d < 16) (acc : Nat) :
    (ds.map hexDigit).foldlM (fun acc c => (hexValue c).map fun d => 16 * acc + d) acc =
      some (ds.foldl (fun acc d => 16 * acc + d) acc) := by
  induction ds generalizing acc with
  | nil => rfl
  | cons d ds ih =>
    rw [List.map_cons, List.foldlM_cons, hexValue_hexDigit (h d (by simp)), Option.map_some, Option.bind_eq_bind,
      Option.bind_some, ih fun d' hd' => h d' (by simp [hd']), List.foldl_cons]

theorem foldl_reverse_digits (ds : List Nat) : ds.reverse.foldl (fun acc d => 16 * acc + d) 0 = Nat.ofDigits 16 ds := by
  rw [List.foldl_reverse]
  induction ds with
  | nil => rfl
  | cons d ds ih => rw [List.foldr_cons, ih, Nat.ofDigits_cons, add_comm]

theorem readHexNumber_hexNumber (n : Nat) : readHexNumber (hexNumber n) = some n := by
  unfold hexNumber readHexNumber
  split
  · subst n
    decide
  · rw [foldlM_hexDigit fun d hd => Nat.digits_lt_base (by decide) (List.mem_reverse.1 hd), foldl_reverse_digits,
      Nat.ofDigits_digits]

theorem length_hexNumber {n k : Nat} (hk : 0 < k) (h : n < 16 ^ k) : (hexNumber n).length ≤ k := by
  unfold hexNumber
  split
  · exact hk
  · rw [List.length_map, List.length_reverse]
    exact Nat.digits_length_le_iff (by decide) n |>.2 h

/-- A number is written without leading zeros. -/
theorem hexNumber_head (n : Nat) : ∃ c rest, hexNumber n = c :: rest ∧ (c = '0' → rest = []) := by
  unfold hexNumber
  split
  · exact ⟨'0', [], rfl, fun _ => rfl⟩
  · rename_i hn
    rcases List.eq_nil_or_concat (Nat.digits 16 n) with hnil | ⟨rest, last, hdigits⟩
    · exact absurd (Nat.digits_eq_nil_iff_eq_zero.1 hnil) hn
    · rw [List.concat_eq_append] at hdigits
      have hlt : last < 16 := Nat.digits_lt_base (m := n) (by decide) (by simp [hdigits])
      have hne : last ≠ 0 := by simpa [hdigits] using Nat.getLast_digit_ne_zero 16 hn
      refine ⟨hexDigit last, rest.reverse.map hexDigit, by simp [hdigits], fun hzero => absurd ?_ hne⟩
      have hvalue := hexValue_hexDigit hlt
      rw [hzero] at hvalue
      exact (Option.some.inj hvalue).symm

end Lib
