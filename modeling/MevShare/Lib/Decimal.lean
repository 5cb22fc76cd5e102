import Mathlib.Data.Rat.Lemmas
import Mathlib.Tactic.FieldSimp
import Mathlib.Tactic.Ring
import MevShare.Lib.Checks
/-!
# Decimal text

`parseUint` and `parseInt` read a numeral the way a machine does, digit by digit
with a check for overflow; a text is accepted exactly if it is a numeral of a
number in range. `floatString` writes a rational number with a fixed number of
digits after the point, rounding the last one; `decimalValue` is the number that
such a text stands for.
-/

namespace Lib

theorem le_ofDigitChars (s : List Char) (n : Nat) : n ≤ Nat.ofDigitChars 10 s n := by
  rw [Nat.ofDigitChars_eq_ofDigitChars_zero]
  have hpos : 1 ≤ 10 ^ s.length := Nat.one_le_pow _ _ (by decide)
  calc n = 1 * n := (Nat.one_mul n).symm
    _ ≤ 10 ^ s.length * n := Nat.mul_le_mul_right n hpos
    _ ≤ 10 ^ s.length * n + Nat.ofDigitChars 10 s 0 := Nat.le_add_right _ _

theorem isDigit_toDigits {n : Nat} {c : Char} (hc : c ∈ Nat.toDigits 10 n) : c.isDigit :=
  Nat.isDigit_of_mem_toDigits (by decide) (by decide) hc

/-! ## Numerals -/

inductive NumErr where
  | invalidText | outOfRange
deriving DecidableEq, Repr

/-- One digit; the first check is made before the multiplication. -/
def parseDigit (bits n : Nat) (c : Char) : Except NumErr Nat :=
  if c.isDigit then
    if (2 ^ 64 - 1) / 10 + 1 ≤ n then throw .outOfRange
    else
      let n1 := 10 * n + (c.toNat - '0'.toNat)
      if 2 ^ 64 ≤ n1 ∨ 2 ^ bits - 1 < n1 then throw .outOfRange else return n1
  else throw .invalidText

def parseUint (bits : Nat) (s : List Char) : Except NumErr Nat :=
  if s = [] then throw .invalidText else s.foldlM (parseDigit bits) 0

/-- The sign, and what follows it. -/
def signed : List Char → Bool × List Char
  | '+' :: rest => (false, rest)
  | '-' :: rest => (true, rest)
  | rest => (false, rest)

def parseInt (bits : Nat) (s : List Char) : Except NumErr Int := do
  let n ← parseUint bits (signed s).2
  let cutoff := 2 ^ (bits - 1)
  if !(signed s).1 ∧ cutoff ≤ n then throw .outOfRange
  else if (signed s).1 ∧ cutoff < n then throw .outOfRange
  else return if (signed s).1 then -(n : Int) else n

/-- The text is a numeral of `n`. -/
def Numeral (s : List Char) (n : Nat) : Prop := s ≠ [] ∧ (∀ c ∈ s, c.isDigit) ∧ Nat.ofDigitChars 10 s 0 = n

def SignedNumeral (s : List Char) (z : Int) : Prop :=
  ∃ n, Numeral (signed s).2 n ∧ z = if (signed s).1 then -(n : Int) else n

theorem parseDigit_ok {bits n m : Nat} {c : Char} (hbits : bits ≤ 64) :
    parseDigit bits n c = .ok m ↔ c.isDigit ∧ m = 10 * n + (c.toNat - '0'.toNat) ∧ m < 2 ^ bits := by
  have hpow : 2 ^ bits ≤ 2 ^ 64 := Nat.pow_le_pow_right (by decide) hbits
  have hpos : 0 < 2 ^ bits := Nat.two_pow_pos bits
  unfold parseDigit
  split
  · rename_i hdigit
    -- what the first check refuses would not fit either
    have hcutoff : (2 ^ 64 - 1) / 10 + 1 ≤ n → 2 ^ bits ≤ 10 * n := by omega
    dsimp only
    split_ifs with hlarge hrange
    · simp only [hdigit, true_and, false_iff]
      omega
    · simp only [hdigit, true_and, false_iff]
      omega
    · simp only [pure_ok, hdigit, true_and]
      omega
  · rename_i hdigit
    simp [throw_eq_error, hdigit]

/-- The loop from any number already read. -/
theorem foldlM_parseDigit_ok {bits m : Nat} (hbits : bits ≤ 64) {s : List Char} {n : Nat} (hn : n < 2 ^ bits) :
    s.foldlM (parseDigit bits) n = .ok m ↔
      (∀ c ∈ s, c.isDigit) ∧ Nat.ofDigitChars 10 s n = m ∧ m < 2 ^ bits := by
  induction s generalizing n with
  | nil =>
    simp only [List.foldlM_nil, pure_ok, List.not_mem_nil, false_implies, implies_true, true_and, Nat.ofDigitChars_nil]
    exact ⟨fun h => ⟨h, h ▸ hn⟩, And.left⟩
  | cons c s ih =>
    rw [List.foldlM_cons, bind_ok, Nat.ofDigitChars_cons, List.forall_mem_cons]
    constructor
    · rintro ⟨n1, hstep, hrest⟩
      obtain ⟨hdigit, rfl, hn1⟩ := (parseDigit_ok hbits).1 hstep
      obtain ⟨hall, hvalue, hm⟩ := (ih hn1).1 hrest
      exact ⟨⟨hdigit, hall⟩, hvalue, hm⟩
    · rintro ⟨⟨hdigit, hall⟩, hvalue, hm⟩
      have hn1 : 10 * n + (c.toNat - '0'.toNat) < 2 ^ bits := (le_ofDigitChars s _).trans_lt (hvalue ▸ hm)
      exact ⟨_, (parseDigit_ok hbits).2 ⟨hdigit, rfl, hn1⟩, (ih hn1).2 ⟨hall, hvalue, hm⟩⟩

theorem parseUint_ok {bits m : Nat} (hbits : bits ≤ 64) {s : List Char} :
    parseUint bits s = .ok m ↔ Numeral s m ∧ m < 2 ^ bits := by
  unfold parseUint Numeral
  split
  · rename_i hnil
    simp [hnil, throw_eq_error]
  · rename_i hne
    rw [foldlM_parseDigit_ok hbits (Nat.two_pow_pos bits), and_assoc, and_assoc]
    simp [hne]

theorem parseInt_ok {bits : Nat} (hpos : 0 < bits) (hbits : bits ≤ 64) {s : List Char} {z : Int} :
    parseInt bits s = .ok z ↔ SignedNumeral s z ∧ -2 ^ (bits - 1) ≤ z ∧ z < 2 ^ (bits - 1) := by
  have hdouble : 2 ^ bits = 2 * 2 ^ (bits - 1) := by rw [← Nat.pow_succ', Nat.succ_eq_add_one, Nat.sub_add_cancel hpos]
  have hcast : (2 : Int) ^ (bits - 1) = (2 ^ (bits - 1) : Nat) := by push_cast; rfl
  have hcutoff : 0 < 2 ^ (bits - 1) := Nat.two_pow_pos _
  unfold parseInt SignedNumeral
  rw [hcast]
  simp only [bind_ok, parseUint_ok hbits, hdouble]
  generalize 2 ^ (bits - 1) = cutoff at hcutoff
  cases (signed s).1 with
  | false =>
    simp only [Bool.not_false, true_and, Bool.false_eq_true, false_and, ↓reduceIte]
    constructor
    · rintro ⟨n, ⟨hnumeral, hlt⟩, hok⟩
      split_ifs at hok with hrange
      cases hok
      exact ⟨⟨n, hnumeral, rfl⟩, by omega⟩
    · rintro ⟨⟨n, hnumeral, rfl⟩, hrange⟩
      exact ⟨n, ⟨hnumeral, by omega⟩, by rw [if_neg (by omega)]; rfl⟩
  | true =>
    simp only [Bool.not_true, Bool.false_eq_true, false_and, true_and, ↓reduceIte]
    constructor
    · rintro ⟨n, ⟨hnumeral, hlt⟩, hok⟩
      split_ifs at hok with hrange
      cases hok
      exact ⟨⟨n, hnumeral, rfl⟩, by omega⟩
    · rintro ⟨⟨n, hnumeral, rfl⟩, hrange⟩
      exact ⟨n, ⟨hnumeral, by omega⟩, by rw [if_neg (by omega)]; rfl⟩

/-! ## Fixed-point numbers -/

def intText (z : Int) : List Char := (if z < 0 then ['-'] else []) ++ Nat.toDigits 10 z.natAbs

/-- At least `k` digits, with zeros in front. -/
def padded (k n : Nat) : List Char := List.replicate (k - (Nat.toDigits 10 n).length) '0' ++ Nat.toDigits 10 n

/-- `prec` digits after the point, the last one rounded half away from zero. -/
def floatString (prec : Nat) (x : ℚ) : List Char :=
  if x.den = 1 then intText x.num ++ if 0 < prec then '.' :: List.replicate prec '0' else []
  else
    let q := x.num.natAbs / x.den
    let p := 10 ^ prec
    let r := x.num.natAbs % x.den * p
    let (q, r) :=
      if x.den ≤ 2 * (r % x.den) then
        if p ≤ r / x.den + 1 then (q + 1, r / x.den + 1 - p) else (q, r / x.den + 1)
      else (q, r / x.den)
    (if x.num < 0 then ['-'] else []) ++ Nat.toDigits 10 q ++ if 0 < prec then '.' :: padded prec r else []

/-- What stands before the point. -/
def wholePart (s : List Char) : List Char := (signed s).2.takeWhile (· ≠ '.')

def fractionPart (s : List Char) : List Char := ((signed s).2.dropWhile (· ≠ '.')).drop 1

/-- The number that a text of digits, with a sign and a point, stands for. -/
def decimalValue (s : List Char) : Option ℚ :=
  if wholePart s ≠ [] ∧ (wholePart s ++ fractionPart s).all Char.isDigit then
    let value : ℚ := Nat.ofDigitChars 10 (wholePart s ++ fractionPart s) 0 / 10 ^ (fractionPart s).length
    some (if (signed s).1 then -value else value)
  else none

/-- A sign, the digits of `q`, a point and `k` digits for `r`. -/
def fixedText (neg : Bool) (q k r : Nat) : List Char :=
  (if neg then ['-'] else []) ++ (Nat.toDigits 10 q ++ '.' :: padded k r)

theorem isDigit_padded {k n : Nat} {c : Char} (hc : c ∈ padded k n) : c.isDigit := by
  rcases List.mem_append.1 hc with hc | hc
  · rw [List.eq_of_mem_replicate hc]
    rfl
  · exact isDigit_toDigits hc

theorem length_padded {k n : Nat} (hk : 0 < k) (hn : n < 10 ^ k) : (padded k n).length = k := by
  have hle := (Nat.length_toDigits_le_iff (by decide) hk).2 hn
  rw [padded, List.length_append, List.length_replicate, Nat.sub_add_cancel hle]

theorem ofDigitChars_padded (k n : Nat) : Nat.ofDigitChars 10 (padded k n) 0 = n := by
  rw [padded, Nat.ofDigitChars_append, Nat.ofDigitChars_replicate_zero, Nat.mul_zero]
  exact Nat.ofDigitChars_toDigits (by decide) (by decide)

theorem signed_fixedText (neg : Bool) (q k r : Nat) :
    signed (fixedText neg q k r) = (neg, Nat.toDigits 10 q ++ '.' :: padded k r) := by
  cases neg with
  | true => rfl
  | false =>
    unfold fixedText
    cases hq : Nat.toDigits 10 q with
    | nil => exact absurd hq Nat.toDigits_ne_nil
    | cons c rest =>
      have hdigit : c.isDigit := isDigit_toDigits (hq ▸ List.mem_cons_self)
      -- a digit is no sign
      simp only [Bool.false_eq_true, ↓reduceIte, List.nil_append, List.cons_append]
      unfold signed
      split
      · rename_i heq
        cases heq
        exact absurd hdigit (by decide)
      · rename_i heq
        cases heq
        exact absurd hdigit (by decide)
      · rfl

theorem ne_point_of_isDigit {c : Char} (hc : c.isDigit) : (decide (c ≠ '.')) = true := by
  refine decide_eq_true fun h => ?_
  rw [h] at hc
  exact absurd hc (by decide)

theorem wholePart_fixedText (neg : Bool) (q k r : Nat) : wholePart (fixedText neg q k r) = Nat.toDigits 10 q := by
  rw [wholePart, signed_fixedText, List.takeWhile_append_of_pos fun c hc => ne_point_of_isDigit (isDigit_toDigits hc)]
  simp

theorem fractionPart_fixedText (neg : Bool) (q k r : Nat) : fractionPart (fixedText neg q k r) = padded k r := by
  rw [fractionPart, signed_fixedText, List.dropWhile_append_of_pos fun c hc => ne_point_of_isDigit (isDigit_toDigits hc)]
  simp

theorem decimalValue_fixedText {neg : Bool} {q k r : Nat} (hk : 0 < k) (hr : r < 10 ^ k) :
    decimalValue (fixedText neg q k r) =
      some (if neg then -(((q * 10 ^ k + r : Nat) : ℚ) / 10 ^ k) else ((q * 10 ^ k + r : Nat) : ℚ) / 10 ^ k) := by
  have hdigits : (Nat.toDigits 10 q ++ padded k r).all Char.isDigit = true := by
    rw [List.all_eq_true]
    intro c hc
    rcases List.mem_append.1 hc with hc | hc
    · exact isDigit_toDigits hc
    · exact isDigit_padded hc
  have hvalue : Nat.ofDigitChars 10 (Nat.toDigits 10 q ++ padded k r) 0 = q * 10 ^ k + r := by
    rw [Nat.ofDigitChars_append, Nat.ofDigitChars_toDigits (by decide) (by decide), Nat.ofDigitChars_eq_ofDigitChars_zero,
      ofDigitChars_padded, length_padded hk hr, Nat.mul_comm]
  unfold decimalValue
  rw [wholePart_fixedText, fractionPart_fixedText, signed_fixedText, if_pos ⟨Nat.toDigits_ne_nil, hdigits⟩, hvalue,
    length_padded hk hr]

theorem padded_zero {k : Nat} (hk : 0 < k) : padded k 0 = List.replicate k '0' := by
  obtain ⟨j, rfl⟩ := Nat.exists_eq_succ_of_ne_zero hk.ne'
  simp [padded, List.replicate_succ']

theorem div_div_of_dvd {a b g : Nat} (hg : 0 < g) (ha : g ∣ a) (hb : g ∣ b) : a / g / (b / g) = a / b := by
  obtain ⟨a, rfl⟩ := ha
  obtain ⟨b, rfl⟩ := hb
  rw [Nat.mul_div_cancel_left a hg, Nat.mul_div_cancel_left b hg, Nat.mul_div_mul_left a b hg]

theorem fraction_lt {n d k : Nat} (hd : 0 < d) (hk : d ∣ 10 ^ k) : n % d * (10 ^ k / d) < 10 ^ k := by
  obtain ⟨c, hc⟩ := hk
  have hpos : 0 < d * c := hc ▸ Nat.pow_pos (by decide)
  rw [hc, Nat.mul_div_cancel_left c hd]
  exact Nat.mul_lt_mul_of_pos_right (Nat.mod_lt n hd) (Nat.pos_of_mul_pos_left hpos)

/-- A number with at most `k` digits after the point is written without rounding. -/
theorem floatString_exact {k : Nat} {x : ℚ} (hk : 0 < k) (hx : x.den ∣ 10 ^ k) :
    floatString k x =
      fixedText (x.num < 0) (x.num.natAbs / x.den) k (x.num.natAbs % x.den * (10 ^ k / x.den)) := by
  have hden : 0 < x.den := x.den_pos
  unfold floatString fixedText intText
  simp only [if_pos hk]
  split
  · rename_i hint
    rw [hint, Nat.div_one, Nat.mod_one, Nat.zero_mul, padded_zero hk]
    simp
  · have hmul : x.num.natAbs % x.den * 10 ^ k / x.den = x.num.natAbs % x.den * (10 ^ k / x.den) := Nat.mul_div_assoc _ hx
    have hmod : x.num.natAbs % x.den * 10 ^ k % x.den = 0 := Nat.mod_eq_zero_of_dvd (hx.mul_left _)
    have hround : ¬x.den ≤ 2 * (x.num.natAbs % x.den * 10 ^ k % x.den) := by omega
    simp only [if_neg hround, hmul, decide_eq_true_eq, List.append_assoc]

/-- What is written without rounding is read back as it was. -/
theorem decimalValue_floatString {k : Nat} {x : ℚ} (hk : 0 < k) (hx : x.den ∣ 10 ^ k) :
    decimalValue (floatString k x) = some x := by
  have hden : 0 < x.den := x.den_pos
  rw [floatString_exact hk hx, decimalValue_fixedText hk (fraction_lt hden hx)]
  obtain ⟨c, hc⟩ := hx
  have hcpos : 0 < c := Nat.pos_of_mul_pos_left (hc ▸ Nat.pow_pos (by decide) : 0 < x.den * c)
  have hquot : 10 ^ k / x.den = c := by rw [hc, Nat.mul_div_cancel_left c hden]
  have hscaled : x.num.natAbs / x.den * 10 ^ k + x.num.natAbs % x.den * c = x.num.natAbs * c := by
    rw [hc, ← Nat.mul_assoc, ← Nat.add_mul, Nat.div_add_mod']
  have hpow : (10 : ℚ) ^ k = x.den * c := by exact_mod_cast hc
  have hvalue : ((x.num.natAbs * c : Nat) : ℚ) / 10 ^ k = (x.num.natAbs : ℚ) / x.den := by
    have hc0 : (c : ℚ) ≠ 0 := by exact_mod_cast hcpos.ne'
    rw [hpow, Nat.cast_mul, mul_div_mul_right _ _ hc0]
  rw [hquot, hscaled, hvalue]
  congr 1
  by_cases hneg : x.num < 0
  · have habs : ((x.num.natAbs : Nat) : ℚ) = -(x.num : ℚ) := by
      rw [← Int.cast_natCast, Int.ofNat_natAbs_of_nonpos hneg.le, Int.cast_neg]
    rw [decide_eq_true hneg, if_pos rfl, habs, neg_div, neg_neg, Rat.num_div_den]
  · have habs : ((x.num.natAbs : Nat) : ℚ) = (x.num : ℚ) := by
      rw [← Int.cast_natCast, Int.natAbs_of_nonneg (not_lt.1 hneg)]
    rw [decide_eq_false hneg, if_neg Bool.false_ne_true, habs, Rat.num_div_den]

end Lib
