import MevShare.Types
/-!
# `mevshare/utils.go`

The pure helpers. `formatUnits` (log output only) is not modelled. The cache behind
`BlockNumber` is in `BlockCache.lean`; the functions that read the current block take
it as an input.
-/

namespace MevShare

variable (D : Deps)

/-- `Intersect`: the set of the lower-cased `a`, then a filter of the lower-cased `b`. -/
def intersect (a b : List String) : List String :=
  if a.length = 0 ∨ b.length = 0 then []
  else
    let m := a.map D.toLower
    (b.map D.toLower).filter fun v => m.contains v

/-- `RoundUpWithPrecision`. The sign of a negative number counts as a digit, as
in `len(number.String())`, and `big.Int.Div` is Euclidean division. -/
def roundUpWithPrecision (number : Int) (precisionDigits : Nat) : Int :=
  let numDigits := (toString number).length
  if numDigits ≤ precisionDigits then number
  else
    let power : Int := 10 ^ (numDigits - precisionDigits)
    let div := number / power
    let div := if div * power ≠ number then div + 1 else div
    div * power

/-- `newerInclusion` for two bundles that are not nil. -/
def newerInclusion (old newBundle : SendMevBundleArgs) : Bool :=
  old.inclusion.maxBlock < newBundle.inclusion.maxBlock

end MevShare
