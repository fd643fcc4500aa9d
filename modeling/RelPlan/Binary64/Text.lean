import RelPlan.Binary64

/-!
# The text of a binary64 datum

A finite datum is written with the fewest digits that read back as it, the nearest such digits, an
exact tie going up.  The notation is always positional: no exponent, and no point after an integer.
-/

namespace RelPlan.Binary64

/-- The reals that round to a positive finite datum, as the fractions `low / scale` and
`high / scale` around `value / scale`; the ends belong to it when `closed`. -/
structure RoundingInterval where
  low : Nat
  value : Nat
  high : Nat
  scale : Nat
  closed : Bool

/-- The gap below a power of two is half the gap above it, except at the smallest normal datum. -/
def roundingInterval (x : Binary64) : RoundingInterval :=
  let m := x.significand
  let below := if x.fractionField = 0 ∧ 1 < x.exponentField then 1 else 2
  let e := x.exponent - 2
  let up := Nat.pow 2 e.toNat
  { low := (4 * m - below) * up
    value := 4 * m * up
    high := (4 * m + 2) * up
    scale := Nat.pow 2 (-e).toNat
    closed := m % 2 = 0 }

namespace RoundingInterval

/-- Whether `num / den` rounds to the datum. -/
def contains (i : RoundingInterval) (num den : Nat) : Bool :=
  if i.closed then i.low * den ≤ num * i.scale ∧ num * i.scale ≤ i.high * den
  else i.low * den < num * i.scale ∧ num * i.scale < i.high * den

/-- The multiple of `10 ^ k` nearest to the value among those that round to the datum, divided by
`10 ^ k`.  Only the two neighbours of the value can be nearest. -/
def gridPoint? (i : RoundingInterval) (k : Int) : Option Nat :=
  let up := Nat.pow 10 k.toNat
  let down := Nat.pow 10 (-k).toNat
  let num := i.value * down
  let den := i.scale * up
  let c := num / den
  let lower := 0 < c && i.contains (c * up) down
  let upper := i.contains ((c + 1) * up) down
  if lower && upper then some (if 2 * (num % den) < den then c else c + 1)
  else if lower then some c
  else if upper then some (c + 1)
  else none

/-- The first grid with a point, from the coarse grid `10 ^ k` down. -/
def shortest (i : RoundingInterval) (k : Int) : Nat → Nat × Int
  | 0 => (0, 0)
  | fuel + 1 =>
    match i.gridPoint? k with
    | some c => (c, k)
    | none => i.shortest (k - 1) fuel

end RoundingInterval

/-- The fewest digits, as an integer and a power of ten.  Every finite datum lies below `10 ^ 309`
and is separated from its neighbours on the grid `10 ^ (-340)`. -/
def shortestDigits (x : Binary64) : Nat × Int := x.roundingInterval.shortest 309 650

/-- `c * 10 ^ k` in positional notation. -/
def positional (c : Nat) (k : Int) : String :=
  let digits := (toString c).toList
  let below := (-k).toNat
  if below = 0 then String.ofList (digits ++ List.replicate k.toNat '0')
  else
    let padded := List.replicate (below + 1 - digits.length) '0' ++ digits
    let whole := padded.length - below
    String.ofList (padded.take whole ++ '.' :: padded.drop whole)

/-- The written form of a datum. -/
def text (x : Binary64) : String :=
  let sign := if x.isNegative then "-" else ""
  if x.isZero then sign ++ "0"
  else if x.isFinite then
    let d := x.shortestDigits
    sign ++ positional d.1 d.2
  else if x.fractionField = 0 then sign ++ "inf"
  else "NaN"

end RelPlan.Binary64
