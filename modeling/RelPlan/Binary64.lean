/-!
# Binary64 data

A `Binary64` is its 64 bits, so a NaN keeps its payload and the two zeros are different data.  The
total order of IEEE 754 is the order of an integer key (`orderKey`), and an integer becomes the
nearest datum, a tie going to the even significand (`ofInt`).
-/

namespace RelPlan

/-- A binary64 datum, sign bit first. -/
structure Binary64 where
  bits : UInt64
deriving DecidableEq, Repr

namespace Binary64

/-- Whether the sign bit is set. -/
def isNegative (x : Binary64) : Bool := decide (0x8000000000000000 ≤ x.bits.toNat)

/-- The biased exponent, eleven bits wide. -/
def exponentField (x : Binary64) : Nat := x.bits.toNat / 0x10000000000000 % 0x800

/-- The trailing significand, fifty-two bits wide. -/
def fractionField (x : Binary64) : Nat := x.bits.toNat % 0x10000000000000

/-- Neither an infinity nor a NaN. -/
def isFinite (x : Binary64) : Bool := decide (x.exponentField ≠ 2047)

/-- Whether the datum is one of the two zeros. -/
def isZero (x : Binary64) : Bool := decide (x.bits.toNat % 0x8000000000000000 = 0)

/-- A finite datum has magnitude `significand * 2 ^ exponent`. -/
def significand (x : Binary64) : Nat :=
  if x.exponentField = 0 then x.fractionField else 0x10000000000000 + x.fractionField

/-- A finite datum has magnitude `significand * 2 ^ exponent`. -/
def exponent (x : Binary64) : Int := (max x.exponentField 1 : Nat) - 1075

/-! ### Order -/

/-- The position of a datum in the total order: negative NaNs first, `-0.0` right below `0.0`,
positive NaNs last. -/
def orderKey (x : Binary64) : Int :=
  if x.bits.toNat < 0x8000000000000000 then x.bits.toNat
  else 0x7fffffffffffffff - (x.bits.toNat : Int)

/-- The total order of IEEE 754. -/
def order (x y : Binary64) : Ordering := compare x.orderKey y.orderKey

/-! ### Integers -/

/-- The magnitude of a finite datum when it is an integer. -/
def integralMagnitude? (x : Binary64) : Option Nat :=
  match x.exponent with
  | .ofNat k => some (x.significand * Nat.pow 2 k)
  | .negSucc k =>
    if x.significand % Nat.pow 2 (k + 1) = 0 then some (x.significand / Nat.pow 2 (k + 1)) else none

/-- The integer that a datum stands for.  `-0.0` stands for none, and neither does an integral
datum outside `[-2 ^ 63, 2 ^ 63)`. -/
def toInt64? (x : Binary64) : Option Int64 :=
  if x.isFinite then
    match x.integralMagnitude? with
    | none => none
    | some n =>
      if x.isNegative then
        if n ≠ 0 ∧ n ≤ 0x8000000000000000 then some (Int64.ofInt (-n)) else none
      else
        if n < 0x8000000000000000 then some (Int64.ofInt n) else none
  else none

/-- `n / 2 ^ k` rounded to nearest, a tie to even. -/
def roundShift (n k : Nat) : Nat :=
  let unit := Nat.pow 2 k
  let q := n / unit
  let r := n % unit
  if 2 * r < unit then q
  else if unit < 2 * r then q + 1
  else if q % 2 = 0 then q else q + 1

/-- The bits of the datum nearest to `n`.  A significand that rounds up to `2 ^ 53` carries into
the exponent field. -/
def bitsOfNat (n : Nat) : Nat :=
  if n = 0 then 0
  else
    let top := n.log2
    let m := if top ≤ 52 then n * Nat.pow 2 (52 - top) else roundShift n (top - 52)
    (top + 1022) * 0x10000000000000 + m

/-- The datum nearest to `n`, for `n` of magnitude up to `2 ^ 64`. -/
def ofInt (n : Int) : Binary64 :=
  if n < 0 then ⟨UInt64.ofNat (0x8000000000000000 + bitsOfNat n.natAbs)⟩
  else ⟨UInt64.ofNat (bitsOfNat n.natAbs)⟩

/-! ### Arithmetic -/

/-- Flips the sign bit, of a NaN too. -/
def neg (x : Binary64) : Binary64 := ⟨x.bits ^^^ 0x8000000000000000⟩

def add (x y : Binary64) : Binary64 := ⟨(Float.ofBits x.bits + Float.ofBits y.bits).toBits⟩

def sub (x y : Binary64) : Binary64 := ⟨(Float.ofBits x.bits - Float.ofBits y.bits).toBits⟩

def mul (x y : Binary64) : Binary64 := ⟨(Float.ofBits x.bits * Float.ofBits y.bits).toBits⟩

def div (x y : Binary64) : Binary64 := ⟨(Float.ofBits x.bits / Float.ofBits y.bits).toBits⟩

end Binary64

end RelPlan
