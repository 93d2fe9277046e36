/-!
# Binary64 numbers, exactly

Every finite binary64 number is an integer `m` times a power of two `2 ^ q`.  This module goes
both ways in exact arithmetic:

* `decode` gives sign, `m` and `q` of a finite number;
* `ofRatio` rounds a quotient of naturals to the nearest number, a tie to the even one;
* `ofInt` rounds an integer, `truncate` drops the fraction of a number;
* `remainder` is the remainder of a division truncated toward zero, with the dividend's sign.

A bit pattern grows with the number it stands for, and a step up in the last place that carries
out of the mantissa is a step up in the exponent; so the pattern of a rounded mantissa `m` with
unit `2 ^ q` is `(q + 1074) * 2 ^ 52 + m`, subnormal or not.
-/

namespace Overloading.Binary64

/-- the exponent of two of the smallest positive number -/
def least : Int := -1074

/-- the bit pattern of positive infinity, one past the largest finite number -/
def infinityBits : Nat := 0x7FF0000000000000

def signBit : Nat := 0x8000000000000000

/-- a magnitude pattern with a sign -/
def ofMagnitude (negative : Bool) (bits : Nat) : Float :=
  Float.ofBits (UInt64.ofNat (if negative then signBit + bits else bits))

def infinity (negative : Bool) : Float := ofMagnitude negative infinityBits

/-- a finite number as sign, mantissa and exponent of two -/
structure Parts where
  negative : Bool
  mantissa : Nat
  exponent : Int

/-- the parts of a finite number; `none` for an infinity or a NaN -/
def decode (x : Float) : Option Parts :=
  let bits := x.toBits.toNat
  let biased : Nat := bits / Nat.pow 2 52 % 2048
  let fraction : Nat := bits % Nat.pow 2 52
  let negative := signBit ≤ bits
  if biased = 2047 then none
  else if biased = 0 then some ⟨negative, fraction, least⟩
  else some ⟨negative, Nat.pow 2 52 + fraction, (biased : Int) - 1 + least⟩

/-- a quotient rounded to the nearest integer, a tie to the even one -/
def roundDiv (num den : Nat) : Nat :=
  let q := num / den
  let r := num % den
  if 2 * r < den then q
  else if den < 2 * r then q + 1
  else q + q % 2

/-- `num / den` in units of `2 ^ q`, as a pair to divide -/
def scaled (num den : Nat) (q : Int) : Nat × Nat :=
  if q < 0 then (num * Nat.pow 2 q.natAbs, den) else (num, den * Nat.pow 2 q.natAbs)

/-- the exponent of the unit that gives `num / den` a mantissa of 53 bits, `least` at the lowest -/
def unitOf (num den : Nat) : Int :=
  let guess : Int := (num.log2 : Int) - den.log2 - 52
  let (n, d) := scaled num den guess
  let exact := if n / d < Nat.pow 2 52 then guess - 1 else guess
  if exact < least then least else exact

/-- the number nearest to `num / den`, a tie to the even one; `none` past the largest number -/
def ofRatio (negative : Bool) (num den : Nat) : Option Float :=
  if num = 0 then some (ofMagnitude negative 0)
  else
    let q := unitOf num den
    let (n, d) := scaled num den q
    let bits := (q - least).toNat * Nat.pow 2 52 + roundDiv n d
    if infinityBits ≤ bits then none else some (ofMagnitude negative bits)

/-- the number nearest to an integer; past the largest number it is an infinity -/
def ofInt (n : Int) : Float :=
  (ofRatio (decide (n < 0)) n.natAbs 1).getD (infinity (decide (n < 0)))

/-- the integer that remains when the fraction is dropped; `none` for an infinity or a NaN -/
def truncate (x : Float) : Option Int :=
  (decode x).map fun p =>
    let n : Nat :=
      if p.exponent < 0 then p.mantissa / Nat.pow 2 p.exponent.natAbs
      else p.mantissa * Nat.pow 2 p.exponent.natAbs
    if p.negative then -(n : Int) else n

/-- the remainder of `x` by `y` for the quotient truncated toward zero.  It is exact and has the
sign of `x`; it is no number if `x` is infinite or `y` is zero, and `x` if `y` is infinite. -/
def remainder (x y : Float) : Float :=
  match decode x, decode y with
  | some a, some b =>
    if b.mantissa = 0 then 0.0 / 0.0
    else
      let q := min a.exponent b.exponent
      let m := a.mantissa * Nat.pow 2 (a.exponent - q).toNat
      let n := b.mantissa * Nat.pow 2 (b.exponent - q).toNat
      let (num, den) := if q < 0 then (m % n, Nat.pow 2 q.natAbs) else (m % n * Nat.pow 2 q.natAbs, 1)
      (ofRatio a.negative num den).getD x
  | some _, none => if y.isNaN then y else x
  | none, _ => 0.0 / 0.0

/-- a number rounded to the precision and range of binary32 -/
def toSingle (x : Float) : Float := x.toFloat32.toFloat

end Overloading.Binary64
