import Overloading.Number.Binary64
import Overloading.Text.Letter

/-!
# Reading binary64 numbers

A number text is an optional sign followed by one of

* `inf` or `infinity`, in any case (`nan` too, but without a sign);
* decimal digits with an optional point and an optional exponent after `e`;
* `0x` and hexadecimal digits with an optional point and a binary exponent after `p`, which must
  be there.

Digits may be separated by single low lines, also right after `0x`.  The value is the nearest
binary64 number; a text whose value lies past the largest one is refused.
-/

namespace Overloading.Reading

open Overloading.Text

def lower (c : Char) : Char :=
  if 65 ≤ c.toNat && c.toNat ≤ 90 then Char.ofNat (c.toNat + 32) else c

/-- the value of a digit below a base of ten or sixteen -/
def digitBelow (base : Nat) (c : Char) : Option Nat :=
  let n := (lower c).toNat
  if 48 ≤ n && n ≤ 57 then some (n - 48)
  else if base == 16 && 97 ≤ n && n ≤ 102 then some (n - 87)
  else none

/-- the mantissa read so far: its value, the digits seen, and those of them after the point -/
structure Mantissa where
  value : Nat
  digits : Nat
  places : Nat
  pointed : Bool

/-- reads digits, low lines and at most one point; also gives the rest of the text -/
def readMantissa (base : Nat) : List Char → Mantissa → Mantissa × List Char
  | [], m => (m, [])
  | c :: cs, m =>
    if c == '_' then readMantissa base cs m
    else if c == '.' then
      if m.pointed then (m, c :: cs) else readMantissa base cs { m with pointed := true }
    else match digitBelow base c with
      | some d => readMantissa base cs
          { m with
            value := base * m.value + d
            digits := m.digits + 1
            places := if m.pointed then m.places + 1 else m.places }
      | none => (m, c :: cs)

/-- reads the digits of an exponent; it stops growing once it has five digits -/
def readExponent : List Char → Nat → Nat × List Char
  | [], e => (e, [])
  | c :: cs, e =>
    if c == '_' then readExponent cs e
    else match digitBelow 10 c with
      | some d => readExponent cs (if e < 10000 then 10 * e + d else e)
      | none => (e, c :: cs)

/-- the exponent after a mantissa: a mark, an optional sign and at least one digit -/
def exponent? (mark : Char) : List Char → Option (Option Int)
  | [] => some none
  | c :: cs =>
    if lower c != mark then none
    else
      let (negative, ds) := match cs with
        | '-' :: ds => (true, ds)
        | '+' :: ds => (false, ds)
        | ds => (false, ds)
      match ds with
      | [] => none
      | d :: _ =>
        if !isAsciiDigit d then none
        else
          let (e, rest) := readExponent ds 0
          if rest.isEmpty then some (some (if negative then -(e : Int) else e)) else none

/-- what stands before a character, for the rule on low lines -/
inductive Before where
  | digit
  | line
  | other

/-- every low line stands between two digits (or after the base mark, before a digit) -/
def separated (hexadecimal : Bool) : Before → List Char → Bool
  | .line, [] => false
  | _, [] => true
  | before, c :: cs =>
    if (digitBelow (if hexadecimal then 16 else 10) c).isSome then separated hexadecimal .digit cs
    else match before, c == '_' with
      | .digit, true => separated hexadecimal .line cs
      | _, true => false
      | .line, false => false
      | _, false => separated hexadecimal .other cs

/-- `value * 10 ^ e`, rounded; far exponents are settled without computing the power -/
def decimalValue (negative : Bool) (value digits : Nat) (e : Int) : Option Float :=
  if value = 0 then some (Binary64.ofMagnitude negative 0)
  else if 400 < e then none
  else if e + digits < -400 then some (Binary64.ofMagnitude negative 0)
  else if e < 0 then Binary64.ofRatio negative value (Nat.pow 10 e.natAbs)
  else Binary64.ofRatio negative (value * Nat.pow 10 e.natAbs) 1

/-- `value * 2 ^ e`, rounded; far exponents are settled without computing the power -/
def binaryValue (negative : Bool) (value digits : Nat) (e : Int) : Option Float :=
  if value = 0 then some (Binary64.ofMagnitude negative 0)
  else if 2000 < e then none
  else if e + 4 * digits < -2000 then some (Binary64.ofMagnitude negative 0)
  else if e < 0 then Binary64.ofRatio negative value (Nat.pow 2 e.natAbs)
  else Binary64.ofRatio negative (value * Nat.pow 2 e.natAbs) 1

def decimal? (negative : Bool) (cs : List Char) : Option Float :=
  let (m, rest) := readMantissa 10 cs ⟨0, 0, 0, false⟩
  if m.digits = 0 then none
  else (exponent? 'e' rest).bind fun e =>
    if !separated false .other cs then none
    else decimalValue negative m.value m.digits (e.getD 0 - m.places)

/-- an unsigned hexadecimal number, without its base mark -/
def hexadecimal? (negative : Bool) (cs : List Char) : Option Float :=
  let (m, rest) := readMantissa 16 cs ⟨0, 0, 0, false⟩
  if m.digits = 0 then none
  else match exponent? 'p' rest with
    | some (some e) =>
      if !separated true .digit cs then none
      else binaryValue negative m.value m.digits (e - 4 * m.places)
    | _ => none

def magnitude? (negative : Bool) (cs : List Char) : Option Float :=
  let name := String.ofList (cs.map lower)
  if name == "inf" || name == "infinity" then some (Binary64.infinity negative)
  else match cs with
    | '0' :: x :: c :: rest =>
      if lower x == 'x' then hexadecimal? negative (c :: rest) else decimal? negative cs
    | _ => decimal? negative cs

def float? (s : String) : Option Float :=
  match s.toList with
  | '-' :: cs => magnitude? true cs
  | '+' :: cs => magnitude? false cs
  | cs =>
    if String.ofList (cs.map lower) == "nan" then some (0.0 / 0.0) else magnitude? false cs

end Overloading.Reading
