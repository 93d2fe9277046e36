/-!
# Arithmetic kinds

The eleven fixed-width arithmetic kinds: truth values, integers of 8 to 64 bits with and without
sign, and the two binary floating-point formats.  Each has a token, by which signatures name it,
and a display name, by which messages do.

The integers an integral kind holds form an interval.  `Kind.normalize` brings any integer into
it by two's complement: the result is the one integer of the interval that is congruent to the
given one modulo two to the width.  Truth values are different: everything but zero is one.

`Kind.promote` is the common kind of two operands: a floating-point kind if there is one, else
after both have been widened to at least 32 bits the wider one, and of two of the same width the
unsigned one.
-/

namespace Overloading

inductive Kind where
  | bool
  | i8
  | u8
  | i16
  | u16
  | i32
  | u32
  | i64
  | u64
  | f32
  | f64
  deriving DecidableEq

namespace Kind

def all : List Kind := [bool, i8, u8, i16, u16, i32, u32, i64, u64, f32, f64]

def token : Kind → String
  | bool => "BOOL"
  | i8 => "I8"
  | u8 => "U8"
  | i16 => "I16"
  | u16 => "U16"
  | i32 => "I32"
  | u32 => "U32"
  | i64 => "I64"
  | u64 => "U64"
  | f32 => "F32"
  | f64 => "F64"

def ofToken? (t : String) : Option Kind := all.find? fun k => k.token == t

def name : Kind → String
  | bool => "bool"
  | i8 => "int8_t"
  | u8 => "uint8_t"
  | i16 => "int16_t"
  | u16 => "uint16_t"
  | i32 => "int32_t"
  | u32 => "uint32_t"
  | i64 => "int64_t"
  | u64 => "uint64_t"
  | f32 => "float"
  | f64 => "double"

def size : Kind → Nat
  | bool | i8 | u8 => 1
  | i16 | u16 => 2
  | i32 | u32 | f32 => 4
  | i64 | u64 | f64 => 8

/-- whether negative values exist -/
def signed : Kind → Bool
  | i8 | i16 | i32 | i64 | f32 | f64 => true
  | bool | u8 | u16 | u32 | u64 => false

/-- whether the kind is a floating-point format -/
def isFloat : Kind → Bool
  | f32 | f64 => true
  | _ => false

/-- whether the kind holds integers; truth values count as such -/
def isIntegral (k : Kind) : Bool := !k.isFloat

/-- the width in bits; a truth value occupies one -/
def bits : Kind → Nat
  | bool => 1
  | k => 8 * k.size

theorem mem_all (k : Kind) : k ∈ all := by cases k <;> decide

theorem ofToken?_token (k : Kind) : ofToken? k.token = some k := by cases k <;> decide

theorem bits_pos (k : Kind) : 0 < k.bits := by cases k <;> decide

/-! ## Ranges and promotion -/

def minValue (k : Kind) : Int :=
  if k = bool then 0 else if k.signed then -(Nat.pow 2 (k.bits - 1)) else 0

def maxValue (k : Kind) : Int :=
  if k = bool then 1 else if k.signed then Nat.pow 2 (k.bits - 1) - 1 else Nat.pow 2 k.bits - 1

def contains (k : Kind) (n : Int) : Bool := k.minValue ≤ n && n ≤ k.maxValue

/-- the value of a kind that an integer wraps to -/
def normalize (k : Kind) (n : Int) : Int :=
  if k = bool then (if n = 0 then 0 else 1)
  else if k.contains n then n
  else
    let r := n % Nat.pow 2 k.bits
    if k.signed && Nat.pow 2 (k.bits - 1) ≤ r then r - Nat.pow 2 k.bits else r

/-- what a kind is before it takes part in arithmetic: nothing narrower than 32 bits does -/
def operandKind (k : Kind) : Kind := if k.size < i32.size then i32 else k

/-- the common kind of two integral kinds of at least 32 bits -/
def joinIntegral (a b : Kind) : Kind :=
  if a = b then a
  else if a.signed = b.signed then (if b.size ≤ a.size then a else b)
  else
    let (s, u) := if b.signed then (b, a) else (a, b)
    if s.size ≤ u.size then u else s

/-- the common kind of the operands of an arithmetic operation -/
def promote (a b : Kind) : Kind :=
  if a.isFloat || b.isFloat then
    if a = f64 || b = f64 then f64 else f32
  else joinIntegral a.operandKind b.operandKind

theorem promote_comm (a b : Kind) : promote a b = promote b a := by
  cases a <;> cases b <;> decide

theorem normalize_of_contains {k : Kind} {n : Int} (hk : k ≠ bool) (h : k.contains n = true) :
    k.normalize n = n := by
  rw [normalize, if_neg hk, if_pos h]

end Kind

end Overloading
