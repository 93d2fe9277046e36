import Overloading.Kind
import Overloading.Log
import Overloading.Store.Basic

/-!
# Arithmetic

Integer results are computed exactly and then fitted into the kind of the operands.  A result a
signed kind does not hold is a fault; one that an unsigned kind does not hold is a fault too,
unless the overflow policy lets it wrap, with or without a warning.  Floating-point results are
computed in binary64 and rounded to the kind.  Truth values take part as 32-bit integers.
-/

namespace Overloading

open Overloading.Text

inductive Operator where
  | add
  | sub
  | mul
  | div
  | mod
  deriving DecidableEq

namespace Operator

def all : List Operator := [add, sub, mul, div, mod]

def symbol : Operator → String
  | add => "+"
  | sub => "-"
  | mul => "*"
  | div => "/"
  | mod => "%"

def ofSymbol? (s : String) : Option Operator := all.find? fun o => o.symbol == s

/-- the exact result on integers; quotients are truncated toward zero -/
def onInt (op : Operator) (l r : Int) : Int :=
  match op with
  | add => l + r
  | sub => l - r
  | mul => l * r
  | div => l.tdiv r
  | mod => l.tmod r

def onFloat (op : Operator) (l r : Float) : Float :=
  match op with
  | add => l + r
  | sub => l - r
  | mul => l * r
  | div => l / r
  | mod => Binary64.remainder l r

def divides : Operator → Bool
  | div | mod => true
  | _ => false

end Operator

/-- an operand: its type, and its payload if that can be read -/
structure Operand where
  type : Ty
  payload : Except Fault Raw

namespace Operand

def int (x : Operand) : Except Fault Int :=
  match x.payload with
  | .error e => .error e
  | .ok (.int n) => .ok n
  | .ok _ => .error (.notAnInteger x.type)

/-- the number an operand holds, an integer rounded to binary64 -/
def float (x : Operand) : Except Fault Float :=
  match x.payload with
  | .error e => .error e
  | .ok (.float f) => .ok f
  | .ok (.int n) => .ok (Binary64.ofInt n)
  | .ok _ => .error (.notArithmetic x.type)

end Operand

structure Scalar where
  kind : Kind
  raw : Raw

namespace Scalar

def ofInt (k : Kind) (n : Int) : Scalar := ⟨k, .int (k.normalize n)⟩

/-- a number rounded to a floating-point kind -/
def ofFloat (k : Kind) (x : Float) : Scalar :=
  ⟨k, .float (if k = .f32 then Binary64.toSingle x else x)⟩

def ofBool (b : Bool) : Scalar := ofInt .bool (if b then 1 else 0)

end Scalar

/-- the texts of the overflow policies under which an unsigned result wraps -/
def warnPolicy : String := "warn"

def ignorePolicy : String := "ignore"

def wrapWarning (k : Kind) (n wrapped : Int) : Record :=
  .warn "unsigned overflow wrapped"
    [("type", .text k.name), ("value", .text (decimal n)), ("wrapped", .text (decimal wrapped))]

/-- fits an exact result into a kind, under the text of an overflow policy -/
def fit (policy : String) (k : Kind) (n : Int) : Except Fault (Int × List Record) :=
  if k.contains n then .ok (n, [])
  else if k.signed then .error (.signedOverflow n k)
  else if policy == warnPolicy then
    .ok (k.normalize n, [wrapWarning k n (k.normalize n)])
  else if policy == ignorePolicy then .ok (k.normalize n, [])
  else .error (.unsignedOverflow n k)

/-- the kind arithmetic on integers of a kind takes place in -/
def Kind.working (k : Kind) : Kind := if k = .bool then .i32 else k

/-- a fitted result with the warnings it gave -/
def fitted (policy : String) (k : Kind) (n : Int) : Except Fault (Scalar × List Record) :=
  (fit policy k n).map fun r => (⟨k, .int r.1⟩, r.2)

/-- the result of a binary operator on operands of one arithmetic kind -/
def Operator.apply (policy : String) (op : Operator) (x y : Operand) :
    Except Fault (Scalar × List Record) := do
  let some k := x.type.kind? | throw (.notArithmetic x.type)
  if y.type ≠ .arith k then
    throw (.operandsDiffer op.symbol x.type y.type)
  if k.isFloat then
    let l ← x.float
    let r ← y.float
    return (.ofFloat k (op.onFloat l r), [])
  else
    let l ← x.int
    let r ← y.int
    if op.divides && r = 0 then
      throw (.divisionByZero l op.symbol)
    fitted policy k.working (op.onInt l r)

def Operand.negate (policy : String) (x : Operand) : Except Fault (Scalar × List Record) := do
  let some k := x.type.kind? | throw (.notArithmetic x.type)
  if k.isFloat then
    let f ← x.float
    return (.ofFloat k (-f), [])
  else
    let n ← x.int
    fitted policy k.working (-n)

/-- a payload converted to a kind: integers wrap, fractions are dropped, infinities and what is
no number become zero, and everything but zero is true -/
def Operand.convert (x : Operand) (k : Kind) : Except Fault Scalar :=
  match x.payload with
  | .error e => .error e
  | .ok (.int n) => .ok (if k.isFloat then .ofFloat k (Binary64.ofInt n) else .ofInt k n)
  | .ok (.float f) =>
    .ok (if k.isFloat then .ofFloat k f
      else if k = .bool then .ofBool (f != 0.0)
      else .ofInt k ((Binary64.truncate f).getD 0))
  | .ok _ => .error (.notArithmetic x.type)

namespace Store

def operand (s : Store) (v : VarId) : Operand :=
  match s.typeOf v with
  | .ok t => ⟨t, s.read v⟩
  | .error e => ⟨.void, .error e⟩

def scalar (s : Store) (x : Scalar) : VarId × Store := s.temp (.arith x.kind) x.raw

def convert (s : Store) (v : VarId) (k : Kind) : Except Fault (VarId × Store) :=
  ((s.operand v).convert k).map fun x => s.scalar x

/-- the result of a binary operator on two variables, with the warnings it gave -/
def binary (s : Store) (policy : String) (op : Operator) (x y : VarId) :
    Except Fault (VarId × Store × List Record) :=
  (op.apply policy (s.operand x) (s.operand y)).map fun r =>
    let (v, s) := s.scalar r.1
    (v, s, r.2)

/-- the opposite of a variable, with the warnings it gave -/
def negate (s : Store) (policy : String) (x : VarId) :
    Except Fault (VarId × Store × List Record) :=
  ((s.operand x).negate policy).map fun r =>
    let (v, s) := s.scalar r.1
    (v, s, r.2)

end Store

end Overloading
