import Overloading.Catalog.Calling

/-!
# Builtin operators and input

The arithmetic operators are overloads of the global domain over one arithmetic wildcard, so that
mixed operands reach them in their common kind.  Numbers are read from lines of input; an integer
outside its kind is treated as an overflowing result is.
-/

namespace Overloading

open Overloading.Text

variable {τ : Type}

def binarySignature : String := "!Arithmetic FUNCTION ?0 ( ?0 ?0 )"

def unarySignature : String := "!Arithmetic FUNCTION ?0 ( ?0 )"

/-- a binary operator under an overflow policy -/
def binaryTarget (policy : String) (op : Operator) : Implementation τ := fun _ _ args =>
  match args with
  | some x :: some y :: _ => Comp.tryLogged fun s => s.binary policy op x y
  | _ => Comp.fail .absentValue

def unaryTarget (policy : String) : Implementation τ := fun _ _ args =>
  match args with
  | some x :: _ => Comp.tryLogged fun s => s.negate policy x
  | _ => Comp.fail .absentValue

def readNumber (policy : String) (k : Kind) (line : String) :
    Except Fault (Scalar × List Record) :=
  let t := trim line
  if k.isFloat then
    match Reading.float? t with
    | none => .error (.notANumber t k)
    | some x => .ok (.ofFloat k x, [])
  else
    match integer? t with
    | none => .error (.notANumber t k)
    | some n => (fit policy k n).map fun r => (.ofInt k r.1, r.2)

namespace Catalog

/-- the overloads of the builtin operators, in the order they are declared -/
def operators (policy : String) : List (String × String × Implementation τ) :=
  (Operator.all.map fun op =>
    (operatorKey op.symbol, binarySignature, binaryTarget policy op)) ++
    [(operatorKey Operator.sub.symbol, unarySignature, unaryTarget policy)]

/-- declares overloads of the global domain one by one; at the first fault it stops, and what has
been declared stays -/
def declareAll (r : Catalog τ) :
    List (String × String × Implementation τ) → (Catalog τ × List Record) × Option Fault
  | [] => ((r, []), none)
  | (name, sig, target) :: rest =>
    match r.declare globalDomain name sig (some target) with
    | .error e => ((r, []), some e)
    | .ok (r, records) =>
      let ((r, more), fault) := r.declareAll rest
      ((r, records ++ more), fault)

def declareOperators (r : Catalog τ) : (Catalog τ × List Record) × Option Fault :=
  r.declareAll (operators r.config.unsignedOverflow)

/-- waits for a line and reads a number of a kind from it -/
def awaitNumber (r : Catalog τ) (prompt : String) (k : Kind) : Comp (Engine τ) Value :=
  Comp.await prompt fun line =>
    Comp.tryLogged fun s =>
      (readNumber r.config.unsignedOverflow k line).map fun n =>
        let (v, s) := s.scalar n.1
        (v, s, n.2)

end Catalog

end Overloading
