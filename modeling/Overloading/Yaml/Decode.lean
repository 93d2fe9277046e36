import Overloading.Number.Reading
import Overloading.Text.Letter
import Overloading.Yaml.Document

/-!
# Reading documents as records

A record takes its fields from a mapping.  A key that names no field is passed over with its
value; a key that is given twice, and a value of the wrong sort, make the document refused.  A
null value leaves a field as it was, and in a list it leaves nothing.

What a scalar stands for is its value (`Node.value?`), but any scalar that is not null may be used
as a text.  Truth values are also written with the words `y`, `yes` and `on` and their opposites,
quoted or not.  An integer may be decimal, hexadecimal, octal or binary, with low lines between
its digits; a number with a fraction or an exponent is truncated to one.
-/

namespace Overloading.Yaml

open Overloading.Text

def readAll {α β : Type} (f : α → Read β) : List α → Read (List β)
  | [] => .ok []
  | a :: as =>
    match f a with
    | .error e => .error e
    | .ok b => (readAll f as).map fun bs => b :: bs

/-! ## Numbers -/

/-- the value of digits of a base; `none` if there are none or one is no digit of it -/
def digits? (base : Nat) : List Char → Option Nat
  | [] => none
  | cs => cs.foldl
      (fun n c => n.bind fun n => match hexValue? c with
        | some d => if d < base then some (base * n + d) else none
        | none => none)
      (some 0)

/-- an unsigned integer; a base mark or a leading zero chooses the base -/
def natural? : List Char → Option Nat
  | '0' :: x :: cs =>
    if x == 'x' || x == 'X' then digits? 16 cs
    else if x == 'o' || x == 'O' then digits? 8 cs
    else if x == 'b' || x == 'B' then digits? 2 cs
    else digits? 8 (x :: cs)
  | cs => digits? 10 cs

/-- an integer with an optional sign that fits a signed 64-bit word -/
def signed? (magnitude? : List Char → Option Nat) (cs : List Char) : Option Int :=
  let n := match cs with
    | '-' :: cs => (magnitude? cs).map fun n => -(n : Int)
    | '+' :: cs => (magnitude? cs).map fun n => (n : Int)
    | cs => (magnitude? cs).map fun n => (n : Int)
  n.filter isWord

/-- an integer without a sign that fits an unsigned 64-bit word -/
def unsigned? (cs : List Char) : Option Int :=
  ((natural? cs).filter fun n => n < Nat.pow 2 64).map fun n => (n : Int)

def dropDigits (cs : List Char) : List Char := cs.dropWhile isAsciiDigit

def isExponent : List Char → Bool
  | [] => true
  | e :: cs =>
    (e == 'e' || e == 'E') &&
      let ds := match cs with
        | '-' :: ds => ds
        | '+' :: ds => ds
        | ds => ds
      !ds.isEmpty && ds.all isAsciiDigit

/-- a decimal number with an optional fraction and exponent -/
def isDecimal (cs : List Char) : Bool :=
  let cs := match cs with
    | '-' :: ds => ds
    | '+' :: ds => ds
    | ds => ds
  match cs with
  | '.' :: ds => (ds.head?.map isAsciiDigit).getD false && isExponent (dropDigits ds)
  | ds =>
    (ds.head?.map isAsciiDigit).getD false &&
      match dropDigits ds with
      | '.' :: es => isExponent (dropDigits es)
      | es => isExponent es

/-! ## Values -/

/-- what a scalar stands for; anything without a meaning of its own is a text -/
inductive Datum where
  | null
  | bool (b : Bool)
  | int (n : Int)
  | float (x : Float)
  | text

/-- the scalars with a meaning of their own that are not numbers -/
def wordValue? (t : String) : Option Datum :=
  if ["", "~", "null", "Null", "NULL"].contains t then some .null
  else if ["true", "True", "TRUE"].contains t then some (.bool true)
  else if ["false", "False", "FALSE"].contains t then some (.bool false)
  else if [".nan", ".NaN", ".NAN"].contains t then some (.float (0.0 / 0.0))
  else if [".inf", ".Inf", ".INF", "+.inf", "+.Inf", "+.INF"].contains t then
    some (.float (Binary64.infinity false))
  else if ["-.inf", "-.Inf", "-.INF"].contains t then some (.float (Binary64.infinity true))
  else none

/-- the number of a scalar without low lines.  After the lower-case marks of binary and octal
numbers a sign may stand. -/
def number? (cs : List Char) : Option Datum :=
  let float? := if isDecimal cs then Reading.float? (String.ofList cs) else none
  let marked? := match cs with
    | '0' :: 'b' :: ds => signed? (digits? 2) ds
    | '0' :: 'o' :: ds => signed? (digits? 8) ds
    | _ => none
  ((signed? natural? cs).map Datum.int).orElse fun _ =>
    ((unsigned? cs).map Datum.int).orElse fun _ =>
      (float?.map Datum.float).orElse fun _ => marked?.map Datum.int

/-- the value of a plain scalar.  Numbers begin with a digit or a sign and may hold low lines
anywhere, or begin with a point and may hold them between digits. -/
def plainValue (t : String) : Datum :=
  match wordValue? t, t.toList with
  | some v, _ => v
  | none, [] => .text
  | none, c :: cs =>
    if c == '.' then ((Reading.float? t).map Datum.float).getD .text
    else if isAsciiDigit c || c == '-' || c == '+' then
      (number? ((c :: cs).filter fun c => c != '_')).getD .text
    else .text

/-- the value of a scalar under a tag, which says of which sort it has to be -/
def taggedValue (tag text : String) : Read Datum :=
  match tag, plainValue text with
  | "!!null", .null => .ok .null
  | "!!bool", .bool b => .ok (.bool b)
  | "!!int", .int n => .ok (.int n)
  | "!!float", .float x => .ok (.float x)
  | "!!float", .int n => .ok (.float (Binary64.ofInt n))
  | _, _ => .error "cannot decode a scalar as its tag says"

def leastWord : Int := -(Nat.pow 2 63)

/-- a number truncated to a signed 64-bit word: none above the greatest, the least one wherever
there is no other -/
def wordOfFloat? (x : Float) : Option Int :=
  if x ≤ Binary64.ofInt (Nat.pow 2 63) then
    some (((Binary64.truncate x).filter isWord).getD leastWord)
  else none

namespace Node

def value? : Node → Read Datum
  | scalar t .plain => .ok (plainValue t)
  | scalar _ .quoted => .ok .text
  | scalar t (.tagged tag) => taggedValue tag t
  | sequence _ => .error "cannot unmarshal a sequence into a scalar"
  | mapping _ => .error "cannot unmarshal a mapping into a scalar"
  | endless => .error "anchor value contains itself"

def written : Node → String
  | scalar t _ => t
  | _ => ""

def isNull (n : Node) : Bool :=
  match n.value? with
  | .ok .null => true
  | _ => false

def text? (n : Node) : Read (Option String) :=
  n.value?.map fun v => match v with
    | .null => none
    | _ => some n.written

/-- the truth value of a scalar; `none` for a null -/
def bool? (n : Node) : Read (Option Bool) := do
  match ← n.value? with
  | .null => return none
  | .bool b => return some b
  | .text =>
    let t := n.written
    if ["y", "Y", "yes", "Yes", "YES", "on", "On", "ON"].contains t then return some true
    if ["n", "N", "no", "No", "NO", "off", "Off", "OFF"].contains t then return some false
    throw "cannot unmarshal a text into a truth value"
  | _ => throw "cannot unmarshal a number into a truth value"

/-- the integer of a scalar; `none` for a null -/
def int? (n : Node) : Read (Option Int) := do
  let word? ← match ← n.value? with
    | .null => return none
    | .int i => pure (if isWord i then some i else none)
    | .float x => pure (wordOfFloat? x)
    | _ => pure none
  match word? with
  | some i => return some i
  | none => throw "cannot unmarshal into an integer"

/-- the items of a sequence that are not null; a null has none -/
def items? (n : Node) : Read (List Node) :=
  if n.isNull then .ok []
  else match n with
    | sequence ns => .ok (ns.filter fun n => !n.isNull)
    | _ => .error "cannot unmarshal into a sequence"

def texts? (n : Node) : Read (List String) :=
  match n.items? with
  | .error e => .error e
  | .ok ns => (readAll text? ns).map fun ts => ts.filterMap id

/-- what two keys of a mapping are compared by -/
def keyText : Node → Option String
  | scalar t _ => some t
  | _ => none

def hasRepeated : List (Option String) → Bool
  | [] => false
  | k :: ks => ks.contains k || hasRepeated ks

/-- the fields of a mapping by name; a null has none, and a null key names none -/
def fields? (n : Node) : Read (List (String × Node)) :=
  if n.isNull then .ok []
  else match n with
    | mapping entries =>
      if hasRepeated (entries.map fun e => e.1.keyText) then .error "mapping key already defined"
      else
        (readAll (fun e => e.1.text?.map fun k => k.map fun k => (k, e.2)) entries).map
          fun fs => fs.filterMap id
    | _ => .error "cannot unmarshal into a mapping"

end Node

/-- reads a field of a record, if it is there -/
def field {α : Type} (fs : List (String × Node)) (name : String) (read : Node → Read α)
    (absent : α) : Read α :=
  match fs.lookup name with
  | none => .ok absent
  | some n => read n

end Overloading.Yaml
