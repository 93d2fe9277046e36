import Overloading.Ty.Tokens

/-!
# Plans

A match says how each argument of a call reaches its parameter.  An argument is borrowed, cloned
or cast; a cast follows one of four strategies.  A constructor cast carries the match of its
argument against the constructor, a brace-list cast one transfer for each element of the list.
-/

namespace Overloading

inductive Strategy where
  | decay
  | numeric
  | constructor
  | braceList
  deriving DecidableEq

namespace Strategy

/-- every strategy, in the order they are tried unless configured otherwise -/
def all : List Strategy := [decay, numeric, constructor, braceList]

def name : Strategy → String
  | decay => "decay"
  | numeric => "numeric"
  | constructor => "constructor"
  | braceList => "brace_list"

def number : Strategy → Nat
  | decay => 1
  | numeric => 2
  | constructor => 3
  | braceList => 4

def ofName? (n : String) : Option Strategy := all.find? fun s => s.name == n

def ofNumber? (n : Int) : Option Strategy := all.find? fun s => (s.number : Int) == n

/-- the strategies a list of names stands for -/
def parseOrder : List String → Except Fault (List Strategy)
  | [] => .ok []
  | n :: ns =>
    match ofName? n with
    | none => .error (.unknownStrategy n)
    | some s => (parseOrder ns).map fun ss => s :: ss

theorem ofName?_name (s : Strategy) : ofName? s.name = some s := by cases s <;> decide

end Strategy

/-- a declaration that may serve as a converting constructor, with the number its owner knows it
by -/
structure Candidate where
  id : Nat
  signature : Signature

inductive Shape where
  /-- as the elements of an `initializer_list` -/
  | initializerList
  /-- by the shape registered for the class at a position -/
  | registered (index : Nat)
  /-- by a shape nobody registered -/
  | unregistered
  deriving DecidableEq

inductive Transfer where
  | borrow
  | clone
  | decay (target : Ty)
  | numeric (target : Ty)
  | construct (target : Ty) (maker : Candidate) (nested : List Transfer)
      (bindings : List (Nat × List String)) (returns : Option (List String))
  | braces (target : Ty) (shape : Shape) (elements : List Transfer)
  /-- a constructor cast whose constructor nobody registered -/
  | unregistered (target : Ty)
  /-- a cast that follows none of the strategies -/
  | unsupported (target : Ty)
  deriving Inhabited

/-- a successful match: one transfer for each argument of a call, what the wildcards stand for, and
the tokens of the return once they are known -/
structure Match where
  transfers : List Transfer
  bindings : List (Nat × List String)
  returns : Option (List String)

namespace Transfer

def strategy? : Transfer → Option Strategy
  | decay _ => some .decay
  | numeric _ => some .numeric
  | construct .. | unregistered _ => some .constructor
  | braces .. => some .braceList
  | borrow | clone | unsupported _ => none

def target? : Transfer → Option Ty
  | decay t | numeric t | construct t .. | braces t .. | unregistered t | unsupported t => some t
  | borrow | clone => none

def isCast (a : Transfer) : Bool := a.target?.isSome

/-- the name of the way an argument is passed -/
def kindName : Transfer → String
  | borrow => "borrow"
  | clone => "clone"
  | _ => "cast"

/-- the name of a strategy, or of its absence -/
def strategyName (a : Transfer) : String := (a.strategy?.map Strategy.name).getD "none"

def nested? : Transfer → Option Match
  | construct _ _ transfers bindings returns => some ⟨transfers, bindings, returns⟩
  | _ => none

/-- the wording of a cast without its elements -/
def castText (a : Transfer) : String :=
  match a.target? with
  | some t => "cast(" ++ a.strategyName ++ " -> " ++ t.render ++ ")"
  | none => a.kindName

mutual
def text : Transfer → String
  | braces t s es =>
    castText (braces t s es) ++
      (if es.isEmpty then "" else "\x7b" ++ ", ".intercalate (textAll es) ++ "\x7d")
  | a => a.castText

def textAll : List Transfer → List String
  | [] => []
  | a :: as => a.text :: textAll as
end

mutual
/-- how many casts a transfer takes, nested ones included -/
def casts : Transfer → Nat
  | borrow | clone => 0
  | decay _ | numeric _ | unregistered _ | unsupported _ => 1
  | construct _ _ nested _ _ => 1 + castsAll nested
  | braces _ _ elements => 1 + castsAll elements

def castsAll : List Transfer → Nat
  | [] => 0
  | a :: as => a.casts + castsAll as
end

end Transfer

namespace Match

/-- how many casts a match takes, nested ones included -/
def casts (m : Match) : Nat := Transfer.castsAll m.transfers

/-- the tokens of a return without a reference marker -/
def withoutMarker : List String → List String
  | t :: ts => if t == Keyword.lref || t == Keyword.clref then ts else t :: ts
  | [] => []

/-- the type a match returns; a reference marker is dropped -/
def resultType (m : Match) : Except Fault Ty :=
  match m.returns with
  | none => .error .openReturn
  | some ts => Grammar.signature.readType (withoutMarker ts)

end Match

end Overloading
