import Overloading.Match.Plan

/-!
# Conversions

A value reaches a type other than its own by the first strategy, in a given order, that applies:

* a function or a fixed array decays to a pointer;
* an arithmetic value is converted to another arithmetic kind;
* a class is constructed from the value;
* a brace list is laid out as the members of a class, or as the elements of an `initializer_list`.

How constructors are found is a parameter (`castWith`): inside a constructor cast no other
constructor is tried, so the search for one can be defined on top of casts without any.  The
recursion follows the nesting of brace lists in the source type; the destination may grow on the
way.
-/

namespace Overloading

structure Conversions where
  /-- the one-argument constructors of a class -/
  constructors : ClassTy → List Candidate
  /-- the field types of each shape of a class; `none` where a shape does not apply -/
  shapes : ClassTy → List (Option (List Ty))

/-- what casts are allowed: the user-defined conversions, if any, and the order of casts -/
structure CastRules where
  user : Option Conversions
  order : List Strategy

def initializerListName : String := "initializer_list"

/-- a plan, or none if there is no conversion -/
abbrev Planned (α : Type) := Except Fault (Option α)

/-- tries a list of ways in order and takes the first that gives a plan -/
def firstPlan {α β : Type} (f : α → Planned β) : List α → Planned β
  | [] => .ok none
  | a :: as =>
    match f a with
    | .ok none => firstPlan f as
    | r => r

/-- a function decays to a pointer to it, a fixed array to a pointer to its element type -/
def decayTo (src dst : Ty) : Option Transfer :=
  match dst, src with
  | .pointer elem, .function ts => if elem = .function ts then some (.decay dst) else none
  | .pointer elem, .array e _ => if elem = e then some (.decay dst) else none
  | _, _ => none

def numericTo (src dst : Ty) : Option Transfer :=
  match src, dst with
  | .arith _, .arith _ => some (.numeric dst)
  | _, _ => none

/-- the element type of an `initializer_list` -/
def ClassTy.listElement? : ClassTy → Option Ty
  | .mk name [t] none => if name == initializerListName then some t else none
  | _ => none

/-- lays out a brace list of a given length in a type, by a way to convert its elements -/
def bracesInto (m : CastRules) (convertAll : List Ty → Planned (List Transfer)) (length : Nat)
    (dst : Ty) : Planned Transfer :=
  match dst with
  | .cls c =>
    match c.listElement? with
    | some t =>
      (convertAll (List.replicate length t)).map fun r =>
        r.map (Transfer.braces dst .initializerList)
    | none =>
      match m.user with
      | none => .ok none
      | some user =>
        firstPlan
          (fun shape => match shape with
            | (some fields, i) =>
              if fields.length = length then
                (convertAll fields).map fun r => r.map (Transfer.braces dst (.registered i))
              else .ok none
            | (none, _) => .ok none)
          (user.shapes c).zipIdx
  | _ => .ok none

def castSimply (user : Ty → Ref → Ty → Planned Transfer) (src : Ty) (ref : Ref) (dst : Ty) :
    Strategy → Planned Transfer
  | .decay => .ok (decayTo src dst)
  | .numeric => .ok (numericTo src dst)
  | .constructor => user src ref dst
  | .braceList => .ok none

mutual
/-- the first strategy that takes a value of type `src` to `dst`; constructors are found by
`user` -/
def castWith (m : CastRules) (user : Ty → Ref → Ty → Planned Transfer) :
    (src : Ty) → Ref → (dst : Ty) → Planned Transfer
  | .list elems, ref, dst =>
    firstPlan
      (fun s => match s with
        | .braceList => bracesInto m (castAllWith m user elems) elems.length dst
        | s => castSimply user (.list elems) ref dst s)
      m.order
  | src, ref, dst => firstPlan (castSimply user src ref dst) m.order

/-- converts each element of a list to the field in its place: a clone if the types agree -/
def castAllWith (m : CastRules) (user : Ty → Ref → Ty → Planned Transfer) :
    List Ty → List Ty → Planned (List Transfer)
  | e :: es, f :: fs =>
    match (if e = f then .ok (some .clone) else castWith m user e .none f) with
    | .error err => .error err
    | .ok none => .ok none
    | .ok (some a) => (castAllWith m user es fs).map fun r => r.map fun as => a :: as
  | _, _ => .ok (some [])
end

/-- how a value of type `src` reaches `dst`: cloned if the types agree, else cast -/
def convertWith (m : CastRules) (user : Ty → Ref → Ty → Planned Transfer) (src : Ty) (ref : Ref)
    (dst : Ty) : Planned Transfer :=
  if src = dst then .ok (some .clone) else castWith m user src ref dst

end Overloading
