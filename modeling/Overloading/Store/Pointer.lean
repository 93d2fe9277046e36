import Overloading.Store.Basic

/-!
# Pointers

A pointer names one variable, or a region and an index.  The address of a cell of a region is of
the second sort, so that arithmetic keeps working on it.  Arithmetic may leave the region and come
back; only reading or writing through a dereferenced pointer checks the bounds.
-/

namespace Overloading

def wrapWord (n : Int) : Int := Int.bmod n (Nat.pow 2 64)

/-- a pointer: to a variable, or into a region -/
inductive Pointer where
  | direct (target : Option VarId)
  | index (region : RegionId) (i : Int)

def Pointer.raw : Pointer → Raw
  | .direct t => .direct t
  | .index r i => .index r i

/-- what a pointer or array type points to; any other type stands for itself -/
def Ty.pointee : Ty → Ty
  | .pointer e => e
  | .array e _ => e
  | t => t

namespace Store

/-- a variable with its type and the pointer it holds -/
def readPointer (s : Store) (v : VarId) : Except Fault (Ty × Pointer) :=
  match s.typeOf v with
  | .error e => .error e
  | .ok t =>
    match s.read v with
    | .error e => .error e
    | .ok (.direct target) => .ok (t, .direct target)
    | .ok (.index r i) => .ok (t, .index r i)
    | .ok _ => .error (.notAPointer t)

/-- a pointer to a variable; a cell of a region is pointed to by its place -/
def addressOf (s : Store) (v : VarId) : Except Fault (VarId × Store) :=
  match s.view v with
  | .error e => .error e
  | .ok (x, c) =>
    match c.holder with
    | .temporary => .error (.addressOfTemporary x.type)
    | .slot r i => .ok (s.temp (.pointer x.type) (.index r i))
    | .itself => .ok (s.temp (.pointer x.type) (.direct (some v)))

/-- a pointer to a place of a region, inside or not -/
def pointerInto (s : Store) (r : RegionId) (i : Int) : VarId × Store :=
  s.temp (.pointer (((s.regions[r]?).map fun x => x.elem).getD .void)) (.index r i)

/-- what a pointer points to.  An index outside its region gives an unbound variable. -/
def deref (s : Store) (p : VarId) : Except Fault (VarId × Store) :=
  match s.readPointer p with
  | .error e => .error e
  | .ok (t, .direct none) => .error (.nullPointer t)
  | .ok (_, .direct (some v)) => .ok (v, s)
  | .ok (t, .index r i) => .ok (s.cellAs t.pointee r i)

def offset (s : Store) (p : VarId) (n : Int) : Except Fault (VarId × Store) :=
  match s.readPointer p with
  | .error e => .error e
  | .ok (t, .direct target) =>
    if n = 0 then .ok (s.temp t (.direct target)) else .error .notIntoArray
  | .ok (t, .index r i) =>
    let t := match t with
      | .array e _ => .pointer e
      | t => t
    .ok (s.temp t (.index r (wrapWord (i + n))))

/-- how many places one pointer is after another of the same region -/
def distance (s : Store) (p q : VarId) : Except Fault Int :=
  match s.readPointer p with
  | .error e => .error e
  | .ok (_, a) =>
    match s.readPointer q with
    | .error e => .error e
    | .ok (_, b) =>
      match a, b with
      | .index r i, .index r' i' =>
        if r = r' then .ok (wrapWord (i - i')) else .error .differentArrays
      | _, _ => .error .differentArrays

def cellOf (s : Store) (v : VarId) : Option CellId := (s.vars[v]?).map fun x => x.cell

/-- whether two pointers point to the same storage: variables of one cell, or the same place of
one region -/
def samePointer (s : Store) (p q : VarId) : Except Fault Bool :=
  match s.readPointer p with
  | .error e => .error e
  | .ok (_, a) =>
    match s.readPointer q with
    | .error e => .error e
    | .ok (_, b) =>
      match a, b with
      | .direct none, .direct none => .ok true
      | .direct (some v), .direct (some w) => .ok (s.cellOf v == s.cellOf w)
      | .index r i, .index r' i' => .ok (r == r' && i == i')
      | _, _ => .ok false

/-- a function becomes a pointer to it, a fixed array a pointer to its first element -/
def decay (s : Store) (v : VarId) : Except Fault (VarId × Store) :=
  match s.typeOf v with
  | .error e => .error e
  | .ok t =>
    match t with
    | .function ts => .ok (s.temp (.pointer (.function ts)) (.direct (some v)))
    | .pointer _ => .ok (v, s)
    | .array e _ =>
      (s.readPointer v).map fun p => s.temp (.pointer e) p.2.raw
    | t => .error (.noDecay t)

end Store

end Overloading
