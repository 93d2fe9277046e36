import Overloading.Fault
import Overloading.Number.Binary64

/-!
# The store

Values live in cells.  A variable is a typed view of a cell; two variables alias when they view
the same cell.  A region is a growing sequence of cells of one element type; pointers into a
region name the region and an index.

A cell knows its holder: a temporary has none, a local holds itself, and a cell of a region is
held by its place in it.  Cells and variables are never removed, so their numbers stay valid.

* `Store.read` gives the payload of a variable, or a fault if it has none or lies outside its
  region;
* `Store.init` stores a payload in any variable that is bound, `Store.assign` only in mutable
  lvalues.
-/

namespace Overloading

abbrev CellId := Nat
abbrev VarId := Nat
abbrev RegionId := Nat

/-- the payload of an initialized cell -/
inductive Raw where
  | int (n : Int)
  | float (x : Float)
  /-- a pointer to one variable; without a target it is null -/
  | direct (target : Option VarId)
  /-- a pointer into a region; any index may be held -/
  | index (region : RegionId) (i : Int)
  | func (name domain : String)
  /-- the members of a class value, in ascending order of their names -/
  | object (members : List (String × VarId))
  /-- the elements of a brace list -/
  | elems (items : List VarId)
  /-- no payload at all -/
  | nothing

inductive CellState where
  | uninit
  | init
  /-- outside its region -/
  | unbound
  deriving DecidableEq

def CellState.name : CellState → String
  | .uninit => "UNINIT"
  | .init => "INIT"
  | .unbound => "UNBOUND"

/-- who owns a cell -/
inductive Holder where
  | temporary
  | itself
  | slot (region : RegionId) (index : Int)
  deriving DecidableEq

structure Cell where
  state : CellState
  raw : Raw
  holder : Holder

structure Variable where
  type : Ty
  const : Bool
  cell : CellId

structure Region where
  elem : Ty
  cells : Array CellId

structure Store where
  cells : Array Cell
  vars : Array Variable
  regions : Array Region

namespace Store

def empty : Store := ⟨#[], #[], #[]⟩

/-! ## Looking -/

def view (s : Store) (v : VarId) : Except Fault (Variable × Cell) :=
  match s.vars[v]? with
  | none => .error .absentValue
  | some x =>
    match s.cells[x.cell]? with
    | none => .error .absentValue
    | some c => .ok (x, c)

def region (s : Store) (r : RegionId) : Except Fault Region :=
  match s.regions[r]? with
  | none => .error .absentValue
  | some x => .ok x

/-- the fault of touching a cell outside its region -/
def boundsFault (s : Store) : Holder → Fault
  | .slot r i =>
    match s.regions[r]? with
    | some x => .outsideRegion i x.elem x.cells.size r
    | none => .outsideAnyRegion
  | _ => .outsideAnyRegion

def read (s : Store) (v : VarId) : Except Fault Raw :=
  match s.view v with
  | .error e => .error e
  | .ok (x, c) =>
    match c.state with
    | .uninit => .error (.uninitialized x.type)
    | .unbound => .error (s.boundsFault c.holder)
    | .init => .ok c.raw

def isLvalue (s : Store) (v : VarId) : Bool :=
  match s.view v with
  | .ok (_, c) => c.holder != .temporary
  | .error _ => false

def typeOf (s : Store) (v : VarId) : Except Fault Ty := (s.view v).map fun x => x.1.type

/-! ## Making variables -/

/-- adds a variable that views a cell of the store -/
def addVariable (s : Store) (x : Variable) : VarId × Store :=
  (s.vars.size, { s with vars := s.vars.push x })

def addCell (s : Store) (c : Cell) : CellId × Store :=
  (s.cells.size, { s with cells := s.cells.push c })

def fresh (s : Store) (t : Ty) (c : Cell) : VarId × Store :=
  let (id, s) := s.addCell c
  s.addVariable ⟨t, false, id⟩

def temp (s : Store) (t : Ty) (r : Raw) : VarId × Store := s.fresh t ⟨.init, r, .temporary⟩

def declare (s : Store) (t : Ty) : VarId × Store := s.fresh t ⟨.uninit, .nothing, .itself⟩

def allocLocal (s : Store) (t : Ty) (r : Raw) : VarId × Store := s.fresh t ⟨.init, r, .itself⟩

def modifyCell (s : Store) (id : CellId) (f : Cell → Cell) : Store :=
  { s with cells := s.cells.modify id f }

/-- makes a temporary hold itself -/
def makeLocal (s : Store) (v : VarId) : Store :=
  match s.vars[v]? with
  | none => s
  | some x => s.modifyCell x.cell fun c =>
      if c.holder = .temporary then { c with holder := .itself } else c

/-- marks a variable as constant or not; other views of its cell stay as they are -/
def setConst (s : Store) (v : VarId) (b : Bool) : Store :=
  { s with vars := s.vars.modify v fun x => { x with const := b } }

def allocNull (s : Store) (elem : Ty) : VarId × Store := s.temp (.pointer elem) (.direct none)

def typesOf (s : Store) (vs : List VarId) : List Ty :=
  vs.filterMap fun v => (s.vars[v]?).map fun x => x.type

def allocList (s : Store) (items : List VarId) : VarId × Store :=
  s.temp (.list (s.typesOf items)) (.elems items)

/-- the payload a declaration without initializer gives an arithmetic type or a pointer -/
def zero? : Ty → Option Raw
  | .arith k => some (if k.isFloat then .float 0.0 else .int 0)
  | .pointer _ => some (.direct none)
  | _ => none

/-! ## Storing -/

/-- stores a payload in a variable that is bound, constant or not -/
def init (s : Store) (v : VarId) (r : Raw) : Except Fault Store :=
  match s.view v with
  | .error e => .error e
  | .ok (x, c) =>
    if c.state = .unbound then .error (s.boundsFault c.holder)
    else .ok (s.modifyCell x.cell fun c => { c with state := .init, raw := r })

/-- stores a payload through a mutable lvalue -/
def assign (s : Store) (v : VarId) (r : Raw) : Except Fault Store :=
  match s.view v with
  | .error e => .error e
  | .ok (x, c) =>
    if c.holder = .temporary then .error (.assignTemporary x.type)
    else if x.const then .error (.constAssign x.type)
    else s.init v r

/-! ## Regions -/

def addRegion (s : Store) (elem : Ty) : RegionId × Store :=
  (s.regions.size, { s with regions := s.regions.push ⟨elem, #[]⟩ })

/-- adds a cell at the end of a region; also gives its index -/
def grow (s : Store) (r : RegionId) (state : CellState) (raw : Raw) : Nat × Store :=
  let i : Nat := ((s.regions[r]?).map fun x => x.cells.size).getD 0
  let (id, s) := s.addCell ⟨state, raw, .slot r i⟩
  (i, { s with regions := s.regions.modify r fun x => { x with cells := x.cells.push id } })

/-- adds an initialized cell at the end of a region -/
def append (s : Store) (r : RegionId) (raw : Raw) : Nat × Store := s.grow r .init raw

/-- adds so many uninitialized cells to a region -/
def growBy (s : Store) (r : RegionId) : Nat → Store
  | 0 => s
  | n + 1 => (s.grow r .uninit .nothing).2.growBy r n

def allocRegion (s : Store) (elem : Ty) (n : Nat) : RegionId × Store :=
  let (r, s) := s.addRegion elem
  (r, s.growBy r n)

/-- adds the payloads of variables to a region -/
def appendAll (s : Store) (r : RegionId) : List VarId → Except Fault Store
  | [] => .ok s
  | v :: vs =>
    match s.read v with
    | .error e => .error e
    | .ok raw => (s.append r raw).2.appendAll r vs

def regionFrom (s : Store) (elem : Ty) (items : List VarId) : Except Fault (RegionId × Store) :=
  let (r, s) := s.addRegion elem
  (s.appendAll r items).map fun s => (r, s)

/-- a variable that views a cell of a region with a given type; outside the region it is
unbound -/
def cellAs (s : Store) (t : Ty) (r : RegionId) (i : Int) : VarId × Store :=
  let cell? := (s.regions[r]?).bind fun x =>
    match i with
    | .ofNat n => x.cells[n]?
    | .negSucc _ => none
  match cell? with
  | some id => s.addVariable ⟨t, false, id⟩
  | none => s.fresh t ⟨.unbound, .nothing, .slot r i⟩

def at_ (s : Store) (r : RegionId) (i : Int) : VarId × Store :=
  s.cellAs (((s.regions[r]?).map fun x => x.elem).getD .void) r i

def allocArray (s : Store) (elem : Ty) (n : Nat) : VarId × Store :=
  let (r, s) := s.allocRegion elem n
  s.allocLocal (.array elem n) (.index r 0)

end Store

end Overloading
