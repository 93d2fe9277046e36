import Overloading.Store.Basic

/-!
# Class values and copies

A class value owns its members, each a variable; a brace list owns its items and a fixed array
the cells of its region.  `Store.clone` copies all that a value owns and nothing that it only
points to.  A copy goes from variable to variable by what they own, and from each through the arrays
that its type nests; if it never returns to a variable, that bounds how far it goes
(`Store.nesting`), and the recursion.
-/

namespace Overloading

/-- puts a member in its place by name; a member of the same name is replaced -/
def putMember (name : String) (v : VarId) : List (String × VarId) → List (String × VarId)
  | [] => [(name, v)]
  | (n, w) :: rest =>
    if name = n then (name, v) :: rest
    else if name < n then (name, v) :: (n, w) :: rest
    else (n, w) :: putMember name v rest

/-- members in ascending order of their names; of several with one name the last stays -/
def sortMembers (members : List (String × VarId)) : List (String × VarId) :=
  members.foldl (fun acc m => putMember m.1 m.2 acc) []

def Ty.arrayDepth : Ty → Nat
  | .array e _ => e.arrayDepth + 1
  | _ => 0

namespace Store

/-- a class value with given members; temporaries among them become locals -/
def allocObject (s : Store) (c : ClassTy) (members : List (String × VarId)) : VarId × Store :=
  let s := members.foldl (fun s m => s.makeLocal m.2) s
  s.temp (.cls c) (.object (sortMembers members))

/-- a member of a class value; that of a constant one is constant -/
def member (s : Store) (v : VarId) (name : String) : Except Fault (VarId × Store) :=
  match s.view v with
  | .error e => .error e
  | .ok (x, _) =>
    match s.read v with
    | .error e => .error e
    | .ok (.object members) =>
      match members.lookup name with
      | none => .error (.noMember x.type name)
      | some m =>
        match s.vars[m]? with
        | none => .error .absentValue
        | some mx =>
          if x.const && !mx.const then .ok (s.addVariable { mx with const := true })
          else .ok (m, s)
    | .ok _ => .error (.notAClassValue x.type)

/-- the names of the members of a class value, in order -/
def memberLabels (s : Store) (v : VarId) : Option (List String) :=
  match s.read v with
  | .ok (.object members) => some (members.map fun m => m.1)
  | _ => none

/-! ## Copies -/

/-- how far one gets from variable to variable, and through the arrays of each, without returning to
a variable -/
def nesting (s : Store) : Nat := s.vars.toList.foldr (fun x n => x.type.arrayDepth + 1 + n) 0

/-- applies an operation on the store to each element of a list in turn -/
def mapStore {α β : Type} (f : α → Store → β × Store) : List α → Store → List β × Store
  | [], s => ([], s)
  | a :: as, s =>
    let (b, s) := f a s
    let (bs, s) := mapStore f as s
    (b :: bs, s)

/-- a local with the type, constness and state of a variable and a copy of its payload -/
def cloneVariable (copy : Ty → Raw → Store → Raw × Store) (v : VarId) (s : Store) :
    VarId × Store :=
  match s.view v with
  | .error _ => (v, s)
  | .ok (x, c) =>
    let (raw, s) := if c.state = .init then copy x.type c.raw s else (.nothing, s)
    let (id, s) := s.addCell ⟨c.state, raw, .itself⟩
    s.addVariable ⟨x.type, x.const, id⟩

/-- adds a copy of a cell at the end of a region -/
def cloneCell (copy : Ty → Raw → Store → Raw × Store) (elem : Ty) (r : RegionId) (id : CellId)
    (s : Store) : Nat × Store :=
  match s.cells[id]? with
  | none => s.grow r .uninit .nothing
  | some c =>
    let (raw, s) := if c.state = .init then copy elem c.raw s else (.nothing, s)
    s.grow r c.state raw

/-- a copy of a payload of a given type, with all it owns to a given depth -/
def clonePayload : Nat → Ty → Raw → Store → Raw × Store
  | 0, _, raw, s => (raw, s)
  | n + 1, t, raw, s =>
    match raw with
    | .object members =>
      let (copies, s) := mapStore (fun m s => cloneVariable (clonePayload n) m.2 s) members s
      (.object ((members.map fun m => m.1).zip copies), s)
    | .elems items =>
      let (copies, s) := mapStore (cloneVariable (clonePayload n)) items s
      (.elems copies, s)
    | .index r i =>
      match t, s.regions[r]? with
      | .array elem _, some x =>
        let (r', s) := s.addRegion elem
        let (_, s) := mapStore (cloneCell (clonePayload n) elem r') x.cells.toList s
        (.index r' i, s)
      | _, _ => (raw, s)
    | raw => (raw, s)

/-- a local copy of a variable, with all it owns -/
def clone (s : Store) (v : VarId) : Except Fault (VarId × Store) :=
  match s.typeOf v with
  | .error e => .error e
  | .ok t =>
    match s.read v with
    | .error e => .error e
    | .ok raw =>
      let (raw, s) := clonePayload (s.nesting + 1) t raw s
      .ok (s.allocLocal t raw)

end Store

end Overloading
