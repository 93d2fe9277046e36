import Overloading.Catalog.Operators

/-!
# Fixtures

A fixture is a set of declarations and the calls to resolve against them, written as a document.
Its templates give each member the type of a template argument; its declarations are prototypes,
because a fixture is only resolved, never run.
-/

namespace Overloading.Check

open Overloading.Text

/-- a generic class whose members have the types of its template arguments -/
structure TemplateEntry where
  owner : String
  name : String
  members : List String

structure DeclarationEntry where
  domain : String
  name : String
  signature : String

structure ArgEntry where
  type : String
  ref : String

structure CallEntry where
  domain : String
  name : String
  args : List ArgEntry
  explicit : List String

structure Fixture where
  operators : Bool
  templates : List TemplateEntry
  declarations : List DeclarationEntry
  calls : List CallEntry

/-! ## Reading -/

/-- a text field; where it is absent or null it is empty -/
def textField (fs : List (String × Yaml.Node)) (name : String) : Yaml.Read String :=
  (Yaml.field fs name Yaml.Node.text? none).map fun t => t.getD ""

def listField {α : Type} (fs : List (String × Yaml.Node)) (name : String)
    (read : Yaml.Node → Yaml.Read α) : Yaml.Read (List α) :=
  Yaml.field fs name (fun n => n.items?.bind (Yaml.readAll read)) []

def TemplateEntry.ofNode (n : Yaml.Node) : Yaml.Read TemplateEntry := do
  let fs ← n.fields?
  return ⟨← textField fs "owner", ← textField fs "name",
    ← Yaml.field fs "members" Yaml.Node.texts? []⟩

def DeclarationEntry.ofNode (n : Yaml.Node) : Yaml.Read DeclarationEntry := do
  let fs ← n.fields?
  return ⟨← textField fs "domain", ← textField fs "name", ← textField fs "signature"⟩

def ArgEntry.ofNode (n : Yaml.Node) : Yaml.Read ArgEntry := do
  let fs ← n.fields?
  return ⟨← textField fs "type", ← textField fs "ref"⟩

def CallEntry.ofNode (n : Yaml.Node) : Yaml.Read CallEntry := do
  let fs ← n.fields?
  return ⟨← textField fs "domain", ← textField fs "name", ← listField fs "args" ArgEntry.ofNode,
    ← Yaml.field fs "explicit" Yaml.Node.texts? []⟩

def Fixture.ofNode (n : Yaml.Node) : Yaml.Read Fixture := do
  let fs ← n.fields?
  let operators ← Yaml.field fs "builtins" Yaml.Node.bool? none
  return ⟨operators.getD false, ← listField fs "templates" TemplateEntry.ofNode,
    ← listField fs "declarations" DeclarationEntry.ofNode, ← listField fs "calls" CallEntry.ofNode⟩

/-- reads a fixture from a text; the path is used in messages only -/
def Fixture.parse (text path : String) : Except Fault Fixture :=
  Config.readDocument ("parsing fixture " ++ path) text Fixture.ofNode

/-! ## Installing -/

/-- a catalog of prototypes, the records it has written, and the fault that stopped it -/
structure Installed where
  catalog : Catalog Unit
  log : List Record
  fault : Option Fault

namespace Installed

/-- goes on with a step that may fail, unless an earlier one has -/
def step (i : Installed) (label : String)
    (f : Catalog Unit → Except Fault (Catalog Unit × List Record)) : Installed :=
  match i.fault with
  | some _ => i
  | none =>
    match f i.catalog with
    | .error e => { i with fault := some (.within label e) }
    | .ok (r, records) => { i with catalog := r, log := i.log ++ records }

end Installed

/-- a domain, the global one where none is given -/
def orGlobal (d : String) : String := if d == "" then globalDomain else d

/-- declares what a fixture declares, in order, up to the first fault -/
def Fixture.install (f : Fixture) (r : Catalog Unit) : Installed :=
  let start : Installed :=
    if f.operators then
      let ((r, records), fault) := r.declareOperators
      ⟨r, records, fault⟩
    else ⟨r, [], none⟩
  let withTemplates := f.templates.foldl
    (fun i t => i.step ("template " ++ t.name) fun r =>
      r.addTemplate (orGlobal t.owner) t.name t.members.length (.ofArgs t.members))
    start
  f.declarations.foldl
    (fun i d => i.step ("declaration " ++ d.name) fun r =>
      r.declare (orGlobal d.domain) d.name d.signature none)
    withTemplates

/-! ## Calls -/

def refOf (s : String) : Except Fault Ref :=
  let t := Overflow.lowerText s
  if ["", "none", "value"].contains t then .ok .none
  else if ["mut", "mutable", "lref"].contains t then .ok .mutable
  else if ["const", "clref"].contains t then .ok .constant
  else .error (.unknownReference s)

/-- an argument of a call, by its position in messages -/
def ArgEntry.toArg (a : ArgEntry) (i : Nat) : Except Fault Arg :=
  Config.labelled ("argument " ++ toString i) do
    let t ← Ty.ofText a.type
    let r ← refOf a.ref
    return ⟨t, r⟩

/-- the arguments of a call and its explicit template arguments -/
def CallEntry.toArgs (c : CallEntry) : Except Fault (List Arg × List Ty) := do
  let args ← c.args.zipIdx.mapM fun a => a.1.toArg a.2
  let explicit ← c.explicit.zipIdx.mapM fun e =>
    Config.labelled ("explicit argument " ++ toString e.2) (Ty.ofText e.1)
  return (args, explicit)

end Overloading.Check
