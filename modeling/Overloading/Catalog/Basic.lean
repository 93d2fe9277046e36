import Overloading.Catalog.Layout
import Overloading.Config
import Overloading.Match.Admit
import Overloading.Store.Object

/-!
# The catalog

Overloads are declared under a domain and a name: the global domain for functions and operators,
the chain of class names for members.  An overload may be a prototype; declaring its signature
again with an implementation fills it in, and an implementation is never replaced.

The catalog also knows the converting constructors of each class domain (its one-argument
constructors), list shapes and templates.  Overloads keep their numbers.
-/

namespace Overloading

/-- the result of a computation on values: a variable, or nothing -/
abbrev Value := Option VarId

/-- what calls act on: the store, and a state of the host's -/
structure Memory (τ : Type) where
  store : Store
  host : τ

/-- the world of calls -/
abbrev Engine (τ : Type) := World Value (Memory τ)

structure Declaration where
  domain : String
  name : String
  signature : Signature

def Declaration.text (d : Declaration) : String :=
  d.domain ++ "::" ++ d.name ++ " " ++ d.signature.text

/-- what an implementation is told about the call it runs -/
structure Call where
  declaration : Declaration
  /-- the type each declared wildcard stands for, where it is one -/
  templateArgs : List (Option Ty)
  /-- the type the call returns, once it is known -/
  returns : Option Ty

/-- what an implementation may ask of the catalog -/
structure Services (σ : Type) where
  dispatch : (domain name : String) → (explicit : List Ty) → List Value → Comp σ Value
  cast : Value → Ty → Comp σ Value
  default : Ty → Comp σ Value

/-- an implementation: it gets the prepared arguments and may suspend -/
abbrev Implementation (τ : Type) :=
  Services (Engine τ) → Call → List Value → Comp (Engine τ) Value

/-- an overload; without a target it is a prototype -/
structure Overload (τ : Type) extends Declaration where
  target : Option (Implementation τ)

/-- overloads, conversions, list shapes and templates -/
structure Catalog (τ : Type) where
  config : Config
  order : List Strategy
  overloads : Array (Overload τ)
  /-- the converting constructors: class domain and number of the overload -/
  conversions : List (String × Nat)
  shapes : List (String × BraceLayout)
  templates : List (String × Template)

namespace Catalog

variable {τ : Type}

/-- the overloads of a name with their numbers, in the order they were declared -/
def overloadsOf (r : Catalog τ) (domain name : String) : List (Overload τ × Nat) :=
  r.overloads.toList.zipIdx.filter fun o => o.1.domain == domain && o.1.name == name

def constructorsOf (r : Catalog τ) (c : ClassTy) : List Candidate :=
  r.conversions.filterMap fun e =>
    if e.1 == c.domain then (r.overloads[e.2]?).map fun o => ⟨e.2, o.signature⟩ else none

def shapesOf (r : Catalog τ) (c : ClassTy) : List BraceLayout :=
  (r.shapes.filter fun e => e.1 == c.domain).map fun e => e.2

def template? (r : Catalog τ) (domain : String) : Option Template := r.templates.lookup domain

/-- the cast rules with the conversions of the catalog -/
def castRules (r : Catalog τ) : CastRules :=
  { user := some
      { constructors := r.constructorsOf
        shapes := fun c => (r.shapesOf c).map fun s => s.fieldTypes? c }
    order := r.order }

/-! ## Declaring -/

def registeredRecord (d : Declaration) (isPrototype : Bool) : Record :=
  .debug "overload registered"
    [("domain", .text d.domain), ("name", .text d.name), ("signature", .text d.signature.text),
      ("prototype", .flag isPrototype)]

def implementedRecord (d : Declaration) : Record :=
  .debug "prototype implemented"
    [("domain", .text d.domain), ("name", .text d.name), ("signature", .text d.signature.text)]

/-- whether an overload serves as a converting constructor -/
def isConversion (d : Declaration) : Bool :=
  d.name == constructorName && d.domain != globalDomain && d.signature.params.length == 1

def addOverload (r : Catalog τ) (o : Overload τ) : Catalog τ :=
  { r with
    overloads := r.overloads.push o
    conversions :=
      if isConversion o.toDeclaration then r.conversions ++ [(o.domain, r.overloads.size)]
      else r.conversions }

/-- declares an overload.  A signature that is declared already is filled in if it is a
prototype and stays as it is if it is declared as a prototype once more; a second implementation
is a fault. -/
def declare (r : Catalog τ) (domain name sig : String) (target : Option (Implementation τ)) :
    Except Fault (Catalog τ × List Record) := do
  let s ← Grammar.signature.compileText sig Symbol.function r.config.strictWildcards
  if !s.isFunction then
    throw (.notAFunction name sig)
  let d : Declaration := ⟨domain, name, s⟩
  match (r.overloadsOf domain name).find? fun o => o.1.signature.text == s.text with
  | some (o, i) =>
    match target, o.target with
    | none, _ => return (r, [])
    | some _, some _ => throw (.alreadyImplemented domain name s.text)
    | some _, none =>
      return ({ r with overloads := r.overloads.modify i fun o => { o with target := target } },
        [implementedRecord d])
  | none =>
    return (r.addOverload { d with target := target }, [registeredRecord d target.isNone])

/-- adds a list shape to a class domain, after those there are -/
def addShape (r : Catalog τ) (domain : String) (s : BraceLayout) : Catalog τ × List Record :=
  ({ r with shapes := r.shapes ++ [(domain, s)] },
    [.debug "list shape registered" [("domain", .text domain), ("arity", .count s.arity)]])

/-- puts members of given names and values into an object of a class -/
def objectOf (c : ClassTy) (names : List String) (vals : List Value) :
    Comp (Engine τ) Value := fun w =>
  match (names.zip vals).mapM fun p => p.2.map fun v => (p.1, v) with
  | none => .fail w .absentValue
  | some members =>
    let (v, store) := w.state.store.allocObject c members
    .done { w with state := { w.state with store := store } } (some v)

/-- the default constructor of a template: an object with the default of each member -/
def memberwiseDefault (t : Template) : Implementation τ := fun services call _ =>
  match call.returns with
  | some (.cls c) =>
    let fields := (t.layout c).getD []
    (Comp.each fields fun _ f => services.default f.type).andThen fun vals =>
      objectOf c (fields.map fun f => f.name) vals
  | _ => Comp.fail (.openClass t.name)

/-- declares a generic class: its template, a default constructor for every instance, and a list
shape over the same layout -/
def addTemplate (r : Catalog τ) (owner name : String) (arity : Int) (layout : Layout) :
    Except Fault (Catalog τ × List Record) := do
  if arity < 0 then
    throw (.negativeArity name arity)
  let t : Template := ⟨owner, name, arity.toNat, layout⟩
  if (r.template? t.domain).isSome then
    throw (.templateDefined t.domain)
  let (r, records) ←
    r.declare t.domain defaultConstructorName t.nullarySignature (some (memberwiseDefault t))
  let (r, more) :=
    { r with templates := r.templates ++ [(t.domain, t)] }.addShape t.domain ⟨layout, arity⟩
  return (r, records ++ more)

/-- a catalog with settings of its own, in which `initializer_list` is defined -/
def new (config : Config) : Except Fault (Catalog τ × List Record) := do
  config.validate
  let order ← Strategy.parseOrder config.castOrder
  let r : Catalog τ := ⟨config, order, #[], [], [], []⟩
  r.addTemplate globalDomain initializerListName 1 initializerListLayout

end Catalog

end Overloading
