import Overloading.Catalog.Selection
import Overloading.Store.Pointer

/-!
# Calling overloads

A resolved call prepares each argument as its plan says and runs the implementation.  Preparing
may construct values and so call further implementations; implementations may dispatch calls,
cast values and ask for defaults themselves.  The plans of nested constructor calls are part of
the outer plan, so preparing follows the plan; how deep implementations may call each other is
given by a number (`Catalog.services`).
-/

namespace Overloading

variable {τ : Type}

/-! ## Acting on the store -/

namespace Comp

def onStore {α : Type} (f : Store → α × Store) : Comp (Engine τ) α := fun w =>
  let (a, store) := f w.state.store
  .done { w with state := { w.state with store := store } } a

/-- an action on the store that may fail; then the store stays as it was -/
def tryStore {α : Type} (f : Store → Except Fault (α × Store)) : Comp (Engine τ) α := fun w =>
  match f w.state.store with
  | .error e => .fail w e
  | .ok (a, store) => .done { w with state := { w.state with store := store } } a

/-- an action on the store that makes a variable and may write log records -/
def tryLogged (f : Store → Except Fault (VarId × Store × List Record)) : Comp (Engine τ) Value :=
  fun w =>
    match f w.state.store with
    | .error e => .fail w e
    | .ok (v, store, records) =>
      .done ({ w with state := { w.state with store := store } }.note records) (some v)

/-- an action on the store that makes a variable out of a value -/
def fromValue (v : Value) (f : VarId → Store → Except Fault (VarId × Store)) :
    Comp (Engine τ) Value :=
  match v with
  | none => fail .absentValue
  | some v => tryStore fun s => (f v s).map fun r => (some r.1, r.2)

end Comp

namespace Catalog

/-! ## Preparing arguments -/

/-- the values that are there; `none` if one is missing -/
def present (vals : List Value) : Option (List VarId) := vals.mapM id

/-- a list of values as an `initializer_list`: a region with their payloads and its length -/
def allocInitializerList (c : ClassTy) (vals : List Value) (s : Store) :
    Except Fault (VarId × Store) :=
  match c.args, present vals with
  | t :: _, some vs =>
    (s.regionFrom t vs).map fun r =>
      let (data, s) := r.2.pointerInto r.1 0
      let (size, s) := s.scalar (.ofInt .u64 vs.length)
      s.allocObject c [(initializerListData, data), (initializerListSize, size)]
  | _, _ => .error .absentValue

/-- runs an overload: prepares the arguments, then hands them to the implementation -/
def performWith (r : Catalog τ) (services : Services (Engine τ)) (overload : Nat)
    (prepare : List (Value → Comp (Engine τ) Value)) (plan : Match) (args : List Value) :
    Comp (Engine τ) Value :=
  match r.overloads[overload]? with
  | none => Comp.fail .absentValue
  | some o =>
    if args.length ≠ prepare.length then
      Comp.fail (.argumentCount o.text prepare.length args.length)
    else match o.target with
      | none => Comp.fail (.notImplemented o.text)
      | some target =>
        (Comp.each (prepare.zip args) fun _ p => p.1 p.2).andThen fun vals =>
          match callOf o.toDeclaration plan with
          | .error e => Comp.fail e
          | .ok call => target services call vals

/-- builds a class value from a brace list whose elements are converted one by one -/
def fillFromBraces (r : Catalog τ) (target : Ty) (shape : Shape)
    (convert : List (Value → Comp (Engine τ) Value)) (v : Value) : Comp (Engine τ) Value :=
  match v with
  | none => Comp.fail .absentValue
  | some v => fun w =>
    let s := w.state.store
    match s.typeOf v, s.read v with
    | .error e, _ => .fail w e
    | _, .error e => .fail w e
    | .ok t, .ok raw =>
      let items := match raw with
        | .elems items => if items.length = convert.length then some items else none
        | _ => none
      match items, target with
      | none, _ => .fail w (.notABraceList t convert.length)
      | some items, .cls c =>
        (Comp.each (convert.zip (items.map some)) fun _ p => p.1 p.2).andThen (fun vals =>
          match shape with
          | .initializerList =>
            Comp.tryStore fun s => (allocInitializerList c vals s).map fun r => (some r.1, r.2)
          | .unregistered => Comp.fail (.unknownShape c)
          | .registered i =>
            match (r.shapesOf c)[i]? with
            | none => Comp.fail (.unknownShape c)
            | some shape =>
              objectOf c (((shape.layout c).getD []).map fun f => f.name) vals) w
      | some _, target => .fail w (.braceTarget target)

mutual
/-- how a planned transfer prepares an argument -/
def preparer (r : Catalog τ) (services : Services (Engine τ)) :
    Transfer → Value → Comp (Engine τ) Value
  | .borrow, v => Comp.done v
  | .clone, v => Comp.fromValue v fun v s => s.clone v
  | .decay _, v => Comp.fromValue v fun v s => s.decay v
  | .numeric t, v =>
    match t.kind? with
    | none => Comp.fail (.numericTarget t)
    | some k => Comp.fromValue v fun v s => s.convert v k
  | .construct _ maker nested bindings returns, v =>
    r.performWith services maker.id (preparers r services nested) ⟨nested, bindings, returns⟩ [v]
  | .braces t shape elements, v =>
    r.fillFromBraces t shape (preparers r services elements) v
  | .unregistered t, _ => Comp.fail (.unknownConstructor t)
  | .unsupported t, v =>
    match v with
    | none => Comp.fail .absentValue
    | some v => Comp.tryStore fun s => match s.typeOf v with
        | .error e => .error e
        | .ok u => .error (.unknownCast u t)

def preparers (r : Catalog τ) (services : Services (Engine τ)) :
    List Transfer → List (Value → Comp (Engine τ) Value)
  | [] => []
  | a :: as => preparer r services a :: preparers r services as
end

/-! ## Calls, casts and defaults -/

def performIn (r : Catalog τ) (services : Services (Engine τ)) (res : Selection)
    (args : List Value) : Comp (Engine τ) Value :=
  r.performWith services res.overload (preparers r services res.plan.transfers) res.plan args

/-- resolves a call by its arguments and runs it -/
def dispatchIn (r : Catalog τ) (services : Services (Engine τ)) (domain name : String)
    (explicit : List Ty) (args : List Value) : Comp (Engine τ) Value := fun w =>
  match (w.state.store.asArgs args).bind fun as => r.resolve domain name as explicit with
  | .error e => .fail w e
  | .ok (res, records) => r.performIn services res args (w.note records)

/-- converts a value to a type by the cast rules -/
def castIn (r : Catalog τ) (services : Services (Engine τ)) (v : Value) (t : Ty) :
    Comp (Engine τ) Value := fun w =>
  match w.state.store.asArgs [v] with
  | .error e => .fail w e
  | .ok args =>
    match args with
    | [a] =>
      match r.castRules.convert a.type a.ref t with
      | .error e => .fail w e
      | .ok none => .fail w (.noConversion a.type t)
      | .ok (some transfer) => preparer r services transfer v w
    | _ => .fail w .absentValue

def constructDefault (r : Catalog τ) (services : Services (Engine τ)) (c : ClassTy) :
    Comp (Engine τ) Value := fun w =>
  match r.searchReturning c.domain defaultConstructorName (.cls c) [] with
  | .error e => .fail w e
  | .ok none => .fail w (.noDefaultConstructor c)
  | .ok (some (res, records)) => r.performIn services res [] (w.note records)

/-- the value of a declaration without initializer: zero for arithmetic types and pointers, the
default of each element for arrays, and what the default constructor makes for classes -/
def defaultIn (r : Catalog τ) (services : Services (Engine τ)) : Ty → Comp (Engine τ) Value
  | .arith k => Comp.onStore fun s =>
      let (v, s) := s.temp (.arith k) (if k.isFloat then .float 0.0 else .int 0)
      (some v, s)
  | .pointer e => Comp.onStore fun s =>
      let (v, s) := s.allocNull e
      (some v, s)
  | .array e n =>
    (Comp.each (List.replicate n ()) fun _ _ => defaultIn r services e).andThen fun vals =>
      match present vals with
      | none => Comp.fail .absentValue
      | some vs => Comp.tryStore fun s => (s.regionFrom e vs).map fun p =>
          let (v, s) := p.2.temp (.array e n) (.index p.1 0)
          (some v, s)
  | .cls c =>
    match r.template? c.domain with
    | some t =>
      if c.args.length ≠ t.arity then Comp.fail (.templateArity t.name t.arity c.args.length)
      else constructDefault r services c
    | none => constructDefault r services c
  | t => Comp.fail (.noDefaultValue t)
/-- what implementations may ask for, if they call each other no deeper than a given number -/
def services (r : Catalog τ) : (depth : Nat) → Services (Engine τ)
  | 0 =>
    { dispatch := fun _ _ _ _ => Comp.fail .tooDeep
      cast := fun _ _ => Comp.fail .tooDeep
      default := fun _ => Comp.fail .tooDeep }
  | n + 1 =>
    { dispatch := fun domain name explicit args =>
        r.dispatchIn (r.services n) domain name explicit args
      cast := fun v t => r.castIn (r.services n) v t
      default := fun t => r.defaultIn (r.services n) t }

def perform (r : Catalog τ) (depth : Nat) (res : Selection) (args : List Value) :
    Comp (Engine τ) Value := r.performIn (r.services depth) res args

end Catalog

end Overloading
