import Overloading.Kind
import Overloading.Match.Conversion
import Overloading.Match.Unify

/-!
# Admission

`CastRules.admits` decides whether a declaration admits a signature, and for calls plans how each
argument is passed.  A call is planned in three passes that share the bindings of the wildcards:

1. each argument is drafted: references and arguments that match as they are are settled, an
   arithmetic argument of a bare arithmetic wildcard is put aside with the others of that
   wildcard, and the rest is left to be converted;
2. each arithmetic wildcard that is not bound yet is bound to the common kind of its arguments;
3. what is left is converted to its parameter, which has to be concrete by now.

A constructor cast is found by admitting the one-argument call that returns the wanted class,
without user-defined conversions (`construct`), so admission never needs itself.
-/

namespace Overloading

def Tree.splitRef : Tree → Ref × Tree
  | .branch s alt [.leaf m t, obj] =>
    if s == Symbol.paramObject && t.text == Keyword.lref then (.mutable, obj)
    else if s == Symbol.paramObject && t.text == Keyword.clref then (.constant, obj)
    else (.none, .branch s alt [.leaf m t, obj])
  | p => (.none, p)

/-- the wildcard of a bare arithmetic wildcard -/
def Tree.bareArithmetic? (p : Tree) : Option Nat :=
  match p.unwrap with
  | .head s _ t => if s == Symbol.arithmetic then t.wildcard else none
  | _ => none

def Tree.kind? (p : Tree) : Option Kind :=
  match p.unwrap with
  | .branch s _ [.leaf _ t] => if s == Symbol.arithmetic then Kind.ofToken? t.text else none
  | _ => none

/-- the plan for one argument after the first pass -/
inductive Draft where
  | settled (transfer : Transfer)
  /-- an arithmetic argument of a bare arithmetic wildcard -/
  | promote (id : Nat) (ref : Ref) (kind : Kind)
  /-- an argument to be converted -/
  | convert (ref : Ref) (actual formal : Tree)

/-! ## First pass -/

/-- how an argument that matches as it is reaches its parameter -/
def passAsIs (ref : Ref) (formal : Tree) : Transfer :=
  if ref = .constant || formal.unwrap.symbol == Symbol.function then .borrow else .clone

/-- drafts one argument; `none` if it cannot be passed at all -/
def draft (actual formal : Tree) (b : Bindings) : Option (Draft × Bindings) :=
  match formal with
  | .head s _ t => (bind s t.wildcard actual b).map fun b => (.settled .borrow, b)
  | _ =>
    let (aRef, aObj) := actual.splitRef
    let (fRef, fObj) := formal.splitRef
    if fRef = .mutable then
      if aRef = .mutable then (unify aObj fObj b).map fun b => (.settled .borrow, b) else none
    else match fObj.bareArithmetic?, aObj.kind? with
      | some id, some k => some (.promote id fRef k, b)
      | _, _ =>
        match unify aObj fObj b with
        | some b => some (.settled (passAsIs fRef fObj), b)
        | none => some (.convert aRef aObj fObj, b)

def draftAll : List Tree → List Tree → Bindings → Option (List Draft × Bindings)
  | a :: as, f :: fs, b =>
    match draft a f b with
    | none => none
    | some (d, b) => (draftAll as fs b).map fun r => (d :: r.1, r.2)
  | _, _, b => some ([], b)

/-! ## Second pass -/

/-- the arithmetic wildcards put aside, each once, in order -/
def Draft.groups : List Draft → List Nat
  | [] => []
  | .promote id _ _ :: ds => id :: (Draft.groups ds).filter fun i => i != id
  | _ :: ds => Draft.groups ds

/-- the kinds of the arguments put aside for a wildcard -/
def Draft.kindsOf (id : Nat) (ds : List Draft) : List Kind :=
  ds.filterMap fun d => match d with
    | .promote i _ k => if i == id then some k else none
    | _ => none

def kindOfTexts? : List String → Option Kind
  | [t] => Kind.ofToken? t
  | _ => none

/-- the common kind of a group, each member promoted -/
def commonKind? : List Kind → Option Kind
  | [] => none
  | k :: ks => some ((k :: ks).foldl Kind.promote k)

/-- binds the wildcard of a group to the common kind, unless it is bound already; then the
binding has to be an arithmetic kind -/
def promoteGroup (id : Nat) (kinds : List Kind) (b : Bindings) : Planned Bindings :=
  match b.get? id with
  | some prev =>
    if prev.isOpen then .error (.openArithmetic id)
    else match kindOfTexts? prev.texts with
      | some _ => .ok (some b)
      | none => .ok none
  | none =>
    match commonKind? kinds with
    | some k => .ok (some (b.insert id (Binding.ofTexts [k.token])))
    | none => .ok none

/-- binds the wildcards of all groups in order -/
def promoteAll (ds : List Draft) : List Nat → Bindings → Planned Bindings
  | [], b => .ok (some b)
  | id :: ids, b =>
    match promoteGroup id (Draft.kindsOf id ds) b with
    | .ok (some b) => promoteAll ds ids b
    | r => r

/-! ## Third pass -/

/-- the type of a parameter under the bindings.  An unbound wildcard is a mismatch; one bound to
a wildcard of the caller is a fault, because a conversion needs a concrete target. -/
def concretize (formal : Tree) (b : Bindings) : Planned Ty :=
  match formal.substitute b.texts? with
  | none => .ok none
  | some ts =>
    if formal.heads.any fun h => (h.2.map b.isOpen).getD false then
      .error (.openTarget formal.text)
    else match Grammar.signature.parsePlain ts formal.symbol with
      | none => .ok none
      | some t => (Ty.ofTree t).map some

/-- how a promoted argument reaches its parameter -/
def passPromoted (ref : Ref) (kind target : Kind) : Transfer :=
  if kind = target then (if ref = .constant then .borrow else .clone)
  else .numeric (.arith target)

/-- the transfer of a draft once all wildcards are bound -/
def finish (cast : Ty → Ref → Ty → Planned Transfer) (b : Bindings) : Draft → Planned Transfer
  | .settled a => .ok (some a)
  | .promote id ref k =>
    match (b.texts? id).bind kindOfTexts? with
    | some target => .ok (some (passPromoted ref k target))
    | none => .ok none
  | .convert ref actual formal =>
    match concretize formal b with
    | .error e => .error e
    | .ok none => .ok none
    | .ok (some dst) =>
      if actual.heads.isEmpty then
        match Ty.ofTree actual with
        | .error e => .error e
        | .ok src => cast src ref dst
      else .ok none

def finishAll (cast : Ty → Ref → Ty → Planned Transfer) (b : Bindings) :
    List Draft → Planned (List Transfer)
  | [] => .ok (some [])
  | d :: ds =>
    match finish cast b d with
    | .error e => .error e
    | .ok none => .ok none
    | .ok (some a) => (finishAll cast b ds).map fun r => r.map fun as => a :: as

/-- the return under the bindings; `none` unless every wildcard in it is bound concretely -/
def instantiate (ret : Tree) (b : Bindings) : Option (List String) :=
  if ret.heads.any fun h => (h.2.map b.isOpen).getD false then none
  else ret.substitute b.texts?

/-! ## Admission -/

/-- whether the return of a call is left open -/
def Tree.isOpenReturn : Tree → Bool
  | .head s _ _ => s == Symbol.return_
  | _ => false

/-- binds the wildcards of a call's return, unless it is left open -/
def unifyReturn (actual formal : Tree) (b : Bindings) : Option Bindings :=
  if actual.isOpenReturn then some b else unify actual formal b

/-- plans a call against a function declaration -/
def planCall (cast : Ty → Ref → Ty → Planned Transfer) (sub sup : Signature) (b : Bindings) :
    Planned Match :=
  if sub.params.length ≠ sup.params.length then .ok none
  else match sub.returnTree?, sup.returnTree? with
    | some subRet, some supRet =>
      match unifyReturn subRet supRet b with
      | none => .ok none
      | some b =>
        match draftAll sub.params sup.params b with
        | none => .ok none
        | some (ds, b) =>
          match promoteAll ds (Draft.groups ds) b with
          | .error e => .error e
          | .ok none => .ok none
          | .ok (some b) =>
            (finishAll cast b ds).map fun r => r.map fun transfers =>
              ⟨transfers, b.toTexts, instantiate supRet b⟩
    | _, _ => .ok none

/-- binds the first declared wildcards to explicit tokens, which have to be of their kinds -/
def bindExplicit : Nat → List Symbol → List (List String) → Option Bindings
  | _, _, [] => some []
  | id, kind :: kinds, ts :: rest =>
    if Grammar.signature.recognize ts kind then
      (bindExplicit (id + 1) kinds rest).map fun b => (id, Binding.ofTexts ts) :: b
    else none
  | _, [], _ :: _ => none

def admitsWith (cast : Ty → Ref → Ty → Planned Transfer) (sub sup : Signature)
    (explicit : List (List String)) : Planned Match :=
  match bindExplicit 0 sup.declared explicit with
  | none => .ok none
  | some b =>
    if sub.isFunction && sup.isFunction then planCall cast sub sup b
    else .ok ((unify sub.root sup.root b).map fun b => ⟨[], b.toTexts, none⟩)

namespace CastRules

def castPlainly (m : CastRules) : Ty → Ref → Ty → Planned Transfer :=
  castWith m fun _ _ _ => .ok none

/-- the first one-argument constructor of a class that admits a value and returns the class -/
def construct (m : CastRules) (src : Ty) (ref : Ref) (dst : Ty) : Planned Transfer :=
  match dst, m.user with
  | .cls c, some user =>
    match Grammar.signature.compile (typedCallForm (.cls c) [⟨src, ref⟩]) Symbol.function
        false with
    | .error e => .error e
    | .ok call =>
      firstPlan
        (fun maker =>
          (admitsWith m.castPlainly call maker.signature []).map fun r => r.bind fun res =>
            if res.returns = some c.tokens then
              some (.construct dst maker res.transfers res.bindings res.returns)
            else none)
        (user.constructors c)
  | _, _ => .ok none

/-- the first strategy that takes a value to a type -/
def cast (m : CastRules) : Ty → Ref → Ty → Planned Transfer := castWith m m.construct

/-- how a value reaches a type: cloned if it has it, else cast -/
def convert (m : CastRules) : Ty → Ref → Ty → Planned Transfer := convertWith m m.construct

/-- whether a declaration admits a signature, and how; explicit tokens bind its first declared
wildcards -/
def admits (m : CastRules) (sub sup : Signature) (explicit : List (List String)) : Planned Match :=
  admitsWith m.cast sub sup explicit

end CastRules

end Overloading
