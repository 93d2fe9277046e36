import Overloading.Catalog.Basic

/-!
# Resolving calls

A call resolves to the first overload of its name, in the order of declaration, that admits its
arguments.  No match is not a fault by itself; `Catalog.resolve` turns it into one that lists
the candidates.
-/

namespace Overloading

/-- an overload by its number, and the plan for calling it -/
structure Selection where
  overload : Nat
  plan : Match

namespace Catalog

variable {τ : Type}

def resolvedRecord (d : Declaration) (m : Match) : Record :=
  .debug "overload resolved"
    [("domain", .text d.domain), ("name", .text d.name), ("signature", .text d.signature.text),
      ("casts", .count m.casts)]

/-- the first of some overloads that admits a call -/
def firstAdmitting (m : CastRules) (call : Signature) (explicit : List (List String)) :
    List (Overload τ × Nat) → Except Fault (Option (Selection × List Record))
  | [] => .ok none
  | (o, i) :: os =>
    match m.admits call o.signature explicit with
    | .error e => .error e
    | .ok none => firstAdmitting m call explicit os
    | .ok (some plan) => .ok (some (⟨i, plan⟩, [resolvedRecord o.toDeclaration plan]))

/-- the first overload that admits a call given by its tokens -/
def searchTokens (r : Catalog τ) (domain name : String) (tokens : List String)
    (explicit : List (List String)) : Except Fault (Option (Selection × List Record)) := do
  let call ← Grammar.signature.compile tokens Symbol.function false
  firstAdmitting r.castRules call explicit (r.overloadsOf domain name)

/-- the first overload that admits some arguments -/
def search (r : Catalog τ) (domain name : String) (args : List Arg) (explicit : List Ty) :
    Except Fault (Option (Selection × List Record)) :=
  r.searchTokens domain name (openCallForm args) (explicit.map Ty.tokens)

/-- the first overload that admits some arguments and returns a given type -/
def searchReturning (r : Catalog τ) (domain name : String) (ret : Ty) (args : List Arg) :
    Except Fault (Option (Selection × List Record)) :=
  r.searchTokens domain name (typedCallForm ret args) []

/-- the fault of a call that no overload admits -/
def noOverload (r : Catalog τ) (domain name : String) (args : List Arg) : Fault :=
  .noOverload domain name (Arg.describe args)
    ((r.overloadsOf domain name).map fun o => o.1.signature.text)

/-- the first overload that admits some arguments; if there is none, a fault that lists the
candidates -/
def resolve (r : Catalog τ) (domain name : String) (args : List Arg) (explicit : List Ty) :
    Except Fault (Selection × List Record) :=
  match r.search domain name args explicit with
  | .error e => .error e
  | .ok (some res) => .ok res
  | .ok none => .error (r.noOverload domain name args)

/-- the type a wildcard of a kind stands for, if its tokens denote one -/
def templateArg (bindings : List (Nat × List String)) (kind : Symbol) (id : Nat) : Option Ty :=
  match bindings.lookup id with
  | none => none
  | some ts =>
    match Grammar.signature.parsePlain ts kind with
    | none => none
    | some t => (Ty.ofTree t).toOption

/-- what the implementation of an overload is told about a call -/
def callOf (d : Declaration) (m : Match) : Except Fault Call := do
  let returns ← match m.returns with
    | none => pure none
    | some _ => some <$> m.resultType
  return ⟨d, d.signature.declared.zipIdx.map fun k => templateArg m.bindings k.1 k.2, returns⟩

end Catalog

/-- how a variable is passed as an argument: a temporary as a value, a local or cell as an
lvalue -/
def Store.asArg (s : Store) (v : VarId) : Except Fault Arg :=
  match s.view v with
  | .error e => .error e
  | .ok (x, c) =>
    .ok ⟨x.type,
      if c.holder = .temporary then .none else if x.const then .constant else .mutable⟩

def Store.asArgs (s : Store) : List Value → Except Fault (List Arg)
  | [] => .ok []
  | none :: _ => .error .absentValue
  | some v :: vs =>
    match s.asArg v with
    | .error e => .error e
    | .ok a => (s.asArgs vs).map fun as => a :: as

end Overloading
