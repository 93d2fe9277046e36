import Overloading.Signature.Vocabulary
import Overloading.Text.Letter

/-!
# Wildcards in a signature text

A signature text begins with declarators, `!Kind` for each wildcard; its body refers to them as
`?0`, `?1` and so on.  `Grammar.prepareBody` strips the declarators and writes each reference as
the head token of the declared kind, remembering the number.  A wildcardable name written
directly in the body is a wildcard of its own and gets a number after the declared ones.
-/

namespace Overloading

open Overloading.Text

/-- a signature without its declarators: the declared kinds, and the body with its wildcards
written as heads -/
structure Body where
  declared : List Symbol
  tokens : List Token
  deriving DecidableEq

/-- the kind a declarator names; `none` for any other token -/
def declarator? (t : String) : Option String :=
  match t.toList with
  | '!' :: kind => some (String.ofList kind)
  | _ => none

/-- the text after the mark of a reference; `none` for any other token -/
def reference? (t : String) : Option String :=
  match t.toList with
  | '?' :: number => some (String.ofList number)
  | _ => none

/-- what the body of a signature has brought so far -/
structure References where
  /-- the number of the next wildcard written directly -/
  next : Nat
  /-- the declared wildcards referred to already -/
  seen : List Nat
  deriving DecidableEq

/-- the greatest declared wildcard referred to already -/
def References.greatest? (r : References) : Option Nat := r.seen.max?

namespace Grammar

/-- reads the declarators in front; also gives the body -/
def readDeclarators (g : Grammar) : List String → Except Fault (List Symbol × List String)
  | [] => .ok ([], [])
  | t :: rest =>
    match declarator? t with
    | none => .ok ([], t :: rest)
    | some kind =>
      if !g.mayBeWildcard kind then .error (.unknownWildcardKind t)
      else match g.readDeclarators rest with
        | .error e => .error e
        | .ok (kinds, body) => .ok (kind :: kinds, body)

def resolveReference (declared : List Symbol) (token number : String) :
    Except Fault (Nat × Symbol) :=
  match word? number with
  | some (.ofNat id) =>
    match declared[id]? with
    | some kind => .ok (id, kind)
    | none => .error (.undeclaredWildcard token declared.length)
  | _ => .error (.malformedReference token)

/-- under the strict rule a wildcard is first referred to after all smaller ones -/
def checkOrder (strict : Bool) (r : References) (id : Nat) : Except Fault Unit :=
  match r.greatest? with
  | some last => if strict && id < last then .error (.wildcardOrder id last) else .ok ()
  | none => .ok ()

/-- reads the body: references and direct wildcards become numbered heads -/
def readBody (g : Grammar) (declared : List Symbol) (strict : Bool) :
    References → List String → Except Fault (List Token)
  | _, [] => .ok []
  | r, t :: rest =>
    if (declarator? t).isSome then .error (.lateDeclarator t)
    else match reference? t with
      | some number => do
        let (id, kind) ← resolveReference declared t number
        if !r.seen.contains id then
          checkOrder strict r id
        let tail ← g.readBody declared strict { r with seen := id :: r.seen } rest
        return ⟨kind, some id⟩ :: tail
      | none =>
        if g.mayBeWildcard t then do
          let tail ← g.readBody declared strict { r with next := r.next + 1 } rest
          return ⟨t, some r.next⟩ :: tail
        else do
          let tail ← g.readBody declared strict r rest
          return ⟨t, none⟩ :: tail

/-- strips the declarators and numbers the wildcards of the body -/
def prepareBody (g : Grammar) (src : List String) (strict : Bool) : Except Fault Body := do
  let (declared, body) ← g.readDeclarators src
  let tokens ← g.readBody declared strict ⟨declared.length, []⟩ body
  return ⟨declared, tokens⟩

end Grammar

end Overloading
