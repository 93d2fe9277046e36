import Overloading.Signature

/-!
# Types as tokens, and back

`Ty.tokens` writes a type in the vocabulary of signatures, `Ty.ofTree` reads a parse tree as a
type.  A call is written as a function form: its return is left open as a wildcard, or is the
type that is wanted, and each argument says whether it is passed as a value, as a mutable lvalue
or as a constant one.
-/

namespace Overloading

open Overloading.Text

/-! ## Writing -/

mutual
def Ty.tokens : Ty → List String
  | .arith k => [k.token]
  | .pointer e => Keyword.ptr :: e.tokens
  | .array e n => Keyword.array :: toString n :: e.tokens
  | .cls c => c.tokens
  | .function ts => ts
  | .void => [Keyword.void]
  | .list es => Keyword.list :: Keyword.langle :: (Ty.tokensAll es ++ [Keyword.rangle])

def ClassTy.tokens : ClassTy → List String
  | .mk n as o =>
    Keyword.class_ :: n :: Keyword.langle ::
      (Ty.tokensAll as ++ Keyword.rangle :: ClassTy.tokensOuter o)

def Ty.tokensAll : List Ty → List String
  | [] => []
  | t :: ts => t.tokens ++ Ty.tokensAll ts

def ClassTy.tokensOuter : Option ClassTy → List String
  | none => []
  | some c => Keyword.in_ :: c.tokens
end

/-- how an argument is passed at a call: as a value, as a mutable lvalue, as a constant one -/
inductive Ref where
  | none
  | mutable
  | constant
  deriving DecidableEq

structure Arg where
  type : Ty
  ref : Ref

namespace Arg

/-- an argument in the vocabulary of signatures; functions are passed without a marker -/
def tokens (a : Arg) : List String :=
  if a.type.isFunction then a.type.tokens
  else match a.ref with
    | .none => a.type.tokens
    | .mutable => Keyword.lref :: a.type.tokens
    | .constant => Keyword.clref :: a.type.tokens

def describe (args : List Arg) : String :=
  ", ".intercalate (args.map fun a => " ".intercalate a.tokens)

end Arg

def callForm (ret : List String) (args : List Arg) : List String :=
  Keyword.function :: (ret ++ Keyword.lparen :: (args.flatMap Arg.tokens ++ [Keyword.rparen]))

def openCallForm (args : List Arg) : List String := callForm [Symbol.return_] args

/-- a call whose result has to have a given type -/
def typedCallForm (ret : Ty) (args : List Arg) : List String := callForm ret.tokens args

/-! ## Reading -/

def Symbol.isWrapper (s : Symbol) : Bool :=
  s == Symbol.type || s == Symbol.object || s == Symbol.return_ || s == Symbol.paramObject

def Tree.tokenText : Tree → String
  | .leaf _ t => t.text
  | .head _ _ t => t.text
  | .branch .. => ""

mutual
/-- the type a tree denotes.  Reference markers are dropped; a wildcard denotes no type. -/
def Ty.ofTree : Tree → Except Fault Ty
  | .head s _ t => .error (.wildcardType s t.wildcard)
  | .leaf s _ => .error (.notATypeSymbol s)
  | .branch s _ cs =>
    if s.isWrapper then
      match cs with
      | [c] => if c.isLeaf then .ok .void else Ty.ofTree c
      | [_, c] => if c.isLeaf then .ok .void else Ty.ofTree c
      | _ => .error (.notATypeSymbol s)
    else if s == Symbol.arithmetic then
      match cs with
      | [.leaf _ t] => match Kind.ofToken? t.text with
        | some k => .ok (.arith k)
        | none => .error (.notATypeSymbol s)
      | _ => .error (.notATypeSymbol s)
    else if s == Symbol.pointer then
      match cs with
      | [_, c] => (Ty.ofTree c).map Ty.pointer
      | _ => .error (.notATypeSymbol s)
    else if s == Symbol.array then
      match cs with
      | [_, n, c] => match word? n.tokenText with
        | some size => (Ty.ofTree c).map fun t => Ty.array t size.toNat
        | none => .error (.arraySize n.tokenText)
      | _ => .error (.notATypeSymbol s)
    else if s == Symbol.class_ then
      match cs with
      | [_, name, _, args, _, around] =>
        match Ty.ofTypeList args with
        | .error e => .error e
        | .ok args =>
          match ClassTy.ofEnclosing name.tokenText around with
          | .error e => .error e
          | .ok outer => .ok (.cls (.mk name.tokenText args outer))
      | _ => .error (.notATypeSymbol s)
    else if s == Symbol.list then
      match cs with
      | [_, _, elems, _] => (Ty.ofTypeList elems).map Ty.list
      | _ => .error (.notATypeSymbol s)
    else if s == Symbol.function then .ok (.function (Tree.tokensAll cs))
    else .error (.notATypeSymbol s)

def Ty.ofTypeList : Tree → Except Fault (List Ty)
  | .branch _ _ [t, rest] =>
    match Ty.ofTree t with
    | .error e => .error e
    | .ok t => (Ty.ofTypeList rest).map fun ts => t :: ts
  | _ => .ok []

/-- the class around a class, if one is written -/
def ClassTy.ofEnclosing (name : String) : Tree → Except Fault (Option ClassTy)
  | .branch _ _ [_, outer] => match outer with
    | .branch _ _ [_, outerName, _, args, _, around] =>
      match Ty.ofTypeList args with
      | .error e => .error e
      | .ok args =>
        (ClassTy.ofEnclosing outerName.tokenText around).map fun o =>
          some (.mk outerName.tokenText args o)
    | .head .. => .error (.wildcardOuter name)
    | _ => .ok none
  | _ => .ok none
end

def Grammar.readType (g : Grammar) (tokens : List String) : Except Fault Ty :=
  match g.parsePlain tokens Symbol.type with
  | some t => Ty.ofTree t
  | none => .error (.notAType tokens)

/-- reads a text as a type of the signature grammar -/
def Ty.ofText (s : String) : Except Fault Ty := Grammar.signature.readType (fields s)

end Overloading
