import Overloading.Ty.Tokens

/-!
# Layouts, shapes and templates

A layout gives the members of a class in order; it may depend on the template arguments, and may
have nothing to say about a class.  A list shape is a layout by which brace lists initialize a
class; a template is a generic class with one layout for all its instances.
-/

namespace Overloading

structure Field where
  name : String
  type : Ty

abbrev Layout := ClassTy → Option (List Field)

namespace Layout

def fixed (fields : List Field) : Layout := fun _ => some fields

/-- the i-th member has the type of the i-th template argument -/
def ofArgs (names : List String) : Layout := fun c =>
  if c.args.length < names.length then none
  else some ((names.zip c.args).map fun p => ⟨p.1, p.2⟩)

/-- the tokens that a token of a field type stands for in a class: a reference such as `?0` stands
for a template argument, any other token for itself -/
def expand (c : ClassTy) (token : String) : Option (List String) :=
  match reference? token with
  | none => some [token]
  | some number => ((Text.natural? number.toList).bind fun i => c.args[i]?).map Ty.tokens

/-- members whose types are given by tokens and may refer to template arguments -/
def ofTokens (members : List (String × List String)) : Layout := fun c =>
  members.mapM fun m => do
    let tokens ← m.2.mapM (expand c)
    let t ← (Grammar.signature.readType tokens.flatten).toOption
    return ⟨m.1, t⟩

end Layout

/-- the domain of all that is not a member of a class -/
def globalDomain : String := "\x7bglobal\x7d"

def constructorName : String := "#ctor"

def defaultConstructorName : String := "#default"

/-- the name under which an operator is declared -/
def operatorKey (symbol : String) : String := "o(" ++ symbol ++ ")"

/-- the domain of a class in an owner's domain -/
def domainWithin (owner name : String) : String :=
  if owner == globalDomain || owner == "" then name else owner ++ domainSeparator ++ name

/-- a layout for brace lists; with a negative arity it applies to any number of template
arguments -/
structure BraceLayout where
  layout : Layout
  arity : Int

/-- the field types a shape gives a class; `none` if it does not apply to it -/
def BraceLayout.fieldTypes? (s : BraceLayout) (c : ClassTy) : Option (List Ty) :=
  if 0 ≤ s.arity ∧ (c.args.length : Int) ≠ s.arity then none
  else (s.layout c).map fun fs => fs.map fun f => f.type

structure Template where
  owner : String
  name : String
  arity : Nat
  layout : Layout

namespace Template

def domain (t : Template) : String := domainWithin t.owner t.name

def isNested (t : Template) : Bool := t.owner != globalDomain && t.owner != ""

/-- the signature of the default constructor: one wildcard for each template argument, and one
for the enclosing class if there is one -/
def nullarySignature (t : Template) : String :=
  let declared := String.join (List.replicate t.arity "!Type ")
  let references := String.join ((List.range t.arity).map fun i => " ?" ++ toString i)
  declared ++ (if t.isNested then "!Class " else "") ++ "FUNCTION CLASS " ++ t.name ++ " <" ++
    references ++ " >" ++ (if t.isNested then " IN ?" ++ toString t.arity else "") ++ " ( )"

end Template

/-! ## The class of lists of values -/

def initializerListData : String := "data"

def initializerListSize : String := "size"

/-- a pointer to the first element and the number of elements -/
def initializerListLayout : Layout := fun c =>
  match c.args with
  | t :: _ => some [⟨initializerListData, .pointer t⟩, ⟨initializerListSize, .arith .u64⟩]
  | [] => none

end Overloading
