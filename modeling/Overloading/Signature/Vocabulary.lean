import Overloading.Grammar.Tree

/-!
# The signature grammar

The tokens and nonterminals of signatures, and the grammar they form.  A type is an object type,
a function type or `VOID`; object types are arithmetic, pointers, arrays, classes and brace
lists; a function has a return, which may be a reference to an object, and a list of parameters,
each an object, a function or a reference to an object.  Ten of the thirteen nonterminals may be
used as wildcards.
-/

namespace Overloading

namespace Symbol

def type : Symbol := "Type"
def object : Symbol := "Object"
def arithmetic : Symbol := "Arithmetic"
def pointer : Symbol := "Pointer"
def array : Symbol := "Array"
def class_ : Symbol := "Class"
def enclosing : Symbol := "Enclosing"
def typeList : Symbol := "TypeList"
def list : Symbol := "List"
def function : Symbol := "Function"
def return_ : Symbol := "Return"
def paramList : Symbol := "ParamList"
def paramObject : Symbol := "ParamObject"

end Symbol

namespace Keyword

def void : String := "VOID"
def ptr : String := "PTR"
def array : String := "ARRAY"
def class_ : String := "CLASS"
def in_ : String := "IN"
def list : String := "LIST"
def function : String := "FUNCTION"
def lref : String := "LREF"
def clref : String := "CLREF"
def langle : String := "<"
def rangle : String := ">"
def lparen : String := "("
def rparen : String := ")"

end Keyword

namespace Grammar

open Overloading.Symbol in
def signatureRules : List Rule :=
  [ ⟨type, [[object], [function], [Keyword.void]]⟩,
    ⟨object, [[arithmetic], [pointer], [array], [class_], [list]]⟩,
    ⟨arithmetic, Kind.all.map fun k => [k.token]⟩,
    ⟨pointer, [[Keyword.ptr, type]]⟩,
    ⟨array, [[Keyword.array, num, object]]⟩,
    ⟨class_, [[Keyword.class_, ident, Keyword.langle, typeList, Keyword.rangle, enclosing]]⟩,
    ⟨enclosing, [[Keyword.in_, class_], []]⟩,
    ⟨typeList, [[type, typeList], []]⟩,
    ⟨list, [[Keyword.list, Keyword.langle, typeList, Keyword.rangle]]⟩,
    ⟨function, [[Keyword.function, return_, Keyword.lparen, paramList, Keyword.rparen]]⟩,
    ⟨return_, [[type], [Keyword.lref, object], [Keyword.clref, object]]⟩,
    ⟨paramList, [[paramObject, paramList], []]⟩,
    ⟨paramObject, [[object], [function], [Keyword.lref, object], [Keyword.clref, object]]⟩ ]

open Overloading.Symbol in
/-- the nonterminals that may be used as wildcards -/
def signatureWildcards : List Symbol :=
  [type, object, arithmetic, pointer, array, class_, list, function, return_, paramObject]

def empty : Grammar := ⟨[], [], [], [], ⟨[], []⟩, [], []⟩

/-- the grammar a build has made, or one without rules -/
def orEmpty : Except Fault Grammar → Grammar
  | .ok g => g
  | .error _ => empty

@[irreducible] def signature : Grammar := orEmpty (build signatureRules signatureWildcards)

end Grammar

end Overloading
