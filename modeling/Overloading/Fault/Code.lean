/-!
# The catalogue of fault codes

Every fault of the engine belongs to one of twenty-five kinds.  A kind has a code, by which
callers tell faults apart, a short name and a description.  Codes are grouped by the moment a
fault arises: E1 when a declaration is read, E2 when a call is resolved, E3 when a value is used,
E9 inside the engine.
-/

namespace Overloading

/-- the kinds of fault, in the order of the catalogue -/
inductive Code where
  | malformedSignature
  | undeclaredWildcard
  | wildcardOrder
  | badDeclarator
  | duplicateImplementation
  | grammar
  | noMatchingOverload
  | notImplemented
  | noConversion
  | noDefault
  | templateArity
  | argumentCount
  | uninitialized
  | outOfBounds
  | divisionByZero
  | signedOverflow
  | unsignedOverflow
  | nullPointer
  | constAssign
  | notAnLvalue
  | pointerArith
  | typeMismatch
  | unresolvedWildcard
  | iterationLimit
  | noInput
  deriving DecidableEq

namespace Code

/-- one line of the catalogue: code, name and description -/
def entry : Code → String × String × String
  | malformedSignature =>
    ("E1001", "malformed-signature", "signature is not accepted by the signature grammar")
  | undeclaredWildcard =>
    ("E1002", "undeclared-wildcard", "wildcard reference has no declarator")
  | wildcardOrder =>
    ("E1003", "wildcard-order", "wildcard first referenced out of ascending order")
  | badDeclarator =>
    ("E1004", "bad-declarator", "wildcard declarator is malformed")
  | duplicateImplementation =>
    ("E1005", "duplicate-implementation", "an implementation already exists for this signature")
  | grammar =>
    ("E1006", "grammar", "signature grammar is ill-formed")
  | noMatchingOverload =>
    ("E2001", "no-matching-overload", "no overload admits the call")
  | notImplemented =>
    ("E2002", "not-implemented", "overload is declared but has no implementation")
  | noConversion =>
    ("E2003", "no-conversion", "value cannot be converted to the requested type")
  | noDefault =>
    ("E2004", "no-default", "type has no default value")
  | templateArity =>
    ("E2005", "template-arity", "wrong number of template arguments")
  | argumentCount =>
    ("E2006", "argument-count", "argument count does not match the resolved overload")
  | uninitialized =>
    ("E3001", "uninitialized", "read of an uninitialized value")
  | outOfBounds =>
    ("E3002", "out-of-bounds", "access outside of a memory region")
  | divisionByZero =>
    ("E3003", "division-by-zero", "integer division or modulo by zero")
  | signedOverflow =>
    ("E3004", "signed-overflow", "signed integer overflow")
  | unsignedOverflow =>
    ("E3005", "unsigned-overflow", "unsigned integer overflow")
  | nullPointer =>
    ("E3006", "null-pointer", "dereference of a null pointer")
  | constAssign =>
    ("E3007", "const-assign", "assignment to a const value")
  | notAnLvalue =>
    ("E3008", "not-an-lvalue", "operation requires an lvalue")
  | pointerArith =>
    ("E3009", "pointer-arithmetic", "invalid pointer arithmetic")
  | typeMismatch =>
    ("E3010", "type-mismatch", "value does not have the expected type")
  | unresolvedWildcard =>
    ("E9001", "unresolved-wildcard",
      "wildcard bound to an unresolved wildcard was needed concretely")
  | iterationLimit =>
    ("E9002", "iteration-limit", "resumable computation exceeded its iteration limit")
  | noInput =>
    ("E9003", "no-input", "computation awaits input the host cannot supply")

def id (c : Code) : String := c.entry.1

def name (c : Code) : String := c.entry.2.1

def description (c : Code) : String := c.entry.2.2

def all : List Code :=
  [malformedSignature, undeclaredWildcard, wildcardOrder, badDeclarator, duplicateImplementation,
    grammar, noMatchingOverload, notImplemented, noConversion, noDefault, templateArity,
    argumentCount, uninitialized, outOfBounds, divisionByZero, signedOverflow, unsignedOverflow,
    nullPointer, constAssign, notAnLvalue, pointerArith, typeMismatch, unresolvedWildcard,
    iterationLimit, noInput]

/-- the code of the catalogue with a given text -/
def ofId? (text : String) : Option Code := all.find? fun c => c.id == text

theorem mem_all (c : Code) : c ∈ all := by cases c <;> decide

theorem ofId?_id (c : Code) : ofId? c.id = some c := by cases c <;> decide

end Code

end Overloading
