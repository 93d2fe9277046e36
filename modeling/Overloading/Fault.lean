import Overloading.Fault.Code
import Overloading.Text.Quoted
import Overloading.Ty

/-!
# Faults

A fault is a cause.  `Fault.code` says which entry of the catalogue it belongs to, `Fault.detail`
words it, and `Fault.notes` gives the lines below it; `Fault.text` puts the three together.
Causes that belong to the host of the engine (an error of its own, a cancelled run, a refused
configuration) have no code and their wording stands alone.
-/

namespace Overloading

open Overloading.Text

/-- what the grammar builder iterates to a fixed point -/
inductive Closure where
  | productivity
  | first
  | follow
  deriving DecidableEq

def Closure.title : Closure → String
  | .productivity => "productivity"
  | .first => "FIRST sets"
  | .follow => "FOLLOW sets"

inductive Fault where
  -- E1001
  | notASentence (source start : String)
  | notAType (tokens : List String)
  | arraySize (text : String)
  | notATypeSymbol (symbol : String)
  | notAFunction (name signature : String)
  -- E1002
  | malformedReference (token : String)
  | undeclaredWildcard (token : String) (declared : Nat)
  -- E1003
  | wildcardOrder (id after : Nat)
  -- E1004
  | unknownWildcardKind (token : String)
  | lateDeclarator (token : String)
  -- E1005
  | alreadyImplemented (domain name signature : String)
  | templateDefined (domain : String)
  -- E1006
  | definedTwice (head : String)
  | noRule (symbol : String)
  | diverging (what : Closure) (passes : Nat)
  | unproductive (head : String)
  | conflict (head terminal : String) (alt alt' : Nat)
  -- E2001
  | noOverload (domain name args : String) (candidates : List String)
  -- E2002
  | notImplemented (overload : String)
  -- E2003
  | unknownConstructor (target : Ty)
  | unknownShape (target : ClassTy)
  | unknownCast (source target : Ty)
  | noConversion (source target : Ty)
  -- E2004
  | noDefaultConstructor (c : ClassTy)
  | noDefaultValue (t : Ty)
  -- E2005
  | negativeArity (name : String) (arity : Int)
  | templateArity (name : String) (expected given : Nat)
  -- E2006
  | argumentCount (overload : String) (expected given : Nat)
  -- E3001
  | uninitialized (t : Ty)
  -- E3002
  | outsideRegion (index : Int) (elem : Ty) (length region : Nat)
  | outsideAnyRegion
  -- E3003
  | divisionByZero (dividend : Int) (operator : String)
  -- E3004, E3005
  | signedOverflow (value : Int) (kind : Kind)
  | unsignedOverflow (value : Int) (kind : Kind)
  -- E3006
  | nullPointer (t : Ty)
  -- E3007
  | constAssign (t : Ty)
  -- E3008
  | assignTemporary (t : Ty)
  | addressOfTemporary (t : Ty)
  -- E3009
  | notIntoArray
  | differentArrays
  -- E3010
  | notAnInteger (t : Ty)
  | notArithmetic (t : Ty)
  | operandsDiffer (operator : String) (left right : Ty)
  | notAClassValue (t : Ty)
  | noMember (t : Ty) (name : String)
  | notAPointer (t : Ty)
  | noDecay (t : Ty)
  | numericTarget (t : Ty)
  | notABraceList (t : Ty) (elements : Nat)
  | braceTarget (t : Ty)
  | notANumber (text : String) (kind : Kind)
  -- E9001
  | wildcardType (symbol : String) (id : Option Nat)
  | wildcardOuter (name : String)
  | openReturn
  | openArithmetic (id : Nat)
  | openTarget (formal : String)
  | openClass (name : String)
  -- E9002
  | iterationLimit (limit : Nat)
  -- E9003
  | scriptEnded (prompt : String)
  | inputEnded (prompt : String)
  | noHost (prompt : String)
  -- no code: the host, the configuration, the depth of calls
  | host (message : String)
  | canceled
  | unknownPolicy (text : String)
  | negativeYields (n : Int)
  | castOrderLength (expected given : Nat)
  | castOrderUnknown (name : String)
  | castOrderTwice (name : String)
  | unknownStrategy (name : String)
  | unknownReference (word : String)
  | noSuchFile (path : String)
  | lineTooLong
  | document (reason : String)
  | absentValue
  | tooDeep
  -- a cause with what was being done
  | within (label : String) (cause : Fault)

namespace Fault

/-- the entry of the catalogue a cause belongs to -/
def code : Fault → Option Code
  | notASentence .. | notAType .. | arraySize .. | notATypeSymbol .. | notAFunction .. =>
    some .malformedSignature
  | malformedReference .. | undeclaredWildcard .. => some .undeclaredWildcard
  | wildcardOrder .. => some .wildcardOrder
  | unknownWildcardKind .. | lateDeclarator .. => some .badDeclarator
  | alreadyImplemented .. | templateDefined .. => some .duplicateImplementation
  | definedTwice .. | noRule .. | diverging .. | unproductive .. | conflict .. => some .grammar
  | noOverload .. => some .noMatchingOverload
  | notImplemented .. => some .notImplemented
  | unknownConstructor .. | unknownShape .. | unknownCast .. | noConversion .. =>
    some .noConversion
  | noDefaultConstructor .. | noDefaultValue .. => some .noDefault
  | negativeArity .. | templateArity .. => some .templateArity
  | argumentCount .. => some .argumentCount
  | uninitialized .. => some .uninitialized
  | outsideRegion .. | outsideAnyRegion => some .outOfBounds
  | divisionByZero .. => some .divisionByZero
  | signedOverflow .. => some .signedOverflow
  | unsignedOverflow .. => some .unsignedOverflow
  | nullPointer .. => some .nullPointer
  | constAssign .. => some .constAssign
  | assignTemporary .. | addressOfTemporary .. => some .notAnLvalue
  | notIntoArray | differentArrays => some .pointerArith
  | notAnInteger .. | notArithmetic .. | operandsDiffer .. | notAClassValue .. | noMember ..
  | notAPointer .. | noDecay .. | numericTarget .. | notABraceList .. | braceTarget ..
  | notANumber .. => some .typeMismatch
  | wildcardType .. | wildcardOuter .. | openReturn | openArithmetic .. | openTarget ..
  | openClass .. => some .unresolvedWildcard
  | iterationLimit .. => some .iterationLimit
  | scriptEnded .. | inputEnded .. | noHost .. => some .noInput
  | host .. | canceled | unknownPolicy .. | negativeYields .. | castOrderLength ..
  | castOrderUnknown .. | castOrderTwice .. | unknownStrategy .. | unknownReference ..
  | noSuchFile .. | lineTooLong | document .. | absentValue | tooDeep => none
  | within _ cause => cause.code

/-- the number of a wildcard as messages show it: -1 where there is none -/
def idText : Option Nat → String
  | none => "-1"
  | some n => toString n

def detail : Fault → String
  | notASentence src start => quote src ++ " is not a valid " ++ start
  | notAType ts => bracketed ts ++ " is not a type"
  | arraySize t => "array size " ++ quote t
  | notATypeSymbol s => s ++ " does not denote a type"
  | notAFunction n sig =>
    "overload " ++ n ++ " must have a FUNCTION signature, got " ++ quote sig
  | malformedReference t => "malformed wildcard reference " ++ quote t
  | undeclaredWildcard t n =>
    "wildcard " ++ quote t ++ " is not declared (" ++ toString n ++ " declared)"
  | wildcardOrder i j =>
    "wildcard ?" ++ toString i ++ " first referenced after ?" ++ toString j
  | unknownWildcardKind t => quote t ++ " does not name a wildcard kind"
  | lateDeclarator t => "declarator " ++ quote t ++ " follows the signature body"
  | alreadyImplemented d n sig => d ++ "::" ++ n ++ " " ++ sig ++ " is already implemented"
  | templateDefined d => "template " ++ d ++ " is already defined"
  | definedTwice h => "nonterminal " ++ h ++ " defined twice"
  | noRule s => "wildcardable symbol " ++ s ++ " has no rule"
  | diverging what n => what.title ++ " did not converge after " ++ toString n ++ " passes"
  | unproductive h => "nonterminal " ++ h ++ " derives no token sequence"
  | conflict h t i j =>
    "LL(1) conflict in " ++ h ++ " on " ++ quote t ++ " between alternatives " ++ toString i ++
      " and " ++ toString j
  | noOverload d n args _ => "no overload of " ++ d ++ "::" ++ n ++ " admits (" ++ args ++ ")"
  | notImplemented o => o ++ " is declared but not implemented"
  | unknownConstructor t => "constructor for " ++ t.render ++ " is not registered here"
  | unknownShape c => "list shape for " ++ c.render ++ " is not registered here"
  | unknownCast s t => "no conversion of " ++ s.render ++ " to " ++ t.render
  | noConversion s t => "cannot convert " ++ s.render ++ " to " ++ t.render
  | noDefaultConstructor c => c.render ++ " has no default constructor"
  | noDefaultValue t => t.render ++ " has no default value"
  | negativeArity n a => "template " ++ n ++ " cannot take " ++ decimal a ++ " arguments"
  | templateArity n e g =>
    n ++ " takes " ++ toString e ++ " template arguments, got " ++ toString g
  | argumentCount o e g => o ++ " takes " ++ toString e ++ " arguments, got " ++ toString g
  | uninitialized t => "read of an uninitialized " ++ t.render
  | outsideRegion i e n r =>
    "index " ++ decimal i ++ " is outside region " ++ e.render ++ "[" ++ toString n ++ "] (" ++
      String.ofList (hex 8 r) ++ ")"
  | outsideAnyRegion => "access outside of a memory region"
  | divisionByZero n op => decimal n ++ " " ++ op ++ " 0"
  | signedOverflow n k => decimal n ++ " overflows " ++ k.name
  | unsignedOverflow n k => decimal n ++ " overflows " ++ k.name
  | nullPointer t => "dereference of a null " ++ t.render
  | constAssign t => "cannot assign to a const " ++ t.render
  | assignTemporary t => "cannot assign to a temporary " ++ t.render
  | addressOfTemporary t => "cannot take the address of a temporary " ++ t.render
  | notIntoArray => "arithmetic on a pointer that does not point into an array"
  | differentArrays => "pointers do not point into the same array"
  | notAnInteger t => t.render ++ " is not an integer"
  | notArithmetic t => t.render ++ " is not arithmetic"
  | operandsDiffer op l r =>
    "operands of " ++ op ++ " differ: " ++ l.render ++ " and " ++ r.render
  | notAClassValue t => t.render ++ " is not a class value"
  | noMember t n => t.render ++ " has no member " ++ quote n
  | notAPointer t => t.render ++ " is not a pointer"
  | noDecay t => t.render ++ " does not decay to a pointer"
  | numericTarget t => "numeric cast to " ++ t.render
  | notABraceList t n => t.render ++ " is not a brace list of " ++ toString n ++ " elements"
  | braceTarget t => "brace list into " ++ t.render
  | notANumber s k => quote s ++ " is not a " ++ k.name
  | wildcardType s id => "wildcard " ++ s ++ " (#" ++ idText id ++ ") has no concrete type"
  | wildcardOuter n => "enclosing class of " ++ n ++ " is a wildcard"
  | openReturn => "return type is not resolved"
  | openArithmetic id =>
    "arithmetic wildcard #" ++ toString id ++ " is bound to a wildcard of the caller"
  | openTarget f => "conversion target " ++ f ++ " depends on a wildcard of the caller"
  | openClass n => "default constructor of " ++ n ++ " has no concrete class"
  | iterationLimit n => "more than " ++ toString n ++ " consecutive deferred steps"
  | scriptEnded p => "no scripted input left for " ++ quote p
  | inputEnded p => "input ended before " ++ quote p ++ " was answered"
  | noHost p => "computation awaits input for " ++ quote p ++ " but no host is attached"
  | host m => m
  | canceled => "context canceled"
  | unknownPolicy s =>
    "unknown overflow policy " ++ quote s ++ " (want error, warn or ignore)"
  | negativeYields n => "max_yields must not be negative, got " ++ decimal n
  | castOrderLength e g =>
    "cast_order must list all " ++ toString e ++ " strategies, got " ++ toString g
  | castOrderUnknown n => "cast_order: unknown strategy " ++ quote n
  | castOrderTwice n => "cast_order: strategy " ++ quote n ++ " listed twice"
  | unknownStrategy n => "unknown cast strategy " ++ quote n
  | unknownReference w => "unknown reference kind " ++ quote w
  | noSuchFile p => "open " ++ p ++ ": no such file or directory"
  | lineTooLong => "bufio.Scanner: token too long"
  | document r => "yaml: " ++ r
  | absentValue => "a value is missing"
  | tooDeep => "calls are nested too deeply"
  | within label cause => label ++ ": " ++ cause.detail

def notes : Fault → List String
  | noOverload d n _ [] => ["no overloads named " ++ n ++ " are registered in " ++ d]
  | noOverload _ _ _ candidates => candidates.map fun c => "candidate: " ++ c
  | within _ cause => cause.notes
  | _ => []

/-- the full text of a fault: code, wording, and one indented line for each note; what was being
done comes before all of it -/
def text : Fault → String
  | within label cause => label ++ ": " ++ cause.text
  | f =>
    ((f.code.map fun c => c.id ++ ": ").getD "") ++ f.detail ++
      String.join (f.notes.map fun n => "\n  " ++ n)

/-- whether a fault comes from reading a document -/
def isDocument : Fault → Bool
  | document _ => true
  | within _ cause => cause.isDocument
  | _ => false

end Fault

end Overloading
