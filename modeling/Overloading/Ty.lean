import Overloading.Kind

/-!
# Types

The types of the interpreted language.  A class carries its template arguments and, if it is
nested, the class around it; a function type is known by the tokens of its signature; a brace
list is the anonymous type of a list of values in braces.

Two types are the same exactly when they are built alike, so equality is decided by walking both
(`Ty.beq`), and the walk is correct by induction on the first of them (`Ty.beq_iff`).
-/

namespace Overloading

mutual
inductive Ty where
  | arith (kind : Kind)
  | pointer (elem : Ty)
  | array (elem : Ty) (size : Nat)
  | cls (c : ClassTy)
  | function (tokens : List String)
  | void
  | list (elems : List Ty)

/-- a class: its name, its template arguments and the class it is nested in -/
inductive ClassTy where
  | mk (name : String) (args : List Ty) (outer : Option ClassTy)
end

namespace ClassTy

def name : ClassTy → String
  | mk n _ _ => n

def args : ClassTy → List Ty
  | mk _ as _ => as

def outer : ClassTy → Option ClassTy
  | mk _ _ o => o

end ClassTy

/-! ## Equality -/

mutual
def Ty.beq : Ty → Ty → Bool
  | .arith k, .arith k' => decide (k = k')
  | .pointer e, .pointer e' => e.beq e'
  | .array e n, .array e' n' => n == n' && e.beq e'
  | .cls c, .cls c' => c.beq c'
  | .function ts, .function ts' => ts == ts'
  | .void, .void => true
  | .list es, .list es' => Ty.beqAll es es'
  | _, _ => false

/-- whether two classes have the same name, arguments and surroundings -/
def ClassTy.beq : ClassTy → ClassTy → Bool
  | .mk n as o, .mk n' as' o' => n == n' && Ty.beqAll as as' && ClassTy.beqOuter o o'

def Ty.beqAll : List Ty → List Ty → Bool
  | [], [] => true
  | t :: ts, u :: us => t.beq u && Ty.beqAll ts us
  | _, _ => false

def ClassTy.beqOuter : Option ClassTy → Option ClassTy → Bool
  | none, none => true
  | some c, some d => c.beq d
  | _, _ => false
end

mutual
theorem Ty.beq_iff : ∀ t u : Ty, t.beq u = true ↔ t = u
  | .arith k, u => by cases u <;> simp [Ty.beq]
  | .pointer e, u => by cases u <;> simp [Ty.beq, Ty.beq_iff e]
  | .array e n, u => by cases u <;> simp [Ty.beq, Ty.beq_iff e, and_comm]
  | .cls c, u => by cases u <;> simp [Ty.beq, ClassTy.beq_iff c]
  | .function ts, u => by cases u <;> simp [Ty.beq]
  | .void, u => by cases u <;> simp [Ty.beq]
  | .list es, u => by cases u <;> simp [Ty.beq, Ty.beqAll_iff es]

theorem ClassTy.beq_iff : ∀ c d : ClassTy, c.beq d = true ↔ c = d
  | .mk n as o, .mk n' as' o' => by
    simp [ClassTy.beq, Ty.beqAll_iff as, ClassTy.beqOuter_iff o, and_assoc]

theorem Ty.beqAll_iff : ∀ ts us : List Ty, Ty.beqAll ts us = true ↔ ts = us
  | [], us => by cases us <;> simp [Ty.beqAll]
  | t :: ts, us => by cases us <;> simp [Ty.beqAll, Ty.beq_iff t, Ty.beqAll_iff ts]

theorem ClassTy.beqOuter_iff : ∀ o p : Option ClassTy, ClassTy.beqOuter o p = true ↔ o = p
  | none, p => by cases p <;> simp [ClassTy.beqOuter]
  | some c, p => by cases p <;> simp [ClassTy.beqOuter, ClassTy.beq_iff c]
end

instance : DecidableEq Ty := fun t u => decidable_of_iff _ (Ty.beq_iff t u)

instance : DecidableEq ClassTy := fun c d => decidable_of_iff _ (ClassTy.beq_iff c d)

/-! ## Display names -/

mutual
def Ty.render : Ty → String
  | .arith k => k.name
  | .pointer e => e.render ++ "*"
  | .array e n => e.render ++ "[" ++ toString n ++ "]"
  | .cls c => c.render
  | .function ts => " ".intercalate ts
  | .void => "void"
  | .list es => "\x7b" ++ ", ".intercalate (Ty.renderAll es) ++ "\x7d"

/-- the display name of a class: enclosing classes first, arguments in angle brackets -/
def ClassTy.render : ClassTy → String
  | .mk n [] o => ClassTy.renderOuter o ++ n
  | .mk n (a :: as) o =>
    ClassTy.renderOuter o ++ n ++ "<" ++ ", ".intercalate (a.render :: Ty.renderAll as) ++ ">"

def Ty.renderAll : List Ty → List String
  | [] => []
  | t :: ts => t.render :: Ty.renderAll ts

def ClassTy.renderOuter : Option ClassTy → String
  | none => ""
  | some c => c.render ++ "::"
end

/-! ## Domains -/

/-- what joins the names of a chain of nested classes -/
def domainSeparator : String := "."

mutual
/-- the domain that owns the members of a class: the names of the enclosing classes and its own,
joined by a separator -/
def ClassTy.domain : ClassTy → String
  | .mk n _ o => ClassTy.domainBefore o ++ n

def ClassTy.domainBefore : Option ClassTy → String
  | none => ""
  | some c => c.domain ++ domainSeparator
end

def Ty.kind? : Ty → Option Kind
  | .arith k => some k
  | _ => none

def Ty.class? : Ty → Option ClassTy
  | .cls c => some c
  | _ => none

def Ty.isFunction : Ty → Bool
  | .function _ => true
  | _ => false

end Overloading
