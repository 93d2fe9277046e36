/-!
# Rules and productions

A grammar is given by rules: for each nonterminal its alternatives, each a sequence of symbols.
Every other symbol is a terminal.  A nonterminal may be declared wildcardable; it then has one
alternative more, whose body is a single terminal of its own, the head `@X` of the nonterminal
`X`.  A head stands for any derivation of its nonterminal.

`productions` numbers the alternatives of every rule in order, the head last.
-/

namespace Overloading

abbrev Symbol := String

namespace Symbol

/-- the class of the tokens that are names -/
def ident : Symbol := "IDENT"

/-- the class of the tokens that are numbers -/
def num : Symbol := "NUM"

/-- what the parser sees where the tokens end -/
def finish : Symbol := "$"

/-- the terminal that stands for any derivation of a nonterminal -/
def headOf (x : Symbol) : Symbol := "@" ++ x

def isHead (s : Symbol) : Bool :=
  match s.toList with
  | '@' :: _ :: _ => true
  | _ => false

end Symbol

/-- the alternatives of one nonterminal; an empty alternative derives the empty sequence -/
structure Rule where
  head : Symbol
  alts : List (List Symbol)
  deriving DecidableEq

/-- one alternative of a rule, or the head of a wildcardable nonterminal -/
structure Production where
  head : Symbol
  body : List Symbol
  alt : Nat
  wildcard : Bool
  deriving DecidableEq

namespace Rule

/-- the ordinary alternatives of a rule, numbered in order -/
def ordinary (r : Rule) : List Production :=
  r.alts.zipIdx.map fun a => ⟨r.head, a.1, a.2, false⟩

/-- the head alternative of a wildcardable nonterminal; its number follows the ordinary ones -/
def wildcard (r : Rule) : Production :=
  ⟨r.head, [Symbol.headOf r.head], r.alts.length, true⟩

def productions (wildcardable : List Symbol) (r : Rule) : List Production :=
  if wildcardable.contains r.head then r.ordinary ++ [r.wildcard] else r.ordinary

end Rule

/-- the productions of a list of rules, rule by rule -/
def productionsOf (wildcardable : List Symbol) (rules : List Rule) : List Production :=
  rules.flatMap fun r => r.productions wildcardable

theorem productionsOf_cons (w : List Symbol) (r : Rule) (rules : List Rule) :
    productionsOf w (r :: rules) = r.productions w ++ productionsOf w rules := by
  simp [productionsOf]

end Overloading
