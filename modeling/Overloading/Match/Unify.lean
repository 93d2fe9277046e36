import Overloading.Ty.Tokens

/-!
# Unification

A declared tree admits an actual one if both are alike except that a head of the declared tree
may stand for any derivation of its nonterminal, the same one wherever its wildcard occurs.  What
a wildcard stands for is recorded as tokens in which the caller's own wildcards keep their
numbers, so that two open bindings agree only if they name the same wildcard.

Wrappers (a nonterminal that is all of an alternative) are looked through when the two trees are
not rooted alike: the declared tree at once, the actual one level by level.
-/

namespace Overloading

abbrev Binding := List Token

namespace Binding

def texts (b : Binding) : List String := b.map fun t => t.text

def isOpen (b : Binding) : Bool := b.any fun t => t.wildcard.isSome

def ofTexts (ts : List String) : Binding := ts.map fun t => ⟨t, none⟩

end Binding

abbrev Bindings := List (Nat × Binding)

namespace Bindings

def get? (b : Bindings) (id : Nat) : Option Binding := b.lookup id

def texts? (b : Bindings) (id : Nat) : Option (List String) := (b.get? id).map Binding.texts

def insert (b : Bindings) (id : Nat) (v : Binding) : Bindings := b ++ [(id, v)]

def isOpen (b : Bindings) (id : Nat) : Bool := ((b.get? id).map Binding.isOpen).getD false

def toTexts (b : Bindings) : List (Nat × List String) := b.map fun e => (e.1, Binding.texts e.2)

end Bindings

mutual
/-- the tokens of a tree, the heads with their wildcard numbers -/
def Tree.marks : Tree → Binding
  | .leaf _ t => [⟨t.text, none⟩]
  | .branch _ _ cs => Tree.marksAll cs
  | .head _ _ t => [t]

def Tree.marksAll : List Tree → Binding
  | [] => []
  | c :: cs => c.marks ++ Tree.marksAll cs
end

/-- lets a wildcard of a nonterminal stand for a tree: the nonterminal has to derive it, and an
earlier binding has to be the same -/
def bind (symbol : Symbol) (id : Option Nat) (actual : Tree) (b : Bindings) : Option Bindings :=
  if Grammar.signature.derives symbol actual.unwrap.symbol then
    match id with
    | none => none
    | some id =>
      match b.get? id with
      | some prev => if prev = actual.marks then some b else none
      | none => some (b.insert id actual.marks)
  else none

mutual
/-- matches an actual tree against a declared one and extends the bindings -/
def unify : (actual : Tree) → (formal : Tree) → Bindings → Option Bindings
  | actual, .head fs _ t, b => bind fs t.wildcard actual b
  | .head .., _, _ => none
  | .leaf s t, f, b =>
    match f with
    | .leaf s' t' => if s = s' ∧ t.text = t'.text then some b else none
    | _ => none
  | .branch s alt cs, f, b =>
    match (if f.symbol = s then f else f.unwrap) with
    | .head fs _ t => bind fs t.wildcard (.branch s alt cs) b
    | .leaf .. => none
    | .branch s' alt' cs' =>
      if s' = s then
        if alt = alt' then unifyAll cs cs' b else none
      else match cs with
        | [c] => if c.isLeaf then none else unify c (.branch s' alt' cs') b
        | _ => none

def unifyAll : List Tree → List Tree → Bindings → Option Bindings
  | [], [], b => some b
  | a :: as, f :: fs, b =>
    match unify a f b with
    | some b => unifyAll as fs b
    | none => none
  | _, _, _ => none
end

end Overloading
