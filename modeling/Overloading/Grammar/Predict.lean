import Overloading.Fault
import Overloading.Grammar.Rule

/-!
# Productive symbols, FIRST and FOLLOW

An LL(1) parser chooses a production by one token.  What it needs to know about the rules are
least fixed points: which nonterminals derive a terminal sequence at all, which derive the empty
one, which terminals begin what a nonterminal derives (FIRST), and which may come after it
(FOLLOW).

Each is computed by passes over the productions in order; a pass sees what earlier productions of
the same pass have added.  A pass only adds, so a pass that changes nothing has found the fixed
point (`settle`).  The number of passes is capped: a grammar that needs more is refused.
-/

namespace Overloading

/-- how many passes may change something before a grammar is refused -/
def passLimit : Nat := 64

/-- repeats a pass until it changes nothing; `none` if that takes more passes than allowed -/
def settle {σ : Type} [DecidableEq σ] (pass : σ → σ) : Nat → σ → Option σ
  | 0, _ => none
  | n + 1, s => if pass s = s then some s else settle pass n (pass s)

/-- what `settle` finds is a fixed point -/
theorem pass_eq_of_settle {σ : Type} [DecidableEq σ] {pass : σ → σ} {n : Nat} {s t : σ}
    (h : settle pass n s = some t) : pass t = t := by
  induction n generalizing s with
  | zero => simp [settle] at h
  | succ n ih =>
    rw [settle] at h
    split at h
    · next hs => cases h; exact hs
    · exact ih h

def include1 (s : List Symbol) (x : Symbol) : List Symbol := if s.contains x then s else s ++ [x]

def includeAll (s xs : List Symbol) : List Symbol := xs.foldl include1 s

abbrev SymbolSets := List (Symbol × List Symbol)

namespace SymbolSets

def empty (xs : List Symbol) : SymbolSets := xs.map fun x => (x, [])

def get (m : SymbolSets) (x : Symbol) : List Symbol := (m.lookup x).getD []

def add (m : SymbolSets) (x : Symbol) (ts : List Symbol) : SymbolSets :=
  m.map fun e => if e.1 == x then (e.1, includeAll e.2 ts) else e

end SymbolSets

/-! ## Productive nonterminals -/

/-- whether every nonterminal of a body is known to be productive -/
def bodyProductive (nonterminals productive body : List Symbol) : Bool :=
  body.all fun s => !nonterminals.contains s || productive.contains s

def productivePass (nonterminals : List Symbol) (ps : List Production) (productive : List Symbol) :
    List Symbol :=
  ps.foldl
    (fun acc p => if bodyProductive nonterminals acc p.body then include1 acc p.head else acc)
    productive

/-! ## FIRST -/

/-- FIRST of the nonterminals found so far, and those of them that derive the empty sequence -/
structure Leading where
  first : SymbolSets
  nullable : List Symbol
  deriving DecidableEq

/-- the terminals that begin a sequence of symbols, and whether it derives the empty sequence -/
def Leading.ofSequence (nonterminals : List Symbol) (l : Leading) : List Symbol → List Symbol × Bool
  | [] => ([], true)
  | s :: rest =>
    if !nonterminals.contains s then ([s], false)
    else if !l.nullable.contains s then (l.first.get s, false)
    else
      let (ts, empty) := l.ofSequence nonterminals rest
      (includeAll (l.first.get s) ts, empty)

def Leading.absorb (nonterminals : List Symbol) (l : Leading) (p : Production) : Leading :=
  let (ts, empty) := l.ofSequence nonterminals p.body
  { first := l.first.add p.head ts
    nullable := if empty then include1 l.nullable p.head else l.nullable }

def leadingPass (nonterminals : List Symbol) (ps : List Production) (l : Leading) : Leading :=
  ps.foldl (Leading.absorb nonterminals) l

/-! ## FOLLOW -/

/-- what one body adds to FOLLOW: each nonterminal is followed by what begins the rest of the
body, and where the rest may be empty by whatever follows the head -/
def followBody (nonterminals : List Symbol) (l : Leading) (head : Symbol) :
    List Symbol → SymbolSets → SymbolSets
  | [], follow => follow
  | s :: rest, follow =>
    let next :=
      if nonterminals.contains s then
        let (ts, empty) := l.ofSequence nonterminals rest
        let follow := follow.add s ts
        if empty then follow.add s (follow.get head) else follow
      else follow
    followBody nonterminals l head rest next

def followPass (nonterminals : List Symbol) (l : Leading) (ps : List Production)
    (follow : SymbolSets) : SymbolSets :=
  ps.foldl (fun acc p => followBody nonterminals l p.head p.body acc) follow

/-- FOLLOW before the first pass: a wildcardable nonterminal may be all there is -/
def followStart (nonterminals wildcardable : List Symbol) : SymbolSets :=
  nonterminals.map fun x => (x, if wildcardable.contains x then [Symbol.finish] else [])

end Overloading
