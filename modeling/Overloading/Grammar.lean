import Overloading.Grammar.Predict
import Overloading.Text.Letter

/-!
# Grammars

`Grammar.build` turns rules into an LL(1) grammar: a table that gives, for a nonterminal and the
class of the next token, the only production that can apply.  It refuses rules that define a
nonterminal twice, wildcardable symbols without a rule, nonterminals that derive nothing, and
tables with two productions in one place.
-/

namespace Overloading

open Overloading.Text

/-- a place of the table: the production for a nonterminal and the class of the next token -/
structure Prediction where
  head : Symbol
  terminal : Symbol
  production : Production
  deriving DecidableEq

structure Grammar where
  nonterminals : List Symbol
  wildcardable : List Symbol
  productions : List Production
  keywords : List Symbol
  leading : Leading
  follow : SymbolSets
  table : List Prediction

namespace Grammar

def isNonterminal (g : Grammar) (s : Symbol) : Bool := g.nonterminals.contains s

/-- whether a symbol may be used as a wildcard -/
def mayBeWildcard (g : Grammar) (s : Symbol) : Bool := g.wildcardable.contains s

/-- the terminals that begin what a symbol derives, in ascending order -/
def first (g : Grammar) (s : Symbol) : List Symbol :=
  (g.leading.first.get s).mergeSort fun a b => !decide (b < a)

/-! ## Building -/

/-- the first symbol that has been seen before -/
def repeated? : (seen : List Symbol) → List Symbol → Option Symbol
  | _, [] => none
  | seen, x :: xs => if seen.contains x then some x else repeated? (x :: seen) xs

/-- the terminals of the bodies that are tokens themselves: neither token classes nor heads -/
def keywordsOf (nonterminals : List Symbol) (ps : List Production) : List Symbol :=
  includeAll []
    ((ps.flatMap fun p => p.body).filter fun s =>
      !nonterminals.contains s && s != Symbol.ident && s != Symbol.num && !s.isHead)

/-- the terminals on which a production is chosen: those that begin its body, and if that may be
empty those that follow its head -/
def predict (nonterminals : List Symbol) (l : Leading) (follow : SymbolSets) (p : Production) :
    List Symbol :=
  let (ts, empty) := l.ofSequence nonterminals p.body
  if empty then includeAll ts (follow.get p.head) else ts

def entry? (table : List Prediction) (head terminal : Symbol) : Option Production :=
  (table.find? fun e => e.head == head && e.terminal == terminal).map fun e => e.production

/-- enters a production in its places; two productions in one place are a conflict -/
def enter (p : Production) : List Symbol → List Prediction → Except Fault (List Prediction)
  | [], table => .ok table
  | t :: ts, table =>
    match entry? table p.head t with
    | some q =>
      if q = p then enter p ts table else .error (.conflict p.head t q.alt p.alt)
    | none => enter p ts (table ++ [⟨p.head, t, p⟩])

def enterAll (nonterminals : List Symbol) (l : Leading) (follow : SymbolSets) :
    List Production → List Prediction → Except Fault (List Prediction)
  | [], table => .ok table
  | p :: ps, table =>
    match enter p (predict nonterminals l follow p) table with
    | .error e => .error e
    | .ok table => enterAll nonterminals l follow ps table

/-- the nonterminals that derive no terminal sequence, in ascending order -/
def unproductive (nonterminals productive : List Symbol) : List Symbol :=
  (nonterminals.filter fun x => !productive.contains x).mergeSort fun a b => !decide (b < a)

/-- compiles rules into a grammar, or says what is wrong with them -/
def build (rules : List Rule) (wildcardable : List Symbol) : Except Fault Grammar := do
  let nonterminals := rules.map fun r => r.head
  if let some x := repeated? [] nonterminals then
    throw (.definedTwice x)
  if let some w := wildcardable.find? fun w => !nonterminals.contains w then
    throw (.noRule w)
  let ps := productionsOf wildcardable rules
  let some productive := settle (productivePass nonterminals ps) (passLimit + 1) []
    | throw (.diverging .productivity passLimit)
  if let x :: _ := unproductive nonterminals productive then
    throw (.unproductive x)
  let some leading := settle (leadingPass nonterminals ps) (passLimit + 1)
      ⟨SymbolSets.empty nonterminals, []⟩
    | throw (.diverging .first passLimit)
  let some follow := settle (followPass nonterminals leading ps) (passLimit + 1)
      (followStart nonterminals wildcardable)
    | throw (.diverging .follow passLimit)
  let table ← enterAll nonterminals leading follow ps []
  return {
    nonterminals, wildcardable, productions := ps, keywords := keywordsOf nonterminals ps,
    leading, follow, table }

/-! ## Units -/

/-- the nonterminals that are whole alternatives of a nonterminal -/
def units (g : Grammar) (x : Symbol) : List Symbol :=
  g.productions.filterMap fun p => match p.body with
    | [y] => if p.head == x && g.isNonterminal y then some y else none
    | _ => none

/-- whether `y` is reached from `x` in at most so many unit alternatives -/
def derivesWithin (g : Grammar) : Nat → Symbol → Symbol → Bool
  | 0, x, y => x == y
  | n + 1, x, y => x == y || (g.units x).any fun z => g.derivesWithin n z y

/-- whether a nonterminal derives another through alternatives that are a single nonterminal;
each derives itself.  A chain without repetition has at most as many links as there are
nonterminals. -/
def derives (g : Grammar) (x y : Symbol) : Bool :=
  g.isNonterminal x && g.derivesWithin g.nonterminals.length x y

/-! ## Tokens -/

/-- the terminal a token stands for; the empty text if it is not in the vocabulary -/
def classify (g : Grammar) (token : String) : Symbol :=
  if g.mayBeWildcard token then Symbol.headOf token
  else if g.keywords.contains token then token
  else if isNumber token then Symbol.num
  else if isName token && !g.isNonterminal token then Symbol.ident
  else ""

def summary (g : Grammar) : String :=
  "grammar(" ++ toString g.nonterminals.length ++ " nonterminals, " ++
    toString g.productions.length ++ " productions)"

end Grammar

end Overloading
