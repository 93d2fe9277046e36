import Overloading.Grammar

/-!
# Parse trees and the parser

A parse tree says how a token sequence is derived: a leaf is a token with its class, a branch is
an ordinary alternative with the trees of its body, and a head is a wildcard, a token that stands
for any derivation of its nonterminal.  Tokens may carry the number of the wildcard they came
from.

`Grammar.parse` follows the table.  Along one path of the tree no nonterminal is expanded twice
between two tokens, so a tree over `n` tokens is no deeper than `n + 1` times the number of
nonterminals; that bounds the recursion.
-/

namespace Overloading

/-- a token and the number of the wildcard it came from -/
structure Token where
  text : String
  wildcard : Option Nat
  deriving DecidableEq

inductive Tree where
  | leaf (symbol : Symbol) (token : Token)
  | branch (symbol : Symbol) (alt : Nat) (children : List Tree)
  | head (symbol : Symbol) (alt : Nat) (token : Token)

namespace Tree

def symbol : Tree → Symbol
  | leaf s _ => s
  | branch s _ _ => s
  | head s _ _ => s

def isLeaf : Tree → Bool
  | leaf .. => true
  | _ => false

def isHead : Tree → Bool
  | head .. => true
  | _ => false

def children : Tree → List Tree
  | branch _ _ cs => cs
  | _ => []

mutual
def tokens : Tree → List String
  | leaf _ t => [t.text]
  | branch _ _ cs => tokensAll cs
  | head _ _ t => [t.text]

def tokensAll : List Tree → List String
  | [] => []
  | c :: cs => c.tokens ++ tokensAll cs
end

def text (t : Tree) : String := " ".intercalate t.tokens

mutual
/-- the heads in a tree, left to right: nonterminal and wildcard number -/
def heads : Tree → List (Symbol × Option Nat)
  | leaf .. => []
  | branch _ _ cs => headsAll cs
  | head s _ t => [(s, t.wildcard)]

def headsAll : List Tree → List (Symbol × Option Nat)
  | [] => []
  | c :: cs => c.heads ++ headsAll cs
end

mutual
/-- the tokens of a tree with every head replaced by what its wildcard stands for; `none` if some
wildcard stands for nothing -/
def substitute (lookup : Nat → Option (List String)) : Tree → Option (List String)
  | leaf _ t => some [t.text]
  | branch _ _ cs => substituteAll lookup cs
  | head _ _ t => t.wildcard.bind lookup

def substituteAll (lookup : Nat → Option (List String)) : List Tree → Option (List String)
  | [] => some []
  | c :: cs =>
    match c.substitute lookup with
    | none => none
    | some ts => (substituteAll lookup cs).map fun us => ts ++ us
end

/-- the tree below the alternatives that are a single nonterminal -/
def unwrap : Tree → Tree
  | branch s alt [c] => if c.isLeaf then branch s alt [c] else c.unwrap
  | t => t

@[simp] theorem tokensAll_nil : tokensAll [] = [] := by rw [tokensAll]

@[simp] theorem tokensAll_cons (c : Tree) (cs : List Tree) :
    tokensAll (c :: cs) = c.tokens ++ tokensAll cs := by rw [tokensAll]

@[simp] theorem headsAll_nil : headsAll [] = [] := by rw [headsAll]

@[simp] theorem headsAll_cons (c : Tree) (cs : List Tree) :
    headsAll (c :: cs) = c.heads ++ headsAll cs := by rw [headsAll]

end Tree

/-! ## Parsing -/

/-- parses a sequence of symbols one after the other -/
def parseSequence (one : Symbol → List Token → Option (Tree × List Token)) :
    List Symbol → List Token → Option (List Tree × List Token)
  | [], rest => some ([], rest)
  | s :: ss, rest =>
    match one s rest with
    | none => none
    | some (t, rest) =>
      match parseSequence one ss rest with
      | none => none
      | some (ts, rest) => some (t :: ts, rest)

namespace Grammar

def lookahead (g : Grammar) : List Token → Symbol
  | [] => Symbol.finish
  | t :: _ => g.classify t.text

def parseTerminal (g : Grammar) (s : Symbol) : List Token → Option (Tree × List Token)
  | [] => none
  | t :: rest => if g.classify t.text == s then some (.leaf s t, rest) else none

/-- the tree of a production over the trees of its body -/
def plant (p : Production) (children : List Tree) : Tree :=
  match p.wildcard, children with
  | true, [.leaf _ t] => .head p.head p.alt t
  | _, _ => .branch p.head p.alt children

/-- parses one symbol from the front of the tokens, to a bounded depth -/
def parseSymbol (g : Grammar) : (depth : Nat) → Symbol → List Token → Option (Tree × List Token)
  | 0, _, _ => none
  | n + 1, s, rest =>
    if g.isNonterminal s then
      match entry? g.table s (g.lookahead rest) with
      | none => none
      | some p =>
        match parseSequence (g.parseSymbol n) p.body rest with
        | none => none
        | some (ts, rest) => some (plant p ts, rest)
    else g.parseTerminal s rest

/-- deep enough for every tree over so many tokens -/
def depthBound (g : Grammar) (length : Nat) : Nat :=
  (length + 1) * (g.nonterminals.length + 1) + 1

/-- the tree of a token sequence, if the start symbol derives it -/
def parse (g : Grammar) (tokens : List Token) (start : Symbol) : Option Tree :=
  if g.isNonterminal start then
    match g.parseSymbol (g.depthBound tokens.length) start tokens with
    | some (t, []) => some t
    | _ => none
  else none

/-- the tree of a sequence of tokens that came from no wildcard -/
def parsePlain (g : Grammar) (tokens : List String) (start : Symbol) : Option Tree :=
  g.parse (tokens.map fun t => ⟨t, none⟩) start

/-- whether the start symbol derives a token sequence -/
def recognize (g : Grammar) (tokens : List String) (start : Symbol) : Bool :=
  (g.parsePlain tokens start).isSome

end Grammar

end Overloading
