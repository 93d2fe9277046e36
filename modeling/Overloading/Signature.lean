import Overloading.Signature.Body
import Overloading.Text.Blank

/-!
# Signatures

A compiled signature is its source text, the tokens of its body and their parse tree.  Two
signatures with the same source tokens are the same signature.
-/

namespace Overloading

open Overloading.Text

structure Signature where
  source : List String
  declared : List Symbol
  tokens : List Token
  start : Symbol
  root : Tree

/-- the elements of a list tree: an element and the rest, or nothing -/
def Tree.elements : Tree → List Tree
  | .branch _ _ [x, rest] => x :: rest.elements
  | _ => []

/-- whether a tree is a function form, not a wildcard for one -/
def Tree.isFunctionForm : Tree → Bool
  | .branch s _ _ => s == Symbol.function
  | _ => false

namespace Grammar

/-- prepares and parses a signature from a start symbol -/
def compile (g : Grammar) (src : List String) (start : Symbol) (strict : Bool) :
    Except Fault Signature := do
  let pre ← g.prepareBody src strict
  match g.parse pre.tokens start with
  | some root => return ⟨src, pre.declared, pre.tokens, start, root⟩
  | none => throw (.notASentence (" ".intercalate src) start)

/-- compiles a text, its tokens separated by blanks -/
def compileText (g : Grammar) (src : String) (start : Symbol) (strict : Bool) :
    Except Fault Signature :=
  g.compile (fields src) start strict

end Grammar

namespace Signature

/-- the source text, its tokens separated by single spaces; equal texts mean equal signatures -/
def text (s : Signature) : String := " ".intercalate s.source

/-- how many wildcard numbers are in use, declared or direct -/
def arity (s : Signature) : Nat :=
  s.tokens.foldl (fun n t => match t.wildcard with
    | some id => max n (id + 1)
    | none => n) s.declared.length

/-- whether the signature is a function form, not a wildcard for one -/
def isFunction (s : Signature) : Bool := s.root.unwrap.isFunctionForm

def returnTree? (s : Signature) : Option Tree :=
  if s.isFunction then s.root.unwrap.children[1]? else none

def params (s : Signature) : List Tree :=
  if s.isFunction then
    match s.root.unwrap.children[3]? with
    | some list => list.elements
    | none => []
  else []

end Signature

end Overloading
