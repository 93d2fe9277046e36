import Overloading.Yaml.Token

/-!
# Documents

A document is one node: a scalar, a sequence or a mapping.  The readers take the tokens of a text
one by one; a node that is not written is an empty plain scalar.  An alias is the node its anchor
names; inside that node itself it is refused wherever it is used (`Node.endless`).

Only the first document of a text is read.  What comes after it has to begin with tokens, but they
may be anything.

The recursion is bounded by the number of tokens: of two calls, one inside the other, at least one
takes a token.
-/

namespace Overloading.Yaml

/-- how a scalar is written: without quotes, with quotes or as a block, or under a tag -/
inductive Style where
  | plain
  | quoted
  | tagged (tag : String)
  deriving DecidableEq

inductive Node where
  | scalar (text : String) (style : Style)
  | sequence (items : List Node)
  | mapping (entries : List (Node × Node))
  /-- an alias inside the node it stands for -/
  | endless

/-- a node that is not written at all -/
def Node.absent : Node := .scalar "" .plain

/-! ## Taking tokens -/

/-- what is left to read, and the anchored nodes so far, the latest first -/
structure Source where
  tokens : List Token
  /-- why there are no more tokens -/
  ending : String
  anchors : List (String × Node)

abbrev Parse := StateT Source (Except String)

def peek : Parse Token := do
  match (← get).tokens with
  | [] => throw (← get).ending
  | t :: _ => return t

def skip : Parse Unit := modify fun s => { s with tokens := s.tokens.drop 1 }

def atAny (ts : List Token) : Parse Bool := return ts.contains (← peek)

def taking (t : Token) : Parse Bool := do
  if (← peek) = t then
    skip
    return true
  else return false

def anchored (name : String) (n : Node) : Parse Unit :=
  modify fun s => { s with anchors := (name, n) :: s.anchors }

/-! ## Tags -/

/-- a tag in short form; only the handles of one and two exclamation marks are known, and a tag in
angle brackets has none -/
def tagName (handle suffix : String) : Read String :=
  if ["", "!", "!!"].contains handle then .ok (handle ++ suffix)
  else .error "found undefined tag handle"

/-- the style of a scalar; the tag for texts counts as quotes, and the empty tag not at all -/
def styleOf (tag : Option String) (plain : Bool) : Style :=
  match tag with
  | some "!!str" => .quoted
  | some "!" | none => if plain then .plain else .quoted
  | some t => .tagged t

/-- the anchor and the tag in front of a node, in any order -/
def properties : Parse (Option String × Option String) := do
  match ← peek with
  | .anchor name =>
    skip
    match ← peek with
    | .tag handle suffix =>
      skip
      return (some name, some (← tagName handle suffix))
    | _ => return (some name, none)
  | .tag handle suffix =>
    skip
    match ← peek with
    | .anchor name =>
      skip
      return (some name, some (← tagName handle suffix))
    | _ => return (none, some (← tagName handle suffix))
  | _ => return (none, none)

/-! ## Nodes -/

/-- what ends a key or a value in a block mapping -/
def blockEnds : List Token := [.key, .value, .blockEnd]

/-- passes over the comma in front of an item; the first item has none -/
def takingComma (first : Bool) : Parse Bool := if first then return true else taking .flowEntry

mutual
/-- a node.  Block collections stand only in blocks; a sequence that does not open a block of its
own stands only where a mapping allows it. -/
def node : Nat → (inBlock unopened : Bool) → Parse Node
  | 0, _, _ => throw "document is nested too deeply"
  | n + 1, inBlock, unopened => do
    match ← peek with
    | .alias name =>
      skip
      match (← get).anchors.lookup name with
      | some node => return node
      | none => throw "unknown anchor referenced"
    | _ =>
      let (anchor, tag) ← properties
      anchor.forM fun name => anchored name .endless
      let result ← content n inBlock unopened (anchor.isSome || tag.isSome) tag
      anchor.forM fun name => anchored name result
      return result

/-- a node after its anchor and tag; after one of these it may be left out -/
def content : Nat → (inBlock unopened named : Bool) → Option String → Parse Node
  | 0, _, _, _, _ => throw "document is nested too deeply"
  | n + 1, inBlock, unopened, named, tag => do
    let t ← peek
    match t with
    | .scalar text plain =>
      skip
      return .scalar text (styleOf tag plain)
    | .flowSequence =>
      skip
      return .sequence (← flowItems n true)
    | .flowMapping =>
      skip
      return .mapping (← flowEntries n true)
    | _ =>
      if t = .blockEntry && unopened then return .sequence (← unopenedItems n)
      else if t = .blockSequence && inBlock then
        skip
        return .sequence (← blockItems n)
      else if t = .blockMapping && inBlock then
        skip
        return .mapping (← blockEntries n)
      else if named then return .scalar "" (styleOf tag true)
      else throw "did not find expected node content"

/-- a node, or an absent one before certain tokens -/
def nodeUnless : Nat → List Token → (inBlock unopened : Bool) → Parse Node
  | 0, _, _, _ => throw "document is nested too deeply"
  | n + 1, ends, inBlock, unopened => do
    if ← atAny ends then return .absent else node n inBlock unopened

/-- the value of a key: a colon and a node; each may be left out -/
def valueOf : Nat → List Token → (inBlock unopened : Bool) → Parse Node
  | 0, _, _, _ => throw "document is nested too deeply"
  | n + 1, ends, inBlock, unopened => do
    if ← taking .value then nodeUnless n ends inBlock unopened else return .absent

/-- the items of a flow sequence, up to its closing bracket -/
def flowItems : Nat → (first : Bool) → Parse (List Node)
  | 0, _ => throw "document is nested too deeply"
  | n + 1, first => do
    if ← taking .flowSequenceEnd then return []
    if !(← takingComma first) then throw "did not find expected ',' or ']'"
    if ← taking .flowSequenceEnd then return []
    let item ← if ← taking .key then flowPair n else node n false false
    return item :: (← flowItems n false)

/-- a mapping with one entry, as an item of a flow sequence.  Where the key is left out, the token
after it is lost. -/
def flowPair : Nat → Parse Node
  | 0 => throw "document is nested too deeply"
  | n + 1 => do
    let ends := [.flowEntry, .flowSequenceEnd]
    let isAbsent ← atAny (.value :: ends)
    let key ← if isAbsent then (do skip; return .absent) else node n false false
    return .mapping [(key, ← valueOf n ends false false)]

/-- the entries of a flow mapping, up to its closing brace -/
def flowEntries : Nat → (first : Bool) → Parse (List (Node × Node))
  | 0, _ => throw "document is nested too deeply"
  | n + 1, first => do
    if ← taking .flowMappingEnd then return []
    if !(← takingComma first) then throw "did not find expected ',' or closing brace"
    if ← taking .flowMappingEnd then return []
    let ends := [.flowEntry, .flowMappingEnd]
    if ← taking .key then
      let key ← nodeUnless n (.value :: ends) false false
      let value ← valueOf n ends false false
      return (key, value) :: (← flowEntries n false)
    else
      let key ← node n false false
      return (key, .absent) :: (← flowEntries n false)

def blockItems : Nat → Parse (List Node)
  | 0 => throw "document is nested too deeply"
  | n + 1 => do
    if ← taking .blockEnd then return []
    if !(← taking .blockEntry) then throw "did not find expected '-' indicator"
    let item ← nodeUnless n [.blockEntry, .blockEnd] true false
    return item :: (← blockItems n)

/-- the items of a sequence in the column of the mapping around it -/
def unopenedItems : Nat → Parse (List Node)
  | 0 => throw "document is nested too deeply"
  | n + 1 => do
    if ← taking .blockEntry then
      let item ← nodeUnless n (.blockEntry :: blockEnds) true false
      return item :: (← unopenedItems n)
    else return []

def blockEntries : Nat → Parse (List (Node × Node))
  | 0 => throw "document is nested too deeply"
  | n + 1 => do
    if ← taking .blockEnd then return []
    if !(← taking .key) then throw "did not find expected key"
    let key ← nodeUnless n blockEnds true true
    let value ← valueOf n blockEnds true true
    return (key, value) :: (← blockEntries n)
end

/-! ## Documents -/

/-- the first document; nothing at all is an absent node -/
def document (n : Nat) : Parse Node := do
  if ← atAny [.streamEnd] then return .absent
  let root ←
    if ← taking .documentStart then
      nodeUnless n [.documentStart, .documentEnd, .streamEnd] true false
    else node n true false
  let _ ← peek
  return root

def isOrderMark (c : Char) : Bool := c.toNat == 0xFEFF

/-- the beginning of a text after its byte order marks: one is no part of it, and a second one takes
up its first column -/
def afterOrderMarks : List Char → Cursor
  | [] => ⟨[], ⟨0, 0, 0⟩⟩
  | [c] => ⟨if isOrderMark c then [] else [c], ⟨0, 0, 0⟩⟩
  | c :: d :: cs =>
    if !isOrderMark c then ⟨c :: d :: cs, ⟨0, 0, 0⟩⟩
    else if !isOrderMark d then ⟨d :: cs, ⟨0, 0, 0⟩⟩
    else ⟨cs, ⟨1, 0, 1⟩⟩

def parse (text : String) : Read Node :=
  if !text.toList.all isPermitted then .error "control characters are not allowed"
  else
    let (ts, ending) := tokens (afterOrderMarks (unifyBreaks text.toList))
    ((document (8 * ts.length + 8)).run ⟨ts, ending, []⟩).map fun r => r.1

end Overloading.Yaml
