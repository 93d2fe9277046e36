import Overloading.Yaml.Scalar

/-!
# Tokens of documents

A document is cut into tokens before its structure is read.  Most tokens are there to see; those
that open and close block collections come from the columns: a block opens with the first key or
dash right of the block around it and closes before the first token left of it.

A key is known only by the colon after it.  So the reader remembers where a key may have begun
(`KeyStart`), one place for each level of flow collections, and puts the token of the key in front
of it once it meets the colon.  A key stands on one line and is not longer than 1024 characters.
Where only a key may stand, a place without its colon is refused.

A text that cannot be cut to its end still gives the tokens it begins with.  They are cut ahead of
their use: a token can be used once two more have been cut and it is clear that it is no key
(`Scanner.ready`).  A document that is over before the fault is therefore read all the same.
-/

namespace Overloading.Yaml

open Overloading.Text

inductive Token where
  | streamEnd
  | documentStart
  | documentEnd
  /-- opens a block sequence -/
  | blockSequence
  /-- opens a block mapping -/
  | blockMapping
  /-- closes a block collection -/
  | blockEnd
  | flowSequence
  | flowSequenceEnd
  | flowMapping
  | flowMappingEnd
  | blockEntry
  | flowEntry
  | key
  | value
  | alias (name : String)
  | anchor (name : String)
  | tag (handle suffix : String)
  | scalar (text : String) (plain : Bool)
  deriving DecidableEq

structure KeyStart where
  /-- the number of the token that begins there -/
  token : Nat
  mark : Mark
  /-- nothing but a key may stand there -/
  required : Bool

/-- how many characters a key has at most, up to its colon -/
def keyReach : Nat := 1024

/-- whether a colon at a mark would make a key of what begins at a place -/
def KeyStart.reaches (k : KeyStart) (m : Mark) : Bool :=
  m.line ≤ k.mark.line && m.index ≤ k.mark.index + keyReach

/-- how far a document has been cut into tokens -/
structure Scanner where
  cursor : Cursor
  tokens : Array Token
  /-- the columns of the open block collections, innermost first -/
  columns : List Nat
  /-- where a key may have begun in the innermost flow collection, or outside of any -/
  key : Option KeyStart
  /-- where a key may have begun in the flow collections around it, and outside -/
  outerKeys : List (Option KeyStart)
  /-- a key may begin here -/
  keysAllowed : Bool
  /-- the end of the text has been reached -/
  isOver : Bool

namespace Scanner

def start (cur : Cursor) : Scanner := ⟨cur, #[], [], none, [], true, false⟩

/-- whether the place is inside a flow collection -/
def inFlow (s : Scanner) : Bool := !s.outerKeys.isEmpty

/-- the column of the innermost block collection, or -1 -/
def indent (s : Scanner) : Int :=
  match s.columns with
  | [] => -1
  | c :: _ => c

def mark (s : Scanner) : Mark := s.cursor.mark

def push (s : Scanner) (t : Token) : Scanner := { s with tokens := s.tokens.push t }

def pushMark (s : Scanner) (width : Nat) (t : Token) : Scanner :=
  { s.push t with cursor := width.repeat Cursor.advance s.cursor }

/-! ## Block collections -/

/-- closes the block collections in columns right of a given one -/
def closeTo (column : Int) : List Nat → Array Token → List Nat × Array Token
  | [], tokens => ([], tokens)
  | c :: columns, tokens =>
    if column < c then closeTo column columns (tokens.push .blockEnd) else (c :: columns, tokens)

/-- closes the block collections right of a column; inside a flow collection columns mean
nothing -/
def close (s : Scanner) (column : Int) : Scanner :=
  if s.inFlow then s
  else
    let (columns, tokens) := closeTo column s.columns s.tokens
    { s with columns := columns, tokens := tokens }

/-- opens a block collection in a column unless there is one; its token gets a given number -/
def openAt (s : Scanner) (column number : Nat) (t : Token) : Scanner :=
  if s.inFlow || column ≤ s.indent then s
  else
    { s with
      columns := column :: s.columns
      tokens := s.tokens.insertIdxIfInBounds number t }

/-! ## Keys -/

/-- gives up a place where a key may have begun -/
def dropKey (s : Scanner) : Read Scanner :=
  match s.key with
  | some k =>
    if k.required then .error "could not find expected ':'" else .ok { s with key := none }
  | none => .ok s

/-- remembers that a key may begin with the next token -/
def saveKey (s : Scanner) : Read Scanner :=
  if s.keysAllowed then do
    let required := !s.inFlow && s.indent == s.mark.column
    let s ← s.dropKey
    return { s with key := some ⟨s.tokens.size, s.mark, required⟩ }
  else .ok s

/-! ## Marks -/

def finish (s : Scanner) : Read Scanner := do
  let s ← (s.close (-1)).dropKey
  return { s.push .streamEnd with keysAllowed := false, isOver := true }

/-- three dashes or dots, which close everything -/
def documentMark (s : Scanner) (t : Token) : Read Scanner := do
  let s ← (s.close (-1)).dropKey
  return { s.pushMark 3 t with keysAllowed := false }

/-- an opening bracket or brace; the collection may itself be a key -/
def openFlow (s : Scanner) (t : Token) : Read Scanner := do
  let s ← s.saveKey
  return { s.pushMark 1 t with key := none, outerKeys := s.key :: s.outerKeys, keysAllowed := true }

/-- a closing bracket or brace, also where nothing is open -/
def closeFlow (s : Scanner) (t : Token) : Read Scanner := do
  let s ← s.dropKey
  let s := { s.pushMark 1 t with keysAllowed := false }
  match s.outerKeys with
  | [] => return s
  | k :: ks => return { s with key := k, outerKeys := ks }

/-- a comma between the items of a flow collection -/
def flowEntry (s : Scanner) : Read Scanner := do
  let s ← s.dropKey
  return { s.pushMark 1 .flowEntry with keysAllowed := true }

/-- a dash in front of an item of a block sequence -/
def blockEntry (s : Scanner) : Read Scanner :=
  if !s.inFlow && !s.keysAllowed then
    .error "block sequence entries are not allowed in this context"
  else do
    let s ← (s.openAt s.mark.column s.tokens.size .blockSequence).dropKey
    return { s.pushMark 1 .blockEntry with keysAllowed := true }

/-- a question mark, which begins a key of any sort -/
def keyMark (s : Scanner) : Read Scanner :=
  if !s.inFlow && !s.keysAllowed then .error "mapping keys are not allowed in this context"
  else do
    let s ← (s.openAt s.mark.column s.tokens.size .blockMapping).dropKey
    return { s.pushMark 1 .key with keysAllowed := !s.inFlow }

/-- a colon that has no key in front of it on its line -/
def bareColon (s : Scanner) : Read Scanner :=
  if !s.inFlow && !s.keysAllowed then .error "mapping values are not allowed in this context"
  else
    let s := s.openAt s.mark.column s.tokens.size .blockMapping
    .ok { s.pushMark 1 .value with keysAllowed := !s.inFlow }

def colon (s : Scanner) : Read Scanner :=
  match s.key with
  | none => s.bareColon
  | some k =>
    if k.reaches s.mark then
      let s := { s with key := none, tokens := s.tokens.insertIdxIfInBounds k.token .key }
      .ok { (s.openAt k.mark.column k.token .blockMapping).pushMark 1 .value with
        keysAllowed := false }
    else if k.required then .error "could not find expected ':'"
    else { s with key := none }.bareColon

/-! ## Names and scalars -/

def isNameChar (c : Char) : Bool :=
  isAsciiDigit c || (65 ≤ c.toNat && c.toNat ≤ 90) || (97 ≤ c.toNat && c.toNat ≤ 122) ||
    c == '_' || c == '-'

def isTagChar (c : Char) : Bool :=
  isNameChar c || ";/?:@&=+$,.!~*()[]".toList.contains c || c == Char.ofNat 39

def endsName : List Char → Bool
  | [] => true
  | c :: _ => isGapChar c || "?:,]\x7d%@".toList.contains c || c == Char.ofNat 96

/-- a token that may begin a key, read by a reader that gives the place after it -/
def content (s : Scanner) (read : Scanner → Read (Token × Cursor)) : Read Scanner := do
  let s ← s.saveKey
  let (t, cur) ← read s
  return { s.push t with cursor := cur, keysAllowed := false }

/-- the name after an asterisk or an ampersand -/
def readName (make : String → Token) (s : Scanner) : Read (Token × Cursor) :=
  let (name, cur) := s.cursor.advance.take isNameChar
  if name.isEmpty || !endsName cur.rest then
    .error "did not find expected alphabetic or numeric character"
  else .ok (make (String.ofList name), cur)

/-- a tag: a handle between exclamation marks and a suffix, or a suffix in angle brackets -/
def readTag (s : Scanner) : Read (Token × Cursor) := do
  let inside := s.cursor.advance
  let (t, cur) ← match inside.rest with
    | '<' :: _ =>
      let (suffix, cur) := inside.advance.take isTagChar
      if suffix.isEmpty || cur.rest.head? != some '>' then throw "did not find the expected '>'"
      pure (Token.tag "" (String.ofList suffix), cur.advance)
    | _ =>
      let (name, cur) := inside.take isNameChar
      match cur.rest with
      | '!' :: _ =>
        let (suffix, cur) := cur.advance.take isTagChar
        if suffix.isEmpty then throw "did not find expected tag URI"
        pure (Token.tag (String.ofList ('!' :: name ++ ['!'])) (String.ofList suffix), cur)
      | _ =>
        let (suffix, cur) := inside.take isTagChar
        let handle := if suffix.isEmpty then "" else "!"
        pure (Token.tag handle (if suffix.isEmpty then "!" else String.ofList suffix), cur)
  if atGap cur.rest then return (t, cur)
  else throw "did not find expected whitespace or line break"

def readQuoted (single : Bool) (s : Scanner) : Read (Token × Cursor) := do
  let cur := s.cursor.advance
  let (text, cur) ←
    if single then singleFrom cur.rest cur.mark [] .start
    else doubleFrom cur.rest cur.mark [] (.text .start)
  return (.scalar (String.ofList text.reverse) false, cur)

/-- a plain scalar; after a line end a key may begin -/
def plain (s : Scanner) : Read Scanner := do
  let s ← s.saveKey
  let p ← plainFrom s.inFlow (s.indent + 1) s.cursor.rest s.mark [] .start
  let s := s.push (.scalar (String.ofList p.text.reverse) true)
  return { s with
    cursor := if p.broken then p.after else p.after.skipComment
    keysAllowed := p.broken }

def block (s : Scanner) (literal : Bool) : Read Scanner := do
  let s ← s.dropKey
  let (text, cur) ← readBlock literal s.indent s.cursor.advance
  return { s.push (.scalar (String.ofList text.reverse) false) with
    cursor := cur
    keysAllowed := true }

/-! ## Cutting -/

/-- a comment after a token belongs to its line -/
def skipComment (s : Scanner) : Scanner := { s with cursor := s.cursor.skipComment }

def token (s : Scanner) (c : Char) (cs : List Char) : Read Scanner :=
  if c == '[' then (s.openFlow .flowSequence).map skipComment
  else if c == '\x7b' then (s.openFlow .flowMapping).map skipComment
  else if c == ']' then (s.closeFlow .flowSequenceEnd).map skipComment
  else if c == '\x7d' then (s.closeFlow .flowMappingEnd).map skipComment
  else if c == ',' then s.flowEntry.map skipComment
  else if c == '-' && atGap cs then s.blockEntry
  else if c == '?' && (s.inFlow || atGap cs) then s.keyMark.map skipComment
  else if c == ':' && (s.inFlow || atGap cs) then s.colon.map skipComment
  else if c == '*' then (s.content (readName .alias)).map skipComment
  else if c == '&' then (s.content (readName .anchor)).map skipComment
  else if c == '!' then (s.content readTag).map skipComment
  else if (c == '|' || c == '>') && !s.inFlow then s.block (c == '|')
  else if c == Char.ofNat 39 then (s.content (readQuoted true)).map skipComment
  else if c == '"' then (s.content (readQuoted false)).map skipComment
  else if beginsPlain s.inFlow c cs then s.plain
  else .error "found character that cannot start any token"

/-- passes over a gap and cuts the next token -/
def next (s : Scanner) : Read Scanner :=
  let (cur, keys) := skipGap s.inFlow s.cursor.rest s.mark .blank s.keysAllowed
  let s := { s with cursor := cur, keysAllowed := keys }.close cur.mark.column
  match cur.rest with
  | [] => s.finish
  | c :: cs =>
    if cur.mark.column == 0 && c == '%' then .error "found unknown directive name"
    else if atDocumentMark '-' (c :: cs) cur.mark then s.documentMark .documentStart
    else if atDocumentMark '.' (c :: cs) cur.mark then s.documentMark .documentEnd
    else s.token c cs

/-- the tokens that can be used: all but the last two, up to one that may still be a key -/
def ready (s : Scanner) : List Token :=
  let pending := (s.key :: s.outerKeys).filterMap fun k =>
    k.bind fun k => if k.required || k.reaches s.mark then some k.token else none
  s.tokens.toList.take (pending.foldl min (s.tokens.size - 2))

/-- cuts up to `n` more tokens; also says why there are no more -/
def run : Nat → Scanner → List Token × String
  | 0, s => (s.ready, "document has too many tokens")
  | n + 1, s =>
    if s.isOver then (s.tokens.toList, "attempted to go past the end of stream")
    else match s.next with
      | .error e => (s.ready, e)
      | .ok s => s.run n

end Scanner

/-- the tokens of a text, all of them or those in front of a fault, and why there are no more.
Each but the last takes at least one character. -/
def tokens (cur : Cursor) : List Token × String := (Scanner.start cur).run (cur.rest.length + 2)

end Overloading.Yaml
