/-!
# Places in a document

A document is read character by character from a place: the characters that are left, and where
the first of them stands.  A line ends in a line feed, a carriage return, both, or one of three
characters of Unicode; `unifyBreaks` writes all of them but two as a line feed before a document
is read.  The line and paragraph separators stay what they are, because a folded text keeps them.

`skipGap` passes over what may stand between two tokens: blanks, line ends and comments.
-/

namespace Overloading.Yaml

abbrev Read (α : Type) := Except String α

/-! ## Characters -/

def isSpace (c : Char) : Bool := c == ' ' || c == '\t'

/-- a line end of a text whose line ends have been unified -/
def isBreak (c : Char) : Bool := c == '\n' || c.toNat == 0x2028 || c.toNat == 0x2029

def isGapChar (c : Char) : Bool := isSpace c || isBreak c

/-- whether a text begins with a blank or a line end, or is over -/
def atGap : List Char → Bool
  | [] => true
  | c :: _ => isGapChar c

/-- the characters that structure flow collections -/
def isFlowMark (c : Char) : Bool :=
  c == ',' || c == '[' || c == ']' || c == '\x7b' || c == '\x7d'

def isPermitted (c : Char) : Bool :=
  let n := c.toNat
  n == 9 || n == 10 || n == 13 || (32 ≤ n && n ≤ 126) || n == 0x85 ||
    (0xA0 ≤ n && n != 0xFFFE && n != 0xFFFF)

/-- writes a carriage return, with or without a line feed, and the next line character as a line
feed -/
def unifyBreaks : List Char → List Char
  | [] => []
  | '\r' :: '\n' :: cs => '\n' :: unifyBreaks cs
  | c :: cs => (if c == '\r' || c.toNat == 0x85 then '\n' else c) :: unifyBreaks cs

/-! ## Places -/

/-- where a character stands: its number in the text, its line and its column -/
structure Mark where
  index : Nat
  line : Nat
  column : Nat

/-- where the character after a given one stands -/
def Mark.after (m : Mark) (c : Char) : Mark :=
  if isBreak c then ⟨m.index + 1, m.line + 1, 0⟩ else ⟨m.index + 1, m.line, m.column + 1⟩

/-- what is left of a document, and where it begins -/
structure Cursor where
  rest : List Char
  mark : Mark

def Cursor.advance (cur : Cursor) : Cursor :=
  match cur.rest with
  | [] => cur
  | c :: cs => ⟨cs, cur.mark.after c⟩

def takeFrom (p : Char → Bool) : List Char → Mark → List Char × Cursor
  | [], m => ([], ⟨[], m⟩)
  | c :: cs, m =>
    if p c then
      let (text, cur) := takeFrom p cs (m.after c)
      (c :: text, cur)
    else ([], ⟨c :: cs, m⟩)

/-- the characters of a class in front, and the place after them -/
def Cursor.take (cur : Cursor) (p : Char → Bool) : List Char × Cursor :=
  takeFrom p cur.rest cur.mark

/-- a document mark: three dashes, or three dots, at the beginning of a line and with a gap after
them -/
def atDocumentMark (c : Char) (cs : List Char) (m : Mark) : Bool :=
  m.column == 0 &&
    match cs with
    | d :: e :: f :: rest => d == c && e == c && f == c && atGap rest
    | _ => false

/-- a document mark of either sort -/
def atMark (cs : List Char) (m : Mark) : Bool := atDocumentMark '-' cs m || atDocumentMark '.' cs m

/-! ## Gaps -/

def commentReach : Nat := 512

/-- whether a comment begins on this line after blanks -/
def commentAhead (cs : List Char) : Bool :=
  ((cs.take commentReach).dropWhile isSpace).head? == some '#'

/-- whether the next line that is not empty is a comment -/
def commentBelow (cs : List Char) : Bool :=
  ((cs.take (commentReach - 1)).dropWhile isGapChar).head? == some '#'

inductive Gap where
  | blank
  | comment
  /-- between two lines of comments -/
  | betweenComments
  deriving DecidableEq

/-- passes over a gap; also tells whether a key may begin after it.  A line end allows keys outside
of flow collections.  A tab is a blank where no key may begin and between comments; elsewhere it
would be indentation, and ends the gap. -/
def skipGap (flow : Bool) : List Char → Mark → Gap → (keys : Bool) → Cursor × Bool
  | [], m, _, keys => (⟨[], m⟩, keys)
  | c :: cs, m, gap, keys =>
    match gap with
    | .comment =>
      if isBreak c then
        skipGap flow cs (m.after c) (if commentBelow cs then .betweenComments else .blank)
          (keys || !flow)
      else skipGap flow cs (m.after c) .comment keys
    | .betweenComments =>
      skipGap flow cs (m.after c) (if c == '#' then .comment else .betweenComments) keys
    | .blank =>
      if isBreak c then skipGap flow cs (m.after c) .blank (keys || !flow)
      else if c == ' ' || (c == '\t' && (flow || !keys)) then
        skipGap flow cs (m.after c) .blank keys
      else if c == '#' then skipGap flow cs (m.after c) .comment keys
      else (⟨c :: cs, m⟩, keys)

/-- passes over a comment that begins on this line, up to the line end -/
def Cursor.skipComment (cur : Cursor) : Cursor :=
  if commentAhead cur.rest then (cur.take fun c => !isBreak c).2 else cur

end Overloading.Yaml
