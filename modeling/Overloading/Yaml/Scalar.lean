import Overloading.Text.Letter
import Overloading.Yaml.Cursor

/-!
# Scalars of documents

A scalar is written plain, in single or double quotes, or as a block of indented lines.  The
readers give its text in reverse and the place after it.

Plain and quoted scalars may go on over several lines.  A gap between two words then stands for
less than it holds: a single line end is a space, several are all of them but the first, and
blanks around line ends are nothing (`Fold.reversed`).
-/

namespace Overloading.Yaml

open Overloading.Text

/-! ## Folding -/

/-- what has been passed since the last word; the characters are in reverse -/
inductive Fold where
  /-- blanks inside a line; without any, the word goes on -/
  | blanks (text : List Char)
  /-- line ends, of which the first is folded -/
  | lines (first : Char) (more : List Char)
  /-- line ends after an escaped one -/
  | joined (more : List Char)

namespace Fold

/-- nothing has been passed -/
def start : Fold := .blanks []

/-- passes a blank or a line end; blanks next to a line end do not count -/
def add (f : Fold) (c : Char) : Fold :=
  if isBreak c then
    match f with
    | .blanks _ => .lines c []
    | .lines first more => .lines first (c :: more)
    | .joined more => .joined (c :: more)
  else
    match f with
    | .blanks text => .blanks (c :: text)
    | f => f

def reversed : Fold → List Char
  | .blanks text => text
  | .lines first more =>
    if first == '\n' then (if more.isEmpty then [' '] else more) else more ++ [first]
  | .joined more => more

def isBroken : Fold → Bool
  | .blanks _ => false
  | _ => true

def isGap : Fold → Bool
  | .blanks [] => false
  | _ => true

end Fold

/-! ## Plain scalars -/

/-- a plain scalar: its text in reverse, the place after it, and whether a line end stands between
the two -/
structure Plain where
  text : List Char
  after : Cursor
  broken : Bool

/-- whether a plain scalar is over before a character that is no blank.  After a gap it is over at
a comment, at a document mark and at a line that is indented too little; anywhere, at a colon
before a gap, and in a flow collection at its marks. -/
def endsPlain (flow : Bool) (indent : Int) (f : Fold) (c : Char) (cs : List Char) (m : Mark) :
    Bool :=
  (f.isGap && (c == '#' || atMark (c :: cs) m || (!flow && m.column < indent))) ||
    (c == ':' && atGap cs) || (flow && (c == '?' || isFlowMark c))

/-- reads a plain scalar that belongs to a column of at least `indent` -/
def plainFrom (flow : Bool) (indent : Int) : List Char → Mark → (text : List Char) → Fold →
    Read Plain
  | [], m, text, f => .ok ⟨text, ⟨[], m⟩, f.isBroken⟩
  | c :: cs, m, text, f =>
    if isGapChar c then
      if c == '\t' && f.isBroken && m.column < indent then
        .error "found a tab character that violates indentation"
      else plainFrom flow indent cs (m.after c) text (f.add c)
    else if endsPlain flow indent f c cs m then .ok ⟨text, ⟨c :: cs, m⟩, f.isBroken⟩
    else plainFrom flow indent cs (m.after c) (c :: (f.reversed ++ text)) .start

/-- the characters that have a meaning of their own at the beginning of a token -/
def isIndicator (c : Char) : Bool :=
  isFlowMark c || c == '-' || c == '?' || c == ':' || c == '#' || c == '&' || c == '*' ||
    c == '!' || c == '|' || c == '>' || c == '%' || c == '@' || c == '"' || c == Char.ofNat 39 ||
    c == Char.ofNat 96

/-- whether a plain scalar may begin with a character.  A dash begins one before anything but a
blank, a question mark and a colon only outside of flow collections and before no gap. -/
def beginsPlain (flow : Bool) (c : Char) (cs : List Char) : Bool :=
  if c == '-' then !(cs.head?.map isSpace).getD false
  else if c == '?' || c == ':' then !flow && !atGap cs
  else !isGapChar c && !isIndicator c

/-! ## Quoted scalars -/

/-- reads the rest of a single-quoted scalar, in which a quote is written twice -/
def singleFrom : List Char → Mark → (text : List Char) → Fold → Read (List Char × Cursor)
  | [], _, _, _ => .error "found unexpected end of stream"
  | c :: cs, m, text, f =>
    if isGapChar c then singleFrom cs (m.after c) text (f.add c)
    else if atMark (c :: cs) m then .error "found unexpected document indicator"
    else
      let text := f.reversed ++ text
      if c == Char.ofNat 39 then
        match cs with
        | d :: ds =>
          if d == Char.ofNat 39 then singleFrom ds ((m.after c).after d) (d :: text) .start
          else .ok (text, ⟨cs, m.after c⟩)
        | [] => .ok (text, ⟨[], m.after c⟩)
      else singleFrom cs (m.after c) (c :: text) .start

/-- the character an escape letter stands for -/
def escaped? (c : Char) : Option Char :=
  if c == '0' then some (Char.ofNat 0)
  else if c == 'a' then some (Char.ofNat 7)
  else if c == 'b' then some (Char.ofNat 8)
  else if c == 't' || c == '\t' then some '\t'
  else if c == 'n' then some '\n'
  else if c == 'v' then some (Char.ofNat 11)
  else if c == 'f' then some (Char.ofNat 12)
  else if c == 'r' then some '\r'
  else if c == 'e' then some (Char.ofNat 27)
  else if c == ' ' || c == '"' || c == '\\' || c == Char.ofNat 39 then some c
  else if c == 'N' then some (Char.ofNat 0x85)
  else if c == '_' then some (Char.ofNat 0xA0)
  else if c == 'L' then some (Char.ofNat 0x2028)
  else if c == 'P' then some (Char.ofNat 0x2029)
  else none

/-- how many hexadecimal digits an escape letter takes -/
def escapeWidth? (c : Char) : Option Nat :=
  if c == 'x' then some 2 else if c == 'u' then some 4 else if c == 'U' then some 8 else none

def hexValue? (c : Char) : Option Nat :=
  let n := c.toNat
  if isAsciiDigit c then some (n - 48)
  else if 97 ≤ n && n ≤ 102 then some (n - 87)
  else if 65 ≤ n && n ≤ 70 then some (n - 55)
  else none

/-- where the reading of a double-quoted scalar stands -/
inductive Quoting where
  /-- in the text -/
  | text (fold : Fold)
  /-- after a backslash -/
  | escape
  /-- in a number of so many more digits -/
  | code (digits value : Nat)

def doubleFrom : List Char → Mark → (text : List Char) → Quoting → Read (List Char × Cursor)
  | [], _, _, _ => .error "found unexpected end of stream"
  | c :: cs, m, text, q =>
    match q with
    | .escape =>
      if isBreak c then doubleFrom cs (m.after c) text (.text (.joined []))
      else match escaped? c, escapeWidth? c with
        | some d, _ => doubleFrom cs (m.after c) (d :: text) (.text .start)
        | none, some w => doubleFrom cs (m.after c) text (.code w 0)
        | none, none => .error "found unknown escape character"
    | .code digits value =>
      match hexValue? c with
      | none => .error "did not find expected hexdecimal number"
      | some d =>
        let value := 16 * value + d
        if 1 < digits then doubleFrom cs (m.after c) text (.code (digits - 1) value)
        else if (0xD800 ≤ value && value ≤ 0xDFFF) || 0x10FFFF < value then
          .error "found invalid Unicode character escape code"
        else doubleFrom cs (m.after c) (Char.ofNat value :: text) (.text .start)
    | .text f =>
      if isGapChar c then doubleFrom cs (m.after c) text (.text (f.add c))
      else if atMark (c :: cs) m then .error "found unexpected document indicator"
      else if c == '"' then .ok (f.reversed ++ text, ⟨cs, m.after c⟩)
      else if c == '\\' then doubleFrom cs (m.after c) (f.reversed ++ text) .escape
      else doubleFrom cs (m.after c) (c :: (f.reversed ++ text)) (.text .start)

/-! ## Block scalars -/

/-- what happens to the line ends after the last line of a block scalar -/
inductive Chomping where
  /-- the first is kept -/
  | clip
  | strip
  | keep
  deriving DecidableEq

structure BlockStyle where
  /-- line ends are kept and not folded -/
  literal : Bool
  chomping : Chomping
  /-- the column the lines begin in; `none` if the first line gives it -/
  indent : Option Nat
  /-- the column the lines begin in at least -/
  least : Nat

/-- where the reading of a block scalar stands -/
structure BlockState where
  /-- the text in reverse -/
  text : List Char
  /-- the line end of the last line -/
  lineEnd : Option Char
  /-- the line ends of the empty lines after it, in reverse -/
  empty : List Char
  /-- the last line begins with a blank -/
  blank : Bool
  /-- the greatest column reached in the empty lines before the first line -/
  widest : Nat
  /-- inside a line, not in front of one -/
  inside : Bool

namespace BlockState

/-- joins the next line, which begins with a blank or not, to the lines before -/
def join (s : BlockState) (literal blank : Bool) : List Char :=
  let folded := !literal && !s.blank && !blank && s.lineEnd == some '\n'
  let between :=
    if folded then (if s.empty.isEmpty then [' '] else []) else s.lineEnd.toList
  s.empty ++ (between ++ s.text)

def finish (s : BlockState) (chomping : Chomping) : List Char :=
  match chomping with
  | .strip => s.text
  | .clip => s.lineEnd.toList ++ s.text
  | .keep => s.empty ++ (s.lineEnd.toList ++ s.text)

end BlockState

def blockFrom (style : BlockStyle) : Option Nat → List Char → Mark → BlockState →
    Read (List Char × Cursor)
  | _, [], m, s => .ok (s.finish style.chomping, ⟨[], m⟩)
  | indent, c :: cs, m, s =>
    if s.inside then
      if isBreak c then
        blockFrom style indent cs (m.after c)
          { s with lineEnd := some c, empty := [], inside := false }
      else blockFrom style indent cs (m.after c) { s with text := c :: s.text }
    else if isBreak c then
      blockFrom style indent cs (m.after c) { s with empty := c :: s.empty }
    else if isSpace c && (indent.map fun i => decide (m.column < i)).getD true then
      if c == '\t' then .error "found a tab character where an indentation space is expected"
      else blockFrom style indent cs (m.after c) { s with widest := max s.widest (m.column + 1) }
    else
      let column := indent.getD (max s.widest style.least)
      if m.column == column then
        blockFrom style (some column) cs (m.after c)
          { s with
            text := c :: s.join style.literal (isSpace c)
            lineEnd := none
            empty := []
            blank := isSpace c
            inside := true }
      else .ok (s.finish style.chomping, ⟨c :: cs, m⟩)

def Cursor.chomping (cur : Cursor) : Chomping × Cursor :=
  match cur.rest with
  | '+' :: _ => (.keep, cur.advance)
  | '-' :: _ => (.strip, cur.advance)
  | _ => (.clip, cur)

def Cursor.digit? (cur : Cursor) : Option Nat × Cursor :=
  match cur.rest with
  | c :: _ => if isAsciiDigit c then (some (c.toNat - 48), cur.advance) else (none, cur)
  | [] => (none, cur)

/-- reads a block scalar from behind its mark, inside a block of a given column.  A sign and a
digit may follow the mark, in any order, and then nothing but a comment. -/
def readBlock (literal : Bool) (outer : Int) (cur : Cursor) : Read (List Char × Cursor) :=
  let (before, cur) := cur.chomping
  let (digit, cur) := cur.digit?
  let (chomping, cur) := if before == .clip then cur.chomping else (before, cur)
  let cur := (cur.take isSpace).2.skipComment
  if digit == some 0 then .error "found an indentation indicator equal to 0"
  else match cur.rest with
    | [] => .ok ([], cur)
    | c :: cs =>
      if !isBreak c then .error "did not find expected comment or line break"
      else
        let style : BlockStyle :=
          { literal := literal
            chomping := chomping
            indent := digit.map fun d => if outer < 0 then d else outer.toNat + d
            least := max 1 (outer + 1).toNat }
        blockFrom style style.indent cs (cur.mark.after c) ⟨[], none, [], false, 0, false⟩

end Overloading.Yaml
