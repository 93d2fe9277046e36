import Overloading.Fault.Code
import Overloading.Text.Letter

/-!
# Reports

A report is a fault as a front end shows it: a code with its wording, a source position once one
is known, and notes.  A position is attached at most once, and only a position with a positive
line counts as one.

Front ends pass reports on inside causes of their own.  The wording of such a wrapping is fixed
when it is made: a position that the report inside gets later does not show in it.
-/

namespace Overloading

open Overloading.Text

/-- a fault with its wording, source position and notes -/
structure Report where
  code : Code
  message : String
  line : Int
  column : Int
  notes : List String

namespace Report

def new (code : Code) (message : String) : Report := ⟨code, message, 0, 0, []⟩

/-- attaches a position, unless there is one or the given line is not positive -/
def locate (r : Report) (line column : Int) : Report :=
  if r.line = 0 ∧ 0 < line then { r with line := line, column := column } else r

def note (r : Report) (text : String) : Report := { r with notes := r.notes ++ [text] }

/-- the text of a report: position, code, wording, and one indented line for each note -/
def text (r : Report) : String :=
  (if 0 < r.line then decimal r.line ++ ":" ++ decimal r.column ++ ": " else "") ++
    r.code.id ++ ": " ++ r.message ++ String.join (r.notes.map fun n => "\n  " ++ n)

theorem locate_locate (r : Report) {l : Int} (c l' c' : Int) (h : 0 < l) :
    (r.locate l c).locate l' c' = r.locate l c := by
  unfold locate
  split
  · simp only
    rw [if_neg]
    intro hc
    omega
  · next h' =>
    split
    · next h'' => exact absurd ⟨h''.1, h⟩ h'
    · rfl

end Report

/-- what a front end passes on: a text of its own, a report, or either inside a wording -/
inductive Trouble where
  | plain (text : String)
  | report (r : Report)
  | wrapped (text : String) (cause : Trouble)

namespace Trouble

def text : Trouble → String
  | plain t => t
  | report r => r.text
  | wrapped t _ => t

/-- wraps a cause; its present text becomes part of the wording -/
def wrap (label : String) (cause : Trouble) : Trouble :=
  wrapped (label ++ ": " ++ cause.text) cause

def report? : Trouble → Option Report
  | plain _ => none
  | report r => some r
  | wrapped _ cause => cause.report?

/-- changes the report inside; the wordings around it stay -/
def mapReport (f : Report → Report) : Trouble → Trouble
  | plain t => plain t
  | report r => report (f r)
  | wrapped t cause => wrapped t (cause.mapReport f)

/-- whether the report inside has a given code -/
def hasCode (t : Trouble) (code : Code) : Bool :=
  match t.report? with
  | some r => decide (r.code = code)
  | none => false

end Trouble

end Overloading
