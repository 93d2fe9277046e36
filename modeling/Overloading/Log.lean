import Overloading.Text.Quoted

/-!
# Log records

The engine tells what it does by log records: a level, a message and named values in a fixed
order.  Records are collected as values; who keeps them decides which levels to show and how.
-/

namespace Overloading

open Overloading.Text

inductive Level where
  | debug
  | warn
  deriving DecidableEq

def Level.name : Level → String
  | .debug => "DEBUG"
  | .warn => "WARN"

inductive Detail where
  | text (s : String)
  | flag (b : Bool)
  | count (n : Int)

def Detail.render : Detail → String
  | .text s => s
  | .flag b => if b then "true" else "false"
  | .count n => decimal n

structure Record where
  level : Level
  message : String
  details : List (String × Detail)

namespace Record

def debug (message : String) (details : List (String × Detail)) : Record :=
  ⟨.debug, message, details⟩

def warn (message : String) (details : List (String × Detail)) : Record :=
  ⟨.warn, message, details⟩

def pairs (r : Record) : List String := r.details.map fun d => d.1 ++ "=" ++ d.2.render

/-! ## Lines of text -/

/-- characters that force a value into quotes: blanks and controls, the quote and the equals
sign, and above U+007F whatever is not printable or is the replacement character -/
def needsQuotes (c : Char) : Bool :=
  let n := c.toNat
  if n < 128 then n ≤ 32 || n == 34 || n == 61
  else n == 0xFFFD || !isPrintable c

/-- a text as a line shows it: quoted if it is empty or needs it -/
def lineText (s : String) : String :=
  if s.isEmpty || s.toList.any needsQuotes then quote s else s

def lineValue : Detail → String
  | .text s => lineText s
  | d => d.render

def line (r : Record) : String :=
  "level=" ++ r.level.name ++ " msg=" ++ lineText r.message ++
    String.join (r.details.map fun d => " " ++ lineText d.1 ++ "=" ++ lineValue d.2) ++ "\n"

end Record

end Overloading
