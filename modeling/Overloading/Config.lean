import Overloading.Arithmetic
import Overloading.Computation.Host
import Overloading.Match.Plan
import Overloading.Text.Blank
import Overloading.Yaml.Decode

/-!
# Configuration

Four settings: what happens when unsigned arithmetic overflows, whether wildcards have to be
first referred to in ascending order, the order in which casts are tried, and how many deferred
steps in a row are run.

The overflow policy is kept as the text it was given by.  `Overflow.ofText` accepts several
spellings, in any case and with blanks around; a configuration read from a document holds the
short one.
-/

namespace Overloading

open Overloading.Text

/-- what happens when unsigned arithmetic leaves its range -/
inductive Overflow where
  | error
  | warn
  | ignore
  deriving DecidableEq

namespace Overflow

def text : Overflow → String
  | error => "error"
  | warn => warnPolicy
  | ignore => ignorePolicy

/-- lower case where it is an ASCII letter: the letters of ASCII, the dotted capital I and the
sign of the kelvin -/
def lowerChar (c : Char) : Char :=
  if c.toNat == 0x130 then 'i' else if c.toNat == 0x212A then 'k' else Reading.lower c

def lowerText (s : String) : String := String.ofList (s.toList.map lowerChar)

def ofText (s : String) : Except Fault Overflow :=
  let t := lowerText (trim s)
  if t == "" || t == "error" then .ok error
  else if t == "warn" || t == "warn-and-wrap" then .ok warn
  else if t == "ignore" || t == "silently-wrap" then .ok ignore
  else .error (.unknownPolicy s)

end Overflow

structure Config where
  unsignedOverflow : String
  strictWildcards : Bool
  castOrder : List String
  maxYields : Int

namespace Config

/-- the names of the casts in the order they are tried unless configured otherwise -/
def defaultCastOrder : List String := Strategy.all.map Strategy.name

def default : Config := ⟨Overflow.error.text, true, defaultCastOrder, defaultMaxYields⟩

/-- every name is that of a cast and stands there once -/
def checkOrder : (seen : List String) → List String → Except Fault Unit
  | _, [] => .ok ()
  | seen, n :: ns =>
    if !defaultCastOrder.contains n then .error (.castOrderUnknown n)
    else if seen.contains n then .error (.castOrderTwice n)
    else checkOrder (n :: seen) ns

/-- whether the settings make sense: a known policy, no negative bound, each cast once -/
def validate (c : Config) : Except Fault Unit := do
  let _ ← Overflow.ofText c.unsignedOverflow
  if c.maxYields < 0 then
    throw (.negativeYields c.maxYields)
  if c.castOrder.length ≠ defaultCastOrder.length then
    throw (.castOrderLength defaultCastOrder.length c.castOrder.length)
  checkOrder [] c.castOrder

structure Raw where
  unsignedOverflow : String
  strictWildcards : Option Bool
  castOrder : List String
  maxYields : Int

def Raw.ofNode (n : Yaml.Node) : Yaml.Read Raw := do
  let fs ← n.fields?
  let policy ← Yaml.field fs "unsigned_overflow" Yaml.Node.text? none
  let strict ← Yaml.field fs "strict_wildcards" Yaml.Node.bool? none
  let order ← Yaml.field fs "cast_order" Yaml.Node.texts? []
  let yields ← Yaml.field fs "max_yields" Yaml.Node.int? none
  return ⟨policy.getD "", strict, order, yields.getD 0⟩

/-- puts a failure into words that begin with a label -/
def labelled {α : Type} (label : String) (r : Except Fault α) : Except Fault α :=
  r.mapError fun e => .within label e

/-- a document read by one of the readers of records -/
def readDocument {α : Type} (label text : String) (read : Yaml.Node → Yaml.Read α) :
    Except Fault α :=
  match (Yaml.parse text).bind read with
  | .ok a => .ok a
  | .error e => .error (.within label (.document e))

/-- reads the settings from a text; what it does not give keeps its default.  The path is used in
messages only. -/
def parse (text path : String) : Except Fault Config := do
  let raw ← readDocument ("parsing config " ++ path) text Raw.ofNode
  let policy ← labelled (path ++ ": unsigned_overflow") (Overflow.ofText raw.unsignedOverflow)
  let c : Config :=
    { unsignedOverflow := policy.text
      strictWildcards := raw.strictWildcards.getD default.strictWildcards
      castOrder := if raw.castOrder.isEmpty then default.castOrder else raw.castOrder
      maxYields := if raw.maxYields = 0 then default.maxYields else raw.maxYields }
  labelled path c.validate
  return c

end Config

end Overloading
