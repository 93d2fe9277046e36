import Overloading.Computation
import Overloading.Log

/-!
# The world of a computation

Computations write log records and collect results in trays; what else they act on is up to them.

`Comp.each` runs a computation for each item of a list and collects the values.  It keeps them in
one tray of the world for as long as it goes on.  If one of its suspended steps is resumed twice,
both resumptions put their values into that tray, and the later one finds those of the earlier.
-/

namespace Overloading

/-- what computations act on: log records, trays of collected values, and a state of the host's -/
structure World (β τ : Type) where
  log : Array Record
  trays : Array (Array β)
  state : τ

namespace World

variable {β τ : Type}

def new (state : τ) : World β τ := ⟨#[], #[], state⟩

def note (w : World β τ) (rs : List Record) : World β τ :=
  { w with log := rs.foldl Array.push w.log }

def addTray (w : World β τ) : Nat × World β τ :=
  (w.trays.size, { w with trays := w.trays.push #[] })

def put (w : World β τ) (tray : Nat) (b : β) : World β τ :=
  { w with trays := w.trays.modify tray fun t => t.push b }

/-- the values in a tray, in the order they were put there -/
def contents (w : World β τ) (tray : Nat) : List β :=
  ((w.trays[tray]?).map Array.toList).getD []

end World

namespace Comp

variable {α β τ : Type}

def note (rs : List Record) : Comp (World β τ) Unit := fun w => .done (w.note rs) ()

/-- runs a computation for each item from the `i`-th on and puts the values into a tray -/
def eachFrom (f : Nat → α → Comp (World β τ) β) (tray : Nat) :
    Nat → List α → Comp (World β τ) (List β)
  | _, [], w => .done w (w.contents tray)
  | i, x :: xs, w =>
    match f i x w with
    | .done w b => eachFrom f tray (i + 1) xs (w.put tray b)
    | .fail w e => .fail w e
    | s => s.andThen fun b w => eachFrom f tray (i + 1) xs (w.put tray b)

/-- runs a computation for each item in order and collects the values -/
def each (items : List α) (f : Nat → α → Comp (World β τ) β) : Comp (World β τ) (List β) := fun w =>
  let (tray, w) := w.addTray
  eachFrom f tray 0 items w

theorem eachFrom_cons (f : Nat → α → Comp (World β τ) β) (tray i : Nat) (x : α) (xs : List α)
    (w : World β τ) :
    eachFrom f tray i (x :: xs) w =
      (f i x w).andThen fun b w => eachFrom f tray (i + 1) xs (w.put tray b) := by
  rw [eachFrom]
  cases f i x w <;> rfl

end Comp

end Overloading
