import Overloading.Fault

/-!
# Resumable computations

A computation acts on a world and may stop on the way: to wait for a line of input, or to hand
control back before it goes on.  What it shows next is a step: it is done, it has failed, it
awaits a line, or it has deferred the rest of its work.  A step carries the world as it was when
the computation stopped; to go on, the computation takes the world as it is then, so one
suspended step can be resumed more than once, in whatever world the earlier resumptions have
left.

Steps are finite on every path.  A computation that may go on for ever is a family of
computations, one for each depth to which it is unrolled (`Comp.idle` is the simplest); whoever
runs one stops after finitely many steps and sees the same at every greater depth.
-/

namespace Overloading

/-- what a computation shows next, and the world at that moment -/
inductive Step (σ α : Type) where
  | done (world : σ) (value : α)
  | fail (world : σ) (cause : Fault)
  /-- waits for a line of input -/
  | await (world : σ) (prompt : String) (resume : String → σ → Step σ α)
  /-- has more to do -/
  | defer (world : σ) (resume : σ → Step σ α)

instance {σ α : Type} [Inhabited σ] : Inhabited (Step σ α) := ⟨.fail default .canceled⟩

/-- a computation: from a world to the first step -/
abbrev Comp (σ α : Type) := σ → Step σ α

namespace Step

variable {σ α β γ : Type}

def world : Step σ α → σ
  | done w _ => w
  | fail w _ => w
  | await w _ _ => w
  | defer w _ => w

/-- whether the computation has come to its end -/
def isFinished : Step σ α → Bool
  | done .. | fail .. => true
  | await .. | defer .. => false

def pending? : Step σ α → Option String
  | await _ p _ => some p
  | _ => none

/-- the value or the cause of failure of a finished step -/
def result? : Step σ α → Option (Except Fault α)
  | done _ a => some (.ok a)
  | fail _ e => some (.error e)
  | _ => none

def andThen (s : Step σ α) (f : α → Comp σ β) : Step σ β :=
  match s with
  | done w a => f a w
  | fail w e => fail w e
  | await w p k => await w p fun line w' => (k line w').andThen f
  | defer w k => defer w fun w' => (k w').andThen f

@[simp] theorem andThen_done (w : σ) (a : α) (f : α → Comp σ β) :
    (done w a).andThen f = f a w := rfl

@[simp] theorem andThen_fail (w : σ) (e : Fault) (f : α → Comp σ β) :
    (fail w e).andThen f = fail w e := rfl

theorem andThen_pure (s : Step σ α) : s.andThen (fun a w => done w a) = s := by
  induction s with
  | done w a => rfl
  | fail w e => rfl
  | await w p k ih => simp only [andThen]; congr; funext line w'; exact ih line w'
  | defer w k ih => simp only [andThen]; congr; funext w'; exact ih w'

theorem andThen_assoc (s : Step σ α) (f : α → Comp σ β) (g : β → Comp σ γ) :
    (s.andThen f).andThen g = s.andThen fun a w => (f a w).andThen g := by
  induction s with
  | done w a => rfl
  | fail w e => rfl
  | await w p k ih => simp only [andThen]; congr; funext line w'; exact ih line w'
  | defer w k ih => simp only [andThen]; congr; funext w'; exact ih w'

end Step

namespace Comp

variable {σ α β : Type}

def done (a : α) : Comp σ α := fun w => .done w a

def fail (e : Fault) : Comp σ α := fun w => .fail w e

def await (prompt : String) (k : String → Comp σ α) : Comp σ α := fun w => .await w prompt k

def defer (c : Comp σ α) : Comp σ α := fun w => .defer w c

/-- hands control back so many times before it goes on -/
def deferTimes (c : Comp σ α) : Nat → Comp σ α
  | 0 => c
  | n + 1 => defer (deferTimes c n)

/-- hands control back over and over, to a given depth -/
def idle (depth : Nat) : Comp σ α := deferTimes (fail .tooDeep) depth

def andThen (c : Comp σ α) (f : α → Comp σ β) : Comp σ β := fun w => (c w).andThen f

def ofExcept : Except Fault α → Comp σ α
  | .ok a => done a
  | .error e => fail e

/-- applies a function that may fail to the value of a computation -/
def mapExcept (c : Comp σ α) (f : α → Except Fault β) : Comp σ β :=
  c.andThen fun a => ofExcept (f a)

def get : Comp σ σ := fun w => .done w w

def act (f : σ → α × σ) : Comp σ α := fun w => let (a, w) := f w; .done w a

end Comp

end Overloading
