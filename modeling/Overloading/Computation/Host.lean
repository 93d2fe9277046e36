import Overloading.Computation.World

/-!
# Running computations

A host drives a step to its end by answering its prompts (`Step.run`), or pushes lines into
suspended steps itself (`Step.push`).  Either way the number of deferred steps in a row is
bounded, so that a computation that never stops is stopped.
-/

namespace Overloading

/-- how many deferred steps in a row are run unless configured otherwise -/
def defaultMaxYields : Nat := 65536

/-- the bound a configured number stands for: a number that is not positive means the default -/
def yieldLimit (n : Int) : Nat := if n ≤ 0 then defaultMaxYields else n.toNat

/-! ## Hosts -/

/-- who answers prompts: nobody, or a list of lines that ends in a fault -/
inductive Host where
  | absent
  | lines (answers : List String) (ending : String → Fault)

namespace Host

def script (answers : List String) : Host := .lines answers .scriptEnded

/-- the longest line a reader accepts has one byte less, its end included -/
def lineCapacity : Nat := 65536

/-- a line without a carriage return at its end -/
def dropReturn (cs : List Char) : List Char :=
  match cs.reverse with
  | '\r' :: rest => rest.reverse
  | _ => cs

/-- how much of a line fits: its characters up to its end, or `none` if it is too long -/
def takeLine : Nat → List Char → List Char → Option (List Char × Option (List Char))
  | _, acc, [] => some (acc.reverse, none)
  | room, acc, c :: cs =>
    if c == '\n' then some (acc.reverse, some cs)
    else if room ≤ c.utf8Size then none
    else takeLine (room - c.utf8Size) (c :: acc) cs

/-- what remains after a line is shorter than the text -/
theorem length_lt_of_takeLine {room : Nat} {acc cs line rest : List Char}
    (h : takeLine room acc cs = some (line, some rest)) : rest.length < cs.length := by
  induction cs generalizing room acc with
  | nil => simp [takeLine] at h
  | cons c cs ih =>
    rw [takeLine] at h
    split at h
    · simp only [Option.some.injEq, Prod.mk.injEq] at h
      rw [h.2]
      simp
    · split at h
      · simp at h
      · have := ih h
        simp only [List.length_cons]
        omega

/-- the lines of a text, and whether it is readable to its end: a line that is too long stops the
reading -/
def splitLines (cs : List Char) : List String × Bool :=
  match _h : takeLine lineCapacity [] cs with
  | none => ([], false)
  | some (line, none) =>
    (if line.isEmpty then [] else [String.ofList (dropReturn line)], true)
  | some (line, some rest) =>
    let (more, whole) := splitLines rest
    (String.ofList (dropReturn line) :: more, whole)
termination_by cs.length
decreasing_by exact length_lt_of_takeLine _h

/-- a host that answers with the lines of a text -/
def reader (text : String) : Host :=
  let (answers, whole) := splitLines text.toList
  .lines answers fun prompt =>
    if whole then .inputEnded prompt else .lineTooLong

/-- the answer to a prompt, and the host that is left -/
def answer (h : Host) (prompt : String) : Except Fault (String × Host) :=
  match h with
  | absent => .error (.noHost prompt)
  | lines [] ending => .error (ending prompt)
  | lines (a :: as) ending => .ok (a, lines as ending)

def isPresent : Host → Bool
  | absent => false
  | lines .. => true

end Host

/-! ## Running to the end -/

/-- the outcome of a run: the result, the world it left, and the prompts asked, in order -/
structure Ran (σ α : Type) where
  result : Except Fault α
  world : σ
  prompts : List String

/-- whether a run is cancelled once so many prompts have been asked -/
def cancelledAfter (cancel : Option Nat) (asked : Nat) : Bool :=
  match cancel with
  | none => false
  | some n => n ≤ asked

def resumedRecord (prompt : String) : Record := .debug "resumed" [("prompt", .text prompt)]

namespace Step

variable {α β τ σ : Type}

/-- drives a step to its end.  At most `limit` steps in a row may be deferred; cancellation is
noticed before each step, also before a finished one.  The deferred steps are counted without an
upper bound: a machine that counts them in a word does the same as long as `limit` is less than the
greatest word, which the count would have to pass. -/
def runFrom (limit : Nat) (cancel : Option Nat) :
    Step (World β τ) α → Host → (asked : List String) → (yields : Nat) → Ran (World β τ) α
  | done w a, _, asked, _ =>
    if cancelledAfter cancel asked.length then ⟨.error .canceled, w, asked.reverse⟩
    else ⟨.ok a, w, asked.reverse⟩
  | fail w e, _, asked, _ =>
    if cancelledAfter cancel asked.length then ⟨.error .canceled, w, asked.reverse⟩
    else ⟨.error e, w, asked.reverse⟩
  | defer w k, host, asked, yields =>
    if cancelledAfter cancel asked.length then ⟨.error .canceled, w, asked.reverse⟩
    else if limit ≤ yields then ⟨.error (.iterationLimit limit), w, asked.reverse⟩
    else runFrom limit cancel (k w) host asked (yields + 1)
  | await w prompt k, host, asked, _ =>
    if cancelledAfter cancel asked.length then ⟨.error .canceled, w, asked.reverse⟩
    else
      let asked := if host.isPresent then prompt :: asked else asked
      match host.answer prompt with
      | .error e => ⟨.error e, w, asked.reverse⟩
      | .ok (line, host) =>
        runFrom limit cancel (k line (w.note [resumedRecord prompt])) host asked 0

def run (s : Step (World β τ) α) (host : Host) (limit : Nat) (cancel : Option Nat) :
    Ran (World β τ) α :=
  runFrom limit cancel s host [] 0

/-! ## Pushing lines -/

/-- runs deferred steps up to the next suspension or the end; more than `limit` of them in a row
are a fault -/
def settle (limit : Nat) : Step σ α → (yields : Nat) → Step σ α
  | defer w k, yields =>
    if limit ≤ yields then fail w (.iterationLimit limit) else settle limit (k w) (yields + 1)
  | s, _ => s

/-- pushes a line into a step that awaits one, in the world as it is now, and runs up to the next
suspension or the end.  Any other step stays as it is. -/
def push (limit : Nat) (line : String) (w : σ) : Step σ α → Step σ α
  | await _ _ k => settle limit (k line w) 0
  | s => s

end Step

end Overloading
