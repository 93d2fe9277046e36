import Overloading.Signature

/-!
# Stages

Work that is done in stages threads one context through all of them, in order.  Every stage
runs; one that has nothing to do gives the context back as it is.

A signature is compiled in two stages, which prepare and parse it.  `Compilation` is what they
hand on, and a stage does nothing once one before it has failed; `Grammar.compile` is the outcome
of the run.
-/

namespace Overloading

/-- threads a context through stages, in order -/
def runStages {γ : Type} (stages : List (γ → γ)) (context : γ) : γ :=
  stages.foldl (fun c stage => stage c) context

theorem runStages_nil {γ : Type} (c : γ) : runStages [] c = c := rfl

theorem runStages_cons {γ : Type} (s : γ → γ) (ss : List (γ → γ)) (c : γ) :
    runStages (s :: ss) c = runStages ss (s c) := rfl

theorem runStages_append {γ : Type} (ss ts : List (γ → γ)) (c : γ) :
    runStages (ss ++ ts) c = runStages ts (runStages ss c) := by
  simp [runStages]

/-! ## Compiling in stages -/

structure Compilation where
  source : List String
  start : Symbol
  strict : Bool
  body : Option Body
  root : Option Tree
  fault : Option Fault

namespace Compilation

def begun (src : List String) (start : Symbol) (strict : Bool) : Compilation :=
  ⟨src, start, strict, none, none, none⟩

/-- the signature, or the fault of the stage that failed -/
def outcome (c : Compilation) : Except Fault Signature :=
  match c.fault, c.body, c.root with
  | some f, _, _ => .error f
  | none, some b, some t => .ok ⟨c.source, b.declared, b.tokens, c.start, t⟩
  | none, _, _ => .error (.notASentence (" ".intercalate c.source) c.start)

end Compilation

namespace Grammar

/-- the stage that strips the declarators and numbers the wildcards -/
def prepareStage (g : Grammar) (c : Compilation) : Compilation :=
  if c.fault.isSome then c
  else match g.prepareBody c.source c.strict with
    | .ok b => { c with body := some b }
    | .error f => { c with fault := some f }

/-- the stage that parses what has been prepared -/
def parseStage (g : Grammar) (c : Compilation) : Compilation :=
  if c.fault.isSome then c
  else match c.body.bind fun b => g.parse b.tokens c.start with
    | some t => { c with root := some t }
    | none => { c with fault := some (.notASentence (" ".intercalate c.source) c.start) }

theorem prepareStage_of_fault {c : Compilation} (g : Grammar) (h : c.fault.isSome = true) :
    g.prepareStage c = c := if_pos h

theorem parseStage_of_fault {c : Compilation} (g : Grammar) (h : c.fault.isSome = true) :
    g.parseStage c = c := if_pos h

theorem compile_eq_runStages (g : Grammar) (src : List String) (start : Symbol) (strict : Bool) :
    g.compile src start strict
      = (runStages [g.prepareStage, g.parseStage] (.begun src start strict)).outcome := by
  rw [runStages_cons, runStages_cons, runStages_nil, compile, prepareStage]
  cases hb : g.prepareBody src strict with
  | error f => simp [Compilation.begun, hb, parseStage, Compilation.outcome, bind, Except.bind]
  | ok b =>
    cases ht : g.parse b.tokens start <;>
      simp [Compilation.begun, hb, ht, parseStage, Compilation.outcome, bind, Except.bind, pure,
        Except.pure, throw, throwThe, MonadExceptOf.throw]

end Grammar

end Overloading
