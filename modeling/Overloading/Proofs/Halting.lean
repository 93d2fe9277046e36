import Mathlib.Logic.Relation
import Overloading.Proofs.Sequencing

/-!
# Runs come to an end

A computation may defer its work for ever, and it may await lines for ever.  What ends the run of
it is the script, which gets shorter with every answer, and the bound on the deferred steps in a
row, which are counted anew from every answer on.

* `Process.rest`, `Process.answered`   a process after one step;
* `Stage`, `Stage.Next`   where a run may stand, and where it stands one step later.  The bound has
                          no part in this: what a run does with it is read off the stages;
* `Step.counted`   a computation that counts the calls of what it hands out;
* `Step.caught`    a computation that gives its failures as values, so that a fault in which a run
                   of it ends is raised by the run itself;
* `runs_stop`      how many calls a run makes at most, and which faults it raises when.
-/

namespace Overloading

variable {α β τ σ : Type}

/-! ## One step of a process -/

namespace Step

def rest (w : σ) : Step σ α → Step σ α
  | defer _ k => k w
  | s => s

def answered (line : String) (w : σ) : Step σ α → Step σ α
  | await _ _ k => k line w
  | s => s

theorem AgreeTo.rest {d : Nat} {s s' : Step σ α} (h : AgreeTo (d + 1) s s') (w : σ) :
    AgreeTo d (s.rest w) (s'.rest w) := by
  cases h with
  | done w' a => exact .refl d _
  | fail w' e => exact .refl d _
  | await w' p h => exact (AgreeTo.await w' p h).mono (Nat.le_succ d)
  | defer w' h => exact h w

theorem AgreeTo.answered {d : Nat} {s s' : Step σ α} (h : AgreeTo (d + 1) s s') (line : String)
    (w : σ) : AgreeTo d (s.answered line w) (s'.answered line w) := by
  cases h with
  | done w' a => exact .refl d _
  | fail w' e => exact .refl d _
  | await w' p h => exact h line w
  | defer w' h => exact (AgreeTo.defer w' h).mono (Nat.le_succ d)

end Step

namespace Process

def first (p : Process σ α) : Step σ α := p.upTo 1

def rest (p : Process σ α) (w : σ) : Process σ α :=
  ⟨fun d => (p.upTo (d + 1)).rest w, fun d => (p.agree (d + 1)).rest w⟩

def answered (p : Process σ α) (line : String) (w : σ) : Process σ α :=
  ⟨fun d => (p.upTo (d + 1)).answered line w, fun d => (p.agree (d + 1)).answered line w⟩

variable {p : Process σ α}

theorem agreeTo_first (p : Process σ α) (d : Nat) : Step.AgreeTo 1 p.first (p.upTo (d + 1)) :=
  .unrolled p.agree (Nat.succ_pos d)

theorem upTo_of_first_defer {w : σ} {k : Comp σ α} (h : p.first = .defer w k) (d : Nat) :
    ∃ k', p.upTo (d + 1) = .defer w k' := by
  have hagree := p.agreeTo_first d
  rw [h] at hagree
  generalize p.upTo (d + 1) = s at hagree ⊢
  cases hagree with
  | defer => exact ⟨_, rfl⟩

theorem upTo_of_first_await {w : σ} {prompt : String} {k : String → Comp σ α}
    (h : p.first = .await w prompt k) (d : Nat) : ∃ k', p.upTo (d + 1) = .await w prompt k' := by
  have hagree := p.agreeTo_first d
  rw [h] at hagree
  generalize p.upTo (d + 1) = s at hagree ⊢
  cases hagree with
  | await => exact ⟨_, rfl⟩

theorem upTo_of_first_finished (h : p.first.isFinished = true) (d : Nat) :
    p.upTo (d + 1) = p.first := by
  have hagree := p.agreeTo_first d
  generalize p.first = s at h hagree ⊢
  generalize p.upTo (d + 1) = s' at hagree ⊢
  cases hagree with
  | done | fail => rfl
  | await | defer => cases h

end Process

/-! ## Counting calls -/

/-- how often lines have been handed in, and how often deferred work has been asked for -/
structure Calls where
  answers : Nat
  thunks : Nat

def World.tallied (w : World β τ) (c : Calls) : World β (τ × Calls) := ⟨w.log, w.trays, w.state, c⟩

def World.untallied (w : World β (τ × Calls)) : World β τ := ⟨w.log, w.trays, w.state.1⟩

def World.calls (w : World β (τ × Calls)) : Calls := w.state.2

namespace Step

/-- the same computation, which counts every call of what it hands out -/
def counted (c : Calls) : Step (World β τ) α → Step (World β (τ × Calls)) α
  | done w a => done (w.tallied c) a
  | fail w e => fail (w.tallied c) e
  | await w p k => await (w.tallied c) p fun line v =>
      (k line v.untallied).counted { v.calls with answers := v.calls.answers + 1 }
  | defer w k => defer (w.tallied c) fun v =>
      (k v.untallied).counted { v.calls with thunks := v.calls.thunks + 1 }

theorem AgreeTo.counted {d : Nat} {s s' : Step (World β τ) α} (h : AgreeTo d s s') (c : Calls) :
    AgreeTo d (s.counted c) (s'.counted c) := by
  induction h generalizing c with
  | cut => exact .cut _ _
  | done d w a => exact .done d _ a
  | fail d w e => exact .fail d _ e
  | await w p _ ih => exact .await _ p fun line v => ih line _ _
  | defer w _ ih => exact .defer _ fun v => ih _ _

theorem runFrom_defer {limit : Nat} (w : World β τ) (k : Comp (World β τ) α) (host : Host)
    (asked : List String) (yields : Nat) :
    (defer w k).runFrom limit none host asked yields =
      if limit ≤ yields then ⟨.error (.iterationLimit limit), w, asked.reverse⟩
      else (k w).runFrom limit none host asked (yields + 1) := by
  rw [runFrom]
  rfl

end Step

def Ran.untallied (ran : Ran (World β (τ × Calls)) α) : Ran (World β τ) α :=
  ⟨ran.result, ran.world.untallied, ran.prompts⟩

namespace Step

/-- the run with the count is the run without it, and makes as many calls as the lines and the
bound allow -/
theorem runFrom_counted {limit : Nat} (s : Step (World β τ) α) (c : Calls)
    (lines asked : List String) {yields : Nat} (hyields : yields ≤ limit) :
    ((s.counted c).runFrom limit none (.script lines) asked yields).untallied =
        s.runFrom limit none (.script lines) asked yields ∧
      ((s.counted c).runFrom limit none (.script lines) asked yields).world.calls.answers ≤
        c.answers + lines.length ∧
      ((s.counted c).runFrom limit none (.script lines) asked yields).world.calls.thunks ≤
        c.thunks + (lines.length * limit + (limit - yields)) := by
  induction s generalizing c lines asked yields with
  | done w a => exact ⟨rfl, Nat.le_add_right _ _, Nat.le_add_right _ _⟩
  | fail w e => exact ⟨rfl, Nat.le_add_right _ _, Nat.le_add_right _ _⟩
  | defer w k ih =>
    rw [counted, runFrom_defer, runFrom_defer]
    by_cases hlimit : limit ≤ yields
    · rw [if_pos hlimit, if_pos hlimit]
      exact ⟨rfl, Nat.le_add_right _ _, Nat.le_add_right _ _⟩
    · rw [if_neg hlimit, if_neg hlimit]
      obtain ⟨hran, hanswers, hthunks⟩ := ih w { c with thunks := c.thunks + 1 } lines asked
        (Nat.succ_le_of_lt (Nat.lt_of_not_le hlimit))
      refine ⟨hran, hanswers, Nat.le_trans hthunks ?_⟩
      dsimp only
      omega
  | await w prompt k ih =>
    cases lines with
    | nil => exact ⟨rfl, Nat.le_add_right _ _, Nat.le_add_right _ _⟩
    | cons line lines =>
      obtain ⟨hran, hanswers, hthunks⟩ := ih line (w.note [resumedRecord prompt])
        { c with answers := c.answers + 1 } lines (prompt :: asked) (Nat.zero_le limit)
      refine ⟨hran, Nat.le_trans hanswers ?_, Nat.le_trans hthunks ?_⟩
      · rw [List.length_cons]
        dsimp only
        omega
      · rw [List.length_cons, Nat.succ_mul]
        dsimp only
        omega

end Step

def Process.counted (p : Process (World β τ) α) : Process (World β (τ × Calls)) α :=
  ⟨fun d => (p.upTo d).counted ⟨0, 0⟩, fun d => (p.agree d).counted ⟨0, 0⟩⟩

/-! ## Catching failures -/

namespace Step

/-- the same computation, which gives its failures as values -/
def caught : Step σ α → Step σ (Except Fault α)
  | done w a => done w (.ok a)
  | fail w e => done w (.error e)
  | await w p k => await w p fun line v => (k line v).caught
  | defer w k => defer w fun v => (k v).caught

theorem AgreeTo.caught {d : Nat} {s s' : Step σ α} (h : AgreeTo d s s') :
    AgreeTo d s.caught s'.caught := by
  induction h with
  | cut => exact .cut _ _
  | done d w a => exact .done d w _
  | fail d w e => exact .done d w _
  | await w p _ ih => exact .await w p ih
  | defer w _ ih => exact .defer w ih

end Step

/-- the outcome of a run in which failures are values, with these as failures again -/
def Ran.released (ran : Ran σ (Except Fault α)) : Ran σ α :=
  ⟨ran.result.bind id, ran.world, ran.prompts⟩

theorem Step.runFrom_caught {limit : Nat} (s : Step (World β τ) α) (host : Host)
    (asked : List String) (yields : Nat) :
    (s.caught.runFrom limit none host asked yields).released =
      s.runFrom limit none host asked yields := by
  induction s generalizing host asked yields with
  | done w a => rfl
  | fail w e => rfl
  | defer w k ih =>
    rw [caught, runFrom_defer, runFrom_defer]
    by_cases hlimit : limit ≤ yields
    · rw [if_pos hlimit, if_pos hlimit]
      rfl
    · rw [if_neg hlimit, if_neg hlimit]
      exact ih w host asked (yields + 1)
  | await w prompt k ih =>
    rw [caught, runFrom, runFrom]
    cases hans : host.answer prompt with
    | error e => rfl
    | ok r => exact ih r.1 (w.note [resumedRecord prompt]) r.2 _ 0

namespace Process

def caught (p : Process σ α) : Process σ (Except Fault α) :=
  ⟨fun d => (p.upTo d).caught, fun d => (p.agree d).caught⟩

/-- the run of a process raises a fault of its own, that is, none in which the process fails -/
def Raises (p : Process (World β τ) α) (lines : List String) (m : Int) (code : Code) : Prop :=
  ∃ e, (p.caught.run (.script lines) (yieldLimit m) none).result = .error e ∧ e.code = some code

end Process

/-! ## The stages of a run -/

/-- where a run stands: what is left of the process and of the script, and how many deferred steps
in a row there have been -/
structure Stage (β τ α : Type) where
  process : Process (World β τ) α
  lines : List String
  yields : Nat

namespace Stage

/-- one step later deferred work has been done, or a prompt has been answered -/
inductive Next : Stage β τ α → Stage β τ α → Prop where
  | thunk {p : Process (World β τ) α} {w : World β τ} {k : Comp (World β τ) α}
      (h : p.first = .defer w k) (lines : List String) (yields : Nat) :
      Next ⟨p, lines, yields⟩ ⟨p.rest w, lines, yields + 1⟩
  | answer {p : Process (World β τ) α} {w : World β τ} {prompt : String}
      {k : String → Comp (World β τ) α} (h : p.first = .await w prompt k) (line : String)
      (lines : List String) (yields : Nat) :
      Next ⟨p, line :: lines, yields⟩ ⟨p.answered line (w.note [resumedRecord prompt]), lines, 0⟩

abbrev Leads : Stage β τ α → Stage β τ α → Prop := Relation.ReflTransGen Next

/-- there are more than so many deferred steps in a row: one more after as many -/
def Overruns (limit : Nat) (c : Stage β τ α) : Prop :=
  c.process.first.isDeferred = true ∧ limit ≤ c.yields

/-- a line is awaited, and there is none left -/
def Starves (prompt : String) (c : Stage β τ α) : Prop :=
  c.process.first.pending? = some prompt ∧ c.lines = []

/-- there is no step from a stage: the process is finished, or its prompt will not be answered -/
def Ends (c : Stage β τ α) : Prop :=
  c.process.first.isFinished = true ∨ ∃ prompt, c.Starves prompt

/-- a run goes no further from a stage -/
def Stops (limit : Nat) (c : Stage β τ α) : Prop := c.Ends ∨ c.Overruns limit

/-- where a run stands, with the prompts that have been asked -/
def standing (c : Stage β τ α) (asked : List String) : Standing :=
  ⟨.script c.lines, asked, c.yields⟩

variable {c c' c'' : Stage β τ α} {limit : Nat} {prompt : String}

theorem sight_standing (asked : List String) : (c.standing asked).sight limit =
    c.lines.length * (limit + 1) + (limit - c.yields) + 1 := rfl

theorem Next.unique (h : c.Next c') (h' : c.Next c'') : c' = c'' := by
  cases h with
  | thunk hp =>
    cases h' with
    | thunk hp' =>
      cases hp.symm.trans hp'
      rfl
    | answer hp' => cases hp.symm.trans hp'
  | answer hp =>
    cases h' with
    | thunk hp' => cases hp.symm.trans hp'
    | answer hp' =>
      cases hp.symm.trans hp'
      rfl

theorem Next.not_ends (h : c.Next c') : ¬ c.Ends := by
  unfold Ends Starves
  cases h with
  | thunk hp => simp [hp, Step.isFinished, Step.pending?]
  | answer hp => simp [hp, Step.isFinished]

theorem Ends.not_overruns (h : c.Ends) : ¬ c.Overruns limit := by
  rintro ⟨hdeferred, _⟩
  unfold Ends Starves at h
  cases hp : c.process.first with
  | done | fail | await => simp [hp, Step.isDeferred] at hdeferred
  | defer => simp [hp, Step.isFinished, Step.pending?] at h

theorem Ends.leads_iff (h : c.Ends) : c.Leads c' ↔ c' = c := by
  constructor
  · intro hleads
    rcases hleads.cases_head with heq | ⟨c₁, hnext, _⟩
    · exact heq.symm
    · exact absurd h hnext.not_ends
  · rintro rfl
    exact .refl

theorem Next.leads_iff (h : c.Next c') : c.Leads c'' ↔ c'' = c ∨ c'.Leads c'' := by
  constructor
  · intro hleads
    rcases hleads.cases_head with rfl | ⟨c₁, hnext, hrest⟩
    · exact .inl rfl
    · rw [h.unique hnext]
      exact .inr hrest
  · rintro (rfl | hrest)
    · exact .refl
    · exact hrest.head h

/-- from a stage at which a run does not stop, it goes on to one from which less can come -/
theorem exists_next (h : ¬ c.Stops limit) : ∃ c', c.Next c' ∧ ∀ asked asked',
    (c'.standing asked').sight limit < (c.standing asked).sight limit := by
  obtain ⟨p, lines, yields⟩ := c
  cases hp : p.first with
  | done w a => exact absurd (.inl (.inl (by simp only [hp]; rfl))) h
  | fail w e => exact absurd (.inl (.inl (by simp only [hp]; rfl))) h
  | defer w k =>
    have hlimit : ¬ limit ≤ yields := fun hle => h (.inr ⟨by simp only [hp]; rfl, hle⟩)
    refine ⟨_, .thunk hp lines yields, fun asked asked' => ?_⟩
    rw [sight_standing, sight_standing]
    dsimp only
    omega
  | await w prompt k =>
    cases lines with
    | nil => exact absurd (.inl (.inr ⟨prompt, by simp only [hp]; rfl, rfl⟩)) h
    | cons line lines =>
      refine ⟨_, .answer hp line lines yields, fun asked asked' => ?_⟩
      rw [sight_standing, sight_standing, List.length_cons, Nat.succ_mul]
      dsimp only
      omega

/-- what holds where a run stops, and of a stage if it holds of the next one, holds of every
stage -/
theorem induction_run (limit : Nat) {P : Stage β τ α → Prop} (stop : ∀ c, c.Stops limit → P c)
    (next : ∀ c c', ¬ c.Stops limit → c.Next c' → P c' → P c) (c : Stage β τ α) : P c := by
  generalize hn : (c.standing []).sight limit = n
  induction n using Nat.strongRecOn generalizing c with
  | _ n ih =>
    by_cases hstops : c.Stops limit
    · exact stop c hstops
    · obtain ⟨c', hnext, hlt⟩ := exists_next hstops
      exact next c c' hstops hnext (ih _ (hn ▸ hlt [] []) c' rfl)

end Stage

/-! ## Faults of a run -/

def Driven.fault? : Driven σ α → Option Fault
  | arrived .. => none
  | halted e .. => some e

theorem Driven.result_ran_eq_error {o : Driven σ α} {e : Fault} :
    (o.ran none).result = .error e ↔ o.fault? = some e := by
  cases o with
  | arrived w a l => exact ⟨nofun, nofun⟩
  | halted e' w prompts =>
    refine ⟨fun h => ?_, fun h => ?_⟩
    · cases h
      rfl
    · cases h
      rfl

namespace Stage

variable {c c' : Stage β τ α} {limit : Nat} {prompt : String}

/-- the fault that the run from a stage raises by itself -/
def fault? (limit : Nat) (c : Stage β τ α) (asked : List String) : Option Fault :=
  (c.process.caught.drive limit none (c.standing asked)).fault?

theorem fault?_eq {asked : List String} {d : Nat} (hd : (c.standing asked).sight limit ≤ d) :
    c.fault? limit asked =
      ((c.process.upTo d).caught.drive limit none (c.standing asked)).fault? := by
  rw [fault?, ← c.process.caught.drive_upTo hd]
  rfl

theorem fault?_of_isFinished (h : c.process.first.isFinished = true) (asked : List String) :
    c.fault? limit asked = none := by
  rw [fault?_eq (Nat.le_succ _), Process.upTo_of_first_finished h]
  generalize c.process.first = s at h ⊢
  cases s with
  | done | fail => rfl
  | await | defer => cases h

theorem fault?_of_overruns (h : c.Overruns limit) (asked : List String) :
    c.fault? limit asked = some (.iterationLimit limit) := by
  obtain ⟨hdeferred, hlimit⟩ := h
  cases hp : c.process.first with
  | done | fail | await =>
    rw [hp] at hdeferred
    cases hdeferred
  | defer w k =>
    obtain ⟨k', hupTo⟩ := Process.upTo_of_first_defer hp ((c.standing asked).sight limit)
    rw [fault?_eq (Nat.le_succ _), hupTo, Step.caught, Step.drive]
    show (if limit ≤ c.yields then _ else _ : Driven _ _).fault? = _
    rw [if_pos hlimit]
    rfl

theorem fault?_of_starves (h : c.Starves prompt) (asked : List String) :
    c.fault? limit asked = some (.scriptEnded prompt) := by
  obtain ⟨hpending, hlines⟩ := h
  cases hp : c.process.first with
  | done | fail | defer =>
    rw [hp] at hpending
    cases hpending
  | await w prompt' k =>
    rw [hp] at hpending
    cases hpending
    obtain ⟨k', hupTo⟩ := Process.upTo_of_first_await hp ((c.standing asked).sight limit)
    rw [fault?_eq (Nat.le_succ _), hupTo, Step.caught, Step.drive, standing, hlines]
    rfl

theorem fault?_thunk {p : Process (World β τ) α} {w : World β τ} {k : Comp (World β τ) α}
    (hp : p.first = .defer w k) {yields : Nat} (hlimit : ¬ limit ≤ yields)
    (lines asked : List String) :
    fault? limit ⟨p, lines, yields⟩ asked = fault? limit ⟨p.rest w, lines, yields + 1⟩ asked := by
  let d := lines.length * (limit + 1) + (limit - yields) + 1
  obtain ⟨k', hupTo⟩ := Process.upTo_of_first_defer hp d
  have hrest : (p.rest w).upTo d = k' w := congrArg (Step.rest w) hupTo
  have hd : (standing ⟨p, lines, yields⟩ asked).sight limit ≤ d + 1 := Nat.le_succ d
  have hd' : (standing ⟨p.rest w, lines, yields + 1⟩ asked).sight limit ≤ d := by
    rw [sight_standing]
    dsimp only [d]
    omega
  rw [fault?_eq hd, fault?_eq hd']
  dsimp only
  rw [hrest, hupTo, Step.caught, Step.drive]
  show (if limit ≤ yields then _ else _ : Driven _ _).fault? = _
  rw [if_neg hlimit]
  rfl

theorem fault?_answer {p : Process (World β τ) α} {w : World β τ}
    {k : String → Comp (World β τ) α} (hp : p.first = .await w prompt k) (line : String)
    (lines : List String) (yields : Nat) (asked : List String) :
    fault? limit ⟨p, line :: lines, yields⟩ asked =
      fault? limit ⟨p.answered line (w.note [resumedRecord prompt]), lines, 0⟩
        (prompt :: asked) := by
  let d := (lines.length + 1) * (limit + 1) + (limit - yields) + 1
  obtain ⟨k', hupTo⟩ := Process.upTo_of_first_await hp d
  have hrest : (p.answered line (w.note [resumedRecord prompt])).upTo d =
      k' line (w.note [resumedRecord prompt]) :=
    congrArg (Step.answered line (w.note [resumedRecord prompt])) hupTo
  have hd : (standing ⟨p, line :: lines, yields⟩ asked).sight limit ≤ d + 1 := Nat.le_succ d
  have hd' : (standing ⟨p.answered line (w.note [resumedRecord prompt]), lines, 0⟩
      (prompt :: asked)).sight limit ≤ d := by
    rw [sight_standing]
    dsimp only [d]
    rw [Nat.succ_mul]
    omega
  rw [fault?_eq hd, fault?_eq hd']
  dsimp only
  rw [hrest, hupTo, Step.caught, Step.drive]
  rfl

/-- the run from a stage goes on as the run from the next one -/
theorem exists_fault?_eq (hstops : ¬ c.Stops limit) (h : c.Next c') (asked : List String) :
    ∃ asked', c.fault? limit asked = c'.fault? limit asked' := by
  cases h with
  | thunk hp lines yields =>
    refine ⟨asked, fault?_thunk hp (fun hle => hstops (.inr ⟨?_, hle⟩)) lines asked⟩
    dsimp only
    rw [hp]
    rfl
  | answer hp line lines yields => exact ⟨_, fault?_answer hp line lines yields asked⟩

/-- **The bound** is what a run faults on exactly if there are too many deferred steps in a row at
some stage. -/
theorem fault?_eq_iterationLimit (c : Stage β τ α) (asked : List String) :
    c.fault? limit asked = some (.iterationLimit limit) ↔ ∃ c', c.Leads c' ∧ c'.Overruns limit := by
  induction c using induction_run limit generalizing asked with
  | stop c hstops =>
    rcases hstops with hends | hoverruns
    · simp only [hends.leads_iff, exists_eq_left, hends.not_overruns, iff_false]
      rcases hends with hfinished | ⟨prompt, hstarves⟩
      · simp [fault?_of_isFinished hfinished]
      · simp [fault?_of_starves hstarves]
    · exact iff_of_true (fault?_of_overruns hoverruns asked) ⟨c, .refl, hoverruns⟩
  | next c c' hstops hnext ih =>
    obtain ⟨asked', heq⟩ := exists_fault?_eq hstops hnext asked
    have hoverruns : ¬ c.Overruns limit := fun h => hstops (.inr h)
    rw [heq, ih]
    simp only [hnext.leads_iff, or_and_right, exists_or, exists_eq_left, hoverruns, false_or]

/-- **The end of the script** is what a run faults on exactly if a line is awaited at some stage
when there is none left, and the bound is kept up to there. -/
theorem fault?_eq_scriptEnded (c : Stage β τ α) (asked : List String) (prompt : String) :
    c.fault? limit asked = some (.scriptEnded prompt) ↔
      (∀ c', c.Leads c' → ¬ c'.Overruns limit) ∧ ∃ c', c.Leads c' ∧ c'.Starves prompt := by
  induction c using induction_run limit generalizing asked with
  | stop c hstops =>
    rcases hstops with hends | hoverruns
    · simp only [hends.leads_iff, forall_eq, exists_eq_left, hends.not_overruns, not_false_eq_true,
        true_and]
      rcases hends with hfinished | ⟨prompt', hstarves⟩
      · rw [fault?_of_isFinished hfinished]
        refine iff_of_false nofun fun h => ?_
        unfold Starves at h
        cases hp : c.process.first <;> simp [hp, Step.isFinished, Step.pending?] at hfinished h
      · rw [fault?_of_starves hstarves, Starves, hstarves.1]
        simp [hstarves.2]
    · refine iff_of_false ?_ fun h => h.1 c .refl hoverruns
      simp [fault?_of_overruns hoverruns]
  | next c c' hstops hnext ih =>
    obtain ⟨asked', heq⟩ := exists_fault?_eq hstops hnext asked
    have hoverruns : ¬ c.Overruns limit := fun h => hstops (.inr h)
    have hstarves : ¬ c.Starves prompt := fun h => hstops (.inl (.inr ⟨prompt, h⟩))
    rw [heq, ih]
    simp only [hnext.leads_iff, or_and_right, exists_or, exists_eq_left, or_imp, forall_and,
      forall_eq, hoverruns, not_false_eq_true, true_and, hstarves, false_or]

theorem eq_of_fault? (c : Stage β τ α) (asked : List String) {e : Fault}
    (h : c.fault? limit asked = some e) :
    e = .iterationLimit limit ∨ ∃ prompt, e = .scriptEnded prompt := by
  induction c using induction_run limit generalizing asked with
  | stop c hstops =>
    rcases hstops with (hfinished | ⟨prompt, hstarves⟩) | hoverruns
    · rw [fault?_of_isFinished hfinished] at h
      cases h
    · rw [fault?_of_starves hstarves] at h
      cases h
      exact .inr ⟨prompt, rfl⟩
    · rw [fault?_of_overruns hoverruns] at h
      cases h
      exact .inl rfl
  | next c c' hstops hnext ih =>
    obtain ⟨asked', heq⟩ := exists_fault?_eq hstops hnext asked
    exact ih asked' (heq ▸ h)

end Stage

/-! ## The bounds of a run -/

theorem Process.result_caught_run {p : Process (World β τ) α} {lines : List String} {limit : Nat}
    {e : Fault} : (p.caught.run (.script lines) limit none).result = .error e ↔
      Stage.fault? limit ⟨p, lines, 0⟩ [] = some e := by
  rw [Process.run_eq_drive]
  exact Driven.result_ran_eq_error

theorem Process.raises_iterationLimit_iff {p : Process (World β τ) α} {lines : List String}
    {m : Int} : p.Raises lines m .iterationLimit ↔
      ∃ c, Stage.Leads ⟨p, lines, 0⟩ c ∧ c.Overruns (yieldLimit m) := by
  rw [← Stage.fault?_eq_iterationLimit _ [], Raises]
  simp only [result_caught_run]
  constructor
  · rintro ⟨e, he, hcode⟩
    rcases Stage.eq_of_fault? _ _ he with rfl | ⟨prompt, rfl⟩
    · exact he
    · cases hcode
  · exact fun h => ⟨_, h, rfl⟩

theorem Process.raises_noInput_iff {p : Process (World β τ) α} {lines : List String} {m : Int} :
    p.Raises lines m .noInput ↔
      (∀ c, Stage.Leads ⟨p, lines, 0⟩ c → ¬ c.Overruns (yieldLimit m)) ∧
        ∃ c prompt, Stage.Leads ⟨p, lines, 0⟩ c ∧ c.Starves prompt := by
  rw [Raises]
  simp only [result_caught_run]
  constructor
  · rintro ⟨e, he, hcode⟩
    rcases Stage.eq_of_fault? _ _ he with rfl | ⟨prompt, rfl⟩
    · cases hcode
    · obtain ⟨hwithin, c, hleads, hstarves⟩ := (Stage.fault?_eq_scriptEnded _ _ _).mp he
      exact ⟨hwithin, c, prompt, hleads, hstarves⟩
  · rintro ⟨hwithin, c, prompt, hleads, hstarves⟩
    exact ⟨_, (Stage.fault?_eq_scriptEnded _ _ prompt).mpr ⟨hwithin, c, hleads, hstarves⟩, rfl⟩

/-- **Every run comes to its end**, also that of a process which defers its work or awaits lines for
ever: no unrolling that is deep enough is run in another way than the process.  With a script of so
many lines it hands in no more lines than there are, and asks for deferred work as often at most as
the bound allows before the first prompt and after each line.  The faults that it raises by itself
are two: the bound is not kept exactly if, from the start or some answer on, one deferred step more
than it allows comes in a row; and input is missing exactly if the bound is kept everywhere and a
line is awaited when all have been handed in. -/
theorem runs_stop (p : Process (World β τ) α) (lines : List String) (m : Int) :
    (∀ d, (lines.length + 1) * (yieldLimit m + 1) ≤ d →
      (p.upTo d).run (.script lines) (yieldLimit m) none =
        p.run (.script lines) (yieldLimit m) none) ∧
    ((p.counted.run (.script lines) (yieldLimit m) none).untallied =
        p.run (.script lines) (yieldLimit m) none ∧
      (p.counted.run (.script lines) (yieldLimit m) none).world.calls.answers ≤ lines.length ∧
      (p.counted.run (.script lines) (yieldLimit m) none).world.calls.thunks ≤
        (lines.length + 1) * yieldLimit m) ∧
    (p.caught.run (.script lines) (yieldLimit m) none).released =
      p.run (.script lines) (yieldLimit m) none ∧
    (p.Raises lines m .iterationLimit ↔
      ∃ c, Stage.Leads ⟨p, lines, 0⟩ c ∧ c.Overruns (yieldLimit m)) ∧
    (p.Raises lines m .noInput ↔
      (∀ c, Stage.Leads ⟨p, lines, 0⟩ c → ¬ c.Overruns (yieldLimit m)) ∧
        ∃ c prompt, Stage.Leads ⟨p, lines, 0⟩ c ∧ c.Starves prompt) := by
  refine ⟨fun d hd => p.run_upTo (Nat.le_trans (Nat.le_of_eq ?_) hd), ?_,
    Step.runFrom_caught _ _ _ _, Process.raises_iterationLimit_iff, Process.raises_noInput_iff⟩
  · rw [Nat.succ_mul]
    rfl
  · obtain ⟨hran, hanswers, hthunks⟩ := Step.runFrom_counted
      (p.upTo ((Standing.start (.script lines)).sight (yieldLimit m))) ⟨0, 0⟩ lines []
      (Nat.zero_le (yieldLimit m))
    refine ⟨hran, Nat.le_trans hanswers (Nat.le_of_eq (Nat.zero_add _)),
      Nat.le_trans hthunks (Nat.le_of_eq ?_)⟩
    rw [Nat.succ_mul, Nat.zero_add, Nat.sub_zero]

/-- three deferred steps in a row keep a bound of three; a process that defers its work for ever
does not -/
theorem runs_stop_endless :
    ((Process.ofStep (Comp.deferTimes (Comp.done 7) 3 (World.new ())) :
      Process (World Unit Unit) Nat).run (.script []) 3 none).result = .ok 7 ∧
    (Process.endless (World.new ()) : Process (World Unit Unit) Nat).Raises [] 3
      .iterationLimit := by
  let p : Process (World Unit Unit) Nat := .endless (World.new ())
  have hnext : ∀ n, Stage.Next ⟨p, [], n⟩ ⟨p, [], n + 1⟩ := fun n =>
    .thunk (w := World.new ()) (k := Comp.idle 0) rfl [] n
  have hleads : Stage.Leads ⟨p, [], 0⟩ ⟨p, [], 3⟩ :=
    .tail (.tail (.single (hnext 0)) (hnext 1)) (hnext 2)
  obtain ⟨-, -, -, hlimit, -⟩ := runs_stop p [] 3
  exact ⟨rfl, hlimit.mpr ⟨_, hleads, rfl, Nat.le_refl 3⟩⟩

end Overloading
