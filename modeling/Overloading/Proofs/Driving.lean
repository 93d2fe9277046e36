import Overloading.Proofs.Sessions

/-!
# Driving a computation to its end and pushing lines into it

A host either runs a step with a script of lines, or pushes the lines one by one into the states
it gets back.  The two count deferred steps apart from each other, and a run writes records that
pushes do not.

* `Step.states`         the states of a computation into which lines are pushed in turn;
* `Step.SameButLog`     two steps that go on alike in worlds which differ in their logs at most;
* `logBlind_built`      a computation of pure functions does not read the log;
* `Step.AgreeTo`        two steps that are the same to a given depth; the unrollings of a
                        computation that never ends are;
* `pushes_and_runs_agree`   a run ends as the last state shows, and asks what the states await.

The bridge is `runFrom_settle`: a run that stands at deferred steps is a run of the settled step,
whatever the count of deferred steps is by then.
-/

namespace Overloading

variable {α β γ τ σ ι : Type}

/-! ## States -/

namespace Step

def isDeferred : Step σ α → Bool
  | defer .. => true
  | _ => false

/-- the states a step goes through when lines are pushed into it, the step itself first -/
def states : List (Nat × String) → Step σ α → List (Step σ α)
  | [], s => [s]
  | (limit, line) :: ls, s => s :: states ls (s.push limit line s.world)

theorem isDeferred_settle (limit yields : Nat) (s : Step σ α) :
    (s.settle limit yields).isDeferred = false := by
  induction s generalizing yields with
  | done | fail | await => rfl
  | defer w k ih =>
    rw [settle]
    by_cases h : limit ≤ yields
    · rw [if_pos h]
      rfl
    · rw [if_neg h]
      exact ih w (yields + 1)

theorem push_eq_self {s : Step σ α} (h : s.pending? = none) (limit : Nat) (line : String)
    (w : σ) : s.push limit line w = s := by
  cases s with
  | await => cases h
  | done | fail | defer => rfl

theorem states_eq_self {s : Step σ α} (h : s.pending? = none) (ls : List (Nat × String)) :
    s.feed ls = s ∧ (s.states ls).filterMap pending? = [] := by
  induction ls with
  | nil => exact ⟨rfl, List.filterMap_cons_none h⟩
  | cons l ls ih =>
    rw [feed, states, push_eq_self h, List.filterMap_cons_none h]
    exact ih

theorem runFrom_settle (limit : Nat) (s : Step (World β τ) α) (host : Host)
    (asked : List String) (yields n : Nat) :
    s.runFrom limit none host asked yields =
      (s.settle limit yields).runFrom limit none host asked n := by
  induction s generalizing yields with
  | done | fail | await => simp only [settle, runFrom]
  | defer w k ih =>
    rw [runFrom, settle]
    show (if limit ≤ yields then _ else _) = _
    by_cases h : limit ≤ yields
    · rw [if_pos h, if_pos h]
      rfl
    · rw [if_neg h, if_neg h]
      exact ih w (yields + 1)

end Step

/-! ## Worlds that differ in their logs -/

def World.SameButLog (w v : World β τ) : Prop := w.trays = v.trays ∧ w.state = v.state

namespace World.SameButLog

variable {w v : World β τ}

theorem refl (w : World β τ) : w.SameButLog w := ⟨rfl, rfl⟩

theorem note (h : w.SameButLog v) (rs : List Record) : w.SameButLog (v.note rs) := h

theorem put (h : w.SameButLog v) (t : Nat) (b : β) : (w.put t b).SameButLog (v.put t b) :=
  ⟨congrArg (fun x => x.modify t fun c => c.push b) h.1, h.2⟩

theorem addTray (h : w.SameButLog v) : w.addTray.2.SameButLog v.addTray.2 :=
  ⟨congrArg (fun x => x.push #[]) h.1, h.2⟩

theorem addTray_eq (h : w.SameButLog v) : w.addTray.1 = v.addTray.1 := congrArg Array.size h.1

theorem contents (h : w.SameButLog v) (t : Nat) : w.contents t = v.contents t :=
  World.contents_congr (congrArg (fun x => x[t]?) h.1)

end World.SameButLog

/-- two steps that show the same, and go on alike in worlds that differ in their logs at most -/
inductive Step.SameButLog : Step (World β τ) α → Step (World β τ) α → Prop where
  | done {w w' : World β τ} (hw : w.SameButLog w') (a : α) : SameButLog (.done w a) (.done w' a)
  | fail {w w' : World β τ} (hw : w.SameButLog w') (cause : Fault) :
      SameButLog (.fail w cause) (.fail w' cause)
  | await {w w' : World β τ} (hw : w.SameButLog w') (prompt : String)
      {k k' : String → Comp (World β τ) α}
      (h : ∀ line v v', v.SameButLog v' → SameButLog (k line v) (k' line v')) :
      SameButLog (.await w prompt k) (.await w' prompt k')
  | defer {w w' : World β τ} (hw : w.SameButLog w') {k k' : Comp (World β τ) α}
      (h : ∀ v v', v.SameButLog v' → SameButLog (k v) (k' v')) :
      SameButLog (.defer w k) (.defer w' k')

/-- the rest of the work does not read the log -/
def Step.LogBlind (s : Step (World β τ) α) : Prop := s.SameButLog s

def Comp.LogBlind (c : Comp (World β τ) α) : Prop :=
  ∀ w w', w.SameButLog w' → (c w).SameButLog (c w')

namespace Step.SameButLog

variable {s s' : Step (World β τ) α}

theorem settle (h : s.SameButLog s') (limit yields : Nat) :
    (s.settle limit yields).SameButLog (s'.settle limit yields) := by
  induction h generalizing yields with
  | done hw a => exact .done hw a
  | fail hw cause => exact .fail hw cause
  | await hw prompt h => exact .await hw prompt h
  | @defer w w' hw k k' h ih =>
    rw [Step.settle, Step.settle]
    by_cases hlimit : limit ≤ yields
    · rw [if_pos hlimit, if_pos hlimit]
      exact .fail hw _
    · rw [if_neg hlimit, if_neg hlimit]
      exact ih w w' hw (yields + 1)

theorem andThen {f f' : α → Comp (World β τ) γ} (h : s.SameButLog s')
    (hf : ∀ a w w', w.SameButLog w' → (f a w).SameButLog (f' a w')) :
    (s.andThen f).SameButLog (s'.andThen f') := by
  induction h with
  | done hw a => exact hf a _ _ hw
  | fail hw cause => exact .fail hw cause
  | await hw prompt _ ih => exact .await hw prompt ih
  | defer hw _ ih => exact .defer hw ih

end Step.SameButLog

theorem logBlind_eachFrom {f : Nat → γ → Comp (World β τ) β} (hf : ∀ i x, (f i x).LogBlind)
    (t i : Nat) (xs : List γ) : (Comp.eachFrom f t i xs).LogBlind := by
  induction xs generalizing i with
  | nil =>
    intro w w' hw
    show Step.SameButLog (.done w (w.contents t)) (.done w' (w'.contents t))
    rw [hw.contents t]
    exact .done hw _
  | cons x xs ih =>
    intro w w' hw
    rw [Comp.eachFrom_cons, Comp.eachFrom_cons]
    exact (hf i x w w' hw).andThen fun b v v' hv => ih (i + 1) _ _ (hv.put t b)

theorem logBlind_built {e : Bool} {c : Comp (World β τ) α} (hc : Built e c) : c.LogBlind := by
  induction hc with
  | done a => exact fun w w' hw => .done hw a
  | fail cause => exact fun w w' hw => .fail hw cause
  | await prompt _ ih => exact fun w w' hw => .await hw prompt ih
  | defer _ ih => exact fun w w' hw => .defer hw ih
  | andThen _ _ ihc ihf => exact fun w w' hw => (ihc w w' hw).andThen ihf
  | mapExcept _ f ih =>
    refine fun w w' hw => (ih w w' hw).andThen fun a v v' hv => ?_
    cases f a with
    | ok b => exact .done hv b
    | error cause => exact .fail hv cause
  | each _ items _ ih =>
    intro w w' hw
    show Step.SameButLog (Comp.eachFrom _ w.addTray.1 0 items w.addTray.2)
      (Comp.eachFrom _ w'.addTray.1 0 items w'.addTray.2)
    rw [hw.addTray_eq]
    exact logBlind_eachFrom ih _ 0 items _ _ hw.addTray

/-! ## A run ends as the last state shows -/

/-- a run has come to what a state shows: to its result if it is finished, and to the end of the
script if it awaits a line -/
structure Step.EndsAs (t : Step (World β τ) α) (ran : Ran (World β τ) α) : Prop where
  settled : t.isDeferred = false
  finished : ∀ r, t.result? = some r → ran.result = r
  pending : ∀ prompt, t.pending? = some prompt → ran.result = .error (.scriptEnded prompt)
  world : t.world.SameButLog ran.world

section

variable {s s' : Step (World β τ) α}

/-- a run of a finished step asks for nothing, and is all that pushes show -/
theorem runFrom_feed_finished (h : s.SameButLog s') (hs : s.isFinished = true) (limit : Nat)
    (host : Host) (asked : List String) (ls : List (Nat × String)) :
    (s.feed ls).EndsAs (s'.runFrom limit none host asked 0) ∧
      (s'.runFrom limit none host asked 0).prompts =
        asked.reverse ++ (s.states ls).filterMap Step.pending? := by
  cases h with
  | done hw a =>
    obtain ⟨hfeed, hnone⟩ := Step.states_eq_self (s := Step.done _ a) rfl ls
    rw [hfeed, hnone, List.append_nil]
    exact ⟨⟨rfl, fun r hr => Option.some.inj hr, nofun, hw⟩, rfl⟩
  | fail hw cause =>
    obtain ⟨hfeed, hnone⟩ := Step.states_eq_self (s := Step.fail _ cause) rfl ls
    rw [hfeed, hnone, List.append_nil]
    exact ⟨⟨rfl, fun r hr => Option.some.inj hr, nofun, hw⟩, rfl⟩
  | await => cases hs
  | defer => cases hs

theorem runFrom_feed (h : s.SameButLog s') (hs : s.isDeferred = false) (limit : Nat)
    (lines asked : List String) :
    (s.feed (lines.map fun l => (limit, l))).EndsAs
        (s'.runFrom limit none (.script lines) asked 0) ∧
      (s'.runFrom limit none (.script lines) asked 0).prompts = asked.reverse ++
        (s.states (lines.map fun l => (limit, l))).filterMap Step.pending? := by
  -- a push does what the run does from one answer to the next prompt
  induction lines generalizing s s' asked with
  | nil =>
    cases h with
    | done hw a => exact runFrom_feed_finished (.done hw a) rfl limit _ asked []
    | fail hw cause => exact runFrom_feed_finished (.fail hw cause) rfl limit _ asked []
    | defer => cases hs
    | await hw prompt hk =>
      refine ⟨⟨rfl, nofun, fun p hp => ?_, hw⟩, List.reverse_cons⟩
      cases hp
      rfl
  | cons line lines ih =>
    cases h with
    | done hw a => exact runFrom_feed_finished (.done hw a) rfl limit _ asked _
    | fail hw cause => exact runFrom_feed_finished (.fail hw cause) rfl limit _ asked _
    | defer => cases hs
    | @await w w' hw prompt k k' hk =>
      have hnext := (hk line w (w'.note [resumedRecord prompt]) (hw.note _)).settle limit 0
      have hrest := ih hnext (Step.isDeferred_settle limit 0 _) (prompt :: asked)
      rw [← Step.runFrom_settle] at hrest
      refine ⟨hrest.1, hrest.2.trans ?_⟩
      rw [List.reverse_cons, List.append_assoc]
      rfl

end

theorem Step.LogBlind.within {s : Step (World β τ) α} (h : s.LogBlind) (w : World β τ) :
    (s.within w).LogBlind := by
  cases h with
  | done _ a => exact .done (.refl w) a
  | fail _ cause => exact .fail (.refl w) cause
  | await _ prompt h => exact .await (.refl w) prompt h
  | defer _ h => exact .defer (.refl w) h

theorem Session.Of.logBlind {c : Comp (World β τ) α} {w : World β τ} {S : Session β τ α}
    (hS : Session.Of c w S) (hc : c.LogBlind) : ∀ s ∈ S.steps, s.LogBlind := by
  induction hS with
  | start =>
    intro s hs
    rw [List.mem_singleton.mp hs]
    exact hc w w (.refl w)
  | @push S _ s hs hp limit line ih =>
    intro t ht
    rcases List.mem_append.mp ht with ht | ht
    · exact ih t ht
    rw [List.mem_singleton.mp ht]
    have hblind : s.SameButLog s := ih s hs
    cases hblind with
    | done | fail | defer => cases hp
    | await _ prompt h => exact (h line _ _ (.refl S.world)).settle limit 0
  | run _ _ _ _ _ ih => exact ih

/-! ## Computations that never end -/

/-- two steps are the same down to a depth -/
inductive Step.AgreeTo : Nat → Step σ α → Step σ α → Prop where
  | cut (s s' : Step σ α) : AgreeTo 0 s s'
  | done (d : Nat) (w : σ) (a : α) : AgreeTo (d + 1) (.done w a) (.done w a)
  | fail (d : Nat) (w : σ) (cause : Fault) : AgreeTo (d + 1) (.fail w cause) (.fail w cause)
  | await {d : Nat} (w : σ) (prompt : String) {k k' : String → Comp σ α}
      (h : ∀ line v, AgreeTo d (k line v) (k' line v)) :
      AgreeTo (d + 1) (.await w prompt k) (.await w prompt k')
  | defer {d : Nat} (w : σ) {k k' : Comp σ α} (h : ∀ v, AgreeTo d (k v) (k' v)) :
      AgreeTo (d + 1) (.defer w k) (.defer w k')

namespace Step.AgreeTo

variable {d n : Nat} {s s' s'' : Step σ α}

theorem mono (h : AgreeTo n s s') (hd : d ≤ n) : AgreeTo d s s' := by
  induction h generalizing d with
  | cut s s' =>
    obtain rfl := Nat.le_zero.mp hd
    exact .cut s s'
  | done n w a => cases d with
    | zero => exact .cut _ _
    | succ d => exact .done d w a
  | fail n w cause => cases d with
    | zero => exact .cut _ _
    | succ d => exact .fail d w cause
  | await w prompt _ ih => cases d with
    | zero => exact .cut _ _
    | succ d => exact .await w prompt fun line v => ih line v (Nat.le_of_succ_le_succ hd)
  | defer w _ ih => cases d with
    | zero => exact .cut _ _
    | succ d => exact .defer w fun v => ih v (Nat.le_of_succ_le_succ hd)

theorem trans (h : AgreeTo d s s') (h' : AgreeTo d s' s'') : AgreeTo d s s'' := by
  induction h generalizing s'' with
  | cut => exact .cut _ _
  | done | fail => exact h'
  | await w prompt _ ih =>
    cases h' with
    | await _ _ h' => exact .await w prompt fun line v => ih line v (h' line v)
  | defer w _ ih =>
    cases h' with
    | defer _ h' => exact .defer w fun v => ih v (h' v)

/-- settling looks no deeper than the deferred steps it runs, and one step beyond -/
theorem settle {limit yields : Nat} (h : AgreeTo (d + 1 + (limit - yields)) s s') :
    AgreeTo (d + 1) (s.settle limit yields) (s'.settle limit yields) := by
  generalize hn : d + 1 + (limit - yields) = n at h
  induction h generalizing yields with
  | cut => omega
  | done n w a => exact .done d w a
  | fail n w cause => exact .fail d w cause
  | await w prompt h => exact mono (.await w prompt h) (by omega)
  | @defer n w k k' h ih =>
    rw [Step.settle, Step.settle]
    by_cases hlimit : limit ≤ yields
    · rw [if_pos hlimit, if_pos hlimit]
      exact .fail d w _
    · rw [if_neg hlimit, if_neg hlimit]
      exact ih w (by omega)

theorem refl (d : Nat) (s : Step σ α) : AgreeTo d s s := by
  induction s generalizing d with
  | done w a => cases d with
    | zero => exact .cut _ _
    | succ d => exact .done d w a
  | fail w cause => cases d with
    | zero => exact .cut _ _
    | succ d => exact .fail d w cause
  | await w prompt _ ih => cases d with
    | zero => exact .cut _ _
    | succ d => exact .await w prompt fun line v => ih line v d
  | defer w _ ih => cases d with
    | zero => exact .cut _ _
    | succ d => exact .defer w fun v => ih v d

/-- what is pushed into a step reaches no deeper than the lines and the bound allow -/
theorem feed {limit : Nat} (lines : List String)
    (h : AgreeTo (lines.length * (limit + 1) + (d + 1)) s s') :
    AgreeTo (d + 1) (s.feed (lines.map fun l => (limit, l)))
      (s'.feed (lines.map fun l => (limit, l))) := by
  induction lines generalizing s s' with
  | nil =>
    rw [List.length_nil, Nat.zero_mul, Nat.zero_add] at h
    exact h
  | cons line lines ih =>
    rw [List.length_cons, Nat.succ_mul] at h
    generalize hn : lines.length * (limit + 1) + (limit + 1) + (d + 1) = n at h
    refine ih ?_
    cases h with
    | cut => omega
    | done n w a => exact refl _ _
    | fail n w cause => exact refl _ _
    | defer w h => exact mono (.defer w h) (by omega)
    | await w prompt h =>
      exact settle (d := lines.length * (limit + 1) + d) (mono (h line w) (by omega))

theorem shown_eq (h : AgreeTo (d + 1) s s') : s.shown = s'.shown := by
  cases h <;> rfl

end Step.AgreeTo

/-- a run looks as deep as the lines and the bound allow, and no deeper -/
theorem Step.AgreeTo.runFrom {limit : Nat} {s s' : Step (World β τ) α} (lines asked : List String)
    (h : AgreeTo ((lines.length + 1) * (limit + 1)) s s') :
    s.runFrom limit none (.script lines) asked 0 =
      s'.runFrom limit none (.script lines) asked 0 := by
  induction lines generalizing s s' asked with
  | nil =>
    rw [List.length_nil, Nat.zero_add, Nat.one_mul] at h
    have hsettled : AgreeTo 1 (s.settle limit 0) (s'.settle limit 0) :=
      settle (d := 0) (mono h (by omega))
    have hs := isDeferred_settle limit 0 s
    rw [runFrom_settle limit s _ _ 0 0, runFrom_settle limit s' _ _ 0 0]
    generalize s.settle limit 0 = t at hsettled hs ⊢
    generalize s'.settle limit 0 = t' at hsettled ⊢
    cases hsettled with
    | done | fail | await => rfl
    | defer => cases hs
  | cons line lines ih =>
    rw [List.length_cons, Nat.succ_mul] at h
    have hsettled : AgreeTo ((lines.length + 1) * (limit + 1) + 1) (s.settle limit 0)
        (s'.settle limit 0) := settle (mono h (by omega))
    have hs := isDeferred_settle limit 0 s
    rw [runFrom_settle limit s _ _ 0 0, runFrom_settle limit s' _ _ 0 0]
    generalize s.settle limit 0 = t at hsettled hs ⊢
    generalize s'.settle limit 0 = t' at hsettled ⊢
    cases hsettled with
    | done | fail => rfl
    | defer => cases hs
    | await w prompt h => exact ih (prompt :: asked) (h line (w.note [resumedRecord prompt]))

theorem Step.AgreeTo.unrolled {F : Nat → Step σ α} (hF : ∀ d, AgreeTo d (F d) (F (d + 1)))
    {n d : Nat} (h : n ≤ d) : AgreeTo n (F n) (F d) := by
  induction h with
  | refl => exact refl n (F n)
  | @step d hd ih => exact ih.trans (mono (hF d) hd)

theorem agreeTo_idle (d : Nat) (w : σ) :
    (Comp.idle d w : Step σ α).AgreeTo d (Comp.idle (d + 1) w) := by
  induction d generalizing w with
  | zero => exact .cut _ _
  | succ d ih => exact .defer w ih

/-! ## Pushing and running -/

/-- lines that are pushed one after the other under one bound -/
def pushesWithin (limit : Nat) (lines : List String) : List (Nat × String) :=
  lines.map fun line => (limit, line)

/-- **A run of a script is the fold of its pushes**: from a step that is not deferred, the run ends
as the last state shows, in the same world but for the log, and has asked for what the states
await.  The rest of the work must not read the log: that of a computation of pure functions never
does, at whatever step of a session it stands.  A computation that never ends is known by its
unrollings, and neither the run nor the fold tells one that is deep enough from a deeper one. -/
theorem pushes_and_runs_agree (m : Int) (lines : List String) :
    (∀ s : Step (World β τ) α, s.LogBlind → s.isDeferred = false →
      (s.feed (pushesWithin (yieldLimit m) lines)).EndsAs
          (s.run (.script lines) (yieldLimit m) none) ∧
        (s.run (.script lines) (yieldLimit m) none).prompts =
          (s.states (pushesWithin (yieldLimit m) lines)).filterMap Step.pending?) ∧
    (∀ (e : Bool) (c : Comp (World β τ) α), Built e c → ∀ w S, Session.Of c w S →
      ∀ s ∈ S.steps, ∀ v, (s.within v).LogBlind) ∧
    ∀ F : Nat → Step (World β τ) α, (∀ d, (F d).AgreeTo d (F (d + 1))) →
      ∀ d, (lines.length + 1) * (yieldLimit m + 1) ≤ d →
        ((F d).feed (pushesWithin (yieldLimit m) lines)).shown =
            ((F ((lines.length + 1) * (yieldLimit m + 1))).feed
              (pushesWithin (yieldLimit m) lines)).shown ∧
          (F d).run (.script lines) (yieldLimit m) none =
            (F ((lines.length + 1) * (yieldLimit m + 1))).run (.script lines)
              (yieldLimit m) none := by
  refine ⟨fun s hs hdeferred => ?_, fun e c hc w S hS s hs v => ?_, fun F hF d hd => ?_⟩
  · exact runFrom_feed hs hdeferred (yieldLimit m) lines []
  · exact (hS.logBlind (logBlind_built hc) s hs).within v
  · have hagree := Step.AgreeTo.unrolled hF hd
    refine ⟨?_, (hagree.runFrom lines []).symm⟩
    rw [Nat.succ_mul] at hagree ⊢
    exact (Step.AgreeTo.shown_eq (Step.AgreeTo.feed (d := yieldLimit m) lines hagree)).symm

def echoAfter (n : Nat) : Comp (World Unit Unit) String :=
  Comp.await "line" fun line => Comp.deferTimes (Comp.done line) n

theorem built_echoAfter (n : Nat) : Built true (echoAfter n) := by
  refine .await "line" fun line => ?_
  induction n with
  | zero => exact .done line
  | succ n ih => exact .defer ih

/-- the bound is met exactly: two deferred steps in a row are run, a third is a fault, and so is
the end of the script; a step that defers for ever fails alike at every depth -/
theorem pushes_and_runs_agree_bound :
    ((echoAfter 2 (World.new ())).run (.script ["a"]) 2 none).result = .ok "a" ∧
    ((echoAfter 3 (World.new ())).run (.script ["a"]) 2 none).result =
      .error (.iterationLimit 2) ∧
    ((echoAfter 3 (World.new ())).run (.script []) 2 none).result =
      .error (.scriptEnded "line") ∧
    ((Comp.await (α := String) "line" (fun _ => Comp.idle 1000)
      (World.new () : World Unit Unit)).run (.script ["a"]) 2 none).result =
        .error (.iterationLimit 2) := by
  have hblind : ∀ n, (echoAfter n (World.new ())).LogBlind := fun n =>
    (pushes_and_runs_agree 2 []).2.1 true _ (built_echoAfter n) (World.new ()) _ .start _
      List.mem_cons_self (World.new ())
  have hrun := fun lines n => ((pushes_and_runs_agree 2 lines).1 _ (hblind n) rfl).1
  refine ⟨(hrun ["a"] 2).finished _ rfl, (hrun ["a"] 3).finished _ rfl,
    (hrun [] 3).pending _ rfl, ?_⟩
  have hdeep := (pushes_and_runs_agree 2 ["a"]).2.2
    (fun d => Comp.await (α := String) "line" (fun _ => Comp.idle d)
      (World.new () : World Unit Unit))
    (fun d => (Step.AgreeTo.await (World.new ()) "line" fun _ v => agreeTo_idle d v).mono
      (Nat.le_succ d)) 1000 (by decide)
  exact (congrArg Ran.result hdeep.2).trans rfl

end Overloading
