import Overloading.Proofs.Driving

/-!
# One computation after another

To go on with a second computation once the first has a value is to run the first one, and then the
second from where it left off: with the host that is left, the prompts asked so far, and the
deferred steps in a row counted so far.

* `Step.drive`      runs a step up to its value, and says where the run stands then;
* `Step.drive_andThen`   the run of two computations in a row, cut where the first one ends;
* `Process`         a step that may go on for ever, by its unrollings.  A run looks at one of them
                    only, and at no deeper one (`Standing.sight`);
* `sequencing_laws` grouping, and steps that are done already, do not show in any run.
-/

namespace Overloading

variable {α β γ δ τ σ : Type}

/-! ## Runs up to a value -/

/-- where a run stands between two steps: the host that is left, the prompts asked, the latest
first, and the deferred steps in a row -/
structure Standing where
  host : Host
  asked : List String
  yields : Nat

def Standing.start (host : Host) : Standing := ⟨host, [], 0⟩

/-- where a run comes to: to a value, or to its end without one -/
inductive Driven (σ α : Type) where
  | arrived (world : σ) (value : α) (standing : Standing)
  | halted (cause : Fault) (world : σ) (prompts : List String)

namespace Driven

def andThen (o : Driven σ α) (f : α → σ → Standing → Driven σ β) : Driven σ β :=
  match o with
  | arrived w a l => f a w l
  | halted e w prompts => halted e w prompts

/-- the outcome of a run that stops here; cancellation is noticed before a value is given out -/
def ran (cancel : Option Nat) : Driven σ α → Ran σ α
  | arrived w a l =>
    if cancelledAfter cancel l.asked.length then ⟨.error .canceled, w, l.asked.reverse⟩
    else ⟨.ok a, w, l.asked.reverse⟩
  | halted e w prompts => ⟨.error e, w, prompts⟩

end Driven

namespace Step

/-- drives a step up to its value -/
def drive (limit : Nat) (cancel : Option Nat) :
    Step (World β τ) α → Standing → Driven (World β τ) α
  | done w a, l => .arrived w a l
  | fail w e, l =>
    if cancelledAfter cancel l.asked.length then .halted .canceled w l.asked.reverse
    else .halted e w l.asked.reverse
  | defer w k, l =>
    if cancelledAfter cancel l.asked.length then .halted .canceled w l.asked.reverse
    else if limit ≤ l.yields then .halted (.iterationLimit limit) w l.asked.reverse
    else drive limit cancel (k w) { l with yields := l.yields + 1 }
  | await w prompt k, l =>
    if cancelledAfter cancel l.asked.length then .halted .canceled w l.asked.reverse
    else
      let asked := if l.host.isPresent then prompt :: l.asked else l.asked
      match l.host.answer prompt with
      | .error e => .halted e w asked.reverse
      | .ok (line, host) =>
        drive limit cancel (k line (w.note [resumedRecord prompt])) ⟨host, asked, 0⟩

variable {limit : Nat} {cancel : Option Nat}

theorem runFrom_eq_drive (s : Step (World β τ) α) (l : Standing) :
    s.runFrom limit cancel l.host l.asked l.yields = (s.drive limit cancel l).ran cancel := by
  induction s generalizing l with
  | done w a => rfl
  | fail w e =>
    rw [runFrom, drive]
    split <;> rfl
  | defer w k ih =>
    rw [runFrom, drive]
    split
    · rfl
    split
    · rfl
    · exact ih w { l with yields := l.yields + 1 }
  | await w prompt k ih =>
    rw [runFrom, drive]
    split
    · rfl
    cases l.host.answer prompt with
    | error e => rfl
    | ok r => exact ih r.1 (w.note [resumedRecord prompt]) ⟨r.2, _, 0⟩

theorem run_eq_drive (s : Step (World β τ) α) (host : Host) :
    s.run host limit cancel = (s.drive limit cancel (.start host)).ran cancel :=
  runFrom_eq_drive s (.start host)

/-- **The run of two computations in a row** is the run of the first up to its value, and of the
second from where the first one stands then; no deferred step is counted in between. -/
theorem drive_andThen (s : Step (World β τ) α) (f : α → Comp (World β τ) γ) (l : Standing) :
    (s.andThen f).drive limit cancel l =
      (s.drive limit cancel l).andThen fun a w l => (f a w).drive limit cancel l := by
  induction s generalizing l with
  | done w a => rfl
  | fail w e =>
    show drive limit cancel (fail w e) l = _
    rw [drive, drive]
    split <;> rfl
  | defer w k ih =>
    show drive limit cancel (defer w fun w' => (k w').andThen f) l = _
    rw [drive, drive]
    split
    · rfl
    split
    · rfl
    · exact ih w _
  | await w prompt k ih =>
    show drive limit cancel (await w prompt fun line w' => (k line w').andThen f) l = _
    rw [drive, drive]
    split
    · rfl
    cases l.host.answer prompt with
    | error e => rfl
    | ok r => exact ih r.1 _ _

end Step

/-! ## How deep a run looks -/

def Host.answersLeft : Host → Nat
  | absent => 0
  | lines answers _ => answers.length

/-- how many steps a run can take from where it stands, the one it stops at included -/
def Standing.sight (limit : Nat) (l : Standing) : Nat :=
  l.host.answersLeft * (limit + 1) + (limit - l.yields) + 1

theorem Host.answersLeft_answer {h h' : Host} {prompt line : String}
    (hans : h.answer prompt = .ok (line, h')) : h.answersLeft = h'.answersLeft + 1 := by
  cases h with
  | absent => cases hans
  | lines answers ending =>
    cases answers with
    | nil => cases hans
    | cons a as =>
      cases hans
      rfl

namespace Step.AgreeTo

theorem drive {limit d : Nat} (cancel : Option Nat) {s s' : Step (World β τ) α} {l : Standing}
    (h : AgreeTo d s s') (hd : l.sight limit ≤ d) :
    s.drive limit cancel l = s'.drive limit cancel l := by
  induction h generalizing l with
  | cut => exact absurd hd (Nat.not_succ_le_zero _)
  | done | fail => rfl
  | @await d w prompt k k' _ ih =>
    rw [Step.drive, Step.drive]
    split
    · rfl
    cases hans : l.host.answer prompt with
    | error e => rfl
    | ok r =>
      refine ih r.1 _ (l := ⟨r.2, _, 0⟩) ?_
      have hleft := Host.answersLeft_answer hans
      unfold Standing.sight at hd ⊢
      rw [hleft, Nat.succ_mul] at hd
      dsimp only
      omega
  | @defer d w k k' _ ih =>
    rw [Step.drive, Step.drive]
    split
    · rfl
    split
    · rfl
    next hlimit =>
    refine ih w (l := { l with yields := l.yields + 1 }) ?_
    unfold Standing.sight at hd ⊢
    dsimp only
    omega

theorem andThen {d : Nat} {s s' : Step σ α} {f f' : α → Comp σ γ} (h : AgreeTo d s s')
    (hf : ∀ a w, AgreeTo d (f a w) (f' a w)) : AgreeTo d (s.andThen f) (s'.andThen f') := by
  induction h with
  | cut => exact .cut _ _
  | done d w a => exact hf a w
  | fail d w cause => exact .fail d w cause
  | await w prompt _ ih =>
    exact .await w prompt fun line v => ih line v fun a w => (hf a w).mono (Nat.le_succ _)
  | defer w _ ih => exact .defer w fun v => ih v fun a w => (hf a w).mono (Nat.le_succ _)

end Step.AgreeTo

/-! ## Steps that may go on for ever -/

/-- a step that may go on for ever: its unrollings, each the same as the next to its own depth -/
structure Process (σ α : Type) where
  upTo : Nat → Step σ α
  agree : ∀ d, (upTo d).AgreeTo d (upTo (d + 1))

namespace Process

@[ext] theorem ext {p q : Process σ α} (h : ∀ d, p.upTo d = q.upTo d) : p = q := by
  obtain ⟨u, _⟩ := p
  obtain ⟨v, _⟩ := q
  obtain rfl : u = v := funext h
  rfl

/-- a step that comes to its end on every path -/
def ofStep (s : Step σ α) : Process σ α := ⟨fun _ => s, fun d => .refl d s⟩

def done (a : α) (w : σ) : Process σ α := ofStep (.done w a)

/-- a process that defers the rest of its work for ever -/
def endless (w : σ) : Process σ α := ⟨fun d => Comp.idle d w, fun d => agreeTo_idle d w⟩

def andThen (p : Process σ α) (f : α → σ → Process σ γ) : Process σ γ :=
  ⟨fun d => (p.upTo d).andThen fun a w => (f a w).upTo d,
    fun d => (p.agree d).andThen fun a w => (f a w).agree d⟩

theorem andThen_done (p : Process σ α) : p.andThen done = p :=
  ext fun d => Step.andThen_pure (p.upTo d)

theorem done_andThen (a : α) (w : σ) (f : α → σ → Process σ γ) : (done a w).andThen f = f a w :=
  rfl

theorem andThen_assoc (p : Process σ α) (f : α → σ → Process σ γ) (g : γ → σ → Process σ δ) :
    (p.andThen f).andThen g = p.andThen fun a w => (f a w).andThen g :=
  ext fun d => Step.andThen_assoc (p.upTo d) _ _

/-- drives a process up to its value, on the unrolling that is as deep as the run looks -/
def drive (limit : Nat) (cancel : Option Nat) (p : Process (World β τ) α) (l : Standing) :
    Driven (World β τ) α :=
  (p.upTo (l.sight limit)).drive limit cancel l

def run (p : Process (World β τ) α) (host : Host) (limit : Nat) (cancel : Option Nat) :
    Ran (World β τ) α :=
  (p.upTo ((Standing.start host).sight limit)).run host limit cancel

variable {limit : Nat} {cancel : Option Nat}

/-- a run does not tell an unrolling that is deep enough from the process -/
theorem drive_upTo (p : Process (World β τ) α) {l : Standing} {d : Nat} (h : l.sight limit ≤ d) :
    (p.upTo d).drive limit cancel l = p.drive limit cancel l :=
  ((Step.AgreeTo.unrolled p.agree h).drive cancel (Nat.le_refl _)).symm

theorem run_upTo (p : Process (World β τ) α) {host : Host} {d : Nat}
    (h : (Standing.start host).sight limit ≤ d) :
    (p.upTo d).run host limit cancel = p.run host limit cancel := by
  unfold run
  rw [Step.run_eq_drive, Step.run_eq_drive, p.drive_upTo h]
  rfl

theorem run_eq_drive (p : Process (World β τ) α) (host : Host) :
    p.run host limit cancel = (p.drive limit cancel (.start host)).ran cancel :=
  Step.run_eq_drive _ host

end Process

/-- a run never looks deeper from where it comes to than from where it began -/
theorem Step.sight_le_of_arrived {limit : Nat} {cancel : Option Nat} {s : Step (World β τ) α}
    {l l' : Standing} {w : World β τ} {a : α} (h : s.drive limit cancel l = .arrived w a l') :
    l'.sight limit ≤ l.sight limit := by
  induction s generalizing l with
  | done v b =>
    cases h
    exact Nat.le_refl _
  | fail v e =>
    rw [drive] at h
    split at h <;> cases h
  | defer v k ih =>
    rw [drive] at h
    split at h
    · cases h
    split at h
    · cases h
    refine Nat.le_trans (ih v h) ?_
    unfold Standing.sight
    dsimp only
    omega
  | await v prompt k ih =>
    rw [drive] at h
    split at h
    · cases h
    cases hans : l.host.answer prompt with
    | error e =>
      rw [hans] at h
      cases h
    | ok r =>
      rw [hans] at h
      refine Nat.le_trans (ih r.1 _ h) ?_
      have hleft := Host.answersLeft_answer hans
      unfold Standing.sight
      rw [hleft, Nat.succ_mul]
      dsimp only
      omega

/-- the run of two processes in a row is cut where the first one ends, too -/
theorem Process.drive_andThen {limit : Nat} {cancel : Option Nat} (p : Process (World β τ) α)
    (f : α → World β τ → Process (World β τ) γ) (l : Standing) :
    (p.andThen f).drive limit cancel l =
      (p.drive limit cancel l).andThen fun a w l => (f a w).drive limit cancel l := by
  refine (Step.drive_andThen (p.upTo (l.sight limit)) (fun a w => (f a w).upTo (l.sight limit))
    l).trans ?_
  show _ = ((p.upTo (l.sight limit)).drive limit cancel l).andThen _
  cases hp : (p.upTo (l.sight limit)).drive limit cancel l with
  | halted => rfl
  | arrived w a l' => exact (f a w).drive_upTo (Step.sight_le_of_arrived hp)

/-! ## The laws -/

/-- **The laws of sequencing**: under every host, bound and cancellation the run of a process is the
same, in its result, its prompts and the world it leaves, however a sequence is grouped, and with
or without a part that is done already.  This is so because the run of two processes in a row is
the run of the second from where the first one stands at its value, with the deferred steps in a
row counted by then: sequencing adds none and takes none away.  The run of a process is that of
each of its unrollings which is deep enough; steps that come to their ends are processes, run and
sequenced as such. -/
theorem sequencing_laws (host : Host) (limit : Nat) (cancel : Option Nat) :
    (∀ (p : Process (World β τ) α) (f : α → World β τ → Process (World β τ) γ)
      (g : γ → World β τ → Process (World β τ) δ),
      ((p.andThen f).andThen g).run host limit cancel =
        (p.andThen fun a w => (f a w).andThen g).run host limit cancel) ∧
    (∀ p : Process (World β τ) α,
      (p.andThen Process.done).run host limit cancel = p.run host limit cancel) ∧
    (∀ (a : α) (w : World β τ) (f : α → World β τ → Process (World β τ) γ),
      ((Process.done a w).andThen f).run host limit cancel = (f a w).run host limit cancel) ∧
    (∀ (p : Process (World β τ) α) (f : α → World β τ → Process (World β τ) γ),
      (p.andThen f).run host limit cancel =
        ((p.drive limit cancel (.start host)).andThen fun a w l =>
          (f a w).drive limit cancel l).ran cancel) ∧
    (∀ (p : Process (World β τ) α) (d : Nat), (Standing.start host).sight limit ≤ d →
      (p.upTo d).run host limit cancel = p.run host limit cancel) ∧
    (∀ s : Step (World β τ) α,
      (Process.ofStep s).run host limit cancel = s.run host limit cancel) ∧
    ∀ (s : Step (World β τ) α) (f : α → Comp (World β τ) γ),
      (Process.ofStep s).andThen (fun a w => .ofStep (f a w)) = .ofStep (s.andThen f) := by
  refine ⟨fun p f g => ?_, fun p => ?_, fun a w f => ?_, fun p f => ?_, fun p d hd => ?_,
    fun s => rfl, fun s f => rfl⟩
  · rw [Process.andThen_assoc]
  · rw [Process.andThen_done]
  · rw [Process.done_andThen]
  · rw [Process.run_eq_drive, Process.drive_andThen]
  · exact p.run_upTo hd

def pauses (n : Nat) (w : World Unit Unit) : Process (World Unit Unit) Nat :=
  .ofStep (Comp.deferTimes (Comp.done (n + 1)) 2 w)

/-- three pauses in a row are six deferred steps, grouped either way: a bound of six lets them
pass, one of five does not; and a process that never ends meets the bound at every depth -/
theorem sequencing_laws_pauses :
    ((((pauses 0 (World.new ())).andThen pauses).andThen pauses).run .absent 6 none).result =
      .ok 3 ∧
    ((((pauses 0 (World.new ())).andThen pauses).andThen pauses).run .absent 5 none).result =
      .error (.iterationLimit 5) ∧
    ((Process.endless (World.new ()) : Process (World Unit Unit) Nat).upTo 1000).run .absent 3
      none = ⟨.error (.iterationLimit 3), World.new (), []⟩ := by
  have hgroup := fun limit => (sequencing_laws .absent limit none).1 (pauses 0 (World.new ()))
    pauses pauses
  have hdeep := (sequencing_laws (α := Nat) (γ := Nat) (δ := Nat) (β := Unit) (τ := Unit)
    .absent 3 none).2.2.2.2.1 (.endless (World.new ())) 1000 (by decide)
  exact ⟨(congrArg Ran.result (hgroup 6)).trans rfl, (congrArg Ran.result (hgroup 5)).trans rfl,
    hdeep.trans rfl⟩

end Overloading
