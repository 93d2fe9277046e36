import Overloading.Proofs.Sequencing

/-!
# Collecting values

`each` keeps the values of its items in a tray of the world.  In a single run nobody else has a hand
in that tray, and `each` is the chain of its items: one after the other, each value put behind
those before it.

* `Process.chain`       the items of a list one after another, the values handed on in a list;
* `withoutTrays`        what two worlds, and two runs, have in common if they differ in trays only;
* `Secluded`            a computation that leaves other trays than its own alone, and does not look
                        at them.  One of pure functions does (`secluded_built`), and so does one
                        that writes to the log or to the state of the host;
* `InTurn`              the items have come to their values, one after the other;
* `each_in_order`       a run of `each` is a run of the chain: it has one value for each item, or
                        stops with the first item that does.

The induction on the items carries the tray of `each` on the one side, and the list of the chain on
the other; `drive_andThen` cuts both runs at the value of an item.
-/

namespace Overloading

variable {α β γ ι τ σ : Type}

/-! ## Items one after another -/

namespace Process

/-- the items from the `i`-th on, each value put behind those that are there -/
def chainFrom (f : Nat → ι → σ → Process σ β) :
    Nat → List ι → List β → σ → Process σ (List β)
  | _, [], bs => done bs
  | i, x :: xs, bs => fun w => (f i x w).andThen fun b => chainFrom f (i + 1) xs (bs ++ [b])

/-- runs a process for each item, one after another, and appends the values -/
def chain (items : List ι) (f : Nat → ι → σ → Process σ β) : σ → Process σ (List β) :=
  chainFrom f 0 items []

theorem agree_eachFrom (f : Nat → ι → World β τ → Process (World β τ) β) (tray i : Nat)
    (xs : List ι) (w : World β τ) (d : Nat) :
    (Comp.eachFrom (fun i x w => (f i x w).upTo d) tray i xs w).AgreeTo d
      (Comp.eachFrom (fun i x w => (f i x w).upTo (d + 1)) tray i xs w) := by
  induction xs generalizing i w with
  | nil => exact .refl d _
  | cons x xs ih =>
    rw [Comp.eachFrom_cons, Comp.eachFrom_cons]
    exact ((f i x w).agree d).andThen fun b v => ih (i + 1) (v.put tray b)

/-- `Comp.eachFrom` for computations that may go on for ever -/
def eachFrom (f : Nat → ι → World β τ → Process (World β τ) β) (tray i : Nat) (xs : List ι)
    (w : World β τ) : Process (World β τ) (List β) :=
  ⟨fun d => Comp.eachFrom (fun i x w => (f i x w).upTo d) tray i xs w,
    fun d => agree_eachFrom f tray i xs w d⟩

/-- `Comp.each` for computations that may go on for ever -/
def each (items : List ι) (f : Nat → ι → World β τ → Process (World β τ) β) (w : World β τ) :
    Process (World β τ) (List β) :=
  ⟨fun d => Comp.each items (fun i x w => (f i x w).upTo d) w,
    fun d => agree_eachFrom f w.addTray.1 0 items w.addTray.2 d⟩

theorem each_eq (items : List ι) (f : Nat → ι → World β τ → Process (World β τ) β)
    (w : World β τ) : each items f w = eachFrom f w.trays.size 0 items w.addTray.2 := rfl

theorem eachFrom_cons (f : Nat → ι → World β τ → Process (World β τ) β) (tray i : Nat) (x : ι)
    (xs : List ι) (w : World β τ) : eachFrom f tray i (x :: xs) w =
      (f i x w).andThen fun b v => eachFrom f tray (i + 1) xs (v.put tray b) :=
  ext fun d => Comp.eachFrom_cons (fun i x w => (f i x w).upTo d) tray i x xs w

end Process

/-! ## Runs but for the trays -/

def World.withoutTrays (w : World β τ) : World β τ := { w with trays := #[] }

def Ran.withoutTrays (r : Ran (World β τ) α) : Ran (World β τ) α :=
  { r with world := r.world.withoutTrays }

namespace Driven

/-- where a run comes to, but for the trays of the world -/
def withoutTrays : Driven (World β τ) α → Driven (World β τ) α
  | arrived w a l => arrived w.withoutTrays a l
  | halted e w prompts => halted e w.withoutTrays prompts

theorem ran_withoutTrays (cancel : Option Nat) (o : Driven (World β τ) α) :
    (o.ran cancel).withoutTrays = o.withoutTrays.ran cancel := by
  cases o with
  | halted => rfl
  | arrived w a l =>
    rw [withoutTrays, ran, ran]
    split <;> rfl

/-- runs that are the same but for trays up to a value are so beyond it -/
theorem andThen_withoutTrays {o o' : Driven (World β τ) α}
    {f f' : α → World β τ → Standing → Driven (World β τ) γ}
    (h : o.withoutTrays = o'.withoutTrays)
    (hf : ∀ a w w' l, o = arrived w a l → w.withoutTrays = w'.withoutTrays →
      (f a w l).withoutTrays = (f' a w' l).withoutTrays) :
    (o.andThen f).withoutTrays = (o'.andThen f').withoutTrays := by
  cases o with
  | arrived w a l =>
    cases o' with
    | arrived w' a' l' =>
      obtain ⟨hw, rfl, rfl⟩ := arrived.inj h
      exact hf a w w' l rfl hw
    | halted => cases h
  | halted e w prompts =>
    cases o' with
    | arrived => cases h
    | halted e' w' prompts' =>
      obtain ⟨rfl, hw, rfl⟩ := halted.inj h
      exact congrArg (halted e · prompts) hw

end Driven

/-! ## Computations that leave other trays alone -/

/-- a computation runs alike whatever trays there are, and leaves those as they are -/
structure Secluded (c : World β τ → Process (World β τ) α) : Prop where
  blind : ∀ limit cancel l w w', w.withoutTrays = w'.withoutTrays →
    ((c w).drive limit cancel l).withoutTrays = ((c w').drive limit cancel l).withoutTrays
  keeps : ∀ limit cancel l w u a l', (c w).drive limit cancel l = .arrived u a l' →
    (w.frame 0).Holds u

theorem secluded_done (a : α) : Secluded (Process.done a : World β τ → Process _ α) := by
  refine ⟨fun limit cancel l w w' hw => ?_, fun limit cancel l w u b l' h => ?_⟩
  · show Driven.arrived w.withoutTrays a l = .arrived w'.withoutTrays a l
    rw [hw]
  · cases h
    exact Frame.holds_frame w 0

theorem secluded_andThen {c : World β τ → Process (World β τ) α}
    {f : α → World β τ → Process (World β τ) γ} (hc : Secluded c) (hf : ∀ a, Secluded (f a)) :
    Secluded fun w => (c w).andThen f := by
  refine ⟨fun limit cancel l w w' hw => ?_, fun limit cancel l w u b l' h => ?_⟩
  · rw [Process.drive_andThen, Process.drive_andThen]
    exact Driven.andThen_withoutTrays (hc.blind limit cancel l w w' hw)
      fun a v v' l' _ hv => (hf a).blind limit cancel l' v v' hv
  · rw [Process.drive_andThen] at h
    cases hdrive : (c w).drive limit cancel l with
    | halted =>
      rw [hdrive] at h
      cases h
    | arrived v a l'' =>
      rw [hdrive] at h
      exact (hc.keeps limit cancel l w v a l'' hdrive).trans
        ((hf a).keeps limit cancel l'' v u b l' h)

section Items

variable {f : Nat → ι → World β τ → Process (World β τ) β} {limit : Nat} {cancel : Option Nat}

theorem secluded_chainFrom (hf : ∀ i x, Secluded (f i x)) (i : Nat) (xs : List ι) (bs : List β) :
    Secluded (Process.chainFrom f i xs bs) := by
  induction xs generalizing i bs with
  | nil => exact secluded_done bs
  | cons x xs ih => exact secluded_andThen (hf i x) fun b => ih (i + 1) (bs ++ [b])

/-- **A tray is a list that is handed on**: the rest of an `each` is run like the rest of the chain
from the values in its tray. -/
theorem drive_eachFrom (hf : ∀ i x, Secluded (f i x)) {tray : Nat} (i : Nat) (xs : List ι)
    (bs : List β) (l : Standing) {w w' : World β τ} (hw : w.withoutTrays = w'.withoutTrays)
    (htray : tray < w.trays.size) (hbs : w.contents tray = bs) :
    ((Process.eachFrom f tray i xs w).drive limit cancel l).withoutTrays =
      ((Process.chainFrom f i xs bs w').drive limit cancel l).withoutTrays := by
  induction xs generalizing i bs l w w' with
  | nil =>
    show Driven.arrived w.withoutTrays (w.contents tray) l = .arrived w'.withoutTrays bs l
    rw [hw, hbs]
  | cons x xs ih =>
    rw [Process.eachFrom_cons, Process.drive_andThen, Process.chainFrom, Process.drive_andThen]
    refine Driven.andThen_withoutTrays ((hf i x).blind limit cancel l w w' hw) ?_
    intro b v v' l' hdrive hv
    have hkeeps := (hf i x).keeps limit cancel l w v b l' hdrive
    have hlt : tray < v.trays.size := Nat.lt_of_lt_of_le htray hkeeps.1
    have hcontents : v.contents tray = bs :=
      (World.contents_congr (hkeeps.2 tray (Nat.zero_le _) htray)).trans hbs
    refine ih (i + 1) (bs ++ [b]) l' hv ?_ ?_
    · rw [World.size_put]
      exact hlt
    · rw [World.contents_put hlt, hcontents]

theorem drive_each (hf : ∀ i x, Secluded (f i x)) (items : List ι) (l : Standing)
    (w : World β τ) : ((Process.each items f w).drive limit cancel l).withoutTrays =
      ((Process.chain items f w).drive limit cancel l).withoutTrays :=
  drive_eachFrom hf 0 items [] l rfl
    (Nat.lt_of_lt_of_eq (Nat.lt_succ_self _) (World.size_addTray w).symm)
    (World.contents_addTray w)

theorem keeps_eachFrom (hf : ∀ i x, Secluded (f i x)) {F : Frame β τ} (hlo : F.lo = 0)
    {tray : Nat} (htray : F.hi ≤ tray) (i : Nat) (xs : List ι) {l l' : Standing}
    {w u : World β τ} {bs : List β} (hw : F.Holds w)
    (h : (Process.eachFrom f tray i xs w).drive limit cancel l = .arrived u bs l') :
    F.Holds u := by
  induction xs generalizing i l w with
  | nil =>
    cases h
    exact hw
  | cons x xs ih =>
    rw [Process.eachFrom_cons, Process.drive_andThen] at h
    cases hdrive : (f i x w).drive limit cancel l with
    | halted =>
      rw [hdrive] at h
      cases h
    | arrived v b l'' =>
      rw [hdrive] at h
      have hkeeps := (hf i x).keeps limit cancel l w v b l'' hdrive
      exact ih (i + 1) ((hw.trans (hlo ▸ hkeeps)).put htray b) h

theorem secluded_each (hf : ∀ i x, Secluded (f i x)) (items : List ι) :
    Secluded (Process.each items f) := by
  refine ⟨fun limit cancel l w w' hw => ?_, fun limit cancel l w u bs l' h => ?_⟩
  · calc ((Process.each items f w).drive limit cancel l).withoutTrays
        = ((Process.chain items f w).drive limit cancel l).withoutTrays := drive_each hf items l w
      _ = ((Process.chain items f w').drive limit cancel l).withoutTrays :=
        (secluded_chainFrom hf 0 items []).blind limit cancel l w w' hw
      _ = ((Process.each items f w').drive limit cancel l).withoutTrays :=
        (drive_each hf items l w').symm
  · exact keeps_eachFrom hf (F := w.frame 0) rfl (Nat.le_refl _) 0 items
      (Frame.holds_frame w 0).addTray h

end Items

theorem secluded_after {c : World β τ → Process (World β τ) α} (hc : Secluded c)
    {write : World β τ → World β τ} (htrays : ∀ w, (write w).trays = w.trays)
    (hblind : ∀ w w', w.withoutTrays = w'.withoutTrays →
      (write w).withoutTrays = (write w').withoutTrays) : Secluded fun w => c (write w) := by
  refine ⟨fun limit cancel l w w' hw => ?_, fun limit cancel l w u a l' h => ?_⟩
  · exact hc.blind limit cancel l _ _ (hblind w w' hw)
  · have hkeeps := hc.keeps limit cancel l (write w) u a l' h
    unfold World.frame Frame.Holds at hkeeps ⊢
    dsimp only at hkeeps ⊢
    rw [htrays] at hkeeps
    exact hkeeps

/-! ## Computations of pure functions -/

/-- a computation that comes to its end on every path, as one that may not -/
def Comp.process (c : Comp σ α) (w : σ) : Process σ α := .ofStep (c w)

theorem secluded_fail (cause : Fault) :
    Secluded (Comp.process (Comp.fail cause : Comp (World β τ) α)) := by
  refine ⟨fun limit cancel l w w' hw => ?_, fun limit cancel l w u a l' h => ?_⟩
  · show (Step.drive limit cancel (.fail w cause) l).withoutTrays =
      (Step.drive limit cancel (.fail w' cause) l).withoutTrays
    rw [Step.drive, Step.drive]
    split
    · exact congrArg (Driven.halted _ · _) hw
    · exact congrArg (Driven.halted _ · _) hw
  · replace h : Step.drive limit cancel (.fail w cause) l = _ := h
    rw [Step.drive] at h
    split at h <;> cases h

theorem secluded_ofExcept (r : Except Fault α) :
    Secluded (Comp.process (Comp.ofExcept r : Comp (World β τ) α)) := by
  cases r with
  | ok a => exact secluded_done a
  | error cause => exact secluded_fail cause

theorem secluded_defer {c : Comp (World β τ) α} (hc : Secluded c.process) :
    Secluded (Comp.defer c).process := by
  refine ⟨fun limit cancel l w w' hw => ?_, fun limit cancel l w u a l' h => ?_⟩
  · show (Step.drive limit cancel (.defer w c) l).withoutTrays =
      (Step.drive limit cancel (.defer w' c) l).withoutTrays
    rw [Step.drive, Step.drive]
    split
    · exact congrArg (Driven.halted _ · _) hw
    split
    · exact congrArg (Driven.halted _ · _) hw
    · exact hc.blind limit cancel _ w w' hw
  · replace h : Step.drive limit cancel (.defer w c) l = _ := h
    rw [Step.drive] at h
    split at h
    · cases h
    split at h
    · cases h
    · exact hc.keeps limit cancel _ w u a l' h

theorem secluded_await (prompt : String) {k : String → Comp (World β τ) α}
    (hk : ∀ line, Secluded (k line).process) : Secluded (Comp.await prompt k).process := by
  refine ⟨fun limit cancel l w w' hw => ?_, fun limit cancel l w u a l' h => ?_⟩
  · show (Step.drive limit cancel (.await w prompt k) l).withoutTrays =
      (Step.drive limit cancel (.await w' prompt k) l).withoutTrays
    rw [Step.drive, Step.drive]
    split
    · exact congrArg (Driven.halted _ · _) hw
    cases l.host.answer prompt with
    | error e => exact congrArg (Driven.halted _ · _) hw
    | ok r =>
      exact (hk r.1).blind limit cancel _ _ _ (congrArg (World.note · [resumedRecord prompt]) hw)
  · replace h : Step.drive limit cancel (.await w prompt k) l = _ := h
    rw [Step.drive] at h
    split at h
    · cases h
    cases hans : l.host.answer prompt with
    | error e =>
      rw [hans] at h
      cases h
    | ok r =>
      rw [hans] at h
      exact (hk r.1).keeps limit cancel _ (w.note [resumedRecord prompt]) u a l' h

theorem secluded_built {e : Bool} {c : Comp (World β τ) α} (hc : Built e c) :
    Secluded c.process := by
  induction hc with
  | done a => exact secluded_done a
  | fail cause => exact secluded_fail cause
  | await prompt _ ih => exact secluded_await prompt ih
  | defer _ ih => exact secluded_defer ih
  | andThen _ _ ihc ihf => exact secluded_andThen ihc ihf
  | mapExcept _ f ih => exact secluded_andThen ih fun a => secluded_ofExcept (f a)
  | each _ items _ ih => exact secluded_each ih items

/-- a process may never end: it is enough that it is made of pure functions to every depth -/
theorem secluded_of_unrollings {c : World β τ → Process (World β τ) α}
    (hc : ∀ d, Secluded (Comp.process fun w => (c w).upTo d)) : Secluded c :=
  ⟨fun limit cancel l w w' hw => (hc (l.sight limit)).blind limit cancel l w w' hw,
    fun limit cancel l w u a l' h => (hc (l.sight limit)).keeps limit cancel l w u a l' h⟩

/-! ## Items in turn -/

/-- the items come to their values one after the other, each from where the last one stands -/
inductive InTurn (limit : Nat) (cancel : Option Nat)
    (f : Nat → ι → World β τ → Process (World β τ) β) :
    Nat → List ι → World β τ → Standing → List β → World β τ → Standing → Prop where
  | nil (i : Nat) (w : World β τ) (l : Standing) : InTurn limit cancel f i [] w l [] w l
  | cons {i : Nat} {x : ι} {xs : List ι} {w v u : World β τ} {l l' l'' : Standing} {b : β}
      {bs : List β} (h : (f i x w).drive limit cancel l = .arrived v b l')
      (hrest : InTurn limit cancel f (i + 1) xs v l' bs u l'') :
      InTurn limit cancel f i (x :: xs) w l (b :: bs) u l''

section InTurn

variable {f g : Nat → ι → World β τ → Process (World β τ) β} {limit : Nat} {cancel : Option Nat}
  {i : Nat} {xs : List ι} {w u : World β τ} {l l' : Standing} {bs : List β}

theorem InTurn.length_eq (h : InTurn limit cancel f i xs w l bs u l') : bs.length = xs.length := by
  induction h with
  | nil => rfl
  | cons _ _ ih => rw [List.length_cons, List.length_cons, ih]

variable (limit cancel) in
/-- the items come to their values, or one of them is the first that does not -/
theorem inTurn_or_halted (f : Nat → ι → World β τ → Process (World β τ) β) (i : Nat)
    (xs : List ι) (w : World β τ) (l : Standing) :
    (∃ bs u l', InTurn limit cancel f i xs w l bs u l') ∨
    ∃ front x back bs u l' e v prompts, xs = front ++ x :: back ∧
      InTurn limit cancel f i front w l bs u l' ∧
      (f (i + front.length) x u).drive limit cancel l' = .halted e v prompts := by
  induction xs generalizing i w l with
  | nil => exact .inl ⟨[], w, l, .nil i w l⟩
  | cons x xs ih =>
    cases hdrive : (f i x w).drive limit cancel l with
    | halted e v prompts => exact .inr ⟨[], x, xs, [], w, l, e, v, prompts, rfl, .nil i w l, hdrive⟩
    | arrived v b l' =>
      rcases ih (i + 1) v l' with ⟨bs, u, l'', h⟩ |
        ⟨front, y, back, bs, u, l'', e, v', prompts, rfl, h, hhalt⟩
      · exact .inl ⟨b :: bs, u, l'', .cons hdrive h⟩
      · have hlen : i + 1 + front.length = i + (front.length + 1) := by omega
        exact .inr ⟨x :: front, y, back, b :: bs, u, l'', e, v', prompts, rfl, .cons hdrive h,
          hlen ▸ hhalt⟩

theorem drive_chainFrom (h : InTurn limit cancel f i xs w l bs u l') (cs : List β)
    (back : List ι) : (Process.chainFrom f i (xs ++ back) cs w).drive limit cancel l =
      (Process.chainFrom f (i + xs.length) back (cs ++ bs) u).drive limit cancel l' := by
  induction h generalizing cs with
  | nil => rw [List.nil_append, List.append_nil]; rfl
  | @cons i x xs w v u l l' l'' b bs hdrive _ ih =>
    rw [List.cons_append, Process.chainFrom, Process.drive_andThen, hdrive]
    refine (ih (cs ++ [b])).trans ?_
    rw [List.append_assoc, List.singleton_append, List.length_cons, Nat.add_right_comm,
      Nat.add_assoc]

theorem eachFrom_congr (hf : ∀ i x, Secluded (f i x)) (h : InTurn limit cancel f i xs w l bs u l')
    {x : ι} (back : List ι) {e : Fault} {v : World β τ} {prompts : List String}
    (hhalt : (f (i + xs.length) x u).drive limit cancel l' = .halted e v prompts)
    (hg : ∀ j ≤ i + xs.length, g j = f j) (tray : Nat) {w' : World β τ}
    (hw : w.withoutTrays = w'.withoutTrays) :
    (Process.eachFrom g tray i (xs ++ x :: back) w').drive limit cancel l =
      (Process.eachFrom f tray i (xs ++ x :: back) w').drive limit cancel l := by
  induction h generalizing w' with
  | nil i w l =>
    rw [List.nil_append, Process.eachFrom_cons, Process.eachFrom_cons, Process.drive_andThen,
      Process.drive_andThen, hg i (Nat.le_add_right _ _)]
    have hblind := (hf i x).blind limit cancel l w w' hw
    rw [show (f i x w).drive limit cancel l = .halted e v prompts from hhalt] at hblind
    cases hdrive : (f i x w').drive limit cancel l with
    | halted => rfl
    | arrived =>
      rw [hdrive] at hblind
      cases hblind
  | @cons i y xs w v' u l l' l'' b bs hdrive _ ih =>
    rw [List.cons_append, Process.eachFrom_cons, Process.eachFrom_cons, Process.drive_andThen,
      Process.drive_andThen, hg i (Nat.le_add_right _ _)]
    have hblind := (hf i y).blind limit cancel l w w' hw
    rw [hdrive] at hblind
    cases hdrive' : (f i y w').drive limit cancel l with
    | halted => rfl
    | arrived v'' b' l''' =>
      rw [hdrive'] at hblind
      obtain ⟨hv, rfl, rfl⟩ := Driven.arrived.inj hblind
      have hlen : i + 1 + xs.length = i + (xs.length + 1) := by omega
      exact ih (by rw [hlen]; exact hhalt) (by rw [hlen]; exact hg) hv

end InTurn

/-! ## Calls -/

def Driven.world : Driven σ α → σ
  | arrived w _ _ => w
  | halted _ w _ => w

/-- a computation leaves the state of the host as it is -/
def Quiet (c : World β τ → Process (World β τ) α) : Prop :=
  ∀ limit cancel l w, ((c w).drive limit cancel l).world.state = w.state

theorem quiet_andThen {c : World β τ → Process (World β τ) α}
    {f : α → World β τ → Process (World β τ) γ} (hc : Quiet c) (hf : ∀ a, Quiet (f a)) :
    Quiet fun w => (c w).andThen f := by
  intro limit cancel l w
  have hfirst := hc limit cancel l w
  rw [Process.drive_andThen]
  cases hdrive : (c w).drive limit cancel l with
  | halted e v prompts =>
    rw [hdrive] at hfirst
    exact hfirst
  | arrived v a l' =>
    rw [hdrive] at hfirst
    exact (hf a limit cancel l' v).trans hfirst

theorem quiet_eachFrom {f : Nat → ι → World β τ → Process (World β τ) β}
    (hf : ∀ i x, Quiet (f i x)) (tray i : Nat) (xs : List ι) :
    Quiet (Process.eachFrom f tray i xs) := by
  induction xs generalizing i with
  | nil => exact fun _ _ _ _ => rfl
  | cons x xs ih =>
    intro limit cancel l w
    rw [Process.eachFrom_cons]
    exact quiet_andThen (hf i x)
      (fun b limit cancel l v => ih (i + 1) limit cancel l (v.put tray b)) limit cancel l w

theorem quiet_fail (cause : Fault) :
    Quiet (Comp.process (Comp.fail cause : Comp (World β τ) α)) := by
  intro limit cancel l w
  show (Step.drive limit cancel (.fail w cause) l).world.state = w.state
  rw [Step.drive]
  split <;> rfl

theorem quiet_ofExcept (r : Except Fault α) :
    Quiet (Comp.process (Comp.ofExcept r : Comp (World β τ) α)) := by
  cases r with
  | ok a => exact fun _ _ _ _ => rfl
  | error cause => exact quiet_fail cause

theorem quiet_built {e : Bool} {c : Comp (World β τ) α} (hc : Built e c) : Quiet c.process := by
  induction hc with
  | done a => exact fun _ _ _ _ => rfl
  | fail cause => exact quiet_fail cause
  | @await _ prompt k _ ih =>
    intro limit cancel l w
    show (Step.drive limit cancel (.await w prompt k) l).world.state = w.state
    rw [Step.drive]
    split
    · rfl
    cases l.host.answer prompt with
    | error e => rfl
    | ok r => exact ih r.1 limit cancel _ (w.note [resumedRecord prompt])
  | @defer _ c _ ih =>
    intro limit cancel l w
    show (Step.drive limit cancel (.defer w c) l).world.state = w.state
    rw [Step.drive]
    split
    · rfl
    split
    · rfl
    · exact ih limit cancel _ w
  | andThen _ _ ihc ihf => exact quiet_andThen ihc ihf
  | mapExcept _ f ih => exact quiet_andThen ih fun a => quiet_ofExcept (f a)
  | each _ items _ ih =>
    exact fun limit cancel l w => quiet_eachFrom ih w.addTray.1 0 items limit cancel l w.addTray.2

/-- a process for each item, with the numbers of the items it is called for in the state -/
def called (f : Nat → ι → World β (List Nat) → Process (World β (List Nat)) β) (i : Nat) (x : ι)
    (w : World β (List Nat)) : Process (World β (List Nat)) β :=
  f i x { w with state := w.state ++ [i] }

section Called

variable {f : Nat → ι → World β (List Nat) → Process (World β (List Nat)) β} {limit : Nat}
  {cancel : Option Nat}

theorem secluded_called (hf : ∀ i x, Secluded (f i x)) (i : Nat) (x : ι) :
    Secluded (called f i x) :=
  secluded_after (hf i x) (fun _ => rfl) fun _ _ hw =>
    congrArg (fun w : World β (List Nat) => { w with state := w.state ++ [i] }) hw

theorem world_called (hf : ∀ i x, Quiet (f i x)) (i : Nat) (x : ι) (w : World β (List Nat))
    (l : Standing) : ((called f i x w).drive limit cancel l).world.state = w.state ++ [i] :=
  hf i x limit cancel l _

theorem InTurn.calls (hf : ∀ i x, Quiet (f i x)) {i : Nat} {xs : List ι}
    {w u : World β (List Nat)} {l l' : Standing} {bs : List β}
    (h : InTurn limit cancel (called f) i xs w l bs u l') :
    u.state = w.state ++ List.range' i xs.length := by
  induction h with
  | nil => exact (List.append_nil _).symm
  | @cons i x xs w v u l l' l'' b bs hdrive _ ih =>
    have hcall : ((called f i x w).drive limit cancel l).world.state = w.state ++ [i] :=
      world_called hf i x w l
    rw [hdrive] at hcall
    rw [ih, show v.state = _ from hcall, List.length_cons, List.range'_succ, List.append_assoc]
    rfl

end Called

/-! ## The theorem -/

section Runs

variable {f : Nat → ι → World β τ → Process (World β τ) β} {limit : Nat} {cancel : Option Nat}

theorem ran_each (hf : ∀ i x, Secluded (f i x)) (items : List ι) (w : World β τ) (host : Host) :
    ((Process.each items f w).run host limit cancel).withoutTrays =
      ((Process.chain items f w).run host limit cancel).withoutTrays := by
  rw [Process.run_eq_drive, Process.run_eq_drive, Driven.ran_withoutTrays,
    Driven.ran_withoutTrays, drive_each hf]

variable (f limit cancel) in
theorem ran_chain (items : List ι) (w : World β τ) (host : Host) :
    (∃ bs u l, InTurn limit cancel f 0 items w (.start host) bs u l ∧
      (Process.chain items f w).run host limit cancel = (Driven.arrived u bs l).ran cancel) ∨
    ∃ front x back bs u l e v prompts, items = front ++ x :: back ∧
      InTurn limit cancel f 0 front w (.start host) bs u l ∧
      (f front.length x u).drive limit cancel l = .halted e v prompts ∧
      (Process.chain items f w).run host limit cancel = ⟨.error e, v, prompts⟩ := by
  rcases inTurn_or_halted limit cancel f 0 items w (.start host) with
    ⟨bs, u, l, h⟩ | ⟨front, x, back, bs, u, l, e, v, prompts, rfl, h, hhalt⟩
  · refine .inl ⟨bs, u, l, h, ?_⟩
    have hdrive := drive_chainFrom h [] []
    rw [List.append_nil, List.nil_append] at hdrive
    rw [Process.run_eq_drive, Process.chain, hdrive]
    rfl
  · rw [Nat.zero_add] at hhalt
    refine .inr ⟨front, x, back, bs, u, l, e, v, prompts, rfl, h, hhalt, ?_⟩
    rw [Process.run_eq_drive, Process.chain, drive_chainFrom h, Nat.zero_add, Process.chainFrom,
      Process.drive_andThen, hhalt]
    rfl

end Runs

/-- **`each` is ordered sequencing**: under every host, bound and cancellation its run is that of
the chain of the items, in the result, the prompts, the log and the state.  Either the items come to
their values one after the other, and it gives these, one for each item; or it stops as the first
item does that stops, and no later item has a part in the run.  The computations of the items may go
on for ever, but have to leave other trays than their own alone.  Those of pure functions do, and
they are called for each item in order, up to the one that stops. -/
theorem each_in_order (host : Host) (limit : Nat) (cancel : Option Nat) :
    (∀ f : Nat → ι → World β τ → Process (World β τ) β, (∀ i x, Secluded (f i x)) →
      ∀ (items : List ι) (w : World β τ),
        ((Process.each items f w).run host limit cancel).withoutTrays =
            ((Process.chain items f w).run host limit cancel).withoutTrays ∧
        ((∃ bs u l, InTurn limit cancel f 0 items w (.start host) bs u l ∧
            bs.length = items.length ∧
            ((Process.each items f w).run host limit cancel).withoutTrays =
              ((Driven.arrived u bs l).ran cancel).withoutTrays) ∨
          ∃ front x back bs u l e v prompts, items = front ++ x :: back ∧
            InTurn limit cancel f 0 front w (.start host) bs u l ∧
            (f front.length x u).drive limit cancel l = .halted e v prompts ∧
            ((Process.each items f w).run host limit cancel).withoutTrays =
              Ran.withoutTrays ⟨.error e, v, prompts⟩ ∧
            ∀ g : Nat → ι → World β τ → Process (World β τ) β,
              (∀ i ≤ front.length, g i = f i) →
                (Process.each items g w).run host limit cancel =
                  (Process.each items f w).run host limit cancel)) ∧
    (∀ (e : Bool) (c : World β τ → Process (World β τ) α),
      (∀ d, Built e fun w => (c w).upTo d) → Secluded c) ∧
    (∀ (e : Bool) (f : Nat → ι → World β (List Nat) → Process (World β (List Nat)) β),
      (∀ i x d, Built e fun w => (f i x w).upTo d) →
        (∀ i x, Secluded (called f i x)) ∧
        ∀ items w bs u l, InTurn limit cancel (called f) 0 items w (.start host) bs u l →
          u.state = w.state ++ List.range items.length ∧
          ∀ x e v prompts,
            (called f items.length x u).drive limit cancel l = .halted e v prompts →
              v.state = w.state ++ List.range (items.length + 1)) ∧
    ∀ (f : Nat → ι → Comp (World β τ) β) (items : List ι) (w : World β τ),
      (Process.each items (fun i x => (f i x).process) w).run host limit cancel =
        (Comp.each items f w).run host limit cancel := by
  have hpure : ∀ {τ α : Type} (e : Bool) (c : World β τ → Process (World β τ) α),
      (∀ d, Built e fun w => (c w).upTo d) → Secluded c ∧ Quiet c := fun e c hc =>
    ⟨secluded_of_unrollings fun d => secluded_built (hc d),
      fun limit cancel l w => quiet_built (hc (l.sight limit)) limit cancel l w⟩
  refine ⟨fun f hf items w => ⟨ran_each hf items w host, ?_⟩, fun e c hc => (hpure e c hc).1,
    fun e f hf => ⟨fun i x => ?_, fun items w bs u l h => ?_⟩, fun f items w => rfl⟩
  · rw [ran_each hf items w host]
    rcases ran_chain f limit cancel items w host with
      ⟨bs, u, l, h, hran⟩ | ⟨front, x, back, bs, u, l, e, v, prompts, rfl, h, hhalt, hran⟩
    · exact .inl ⟨bs, u, l, h, h.length_eq, by rw [hran]⟩
    · refine .inr ⟨front, x, back, bs, u, l, e, v, prompts, rfl, h, hhalt, by rw [hran],
        fun g hg => ?_⟩
      rw [← Nat.zero_add front.length] at hhalt hg
      have hsame := eachFrom_congr hf h back hhalt hg w.trays.size
        (show w.withoutTrays = w.addTray.2.withoutTrays from rfl)
      rw [Process.run_eq_drive, Process.run_eq_drive, Process.each_eq, Process.each_eq, hsame]
  · exact secluded_called (fun i x => (hpure e _ (hf i x)).1) i x
  · have hquiet : ∀ i x, Quiet (f i x) := fun i x => (hpure e _ (hf i x)).2
    have hcalls : u.state = w.state ++ List.range items.length := by
      rw [h.calls hquiet, List.range_eq_range']
    refine ⟨hcalls, fun x e v prompts hhalt => ?_⟩
    have hlast : ((called f items.length x u).drive limit cancel l).world.state =
        u.state ++ [items.length] := world_called hquiet items.length x u l
    rw [hhalt] at hlast
    rw [show v.state = _ from hlast, hcalls, List.range_succ, List.append_assoc]

/-- items of three sorts: one asks for a line and gives its length, one fails, one never ends -/
def itemOfSort (_ sort : Nat) (w : World Nat (List Nat)) : Process (World Nat (List Nat)) Nat :=
  match sort with
  | 0 => (Comp.await "line" fun line => Comp.done line.length).process w
  | 1 => (Comp.fail (.divisionByZero 1 "/")).process w
  | _ => .endless w

theorem built_idle (d : Nat) : Built true (Comp.idle d : Comp (World β τ) α) := by
  unfold Comp.idle
  induction d with
  | zero => exact .fail .tooDeep
  | succ d ih => exact .defer ih

theorem built_itemOfSort (i sort d : Nat) : Built true fun w => (itemOfSort i sort w).upTo d := by
  match sort with
  | 0 => exact .await "line" fun line => .done line.length
  | 1 => exact .fail _
  | _ + 2 => exact built_idle d

/-- two lines are read before the third item fails, and nothing is done for the fourth, which would
not end; in its place it would meet the bound -/
theorem each_in_order_failure :
    ((Process.each [0, 0, 1, 2] (called itemOfSort) (World.new [])).run (.script ["a", "bc"]) 2
        none).withoutTrays =
      ⟨.error (.divisionByZero 1 "/"),
        ⟨#[resumedRecord "line", resumedRecord "line"], #[], [0, 1, 2]⟩, ["line", "line"]⟩ ∧
    ((Process.each [0, 0, 2, 1] (called itemOfSort) (World.new [])).run (.script ["a", "bc"]) 2
        none).withoutTrays =
      ⟨.error (.iterationLimit 2),
        ⟨#[resumedRecord "line", resumedRecord "line"], #[], [0, 1, 2]⟩, ["line", "line"]⟩ := by
  have hsecluded := ((each_in_order (β := Nat) (τ := List Nat) (α := Nat) (ι := Nat)
    (.script ["a", "bc"]) 2 none).2.2.1 true itemOfSort built_itemOfSort).1
  have hrun := fun items => ((each_in_order (β := Nat) (τ := List Nat) (α := Nat)
    (.script ["a", "bc"]) 2 none).1 (called itemOfSort) hsecluded items (World.new [])).1
  exact ⟨(hrun _).trans rfl, (hrun _).trans rfl⟩

end Overloading
