import Overloading.Proofs.Resumption

/-!
# Sessions

A host may keep every step it has seen of a computation and resume or run any of them again.

* `Session.Of c w`   the sessions with `c`, started in `w`: all orders of pushing lines into the
                     steps seen so far and of running them;
* `Step.Unaffected`  in a given world a step goes on as it did when it had just stopped;
* `Lasting e Q`      `Q` holds of what is left to do at every stop, wherever it is resumed;
* `resumption_law`   without `each` no step of a session is ever affected by what else is resumed;
                     with `each` none is whose own trays are as they were, and a step of an `each`
                     itself is affected just if its tray is not and it comes to a list.
-/

namespace Overloading

variable {α β γ τ σ : Type}

/-! ## What a host sees -/

namespace Step

/-- the step, to be resumed in a given world -/
def within (w : σ) : Step σ α → Step σ α
  | done _ a => done w a
  | fail _ e => fail w e
  | await _ p k => await w p k
  | defer _ k => defer w k

/-- whether the step is finished, what it awaits, and its result -/
def shown (s : Step σ α) : Bool × Option String × Option (Except Fault α) :=
  (s.isFinished, s.pending?, s.result?)

/-- pushes lines, each within its limit and in the world that the last one left -/
def feed : List (Nat × String) → Step σ α → Step σ α
  | [], s => s
  | (limit, line) :: ls, s => feed ls (s.push limit line s.world)

/-- in a given world the step goes on as in the world it stopped in, pushed or run -/
structure Unaffected (s : Step (World β τ) α) (w : World β τ) : Prop where
  resumed : ∀ (limit : Nat) (line : String) (ls : List (Nat × String)),
    ((s.push limit line w).feed ls).shown = ((s.push limit line s.world).feed ls).shown
  ran : ∀ (host : Host) (limit : Nat) (cancel : Option Nat),
    ((s.within w).run host limit cancel).result = (s.run host limit cancel).result ∧
      ((s.within w).run host limit cancel).prompts = (s.run host limit cancel).prompts

@[simp] theorem world_within (w : σ) (s : Step σ α) : (s.within w).world = w := by
  cases s <;> rfl

end Step

/-- the steps a host has seen of a computation, and the world as it is now -/
structure Session (β τ α : Type) where
  steps : List (Step (World β τ) α)
  world : World β τ

namespace Session

def push (S : Session β τ α) (s : Step (World β τ) α) (limit : Nat) (line : String) :
    Session β τ α :=
  let t := s.push limit line S.world
  ⟨S.steps ++ [t], t.world⟩

def run (S : Session β τ α) (s : Step (World β τ) α) (host : Host) (limit : Nat)
    (cancel : Option Nat) : Session β τ α :=
  ⟨S.steps, ((s.within S.world).run host limit cancel).world⟩

/-- the sessions with a computation started in a world -/
inductive Of (c : Comp (World β τ) α) (w : World β τ) : Session β τ α → Prop where
  | start : Of c w ⟨[c w], (c w).world⟩
  | push {S : Session β τ α} (h : Of c w S) {s : Step (World β τ) α} (hs : s ∈ S.steps)
      (hp : s.pending?.isSome) (limit : Nat) (line : String) : Of c w (S.push s limit line)
  | run {S : Session β τ α} (h : Of c w S) {s : Step (World β τ) α} (hs : s ∈ S.steps)
      (host : Host) (limit : Nat) (cancel : Option Nat) : Of c w (S.run s host limit cancel)

end Session

/-! ## Driving steps that go on alike -/

section Driving

variable {R : α → α → Prop} {F F' : Frame β τ} {s s' : Step (World β τ) α}

theorem Like.settle (h : Like R F F' s s') (limit yields : Nat) :
    Like R F F' (s.settle limit yields) (s'.settle limit yields) := by
  induction h generalizing yields with
  | done hu hu' ha => exact .done hu hu' ha
  | fail u u' cause => exact .fail u u' cause
  | await prompt h _ => exact .await prompt h
  | @defer w w' k k' _ ih =>
    rw [Step.settle, Step.settle]
    split
    · exact .fail w w' _
    · exact ih w w' (Frame.holds_frame w _) (Frame.holds_frame w' _) (yields + 1)

theorem Like.push (h : Like R F F' s s') (limit : Nat) (line : String) :
    Like R F F' (s.push limit line s.world) (s'.push limit line s'.world) := by
  cases h with
  | done hu hu' ha => exact .done hu hu' ha
  | fail u u' cause => exact .fail u u' cause
  | @await w w' prompt k k' h =>
    exact (h line w w' (Frame.holds_frame w _) (Frame.holds_frame w' _)).settle limit 0
  | defer h => exact .defer h

theorem Like.feed (h : Like R F F' s s') (ls : List (Nat × String)) :
    Like R F F' (s.feed ls) (s'.feed ls) := by
  induction ls generalizing s s' with
  | nil => exact h
  | cons l ls ih => exact ih (h.push l.1 l.2)

theorem Like.shown_eq (h : Like Eq F F' s s') : s.shown = s'.shown := by
  cases h with
  | done _ _ ha => rw [ha]; rfl
  | fail | await | defer => rfl

theorem Like.runFrom (h : Like Eq F F' s s') (limit : Nat) (cancel : Option Nat) (host : Host)
    (asked : List String) (yields : Nat) :
    (s.runFrom limit cancel host asked yields).result =
        (s'.runFrom limit cancel host asked yields).result ∧
      (s.runFrom limit cancel host asked yields).prompts =
        (s'.runFrom limit cancel host asked yields).prompts := by
  induction h generalizing host asked yields with
  | done _ _ ha =>
    rw [Step.runFrom, Step.runFrom, ha]
    split <;> exact ⟨rfl, rfl⟩
  | fail =>
    rw [Step.runFrom, Step.runFrom]
    split <;> exact ⟨rfl, rfl⟩
  | @await w w' prompt k k' _ ih =>
    rw [Step.runFrom, Step.runFrom]
    split
    · exact ⟨rfl, rfl⟩
    · cases host.answer prompt with
      | error e => exact ⟨rfl, rfl⟩
      | ok r =>
        exact ih r.1 (w.note _) (w'.note _) (Frame.holds_frame w _) (Frame.holds_frame w' _) _ _ _
  | @defer w w' k k' _ ih =>
    rw [Step.runFrom, Step.runFrom]
    split
    · exact ⟨rfl, rfl⟩
    · split
      · exact ⟨rfl, rfl⟩
      · exact ih w w' (Frame.holds_frame w _) (Frame.holds_frame w' _) _ _ _

theorem unaffected_of_like {w : World β τ} (h : Like Eq F F' (s.within w) s) : s.Unaffected w where
  resumed limit line ls := by
    cases s with
    | await => exact ((h.push limit line).feed ls).shown_eq
    | done | fail | defer => rfl
  ran host limit cancel := h.runFrom limit cancel host [] 0

end Driving

/-! ## What lasts through all resumptions -/

/-- the trays that were there are there still; without `each`, no others -/
def Grown (e : Bool) (w v : World β τ) : Prop :=
  w.trays.size ≤ v.trays.size ∧ (e = false → w.trays.size = v.trays.size)

namespace Grown

variable {e : Bool} {u v w : World β τ}

theorem refl (e : Bool) (w : World β τ) : Grown e w w := ⟨Nat.le_refl _, fun _ => rfl⟩

theorem trans (h : Grown e u v) (h' : Grown e v w) : Grown e u w :=
  ⟨Nat.le_trans h.1 h'.1, fun he => (h.2 he).trans (h'.2 he)⟩

end Grown

/-- wherever the step and those after it are resumed, as long as no tray is taken away, `Q` holds
of each stop's world and of what is left to do there -/
inductive Lasting (e : Bool) (Q : World β τ → Comp (World β τ) α → Prop) :
    Step (World β τ) α → Prop where
  | done (w : World β τ) (a : α) : Lasting e Q (.done w a)
  | fail (w : World β τ) (cause : Fault) : Lasting e Q (.fail w cause)
  | await {w : World β τ} (prompt : String) {k : String → Comp (World β τ) α}
      (hQ : ∀ line, Q w (k line)) (hg : ∀ line v, Grown e w v → Grown e v (k line v).world)
      (h : ∀ line v, Grown e w v → Lasting e Q (k line v)) : Lasting e Q (.await w prompt k)
  | defer {w : World β τ} {k : Comp (World β τ) α} (hQ : Q w k)
      (hg : ∀ v, Grown e w v → Grown e v (k v).world)
      (h : ∀ v, Grown e w v → Lasting e Q (k v)) : Lasting e Q (.defer w k)

section Lasting

variable {e : Bool} {Q : World β τ → Comp (World β τ) α → Prop} {s : Step (World β τ) α}

theorem Lasting.mono {Q' : World β τ → Comp (World β τ) α → Prop} (h : Lasting e Q s)
    (hQ : ∀ w c, Q w c → Q' w c) : Lasting e Q' s := by
  induction h with
  | done w a => exact .done w a
  | fail w cause => exact .fail w cause
  | await prompt h hg _ ih => exact .await prompt (fun line => hQ _ _ (h line)) hg ih
  | defer h hg _ ih => exact .defer (hQ _ _ h) hg ih

theorem grown_andThen {f : α → Comp (World β τ) γ} {n : Nat} (hn : n ≤ s.world.trays.size)
    (hf : ∀ a u, n ≤ u.trays.size → Grown e u (f a u).world) :
    Grown e s.world (s.andThen f).world := by
  cases s with
  | done w a => exact hf a w hn
  | fail w | await w | defer w => exact .refl e w

theorem Lasting.andThen {Q' : World β τ → Comp (World β τ) γ → Prop} {f : α → Comp (World β τ) γ}
    (h : Lasting e Q s) {n : Nat} (hn : n ≤ s.world.trays.size)
    (hQ : ∀ w c, n ≤ w.trays.size → Q w c → Q' w (c.andThen f))
    (hg : ∀ a u, n ≤ u.trays.size → Grown e u (f a u).world)
    (hf : ∀ a u, n ≤ u.trays.size → Lasting e Q' (f a u)) : Lasting e Q' (s.andThen f) := by
  induction h with
  | done w a => exact hf a w hn
  | fail w cause => exact .fail w cause
  | @await w prompt k h hgrow _ ih =>
    have hsize : ∀ line v, Grown e w v → n ≤ (k line v).world.trays.size := fun line v hv =>
      Nat.le_trans hn (hv.trans (hgrow line v hv)).1
    exact .await prompt (fun line => hQ w (k line) hn (h line))
      (fun line v hv => (hgrow line v hv).trans (grown_andThen (hsize line v hv) hg))
      fun line v hv => ih line v hv (hsize line v hv)
  | @defer w k h hgrow _ ih =>
    have hsize : ∀ v, Grown e w v → n ≤ (k v).world.trays.size := fun v hv =>
      Nat.le_trans hn (hv.trans (hgrow v hv)).1
    exact .defer (hQ w k hn h)
      (fun v hv => (hgrow v hv).trans (grown_andThen (hsize v hv) hg))
      fun v hv => ih v hv (hsize v hv)

theorem Lasting.settle (h : Lasting e Q s) (limit yields : Nat) :
    Grown e s.world (s.settle limit yields).world ∧ Lasting e Q (s.settle limit yields) := by
  induction h generalizing yields with
  | done w a => exact ⟨.refl e w, .done w a⟩
  | fail w cause => exact ⟨.refl e w, .fail w cause⟩
  | @await w prompt k h hg h' _ => exact ⟨.refl e w, .await prompt h hg h'⟩
  | @defer w k _ hg _ ih =>
    rw [Step.settle]
    split
    · exact ⟨.refl e w, .fail w _⟩
    · obtain ⟨hgrown, hlast⟩ := ih w (.refl e w) (yields + 1)
      exact ⟨(hg w (.refl e w)).trans hgrown, hlast⟩

theorem Lasting.grown_runFrom (h : Lasting e Q s) (limit : Nat) (cancel : Option Nat) (host : Host)
    (asked : List String) (yields : Nat) :
    Grown e s.world (s.runFrom limit cancel host asked yields).world := by
  induction h generalizing host asked yields with
  | done w a | fail w cause =>
    rw [Step.runFrom]
    split <;> exact .refl e w
  | @await w prompt k _ hg _ ih =>
    rw [Step.runFrom]
    split
    · exact .refl e w
    · cases host.answer prompt with
      | error cause => exact .refl e w
      | ok r => exact (hg r.1 (w.note _) (.refl e w)).trans (ih r.1 (w.note _) (.refl e w) _ _ _)
  | @defer w k _ hg _ ih =>
    rw [Step.runFrom]
    split
    · exact .refl e w
    · split
      · exact .refl e w
      · exact (hg w (.refl e w)).trans (ih w (.refl e w) _ _ _)

theorem Lasting.within {w : World β τ} (h : Lasting e Q s) (hw : Grown e s.world w) :
    Lasting e (fun _ _ => True) (s.within w) := by
  have hlast : Lasting e (fun _ _ => True) s := h.mono fun _ _ _ => trivial
  cases hlast with
  | done _ a => exact .done w a
  | fail _ cause => exact .fail w cause
  | await prompt _ hg hnext =>
    exact .await prompt (fun _ => trivial) (fun line v hv => hg line v (hw.trans hv))
      fun line v hv => hnext line v (hw.trans hv)
  | defer _ hg hnext =>
    exact .defer trivial (fun v hv => hg v (hw.trans hv)) fun v hv => hnext v (hw.trans hv)

/-- what lasts from the first step on holds of every step of a session, and no tray is ever taken
away -/
theorem Session.Of.lasting {c : Comp (World β τ) α} {w : World β τ} {S : Session β τ α}
    (hS : Session.Of c w S) (h : Lasting e Q (c w)) :
    ∀ s ∈ S.steps, Lasting e Q s ∧ Grown e (c w).world s.world ∧ Grown e s.world S.world := by
  induction hS with
  | start =>
    intro s hs
    rw [List.mem_singleton.mp hs]
    exact ⟨h, .refl e _, .refl e _⟩
  | @push S _ s hs hp limit line ih =>
    obtain ⟨hlast, hfirst, hgrown⟩ := ih s hs
    have hmade : Grown e S.world (s.push limit line S.world).world ∧
        Lasting e Q (s.push limit line S.world) := by
      cases hlast with
      | done | fail | defer => cases hp
      | await prompt _ hg h =>
        obtain ⟨h1, h2⟩ := (h line S.world hgrown).settle limit 0
        exact ⟨(hg line S.world hgrown).trans h1, h2⟩
    intro t ht
    rcases List.mem_append.mp ht with ht | ht
    · obtain ⟨h1, h2, h3⟩ := ih t ht
      exact ⟨h1, h2, h3.trans hmade.1⟩
    · rw [List.mem_singleton.mp ht]
      exact ⟨hmade.2, hfirst.trans (hgrown.trans hmade.1), .refl e _⟩
  | @run S _ s hs host limit cancel ih =>
    obtain ⟨hlast, _, hgrown⟩ := ih s hs
    have hran := (hlast.within hgrown).grown_runFrom limit cancel host [] 0
    rw [Step.world_within] at hran
    intro t ht
    obtain ⟨h1, h2, h3⟩ := ih t ht
    exact ⟨h1, h2, h3.trans hran⟩

end Lasting

/-! ## Built computations and their own trays -/

/-- what is left to do goes on alike in any two worlds that have the trays from `n` on as they are
now, and leaves the trays below alone -/
def SteadyAt (n : Nat) (w : World β τ) (c : Comp (World β τ) α) : Prop :=
  ∀ lo v v', lo ≤ n → (w.frame n).Holds v → (w.frame n).Holds v' →
    Like Eq ⟨lo, n, v⟩ ⟨lo, n, v'⟩ (c v) (c v')

/-- what is left of an `each` goes on alike in any two worlds that have the trays after its own as
they are now, but for what its own tray holds -/
def CollectsAt (t : Nat) (w : World β τ) (c : Comp (World β τ) (List β)) : Prop :=
  t < w.trays.size ∧ ∀ lo v v', lo ≤ t → (w.frame (t + 1)).Holds v →
    (w.frame (t + 1)).Holds v' →
      Like (Grafted (v.contents t) (v'.contents t)) ⟨lo, t, v⟩ ⟨lo, t, v'⟩ (c v) (c v')

theorem steadyAt_of_even {c : Comp (World β τ) α} (hc : c.Even) {n : Nat} {w : World β τ}
    (hn : n ≤ w.trays.size) : SteadyAt n w c := by
  intro lo v v' hlo hv hv'
  have h1 : n ≤ v.trays.size := Nat.le_trans hn hv.1
  have h2 : n ≤ v'.trays.size := Nat.le_trans hn hv'.1
  have h := hc lo lo v v' (Nat.le_trans hlo h1) (Nat.le_trans hlo h2)
  exact h.reframe rfl rfl (fun _ hu => hu.lower (Nat.le_refl _) h1)
    fun _ hu => hu.lower (Nat.le_refl _) h2

theorem SteadyAt.mono {c : Comp (World β τ) α} {m n : Nat} {w : World β τ} (h : SteadyAt n w c)
    (hm : m ≤ n) : SteadyAt m w c := by
  intro lo v v' hlo hv hv'
  refine (h lo v v' (Nat.le_trans hlo hm) (hv.lower hm (Nat.le_refl _))
    (hv'.lower hm (Nat.le_refl _))).reframe rfl rfl ?_ ?_
  · exact fun _ hu => hu.lower (Nat.le_refl _) hm
  · exact fun _ hu => hu.lower (Nat.le_refl _) hm

theorem SteadyAt.andThen {c : Comp (World β τ) α} {f : α → Comp (World β τ) γ} {n : Nat}
    {w : World β τ} (h : SteadyAt n w c) (hf : ∀ a, (f a).Even) : SteadyAt n w (c.andThen f) := by
  intro lo v v' hlo hv hv'
  refine (h lo v v' hlo hv hv').andThen rfl rfl ?_
  rintro a _ u u' rfl hu hu'
  have hnext := hf a lo lo u u' (Nat.le_trans hlo hu.1) (Nat.le_trans hlo hu'.1)
  exact hnext.reframe rfl rfl (fun _ hx => hu.trans hx) fun _ hx => hu'.trans hx

/-- a computation that lasts: at every stop it depends on its own trays only -/
def Comp.Lasts (e : Bool) (c : Comp (World β τ) α) : Prop :=
  ∀ w, Grown e w (c w).world ∧ Lasting e (SteadyAt w.trays.size) (c w)

theorem lasts_andThen {e : Bool} {c : Comp (World β τ) α} {f : α → Comp (World β τ) γ}
    (hc : c.Lasts e) (hf : ∀ a, (f a).Lasts e) (heven : ∀ a, (f a).Even) :
    (c.andThen f).Lasts e := by
  intro w
  obtain ⟨hg, h⟩ := hc w
  refine ⟨hg.trans (grown_andThen (Nat.le_refl _) fun a u _ => (hf a u).1), ?_⟩
  refine h.andThen hg.1 (fun _ _ _ hs => hs.andThen heven) (fun a u _ => (hf a u).1) ?_
  exact fun a u hu => (hf a u).2.mono fun _ _ hs => hs.mono hu

theorem collectsAt_andThen {f : Nat → γ → Comp (World β τ) β} (hf : ∀ i x, (f i x).Even)
    {t n : Nat} (ht : t < n) {w : World β τ} {c : Comp (World β τ) β} (hn : n ≤ w.trays.size)
    (h : SteadyAt n w c) (i : Nat) (xs : List γ) :
    CollectsAt t w (c.andThen fun b w => Comp.eachFrom f t i xs (w.put t b)) := by
  refine ⟨Nat.lt_of_lt_of_le ht hn, fun lo v v' hlo hv hv' => ?_⟩
  have hitem := h lo v v' (by omega) (hv.lower ht (Nat.le_refl _)) (hv'.lower ht (Nat.le_refl _))
  refine hitem.andThen rfl rfl ?_
  rintro b _ u u' rfl hu hu'
  have hsize : t < u.trays.size := Nat.lt_of_lt_of_le ht hu.1
  have hsize' : t < u'.trays.size := Nat.lt_of_lt_of_le ht hu'.1
  -- what the tray held when the item was resumed is what it holds at the item's end
  have hC : (u.put t b).contents t = v.contents t ++ [b] := by
    rw [World.contents_put hsize, World.contents_congr (hu.2 t hlo ht)]
  have hC' : (u'.put t b).contents t = v'.contents t ++ [b] := by
    rw [World.contents_put hsize', World.contents_congr (hu'.2 t hlo ht)]
  refine like_eachFrom hf hlo hlo (Nat.le_refl t) (Nat.le_refl t) _ _ i xs [b] ?_ ?_ ?_ ?_ hC hC'
  · exact (hu.lower (Nat.le_refl _) (Nat.le_of_lt ht)).put (Nat.le_refl t) b
  · exact (hu'.lower (Nat.le_refl _) (Nat.le_of_lt ht)).put (Nat.le_refl t) b
  · rw [World.size_put]
    exact hsize
  · rw [World.size_put]
    exact hsize'

theorem lasting_eachFrom {e : Bool} {f : Nat → γ → Comp (World β τ) β}
    (hf : ∀ i x, (f i x).Even) (hl : ∀ i x, (f i x).Lasts e) {t : Nat} (i : Nat) (xs : List γ)
    {w : World β τ} (ht : t < w.trays.size) : Grown e w (Comp.eachFrom f t i xs w).world ∧
      Lasting e (CollectsAt t) (Comp.eachFrom f t i xs w) := by
  induction xs generalizing i w with
  | nil => exact ⟨.refl e w, .done w _⟩
  | cons x xs ih =>
    rw [Comp.eachFrom_cons]
    obtain ⟨hg, h⟩ := hl i x w
    have hrest : ∀ b (u : World β τ), w.trays.size ≤ u.trays.size → t < (u.put t b).trays.size := by
      intro b u hu
      rw [World.size_put]
      exact Nat.lt_of_lt_of_le ht hu
    have hput : ∀ b (u : World β τ), Grown e u (u.put t b) := fun b u =>
      ⟨Nat.le_of_eq (World.size_put u t b).symm, fun _ => (World.size_put u t b).symm⟩
    have hgrow : ∀ b u, w.trays.size ≤ u.trays.size →
        Grown e u (Comp.eachFrom f t (i + 1) xs (u.put t b)).world := fun b u hu =>
      (hput b u).trans (ih (i + 1) (hrest b u hu)).1
    refine ⟨hg.trans (grown_andThen hg.1 hgrow), ?_⟩
    refine h.andThen hg.1 (fun u c hu hs => collectsAt_andThen hf ht hu hs (i + 1) xs) hgrow ?_
    exact fun b u hu => (ih (i + 1) (hrest b u hu)).2

theorem CollectsAt.steadyAt {t : Nat} {w : World β τ} {c : Comp (World β τ) (List β)}
    (h : CollectsAt t w c) : SteadyAt t w c := by
  obtain ⟨ht, h⟩ := h
  intro lo v v' hlo hv hv'
  have hsame : v.contents t = v'.contents t :=
    (World.contents_congr (hv.2 t (Nat.le_refl t) ht)).trans
      (World.contents_congr (hv'.2 t (Nat.le_refl t) ht)).symm
  have hlike := h lo v v' hlo (hv.lower (Nat.le_succ t) (Nat.le_refl _))
    (hv'.lower (Nat.le_succ t) (Nat.le_refl _))
  rw [hsame] at hlike
  exact hlike.eq_of_grafted

theorem lasting_each {e : Bool} {f : Nat → γ → Comp (World β τ) β} (hf : ∀ i x, (f i x).Even)
    (hl : ∀ i x, (f i x).Lasts e) (items : List γ) (w : World β τ) :
    Grown e w.addTray.2 (Comp.each items f w).world ∧
      Lasting e (CollectsAt w.trays.size) (Comp.each items f w) := by
  refine lasting_eachFrom hf hl 0 items ?_
  rw [World.size_addTray]
  exact Nat.lt_succ_self _

theorem lasts_built {e : Bool} {c : Comp (World β τ) α} (hc : Built e c) : c.Lasts e := by
  induction hc with
  | done a => exact fun w => ⟨.refl e w, .done w a⟩
  | fail cause => exact fun w => ⟨.refl e w, .fail w cause⟩
  | await prompt h ih =>
    intro w
    refine ⟨.refl e w, .await prompt ?_ (fun line v _ => (ih line v).1) fun line v hv => ?_⟩
    · exact fun line => steadyAt_of_even (even_built (h line)) (Nat.le_refl _)
    · exact (ih line v).2.mono fun _ _ hs => hs.mono hv.1
  | defer h ih =>
    intro w
    refine ⟨.refl e w, .defer ?_ (fun v _ => (ih v).1) fun v hv => ?_⟩
    · exact steadyAt_of_even (even_built h) (Nat.le_refl _)
    · exact (ih v).2.mono fun _ _ hs => hs.mono hv.1
  | andThen _ hf ihc ihf => exact lasts_andThen ihc ihf fun a => even_built (hf a)
  | mapExcept _ f ih =>
    refine lasts_andThen ih (fun a w => ?_) fun a => even_ofExcept (f a)
    cases f a with
    | ok b => exact ⟨.refl e w, .done w b⟩
    | error cause => exact ⟨.refl e w, .fail w cause⟩
  | each he items hf ih =>
    subst he
    intro w
    obtain ⟨hg, h⟩ := lasting_each (fun i x => even_built (hf i x)) ih items w
    have hsize := hg.1
    rw [World.size_addTray] at hsize
    exact ⟨⟨Nat.le_of_succ_le hsize, nofun⟩, h.mono fun _ _ hc => hc.steadyAt⟩

/-! ## Steps resumed again -/

theorem Lasting.unaffected {e : Bool} {n : Nat} {s : Step (World β τ) α} {w : World β τ}
    (h : Lasting e (SteadyAt n) s) (hn : n ≤ s.world.trays.size) (hw : (s.world.frame n).Holds w) :
    s.Unaffected w := by
  have hfloor : ∀ v u : World β τ, Frame.Holds ⟨n, n, v⟩ u ↔ n ≤ u.trays.size := fun v u =>
    ⟨fun hu => hu.1, fun hu => ⟨hu, fun j h1 h2 => absurd h2 (Nat.not_lt.mpr h1)⟩⟩
  have hlike : Like Eq ⟨n, n, w⟩ ⟨n, n, s.world⟩ (s.within w) s := by
    cases h with
    | done u a => exact .done ((hfloor _ _).mpr (Nat.le_trans hn hw.1)) ((hfloor _ _).mpr hn) rfl
    | fail u cause => exact .fail w u cause
    | await prompt hQ =>
      refine .await prompt fun line v v' hv hv' => ?_
      refine (hQ line n v v' (Nat.le_refl n) (hw.trans hv) hv').reframe rfl rfl ?_ ?_
      · exact fun u hu => (hfloor _ _).mpr hu.1
      · exact fun u hu => (hfloor _ _).mpr hu.1
    | defer hQ =>
      refine .defer fun v v' hv hv' => ?_
      refine (hQ n v v' (Nat.le_refl n) (hw.trans hv) hv').reframe rfl rfl ?_ ?_
      · exact fun u hu => (hfloor _ _).mpr hu.1
      · exact fun u hu => (hfloor _ _).mpr hu.1
  exact unaffected_of_like hlike

theorem shown_eq_iff_of_grafted {C C' : List β} {F F' : Frame β τ}
    {s s' : Step (World β τ) (List β)} (h : Like (Grafted C C') F F' s s') :
    s.shown = s'.shown ↔ C = C' ∨ ∀ l, s'.result? ≠ some (.ok l) := by
  cases h with
  | done _ _ hl =>
    obtain ⟨r, rfl, rfl⟩ := hl
    constructor
    · intro heq
      simp only [Step.shown, Step.result?, Prod.mk.injEq, Option.some.injEq, Except.ok.injEq,
        List.append_cancel_right_eq] at heq
      exact .inl heq.2.2
    · rintro (rfl | hno)
      · rfl
      · exact absurd rfl (hno _)
  | fail | await | defer => exact ⟨fun _ => .inr (by simp [Step.result?]), fun _ => rfl⟩

theorem holds_of_grown {e : Bool} {n : Nat} {w v u : World β τ} (hw : w.trays.size = n)
    (hv : Grown e w v) (hu : Grown e v u) (h : e = true → (v.frame n).Holds u) :
    (v.frame n).Holds u := by
  cases e with
  | true => exact h rfl
  | false =>
    refine ⟨hu.1, fun j h1 h2 => ?_⟩
    have hsize := hv.2 rfl
    change j < v.trays.size at h2
    change n ≤ j at h1
    omega

/-- **What a resumption sees of other ones**: in every session with a built computation, a step
goes on as it did when it had just stopped, if `each` is not used; if it is, provided that the
trays the computation had made by then are as they were.  A step of an `each` goes on alike
exactly if its tray is as it was or the resumption comes to no list. -/
theorem resumption_law (e : Bool) (w : World β τ) :
    (∀ {ι : Type} {c : Comp (World β τ) ι}, Built e c → ∀ S, Session.Of c w S → ∀ s ∈ S.steps,
      (e = true → (s.world.frame w.trays.size).Holds S.world) → s.Unaffected S.world) ∧
    (∀ {ι : Type} (items : List ι) {f : Nat → ι → Comp (World β τ) β}, (∀ i x, Built e (f i x)) →
      ∀ S, Session.Of (Comp.each items f) w S → ∀ s ∈ S.steps, s.pending?.isSome →
      (e = true → (s.world.frame (w.trays.size + 1)).Holds S.world) →
      ∀ (limit : Nat) (line : String) (ls : List (Nat × String)),
        ((s.push limit line S.world).feed ls).shown =
            ((s.push limit line s.world).feed ls).shown ↔
          S.world.contents w.trays.size = s.world.contents w.trays.size ∨
            ∀ l, ((s.push limit line s.world).feed ls).result? ≠ some (.ok l)) := by
  constructor
  · intro ι c hc S hS s hs hkept
    obtain ⟨hg, hl⟩ := lasts_built hc w
    obtain ⟨hlast, hfirst, hgrown⟩ := hS.lasting hl s hs
    have hown := holds_of_grown rfl (hg.trans hfirst) hgrown hkept
    exact hlast.unaffected (hg.trans hfirst).1 hown
  · intro ι items f hf S hS s hs hp hkept limit line ls
    obtain ⟨hg, hl⟩ := lasting_each (fun i x => even_built (hf i x))
      (fun i x => lasts_built (hf i x)) items w
    obtain ⟨hlast, hfirst, hgrown⟩ := hS.lasting hl s hs
    have hown := holds_of_grown (World.size_addTray w) (hg.trans hfirst) hgrown hkept
    cases hlast with
    | done | fail | defer => cases hp
    | @await u prompt k hQ =>
      have hlike := (hQ line).2 _ S.world u (Nat.le_refl _) hown (Frame.holds_frame u _)
      exact shown_eq_iff_of_grafted ((hlike.settle limit 0).feed ls)

/-- a prompt answered twice.  By itself it goes on as it did; in an `each` the second list has the
first answer too. -/
theorem resumption_law_twice :
    (∃ (S : Session String Unit String) (s : Step (World String Unit) String),
      Session.Of (Comp.await "x" Comp.done) (World.new ()) S ∧ s ∈ S.steps ∧ S.steps.length = 2 ∧
        s.pending? = some "x" ∧ s.Unaffected S.world) ∧
    ∃ (S : Session String Unit (List String)) (s : Step (World String Unit) (List String)),
      Session.Of (Comp.each ["x"] fun _ p => Comp.await p Comp.done) (World.new ()) S ∧
        s ∈ S.steps ∧ (s.push 1 "b" s.world).result? = some (.ok ["b"]) ∧
        (s.push 1 "b" S.world).result? = some (.ok ["a", "b"]) ∧ ¬ s.Unaffected S.world := by
  have hread : ∀ p, Built false (Comp.await p Comp.done : Comp (World String Unit) String) :=
    fun p => .await p fun line => .done line
  constructor
  · have hS := Session.Of.start (c := Comp.await "x" Comp.done)
      (w := (World.new () : World String Unit)) |>.push List.mem_cons_self rfl 1 "a"
    refine ⟨_, _, hS, List.mem_cons_self, rfl, rfl, ?_⟩
    exact (resumption_law false (World.new ())).1 (hread "x") _ hS _ List.mem_cons_self nofun
  · have hS := Session.Of.start (c := Comp.each ["x"] fun _ p => Comp.await p Comp.done)
      (w := (World.new () : World String Unit)) |>.push List.mem_cons_self rfl 1 "a"
    refine ⟨_, _, hS, List.mem_cons_self, rfl, rfl, fun h => ?_⟩
    have hlaw := (resumption_law false (World.new ())).2 ["x"] (fun _ p => hread p) _ hS _
      List.mem_cons_self rfl nofun 1 "b" []
    rcases hlaw.mp (h.resumed 1 "b" []) with hsame | hnone
    · exact absurd hsame (by decide)
    · exact hnone ["b"] rfl

end Overloading
