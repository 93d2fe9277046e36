import Overloading.Computation.Host

/-!
# Resumptions in different worlds

A suspended step is resumed in whatever world is there, and the only part of the world that a
computation looks at is its trays.  Here the resumptions of one computation in two worlds are
compared:

* `Built e c`    `c` is made of the combinators and pure functions; `e` says whether `each` is
                 among them;
* `Frame`        a range of trays that a computation leaves as it found them;
* `Like R F F'`  two steps go on alike, as long as the trays above each side's floor stay as the
                 step left them, and end in values that `R` relates;
* `like_built`   a built computation is like itself, in any two worlds;
* `like_eachFrom`  the rest of an `each` is like itself also from trays of different contents:
                 then the two lists differ in just what the trays held (`Grafted`).
-/

namespace Overloading

variable {α β γ τ : Type}

/-! ## Trays -/

namespace World

@[simp] theorem size_put (w : World β τ) (t : Nat) (b : β) :
    (w.put t b).trays.size = w.trays.size := by
  simp [put]

theorem getElem?_put_ne {w : World β τ} {t j : Nat} {b : β} (h : j ≠ t) :
    (w.put t b).trays[j]? = w.trays[j]? := by
  simp [put, Array.getElem?_modify, h.symm]

theorem contents_put {w : World β τ} {t : Nat} {b : β} (h : t < w.trays.size) :
    (w.put t b).contents t = w.contents t ++ [b] := by
  simp [put, contents, Array.getElem?_modify, Array.getElem?_eq_getElem h]

theorem size_addTray (w : World β τ) : w.addTray.2.trays.size = w.trays.size + 1 :=
  Array.size_push _

theorem contents_addTray (w : World β τ) : w.addTray.2.contents w.trays.size = [] := by
  simp [addTray, contents]

theorem getElem?_addTray {w : World β τ} {j : Nat} (h : j < w.trays.size) :
    w.addTray.2.trays[j]? = w.trays[j]? := by
  simp [addTray, Array.getElem?_push, Nat.ne_of_lt h]

theorem contents_congr {w v : World β τ} {t : Nat} (h : v.trays[t]? = w.trays[t]?) :
    v.contents t = w.contents t := by
  simp only [contents, h]

end World

/-- the trays from `lo` up to `hi`, as they are in a world -/
structure Frame (β τ : Type) where
  lo : Nat
  hi : Nat
  world : World β τ

/-- a world has all the trays below `hi`, and those of the frame are the same -/
def Frame.Holds (F : Frame β τ) (u : World β τ) : Prop :=
  F.hi ≤ u.trays.size ∧ ∀ j, F.lo ≤ j → j < F.hi → u.trays[j]? = F.world.trays[j]?

def World.frame (w : World β τ) (lo : Nat) : Frame β τ := ⟨lo, w.trays.size, w⟩

namespace Frame

theorem holds_frame (w : World β τ) (lo : Nat) : (w.frame lo).Holds w :=
  ⟨Nat.le_refl _, fun _ _ _ => rfl⟩

theorem Holds.trans {F : Frame β τ} {w u : World β τ} (h : F.Holds w)
    (hu : (w.frame F.lo).Holds u) : F.Holds u := by
  refine ⟨Nat.le_trans h.1 hu.1, fun j hlo hhi => ?_⟩
  exact (hu.2 j hlo (Nat.lt_of_lt_of_le hhi h.1)).trans (h.2 j hlo hhi)

theorem Holds.lower {F : Frame β τ} {u : World β τ} (h : F.Holds u) {lo hi : Nat}
    (hlo : F.lo ≤ lo) (hhi : hi ≤ F.hi) : Holds ⟨lo, hi, F.world⟩ u :=
  ⟨Nat.le_trans hhi h.1, fun j h1 h2 => h.2 j (Nat.le_trans hlo h1) (Nat.lt_of_lt_of_le h2 hhi)⟩

theorem Holds.put {F : Frame β τ} {u : World β τ} {t : Nat} (h : F.Holds u) (ht : F.hi ≤ t)
    (b : β) : F.Holds (u.put t b) := by
  refine ⟨by rw [World.size_put]; exact h.1, fun j hlo hhi => ?_⟩
  rw [World.getElem?_put_ne (by omega)]
  exact h.2 j hlo hhi

theorem Holds.addTray {F : Frame β τ} {u : World β τ} (h : F.Holds u) : F.Holds u.addTray.2 := by
  refine ⟨by rw [World.size_addTray]; exact Nat.le_succ_of_le h.1, fun j hlo hhi => ?_⟩
  rw [World.getElem?_addTray (Nat.lt_of_lt_of_le hhi h.1)]
  exact h.2 j hlo hhi

end Frame

/-! ## Steps that go on alike -/

/-- two steps go on alike from their worlds: they ask and fail alike, whatever becomes of the
trays below the floors, and leave the frames as they were -/
inductive Like (R : α → α → Prop) (F F' : Frame β τ) :
    Step (World β τ) α → Step (World β τ) α → Prop where
  | done {u u' : World β τ} {a a' : α} (h : F.Holds u) (h' : F'.Holds u') (hR : R a a') :
      Like R F F' (.done u a) (.done u' a')
  | fail (u u' : World β τ) (cause : Fault) : Like R F F' (.fail u cause) (.fail u' cause)
  | await {w w' : World β τ} (prompt : String) {k k' : String → Comp (World β τ) α}
      (h : ∀ line v v', (w.frame F.lo).Holds v → (w'.frame F'.lo).Holds v' →
        Like R F F' (k line v) (k' line v')) :
      Like R F F' (.await w prompt k) (.await w' prompt k')
  | defer {w w' : World β τ} {k k' : Comp (World β τ) α}
      (h : ∀ v v', (w.frame F.lo).Holds v → (w'.frame F'.lo).Holds v' →
        Like R F F' (k v) (k' v')) :
      Like R F F' (.defer w k) (.defer w' k')

theorem Like.mono {R Q : α → α → Prop} {F F' G G' : Frame β τ} {s s' : Step (World β τ) α}
    (h : Like R F F' s s') (hlo : F.lo = G.lo) (hlo' : F'.lo = G'.lo)
    (hF : ∀ u, F.Holds u → G.Holds u) (hF' : ∀ u, F'.Holds u → G'.Holds u)
    (hR : ∀ a a', R a a' → Q a a') : Like Q G G' s s' := by
  induction h with
  | done hu hu' ha => exact .done (hF _ hu) (hF' _ hu') (hR _ _ ha)
  | fail u u' cause => exact .fail u u' cause
  | await prompt _ ih =>
    exact .await prompt fun line v v' hv hv' => ih line v v' (hlo ▸ hv) (hlo' ▸ hv')
  | defer _ ih => exact .defer fun v v' hv hv' => ih v v' (hlo ▸ hv) (hlo' ▸ hv')

theorem Like.reframe {R : α → α → Prop} {F F' G G' : Frame β τ} {s s' : Step (World β τ) α}
    (h : Like R F F' s s') (hlo : F.lo = G.lo) (hlo' : F'.lo = G'.lo)
    (hF : ∀ u, F.Holds u → G.Holds u) (hF' : ∀ u, F'.Holds u → G'.Holds u) : Like R G G' s s' :=
  h.mono hlo hlo' hF hF' fun _ _ => id

theorem Like.andThen {R : α → α → Prop} {Q : γ → γ → Prop} {F F' G G' : Frame β τ}
    {s s' : Step (World β τ) α} {f f' : α → Comp (World β τ) γ} (h : Like R F F' s s')
    (hlo : F.lo = G.lo) (hlo' : F'.lo = G'.lo)
    (hf : ∀ a a' u u', R a a' → F.Holds u → F'.Holds u' → Like Q G G' (f a u) (f' a' u')) :
    Like Q G G' (s.andThen f) (s'.andThen f') := by
  induction h with
  | done hu hu' ha => exact hf _ _ _ _ ha hu hu'
  | fail u u' cause => exact .fail u u' cause
  | await prompt _ ih =>
    exact .await prompt fun line v v' hv hv' => ih line v v' (hlo ▸ hv) (hlo' ▸ hv')
  | defer _ ih => exact .defer fun v v' hv hv' => ih v v' (hlo ▸ hv) (hlo' ▸ hv')

/-- a computation is like itself in any two worlds, above any floors -/
def Comp.Even (c : Comp (World β τ) α) : Prop :=
  ∀ (lo lo' : Nat) (w w' : World β τ), lo ≤ w.trays.size → lo' ≤ w'.trays.size →
    Like Eq (w.frame lo) (w'.frame lo') (c w) (c w')

/-- lists that are the same but for what they start with -/
def Grafted (C C' l l' : List β) : Prop := ∃ r, l = C ++ r ∧ l' = C' ++ r

theorem Like.eq_of_grafted {C : List β} {F F' : Frame β τ} {s s' : Step (World β τ) (List β)}
    (h : Like (Grafted C C) F F' s s') : Like Eq F F' s s' := by
  refine h.mono rfl rfl (fun _ hu => hu) (fun _ hu => hu) ?_
  rintro _ _ ⟨r, rfl, rfl⟩
  rfl

/-- the rest of an `each` goes on alike from two trays, one for each side: it adds the same
values to what the trays hold -/
theorem like_eachFrom {f : Nat → γ → Comp (World β τ) β} (hf : ∀ i x, (f i x).Even)
    {F F' : Frame β τ} {t t' : Nat} (hlo : F.lo ≤ t) (hlo' : F'.lo ≤ t') (hhi : F.hi ≤ t)
    (hhi' : F'.hi ≤ t') (C C' : List β) (i : Nat) (xs : List γ) (d : List β) {w w' : World β τ}
    (hw : F.Holds w) (hw' : F'.Holds w') (ht : t < w.trays.size) (ht' : t' < w'.trays.size)
    (hC : w.contents t = C ++ d) (hC' : w'.contents t' = C' ++ d) :
    Like (Grafted C C') F F' (Comp.eachFrom f t i xs w) (Comp.eachFrom f t' i xs w') := by
  induction xs generalizing i d w w' with
  | nil => exact .done hw hw' ⟨d, hC, hC'⟩
  | cons x xs ih =>
    rw [Comp.eachFrom_cons, Comp.eachFrom_cons]
    have hitem := hf i x F.lo F'.lo w w' (by omega) (by omega)
    refine hitem.andThen rfl rfl ?_
    rintro b _ u u' rfl hu hu'
    have hsize : t < u.trays.size := Nat.lt_of_lt_of_le ht hu.1
    have hsize' : t' < u'.trays.size := Nat.lt_of_lt_of_le ht' hu'.1
    have hu1 : u.contents t = C ++ d :=
      (World.contents_congr (hu.2 t hlo ht)).trans hC
    have hu1' : u'.contents t' = C' ++ d :=
      (World.contents_congr (hu'.2 t' hlo' ht')).trans hC'
    refine ih (i + 1) (d ++ [b]) ((hw.trans hu).put hhi b) ((hw'.trans hu').put hhi' b) ?_ ?_ ?_ ?_
    · rw [World.size_put]
      exact hsize
    · rw [World.size_put]
      exact hsize'
    · rw [World.contents_put hsize, hu1, List.append_assoc]
    · rw [World.contents_put hsize', hu1', List.append_assoc]

theorem even_each {f : Nat → γ → Comp (World β τ) β} (hf : ∀ i x, (f i x).Even) (items : List γ) :
    (Comp.each items f).Even := by
  intro lo lo' w w' hlo hlo'
  exact (like_eachFrom hf hlo hlo' (Nat.le_refl _) (Nat.le_refl _) [] [] 0 items []
    (Frame.holds_frame w lo).addTray (Frame.holds_frame w' lo').addTray
    (by rw [World.size_addTray]; exact Nat.lt_succ_self _)
    (by rw [World.size_addTray]; exact Nat.lt_succ_self _)
    (World.contents_addTray w) (World.contents_addTray w')).eq_of_grafted

theorem even_andThen {c : Comp (World β τ) α} {f : α → Comp (World β τ) γ} (hc : c.Even)
    (hf : ∀ a, (f a).Even) : (c.andThen f).Even := by
  intro lo lo' w w' hlo hlo'
  refine (hc lo lo' w w' hlo hlo').andThen rfl rfl ?_
  rintro a _ u u' rfl hu hu'
  have h := hf a lo lo' u u' (Nat.le_trans hlo hu.1) (Nat.le_trans hlo' hu'.1)
  exact h.reframe rfl rfl (fun _ hx => hu.trans hx) fun _ hx => hu'.trans hx

theorem even_ofExcept (r : Except Fault α) : (Comp.ofExcept r : Comp (World β τ) α).Even := by
  intro lo lo' w w' _ _
  cases r with
  | ok a => exact .done (Frame.holds_frame w lo) (Frame.holds_frame w' lo') rfl
  | error e => exact .fail w w' e

/-! ## Built computations -/

/-- a computation made of the combinators and pure functions; `e` says whether `each` may be
among them -/
inductive Built (e : Bool) : {ι : Type} → Comp (World β τ) ι → Prop where
  | done {ι : Type} (a : ι) : Built e (Comp.done a)
  | fail {ι : Type} (cause : Fault) : Built e (Comp.fail cause : Comp (World β τ) ι)
  | await {ι : Type} (prompt : String) {k : String → Comp (World β τ) ι}
      (h : ∀ line, Built e (k line)) : Built e (Comp.await prompt k)
  | defer {ι : Type} {c : Comp (World β τ) ι} (h : Built e c) : Built e (Comp.defer c)
  | andThen {ι κ : Type} {c : Comp (World β τ) ι} {f : ι → Comp (World β τ) κ} (hc : Built e c)
      (hf : ∀ a, Built e (f a)) : Built e (c.andThen f)
  | mapExcept {ι κ : Type} {c : Comp (World β τ) ι} (hc : Built e c) (f : ι → Except Fault κ) :
      Built e (c.mapExcept f)
  | each {ι : Type} (he : e = true) (items : List ι) {f : Nat → ι → Comp (World β τ) β}
      (hf : ∀ i x, Built e (f i x)) : Built e (Comp.each items f)

theorem even_built {e : Bool} {c : Comp (World β τ) α} (hc : Built e c) : c.Even := by
  induction hc with
  | done a =>
    exact fun lo lo' w w' _ _ => .done (Frame.holds_frame w lo) (Frame.holds_frame w' lo') rfl
  | fail cause => exact fun _ _ w w' _ _ => .fail w w' cause
  | await prompt _ ih =>
    intro lo lo' w w' hlo hlo'
    refine .await prompt fun line v v' hv hv' => ?_
    have h := ih line lo lo' v v' (Nat.le_trans hlo hv.1) (Nat.le_trans hlo' hv'.1)
    exact h.reframe rfl rfl (fun _ hx => hv.trans hx) fun _ hx => hv'.trans hx
  | defer _ ih =>
    intro lo lo' w w' hlo hlo'
    refine .defer fun v v' hv hv' => ?_
    have h := ih lo lo' v v' (Nat.le_trans hlo hv.1) (Nat.le_trans hlo' hv'.1)
    exact h.reframe rfl rfl (fun _ hx => hv.trans hx) fun _ hx => hv'.trans hx
  | andThen _ _ ihc ihf => exact even_andThen ihc ihf
  | mapExcept _ f ih => exact even_andThen ih fun a => even_ofExcept (f a)
  | each _ items _ ih => exact even_each ih items

end Overloading
