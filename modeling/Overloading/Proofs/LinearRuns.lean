import Mathlib.Data.List.Forall2
import Overloading.Proofs.Resumption
import Overloading.Proofs.StoreTypes

/-!
# Linear runs

A run is linear if it resumes each state at which it stops once at most.  While it is stopped the
world goes on: others add trays and change their own, store values and make variables.  They leave
the trays of the run alone, and the types of variables.

* `Engine.Spares F w v`   what has become of a world, if `F` are the trays of others;
* `Step.Leads F s F' t`   a linear run leads from one step to another, and the others have got
                          more trays on the way;
* `Step.Sound`    wherever a run leads, it spares what it does not own, and what it comes to is
                  good; `Sound.andThen` composes;
* `sound_each`    an `each` is sound if the computation of each item is.  Its tray is its own, so
                  it collects one value for each item.
-/

namespace Overloading

variable {α β ι τ : Type}

/-! ## Worlds -/

namespace Engine

/-- every variable has the type it had -/
def KeepsTypes (w v : Engine τ) : Prop :=
  ∀ (x : VarId) (t : Ty), w.state.store.typeOf x = .ok t → v.state.store.typeOf x = .ok t

/-- the trays that were there are, but for some of others, as they were, and so are the types of
the variables -/
structure Spares (F : Nat → Prop) (w v : Engine τ) : Prop where
  size_le : w.trays.size ≤ v.trays.size
  tray_eq : ∀ i, i < w.trays.size → ¬ F i → v.trays[i]? = w.trays[i]?
  types : w.KeepsTypes v

/-- the trays of others are there -/
def Has (w : Engine τ) (F : Nat → Prop) : Prop := ∀ i, F i → i < w.trays.size

/-- the trays of others once a world has gone on without the run -/
def newcomers (F : Nat → Prop) (w v : Engine τ) (i : Nat) : Prop :=
  F i ∨ w.trays.size ≤ i ∧ i < v.trays.size

variable {F G : Nat → Prop} {u v w : Engine τ}

theorem KeepsTypes.trans (h : u.KeepsTypes v) (h' : v.KeepsTypes w) : u.KeepsTypes w :=
  fun x t ht => h' x t (h x t ht)

theorem Spares.refl (F : Nat → Prop) (w : Engine τ) : w.Spares F w :=
  ⟨Nat.le_refl _, fun _ _ _ => rfl, fun _ _ h => h⟩

theorem Spares.trans (h : u.Spares F v) (h' : v.Spares F w) : u.Spares F w := by
  refine ⟨Nat.le_trans h.size_le h'.size_le, fun i hi hF => ?_, h.types.trans h'.types⟩
  exact (h'.tray_eq i (Nat.lt_of_lt_of_le hi h.size_le) hF).trans (h.tray_eq i hi hF)

theorem Spares.mono (h : w.Spares F v) (hFG : ∀ i, i < w.trays.size → F i → G i) :
    w.Spares G v :=
  ⟨h.size_le, fun i hi hG => h.tray_eq i hi fun hF => hG (hFG i hi hF), h.types⟩

theorem spares_of_grows {w v : Engine τ} (htrays : v.trays = w.trays)
    (h : w.state.store.Grows v.state.store) : w.Spares F v :=
  ⟨Nat.le_of_eq (by rw [htrays]), fun i _ _ => by rw [htrays], fun _ _ => h.typeOf⟩

theorem Has.mono (h : w.Has F) (hsize : w.trays.size ≤ v.trays.size) : v.Has F :=
  fun i hi => Nat.lt_of_lt_of_le (h i hi) hsize

end Engine

/-! ## Runs -/

namespace Step

/-- a linear run leads from a step to a step -/
inductive Leads : (Nat → Prop) → Step (Engine τ) α → (Nat → Prop) → Step (Engine τ) α → Prop where
  | here (F : Nat → Prop) (s : Step (Engine τ) α) : Leads F s F s
  | await {F F' : Nat → Prop} {w v : Engine τ} {prompt : String} {k : String → Comp (Engine τ) α}
      {t : Step (Engine τ) α} (line : String) (hv : w.Spares F v)
      (h : Leads (Engine.newcomers F w v) (k line v) F' t) : Leads F (.await w prompt k) F' t
  | defer {F F' : Nat → Prop} {w v : Engine τ} {k : Comp (Engine τ) α} {t : Step (Engine τ) α}
      (hv : w.Spares F v) (h : Leads (Engine.newcomers F w v) (k v) F' t) :
      Leads F (.defer w k) F' t

variable {F F' G : Nat → Prop} {s t : Step (Engine τ) α} {f : α → Comp (Engine τ) β}

theorem Leads.others (h : s.Leads F F' t) : ∀ i, F i → F' i := by
  induction h with
  | here => exact fun _ h => h
  | await line _ _ ih => exact fun i hi => ih i (.inl hi)
  | defer _ _ ih => exact fun i hi => ih i (.inl hi)

/-- where a run of two computations in a row leads: to a state of the first one, to its failure,
or to its value and from there on to a state of the second one -/
theorem leads_andThen {t : Step (Engine τ) β} (h : (s.andThen f).Leads F F' t) :
    (∃ u, s.Leads F F' u ∧ u.isFinished = false ∧ t = u.andThen f) ∨
    (∃ w e, s.Leads F F' (.fail w e) ∧ t = .fail w e) ∨
    ∃ G w a, s.Leads F G (.done w a) ∧ (f a w).Leads G F' t := by
  induction s generalizing F with
  | done w a => exact .inr (.inr ⟨F, w, a, .here _ _, h⟩)
  | fail w e =>
    cases h
    exact .inr (.inl ⟨w, e, .here _ _, rfl⟩)
  | await w p k ih =>
    cases h with
    | here => exact .inl ⟨_, .here _ _, rfl, rfl⟩
    | await line hv h =>
      rcases ih line _ h with ⟨u, hu, hrest⟩ | ⟨w, e, hu, hrest⟩ | ⟨G, w, a, hu, hrest⟩
      · exact .inl ⟨u, .await line hv hu, hrest⟩
      · exact .inr (.inl ⟨w, e, .await line hv hu, hrest⟩)
      · exact .inr (.inr ⟨G, w, a, .await line hv hu, hrest⟩)
  | defer w k ih =>
    cases h with
    | here => exact .inl ⟨_, .here _ _, rfl, rfl⟩
    | defer hv h =>
      rcases ih _ h with ⟨u, hu, hrest⟩ | ⟨w, e, hu, hrest⟩ | ⟨G, w, a, hu, hrest⟩
      · exact .inl ⟨u, .defer hv hu, hrest⟩
      · exact .inr (.inl ⟨w, e, .defer hv hu, hrest⟩)
      · exact .inr (.inr ⟨G, w, a, .defer hv hu, hrest⟩)

/-! ## Soundness -/

/-- wherever a run from a step leads, what was there in a world is spared, and a value it ends in
is good -/
def Sound (F : Nat → Prop) (u : Engine τ) (P : Engine τ → α → Prop) (s : Step (Engine τ) α) :
    Prop :=
  ∀ F' t, s.Leads F F' t →
    u.Spares F t.world ∧ t.world.Has F' ∧ ∀ w a, t = .done w a → P w a

variable {u v w : Engine τ} {P P' : Engine τ → α → Prop} {Q : Engine τ → β → Prop}

theorem sound_done {a : α} (hw : u.Spares F w) (hF : w.Has F) (h : P w a) :
    (Step.done w a).Sound F u P := by
  intro F' t ht
  cases ht
  refine ⟨hw, hF, fun v b hb => ?_⟩
  cases hb
  exact h

theorem sound_fail {e : Fault} (hw : u.Spares F w) (hF : w.Has F) :
    (Step.fail w e : Step (Engine τ) α).Sound F u P := by
  intro F' t ht
  cases ht
  exact ⟨hw, hF, fun _ _ hdone => by cases hdone⟩

theorem Sound.mono (h : s.Sound F u P) (hP : ∀ w a, P w a → P' w a) : s.Sound F u P' := by
  intro F' t ht
  obtain ⟨hspares, hhas, hdone⟩ := h F' t ht
  exact ⟨hspares, hhas, fun w a hw => hP w a (hdone w a hw)⟩

theorem Sound.base (h : s.Sound F v P) (hu : u.Spares F v) : s.Sound F u P := by
  intro F' t ht
  obtain ⟨hspares, hrest⟩ := h F' t ht
  exact ⟨hu.trans hspares, hrest⟩

theorem Sound.others (h : s.Sound F u P) (ht : s.Leads F F' t) :
    ∀ i, i < u.trays.size → F' i → F i := by
  have hnew : ∀ {F : Nat → Prop} {w v : Engine τ} {i : Nat}, u.Spares F w →
      i < u.trays.size → Engine.newcomers F w v i → F i := by
    rintro F w v i hw hi (hF | ⟨hle, _⟩)
    · exact hF
    · exact absurd (Nat.lt_of_lt_of_le hi hw.size_le) (Nat.not_lt_of_le hle)
  induction ht with
  | here => exact fun _ _ h => h
  | @await F F' w v p k t line hv _ ih =>
    have hw := (h F _ (.here _ _)).1
    refine fun i hi hF' => hnew hw hi (ih (fun G t' ht' => ?_) i hi hF')
    obtain ⟨hspares, hrest⟩ := h G t' (.await line hv ht')
    exact ⟨hspares.mono fun _ _ => .inl, hrest⟩
  | @defer F F' w v k t hv _ ih =>
    have hw := (h F _ (.here _ _)).1
    refine fun i hi hF' => hnew hw hi (ih (fun G t' ht' => ?_) i hi hF')
    obtain ⟨hspares, hrest⟩ := h G t' (.defer hv ht')
    exact ⟨hspares.mono fun _ _ => .inl, hrest⟩

/-- **Soundness composes**: the second computation starts from a good value, in a world in which
the first one has spared what is not its own. -/
theorem Sound.andThen (hs : s.Sound F v P) (hu : u.Spares F v)
    (hf : ∀ G w a, (∀ i, F i → G i) → (∀ i, i < v.trays.size → G i → F i) → w.Has G →
      v.Spares F w → P w a → (f a w).Sound G u Q) : (s.andThen f).Sound F u Q := by
  intro F' t ht
  rcases leads_andThen ht with ⟨x, hx, hfinished, rfl⟩ | ⟨w, e, hx, rfl⟩ | ⟨G, w, a, hx, hrest⟩
  · obtain ⟨hspares, hhas, _⟩ := hs F' x hx
    cases x with
    | done | fail => cases hfinished
    | await w p k => exact ⟨hu.trans hspares, hhas, fun _ _ hdone => by cases hdone⟩
    | defer w k => exact ⟨hu.trans hspares, hhas, fun _ _ hdone => by cases hdone⟩
  · obtain ⟨hspares, hhas, _⟩ := hs F' _ hx
    exact ⟨hu.trans hspares, hhas, fun _ _ hdone => by cases hdone⟩
  · obtain ⟨hspares, hhas, hdone⟩ := hs G _ hx
    have hback := hs.others hx
    obtain ⟨hspares', hrest⟩ :=
      hf G w a hx.others hback hhas hspares (hdone w a rfl) F' t hrest
    refine ⟨hspares'.mono fun i hi hG => ?_, hrest⟩
    exact hback i (Nat.lt_of_lt_of_le hi hu.size_le) hG

end Step

/-! ## Collecting values -/

section Each

variable {f : Nat → ι → Comp (Engine τ) Value} {I : ι → Engine τ → Prop}
  {P : ι → Engine τ → Value → Prop} {F : Nat → Prop} {u w : Engine τ}
  (hI : ∀ x w v, w.KeepsTypes v → I x w → I x v)
  (hP : ∀ x w v b, w.KeepsTypes v → P x w b → P x v b)
  (hf : ∀ i x F w, w.Has F → I x w → (f i x w).Sound F w (P x))
include hI hP hf

/-- the tray belongs to the run: every item leaves it as it was, and adds one value -/
theorem sound_eachFrom {tray : Nat} (hu : u.trays.size ≤ tray) (i : Nat) (xs front : List ι)
    (bs : List Value) (hw : u.Spares F w) (hF : w.Has F) (htray : tray < w.trays.size)
    (hown : ¬ F tray) (hbs : w.contents tray = bs)
    (hfront : List.Forall₂ (fun x b => P x w b) front bs) (hxs : ∀ x ∈ xs, I x w) :
    (Comp.eachFrom f tray i xs w).Sound F u
      fun v bs => List.Forall₂ (fun x b => P x v b) (front ++ xs) bs := by
  induction xs generalizing i front bs w F with
  | nil =>
    refine Step.sound_done hw hF ?_
    rw [hbs, List.append_nil]
    exact hfront
  | cons x xs ih =>
    rw [Comp.eachFrom_cons]
    refine (hf i x F w hF (hxs x List.mem_cons_self)).andThen hw ?_
    intro G v b hFG hGF hG hwv hb
    have hlt : tray < v.trays.size := Nat.lt_of_lt_of_le htray hwv.size_le
    have hput : v.KeepsTypes (v.put tray b) := fun _ _ h => h
    have hsame : w.KeepsTypes (v.put tray b) := hwv.types.trans hput
    have hcontents : (v.put tray b).contents tray = bs ++ [b] := by
      rw [World.contents_put hlt, World.contents_congr (hwv.tray_eq tray htray hown), hbs]
    have hspares : u.Spares G (v.put tray b) := by
      have huv := hw.trans hwv
      refine ⟨by rw [World.size_put]; exact huv.size_le, fun j hj hGj => ?_,
        huv.types.trans hput⟩
      rw [World.getElem?_put_ne (Nat.ne_of_lt (Nat.lt_of_lt_of_le hj hu))]
      exact huv.tray_eq j hj fun hFj => hGj (hFG j hFj)
    have hfront' : List.Forall₂ (fun y c => P y (v.put tray b) c) (front ++ [x]) (bs ++ [b]) :=
      List.rel_append (hfront.imp fun y c hc => hP y w _ c hsame hc)
        (.cons (hP x v _ b hput hb) .nil)
    have h := ih (i + 1) (front ++ [x]) (bs ++ [b]) hspares
      (by intro j hj; rw [World.size_put]; exact hG j hj) (by rw [World.size_put]; exact hlt)
      (fun hGt => hown (hGF tray htray hGt)) hcontents hfront'
      (fun y hy => hI y w _ hsame (hxs y (List.mem_cons_of_mem _ hy)))
    rw [List.append_assoc] at h
    exact h

/-- **Collecting**: one value for each item, each of them good still when the last one is there. -/
theorem sound_each (xs : List ι) (hF : w.Has F) (hxs : ∀ x ∈ xs, I x w) :
    (Comp.each xs f w).Sound F w fun v bs => List.Forall₂ (fun x b => P x v b) xs bs := by
  have hsize := World.size_addTray w
  have hkeep : w.KeepsTypes w.addTray.2 := fun _ _ h => h
  have hspares : w.Spares F w.addTray.2 :=
    ⟨by rw [hsize]; exact Nat.le_succ _, fun _ hj _ => World.getElem?_addTray hj, hkeep⟩
  exact sound_eachFrom hI hP hf (Nat.le_refl _) 0 xs [] [] hspares (hF.mono hspares.size_le)
    (Nat.lt_of_lt_of_eq (Nat.lt_succ_self _) hsize.symm) (fun h => Nat.lt_irrefl _ (hF _ h))
    (World.contents_addTray w) .nil fun x hx => hI x w _ hkeep (hxs x hx)

end Each

end Overloading
