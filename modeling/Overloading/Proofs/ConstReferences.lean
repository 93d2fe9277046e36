import Overloading.Proofs.Dispatching
import Overloading.Proofs.StoreRuns

/-!
# Const references

A parameter marked `CLREF` takes the variable of the caller itself if that has the type of the
parameter, and else a variable that a conversion has made.  Constness is a property of a variable,
not of its cell, and preparing an argument does not touch it: the implementation of the callee may
store through a const reference exactly if the caller may store through what it has passed.

* `Store.Refuses`      no payload can be assigned to a variable;
* `Store.Made`         a variable has been made since, and shares its cell with none from before;
* `Catalog.sound_gets` a transfer hands over the variable it is given, or one that it has made;
* `const_references`   what a parameter marked as a const reference gets.
-/

namespace Overloading

open Grammar

variable {τ : Type}

namespace Store

variable {s s' s'' : Store} {x y : VarId}

/-! ## Assigning -/

/-- every assignment to a variable is refused, as it is a temporary or constant -/
def Refuses (s : Store) (y : VarId) : Prop :=
  ∀ raw, ∃ t, s.assign y raw = .error (.assignTemporary t) ∨
    s.assign y raw = .error (.constAssign t)

/-- what can be passed to a mutable reference is what can be assigned to -/
theorem refuses_iff {a : Arg} (h : s.asArg y = .ok a) : s.Refuses y ↔ a.ref ≠ .mutable := by
  unfold asArg at h
  cases hview : s.view y with
  | error e => rw [hview] at h; cases h
  | ok p =>
    obtain ⟨var, c⟩ := p
    rw [hview] at h
    cases h
    have hassign : ∀ raw, s.assign y raw = if c.holder = .temporary then
        .error (.assignTemporary var.type) else if var.const then .error (.constAssign var.type)
        else s.init y raw := by
      intro raw
      unfold assign
      rw [hview]
    by_cases htemp : c.holder = .temporary
    · simp only [htemp, if_true, ne_eq, reduceCtorEq, not_false_eq_true, iff_true]
      exact fun raw => ⟨_, .inl (by rw [hassign, if_pos htemp])⟩
    cases hconst : var.const with
    | true =>
      simp only [htemp, if_false, if_true, ne_eq, reduceCtorEq, not_false_eq_true, iff_true]
      exact fun raw => ⟨_, .inr (by rw [hassign, if_neg htemp, hconst, if_pos rfl])⟩
    | false =>
      simp only [htemp, Bool.false_eq_true, if_false, ne_eq, not_true_eq_false, iff_false]
      intro hrefuses
      obtain ⟨t, ht⟩ := hrefuses .nothing
      rw [hassign, if_neg htemp, hconst, if_neg (by decide), init, hview] at ht
      dsimp only at ht
      split at ht
      · unfold boundsFault at ht
        split at ht
        · split at ht <;> rcases ht with ht | ht <;> cases ht
        · rcases ht with ht | ht <;> cases ht
      · rcases ht with ht | ht <;> cases ht

/-! ## Variables made since -/

def Shares (s : Store) (x y : VarId) : Prop := ∃ c, s.cellOf x = some c ∧ s.cellOf y = some c

/-- a variable has been made since, and none that was there shares its cell -/
structure Made (s s' : Store) (y : VarId) : Prop where
  kept : ∀ z t, s.typeOf z = .ok t → s'.typeOf z = .ok t
  there : ∃ t, s'.typeOf y = .ok t
  own : ∀ z t, s.typeOf z = .ok t → ¬ s'.Shares z y

theorem cellOf_eq_some {c : CellId} :
    s.cellOf y = some c ↔ ∃ v, s.vars[y]? = some v ∧ v.cell = c := Option.map_eq_some_iff

theorem Adds.made {t : Ty} (h : s.Adds t y s') : s.Made s' y := by
  refine ⟨fun z t' hz => h.grows.typeOf hz, ⟨t, h.typeOf⟩, ?_⟩
  rintro z t' hz ⟨i, hzi, hyi⟩
  obtain ⟨s₀, c, hgrows, heq⟩ := h
  cases heq
  obtain ⟨v, hv, hlt, _⟩ := typeOf_eq_ok.mp (hgrows.typeOf hz)
  obtain ⟨v', hv', rfl⟩ := cellOf_eq_some.mp hzi
  obtain rfl : v = v' := Option.some.inj (((s₀.grows_fresh t c).vars z v hv).symm.trans hv')
  obtain ⟨new, hnew, hcell⟩ := cellOf_eq_some.mp hyi
  have hlast : (s₀.vars.push ⟨t, false, s₀.cells.size⟩)[s₀.vars.size]? = some new := hnew
  rw [Array.getElem?_push_size] at hlast
  cases hlast
  exact Nat.ne_of_lt hlt hcell.symm

/-- whatever is done to a store after, by its operations, the variable has its cell to itself -/
theorem Made.keeps (h : s.Made s' y) (hk : s'.Keeps s'') : s.Made s'' y := by
  have htypes : ∀ z t, s'.typeOf z = .ok t → s''.typeOf z = .ok t := by
    intro z t hz
    obtain ⟨v, hv, hlt, rfl⟩ := typeOf_eq_ok.mp hz
    obtain ⟨v', hv', htype, hcell⟩ := hk.vars z v hv
    obtain ⟨c', hc', _⟩ := hk.cells v.cell _ (Array.getElem?_eq_getElem hlt)
    rw [← htype]
    exact typeOf_eq_ok.mpr ⟨v', hv', by rw [hcell]; exact (Array.getElem?_eq_some_iff.mp hc').1,
      rfl⟩
  have hcells : ∀ z t c, s'.typeOf z = .ok t → s''.cellOf z = some c → s'.cellOf z = some c := by
    intro z t c hz hc
    obtain ⟨v, hv, _, _⟩ := typeOf_eq_ok.mp hz
    obtain ⟨v', hv', _, hcell⟩ := hk.vars z v hv
    obtain ⟨v'', hv'', rfl⟩ := cellOf_eq_some.mp hc
    obtain rfl : v' = v'' := Option.some.inj (hv'.symm.trans hv'')
    exact cellOf_eq_some.mpr ⟨v, hv, hcell.symm⟩
  obtain ⟨t, ht⟩ := h.there
  refine ⟨fun z t' hz => htypes z t' (h.kept z t' hz), ⟨t, htypes y t ht⟩, ?_⟩
  rintro z t' hz ⟨c, hzc, hyc⟩
  exact h.own z t' hz ⟨c, hcells z t' c (h.kept z t' hz) hzc, hcells y t c ht hyc⟩

end Store

/-! ## What is handed over -/

/-- a value is a variable that has been made since in some world, and types have been kept from
there on -/
def Engine.Anew (w u : Engine τ) (b : Value) : Prop :=
  ∃ (y : VarId) (v : Engine τ), b = some y ∧ w.state.store.Made v.state.store y ∧ v.KeepsTypes u

namespace Engine

variable {u v w : Engine τ} {b : Value}

theorem Anew.keep (h : w.Anew u b) (hv : u.KeepsTypes v) : w.Anew v b := by
  obtain ⟨y, u', hb, hmade, hu⟩ := h
  exact ⟨y, u', hb, hmade, hu.trans hv⟩

theorem Anew.base (h : v.Anew u b) (hw : w.KeepsTypes v) : w.Anew u b := by
  obtain ⟨y, u', hb, hmade, hu⟩ := h
  exact ⟨y, u', hb, ⟨fun z t hz => hmade.kept z t (hw z t hz), hmade.there,
    fun z t hz => hmade.own z t (hw z t hz)⟩, hu⟩

theorem anew_of_adds {t : Ty} {y : VarId} (h : w.state.store.Adds t y u.state.store) :
    w.Anew u (some y) := ⟨y, u, rfl, h.made, fun _ _ ht => ht⟩

end Engine

/-- the last step of a transfer is a call of a converting constructor -/
def Transfer.IsConstruct (tr : Transfer) : Prop :=
  ∃ t maker nested bindings returns, tr = .construct t maker nested bindings returns

namespace Catalog

variable {r : Catalog τ} {services : Services (Engine τ)} {F : Nat → Prop} {w : Engine τ}

/-- the implementations of converting constructors leave alone what is not theirs, and what they
give is as it should be, judged by the world they start from -/
def ConstructorsGive (r : Catalog τ) (services : Services (Engine τ))
    (P : Engine τ → Engine τ → Value → Prop) : Prop :=
  ∀ e ∈ r.conversions, ∀ o target, r.overloads[e.2]? = some o → o.target = some target →
    ∀ call : Call, call.declaration = o.toDeclaration →
      ∀ (vals : List Value) (F : Nat → Prop) (w : Engine τ), w.Has F →
        (target services call vals w).Sound F w (P w)

/-- the implementations of converting constructors leave alone what is not theirs -/
def Tidy (r : Catalog τ) (services : Services (Engine τ)) : Prop :=
  r.ConstructorsGive services fun _ _ _ => True

/-- the implementations of converting constructors give variables that they have made -/
def MakesAnew (r : Catalog τ) (services : Services (Engine τ)) : Prop :=
  r.ConstructorsGive services Engine.Anew

/-- what a transfer gets of a value: the value itself, or a variable that it has made -/
def Gets (r : Catalog τ) (services : Services (Engine τ)) (tr : Transfer) (w : Engine τ)
    (v : Value) (u : Engine τ) (b : Value) : Prop :=
  ∀ src dst, tr.Delivers src dst → w.TypedAs src v →
    tr = .borrow ∧ b = v ∨
      tr ≠ .borrow ∧ ((tr.IsConstruct → r.MakesAnew services) → w.Anew u b)

theorem Gets.of_anew {tr : Transfer} {v : Value} {u : Engine τ} {b : Value}
    (htr : tr ≠ .borrow) (h : (tr.IsConstruct → r.MakesAnew services) → w.Anew u b) :
    r.Gets services tr w v u b := fun _ _ _ _ => .inr ⟨htr, h⟩

theorem anew_objectOf {c : ClassTy} {names : List String} {vals : List Value} (hF : w.Has F) :
    (objectOf c names vals w).Sound F w fun u b => w.Anew u b := by
  unfold objectOf
  split
  · exact Step.sound_fail (.refl F w) hF
  · next members _ =>
    have hadds := w.state.store.adds_allocObject c members
    exact Step.sound_done (Engine.spares_of_grows rfl hadds.grows) hF (Engine.anew_of_adds hadds)

theorem anew_allocInitializerList {c : ClassTy} {vals : List Value} (hF : w.Has F) :
    (Comp.tryStore (fun s => (allocInitializerList c vals s).map fun r => (some r.1, r.2))
      w).Sound F w fun u b => w.Anew u b := by
  refine sound_tryStore hF fun b s hb => ?_
  cases hlist : allocInitializerList c vals w.state.store with
  | error e => rw [hlist] at hb; cases hb
  | ok p =>
    rw [hlist] at hb
    cases hb
    have hadds := adds_allocInitializerList hlist
    exact ⟨hadds.grows, fun u hu => Engine.anew_of_adds (hu ▸ hadds)⟩

theorem sound_maker {P : Engine τ → Engine τ → Value → Prop}
    (hP : ∀ w v u b, w.KeepsTypes v → P v u b → P w u b) (hgive : r.ConstructorsGive services P)
    {t : Ty} {maker : Candidate} {nested : List Transfer} {bindings : List (Nat × List String)}
    {returns : Option (List String)} {v : Value}
    (hmade : (Transfer.construct t maker nested bindings returns).MadeBy r.castRules)
    (hnested : ∀ tr ∈ nested, r.SafePreparer services tr) (hF : w.Has F) :
    (preparer r services (.construct t maker nested bindings returns) v w).Sound F w (P w) := by
  rw [Transfer.MadeBy] at hmade
  obtain ⟨hmaker, ⟨ts, hts⟩, _⟩ := hmade
  obtain ⟨e, he, hid⟩ := exists_conversion hmaker
  rw [preparer]
  refine sound_performWith hF (sound_each_preparers hF hnested) ?_
  intro o target call ho htarget hcall vals G u hG hu
  rw [← hid] at ho
  have hdecl := (returns_of_callOf hcall hts).1
  exact (hgive e he o target ho htarget call hdecl vals G u hG).mono fun v b hb => hP w u v b hu hb

mutual
/-- **A transfer** hands over the variable it is given, if it borrows, and else one that it has
made; a constructor is as good as its implementation. -/
theorem sound_gets (htidy : r.Tidy services) : ∀ tr : Transfer, tr.MadeBy r.castRules →
    ∀ (v : Value) (F : Nat → Prop) (w : Engine τ), w.Has F →
      (preparer r services tr v w).Sound F w (r.Gets services tr w v)
  | .borrow, _ => fun v F w hF => by
    rw [preparer]
    exact Step.sound_done (.refl F w) hF fun _ _ _ _ => .inl ⟨rfl, rfl⟩
  | .clone, _ => fun v F w hF => by
    rw [preparer]
    refine sound_fromValue hF fun x y s hx hy => ?_
    obtain ⟨_, _, hadds⟩ := Store.adds_clone hy
    exact ⟨hadds.grows, fun u hu => .of_anew nofun fun _ => Engine.anew_of_adds (hu ▸ hadds)⟩
  | .decay t, _ => fun v F w hF => by
    rw [preparer]
    refine sound_fromValue hF fun x y s hx hy => ⟨(Store.builds_decay hy).grows, fun u hu => ?_⟩
    intro src dst hdel hsrc
    rw [hx, Engine.typedAs_some] at hsrc
    have hadds := adds_of_decays hdel hsrc hy
    exact .inr ⟨nofun, fun _ => Engine.anew_of_adds (hu ▸ hadds)⟩
  | .numeric t, _ => fun v F w hF => by
    rw [preparer]
    cases hk : t.kind? with
    | none => exact Step.sound_fail (.refl F w) hF
    | some k =>
      refine sound_fromValue hF fun x y s _ hy => ?_
      have hadds := Store.adds_convert hy
      exact ⟨hadds.grows, fun u hu => .of_anew nofun fun _ => Engine.anew_of_adds (hu ▸ hadds)⟩
  | .construct t maker nested bindings returns, hmade => fun v F w hF => by
    have hnested : ∀ tr ∈ nested, r.SafePreparer services tr := by
      rw [Transfer.MadeBy] at hmade
      exact safe_preparers htidy nested hmade.2.2
    by_cases hanew : r.MakesAnew services
    · exact (sound_maker (fun _ _ _ _ hw hb => hb.base hw) hanew hmade hnested hF).mono
        fun _ _ hb => .of_anew nofun fun _ => hb
    · refine (sound_maker (fun _ _ _ _ _ hb => hb) htidy hmade hnested hF).mono
        fun _ _ _ => .of_anew nofun fun h => ?_
      exact absurd (h ⟨_, _, _, _, _, rfl⟩) hanew
  | .braces t shape elements, hmade => fun v F w hF => by
    rw [Transfer.MadeBy] at hmade
    rw [preparer]
    refine sound_fillFromBraces hF (safe_preparers htidy elements hmade)
      fun c _ G u vals hG hu => ⟨?_, fun names => ?_⟩
    · exact (anew_allocInitializerList hG).mono fun _ _ hb => .of_anew nofun fun _ => hb.base hu
    · exact (anew_objectOf hG).mono fun _ _ hb => .of_anew nofun fun _ => hb.base hu
  | .unregistered t, _ => fun v F w hF => by
    rw [preparer]
    exact Step.sound_fail (.refl F w) hF
  | .unsupported t, _ => fun v F w hF => by
    rw [preparer.eq_def]
    cases v with
    | none => exact Step.sound_fail (.refl F w) hF
    | some x =>
      refine sound_tryStore hF fun b s hb => ?_
      split at hb <;> cases hb

theorem safe_preparers (htidy : r.Tidy services) : ∀ trs : List Transfer,
    Transfer.MadeByAll r.castRules trs → ∀ tr ∈ trs, r.SafePreparer services tr
  | [], _ => List.forall_mem_nil _
  | a :: as, hmade => by
    rw [Transfer.MadeByAll] at hmade
    exact List.forall_mem_cons.mpr
      ⟨fun v F w hF => (sound_gets htidy a hmade.1 v F w hF).mono fun _ _ _ => trivial,
        safe_preparers htidy as hmade.2⟩
end

/-- **The preparation of a call**: each position gets the caller's variable, or one made for it. -/
theorem sound_preparation_gets (htidy : r.Tidy services) {trs : List Transfer}
    {args : List Value} (hmade : Transfer.MadeByAll r.castRules trs) (hF : w.Has F) :
    (Comp.each ((preparers r services trs).zip args) (fun _ p => p.1 p.2) w).Sound F w
      fun u vals => List.Forall₂ (fun p b => ∀ tr, p.1 = preparer r services tr →
        tr.MadeBy r.castRules → r.Gets services tr w p.2 u b)
        ((preparers r services trs).zip args) vals := by
  refine sound_preparing (Q := r.Gets services) ?_ ?_ (sound_gets htidy) hmade hF
  · intro tr w v u u' b hu hb src dst hdel hsrc
    rcases hb src dst hdel hsrc with heq | ⟨htr, hanew⟩
    · exact .inl heq
    · exact .inr ⟨htr, fun h => (hanew h).keep hu⟩
  · intro tr w w' v u b hw hb src dst hdel hsrc
    rcases hb src dst hdel (hsrc.keep hw) with heq | ⟨htr, hanew⟩
    · exact .inl heq
    · exact .inr ⟨htr, fun h => (hanew h).base hw⟩

theorem gets_of_getElem? {B : Nat → Option (List String)} {v : Engine τ} {args : List Value}
    {as : List Arg} {params : List Tree} {trs : List Transfer} {vals : List Value}
    (hargs : List.Forall₂ (fun b a => w.TypedAs a.type b) args as)
    (hmade : Transfer.MadeByAll r.castRules trs)
    (hdel : List.Forall₂ (fun x tr => Delivered B x.1 x.2 tr) (as.zip params) trs)
    (hvals : List.Forall₂ (fun p b => ∀ tr, p.1 = preparer r services tr →
      tr.MadeBy r.castRules → r.Gets services tr w p.2 v b) ((preparers r services trs).zip args)
      vals)
    {i : Nat} {formal : Tree} {arg : Value} (hp : params[i]? = some formal)
    (harg : args[i]? = some arg) :
    ∃ a tr b, as[i]? = some a ∧ trs[i]? = some tr ∧ vals[i]? = some b ∧
      (tr = .borrow ∧ b = arg ∨
        tr ≠ .borrow ∧ ((tr.IsConstruct → r.MakesAnew services) → w.Anew v b)) := by
  obtain ⟨a, ha, htyped⟩ := exists_getElem?_of_forall₂ hargs harg
  have hzip : (as.zip params)[i]? = some (a, formal) := List.getElem?_zip_eq_some.mpr ⟨ha, hp⟩
  obtain ⟨tr, htr, ty, _, _, hdelivers⟩ := exists_getElem?_of_forall₂ hdel hzip
  have hpreparer : (preparers r services trs)[i]? = some (preparer r services tr) := by
    rw [preparers_eq_map, List.getElem?_map, htr, Option.map_some]
  have hitem : ((preparers r services trs).zip args)[i]? = some (preparer r services tr, arg) :=
    List.getElem?_zip_eq_some.mpr ⟨hpreparer, harg⟩
  obtain ⟨b, hb, hgets⟩ := exists_getElem?_of_forall₂ hvals hitem
  exact ⟨a, tr, b, ha, htr, hb,
    hgets tr rfl (hmade.of_mem (List.mem_of_getElem? htr)) _ _ hdelivers htyped⟩

end Catalog

theorem Store.exists_asArg {s : Store} {y : VarId} {t : Ty} (h : s.typeOf y = .ok t) :
    ∃ a, s.asArg y = .ok a ∧ a.type = t := by
  unfold Store.typeOf at h
  unfold Store.asArg
  cases hview : s.view y with
  | error e => rw [hview] at h; cases h
  | ok p =>
    rw [hview] at h
    cases h
    exact ⟨_, rfl, rfl⟩

/-- **Const references**: the implementation of a resolved call gets what the preparation of the
arguments has come to.  For a parameter marked as a const reference that is the very variable of the
caller, if it is borrowed, as it then is: it refuses to be assigned to unless it can be passed on to
a mutable reference.  Else a conversion to the type of the parameter has made it, and its cell is
its own: as long as the store is changed by its operations only, it shares none with the caller's
variable. -/
theorem const_references {r : Catalog τ} {services : Services (Engine τ)} (hr : r.Reachable)
    (htidy : r.Tidy services) {domain name : String} {explicit : List Ty}
    {args : List Value} {as : List Arg} {w : Engine τ} (hexplicit : ∀ t ∈ explicit, t.WellFormed)
    (hargs : w.state.store.asArgs args = .ok as) (hwell : ∀ a ∈ as, a.type.WellFormed)
    {sel : Selection} {records : List Record} {o : Overload τ} {target : Implementation τ}
    (hsel : r.resolve domain name as explicit = .ok (sel, records))
    (ho : r.overloads[sel.overload]? = some o) (htarget : o.target = some target) :
    r.dispatchIn services domain name explicit args w =
        (r.preparation services sel args (w.note records)).andThen
          (Catalog.handOver services target o.toDeclaration sel.plan) ∧
      ∀ (F F' : Nat → Prop) (v : Engine τ) (vals : List Value), w.Has F →
        (r.preparation services sel args (w.note records)).Leads F F' (.done v vals) →
        ∀ (i : Nat) (formal : Tree) (x : VarId), o.signature.params[i]? = some formal →
          formal.splitRef.1 = .constant → args[i]? = some (some x) →
          ∃ tr ty b, sel.plan.transfers[i]? = some tr ∧ vals[i]? = some b ∧
            formal.splitRef.2.typeUnder? (fun id => sel.plan.bindings.lookup id) = some ty ∧
            (tr = .borrow ∧ b = some x ∧
                (∃ a, v.state.store.asArg x = .ok a ∧ a.type = ty ∧
                  (v.state.store.Refuses x ↔ a.ref ≠ .mutable)) ∨
              tr.target? = some ty ∧ ((tr.IsConstruct → r.MakesAnew services) →
                ∃ (y : VarId) (u : Engine τ), b = some y ∧
                  w.state.store.Made u.state.store y ∧ u.KeepsTypes v ∧
                  (u.state.store.Keeps v.state.store → ¬ v.state.store.Shares x y))) := by
  obtain ⟨call, o', hcall, ho', hadmits⟩ := Catalog.resolve_eq_ok hsel
  obtain rfl : o = o' := Option.some.inj (ho.symm.trans (Catalog.mem_overloadsOf.mp ho').1)
  obtain ⟨⟨src, strict, hsup⟩, hfun⟩ := hr.compiled _ o ho
  have hfrom := compiledFrom_of_compile (by decide) hsup
  obtain ⟨hlen, hreach, hdel⟩ := reached_of_admits hwell hexplicit hcall hfrom hfun hadmits
  have hmade := madeBy_of_admitsWith (delivers_of_cast r.castRules) hadmits
  have htyped := typed_of_asArgs hargs
  have hcount : args.length = (Catalog.preparers r services sel.plan.transfers).length := by
    rw [Catalog.preparers_eq_map, List.length_map, ← hdel.length_eq, List.length_zip, ← hlen,
      Nat.min_self, htyped.length_eq]
  refine ⟨?_, fun F F' v vals hF hrun i formal x hp hmark hx => ?_⟩
  · rw [(Catalog.dispatchIn_eq hargs).2 sel records hsel, Catalog.performIn,
      Catalog.performWith_eq ho hcount htarget]
    rfl
  obtain ⟨hspares, _, hgets⟩ := Catalog.sound_preparation_gets (w := w.note records) htidy hmade
    hF F' _ hrun
  obtain ⟨a, tr, b, ha, htr, hb, hcases⟩ :=
    Catalog.gets_of_getElem? htyped hmade hdel (hgets v vals rfl) hp hx
  have hhead : formal.isHead = false := by
    cases formal with
    | head => cases hmark
    | leaf | branch => rfl
  have hzip : (as.zip o.signature.params)[i]? = some (a, formal) :=
    List.getElem?_zip_eq_some.mpr ⟨ha, hp⟩
  obtain ⟨ty, hty, hpasses⟩ := (forall₂_getElem? hreach hzip htr).typed hhead
  rw [hmark] at hpasses
  have hcaller := Engine.typedAs_some.mp (forall₂_getElem? htyped hx ha)
  refine ⟨tr, ty, b, htr, hb, hty, ?_⟩
  rcases hcases with ⟨rfl, rfl⟩ | ⟨hne, hanew⟩
  · have heq : a.type = ty := by
      rcases hpasses with h | h
      · exact h.2
      · cases h
    obtain ⟨a', ha', htype⟩ := Store.exists_asArg (hspares.types x _ hcaller)
    exact .inl ⟨rfl, rfl, a', ha', htype.trans heq, Store.refuses_iff ha'⟩
  · refine .inr ⟨hpasses.resolve_left fun h => hne h.1, fun h => ?_⟩
    obtain ⟨y, u, hy, hown, hu⟩ := hanew h
    exact ⟨y, u, hy, hown, hu, fun hk => (hown.keeps hk).own x _ hcaller⟩

/-! ## A mutable variable behind a const reference -/

def markedWord (alt : Nat) (marker : String) : Tree :=
  .branch Symbol.paramObject alt [.leaf marker ⟨marker, none⟩, .branch Symbol.object 0 [wordTree]]

/-- `FUNCTION VOID ( CLREF I32 )` -/
def readingProcedure : Signature :=
  ⟨["FUNCTION", "VOID", "(", "CLREF", "I32", ")"], [],
    Binding.ofTexts ["FUNCTION", "VOID", "(", "CLREF", "I32", ")"], Symbol.function,
    procedureTree (paramsTree [markedWord 3 Keyword.clref])⟩

def lvalueCall : Signature :=
  ⟨openCallForm [⟨.arith .i32, .mutable⟩], [], callTokens [[⟨"LREF", none⟩, ⟨"I32", none⟩]],
    Symbol.function, callTree (paramsTree [markedWord 2 Keyword.lref])⟩

theorem formed_markedWord {alt : Nat} {marker : String} (hk : marker ∈ signatureKeywords)
    (halt : (alternatives Symbol.paramObject)[alt]? = some [marker, Symbol.object]) :
    (markedWord alt marker).Formed ∧ (markedWord alt marker).symbol = Symbol.paramObject := by
  have hmarker := (spells_keyword hk).formed
  have hobject : (Tree.branch Symbol.object 0 [wordTree]).Formed :=
    formed_single (by decide) formed_wordTree
  exact ⟨formed_branch.mpr ⟨halt, by simpa using ⟨hmarker, hobject⟩⟩, rfl⟩

theorem compile_readingProcedure :
    signature.compileText "FUNCTION VOID ( CLREF I32 )" Symbol.function true =
      .ok readingProcedure := by
  have hparams := formed_paramsTree (l := [markedWord 3 Keyword.clref])
    (by simpa using formed_markedWord (by decide) (by decide))
  exact compile_of_formed readingProcedure.source true ⟨[], readingProcedure.tokens⟩ (by decide)
    (prepareBody_signature (by rintro ⟨_, _, _, _, _, _, _⟩ rfl; rfl))
    (formed_procedureTree hparams.1 hparams.2) rfl rfl

theorem compile_lvalueCall :
    signature.compile (openCallForm [⟨.arith .i32, .mutable⟩]) Symbol.function false =
      .ok lvalueCall := by
  have hparams := formed_paramsTree (l := [markedWord 2 Keyword.lref])
    (by simpa using formed_markedWord (by decide) (by decide))
  exact compile_of_formed _ false ⟨[], callTokens [[⟨"LREF", none⟩, ⟨"I32", none⟩]]⟩ (by decide)
    (prepareBody_signature (by rintro ⟨_, _, _, _, _, _, _⟩ rfl; rfl))
    (formed_callTree hparams.1 hparams.2) rfl rfl

def localWorld : Engine Unit := World.new ⟨(Store.empty.allocLocal (.arith .i32) (.int 1)).2, ()⟩

/-- a procedure that takes a const reference is called with a mutable variable: it gets that
variable, and can assign to it -/
theorem const_references_mutable : ∃ (r : Catalog Unit) (sel : Selection) (records : List Record)
    (v : Engine Unit), r.Reachable ∧ r.Tidy (r.services 1) ∧
      r.resolve globalDomain "f" [⟨.arith .i32, .mutable⟩] [] = .ok (sel, records) ∧
      (r.preparation (r.services 1) sel [some 0] (localWorld.note records)).Leads
        (fun _ => False) (fun _ => False) (.done v [some 0]) ∧
      ¬ v.state.store.Refuses 0 := by
  obtain ⟨r, _, hnew⟩ := Catalog.exists_new Unit
  obtain ⟨hconfig, _, _, hnone⟩ := Catalog.new_spec hnew
  let procedure : Overload Unit :=
    ⟨⟨globalDomain, "f", readingProcedure⟩, some fun _ _ _ => Comp.done none⟩
  have hnil : r.overloadsOf globalDomain "f" = [] := hnone _ _ (by decide)
  have hcompile := compile_readingProcedure
  rw [show true = r.config.strictWildcards by rw [hconfig]; rfl] at hcompile
  have hr : (r.addOverload procedure).Reachable := by
    refine .declare (.new hnew) (Catalog.declare_fresh _ hcompile rfl ?_)
    rw [Catalog.declared?, hnil]
    rfl
  have hos : (r.addOverload procedure).overloadsOf globalDomain "f" =
      [(procedure, r.overloads.size)] := by
    rw [Catalog.overloadsOf_addOverload, hnil]
    rfl
  have htidy : (r.addOverload procedure).Tidy ((r.addOverload procedure).services 1) := by
    have hprocedure : Catalog.isConversion procedure.toDeclaration = false := by decide
    have hconversions : (r.addOverload procedure).conversions = [] := by
      simp [Catalog.addOverload, hprocedure, Catalog.conversions_new hnew]
    intro e he
    rw [hconversions] at he
    cases he
  let plan : Match := ⟨[.borrow], [], some ["VOID"]⟩
  have hresolve : (r.addOverload procedure).resolve globalDomain "f" [⟨.arith .i32, .mutable⟩] [] =
      .ok (⟨r.overloads.size, plan⟩, [Catalog.resolvedRecord procedure.toDeclaration plan]) := by
    have hadmits : (r.addOverload procedure).castRules.admits lvalueCall readingProcedure [] =
        .ok (some plan) := rfl
    refine Catalog.resolve_of_search ?_
    rw [Catalog.search_eq [] compile_lvalueCall, hos, Catalog.firstAdmitting]
    simp only [List.map_nil, procedure, hadmits]
  let records := [Catalog.resolvedRecord procedure.toDeclaration plan]
  let v : Engine Unit := (localWorld.note records).addTray.2.put 0 (some 0)
  have hprepared : (r.addOverload procedure).preparation ((r.addOverload procedure).services 1)
      ⟨r.overloads.size, plan⟩ [some 0] (localWorld.note records) = .done v [some 0] := by
    have hborrow : Catalog.preparer (r.addOverload procedure)
        ((r.addOverload procedure).services 1) .borrow = Comp.done :=
      funext fun _ => by rw [Catalog.preparer]
    rw [Catalog.preparation, Catalog.preparers_eq_map, List.map_singleton, hborrow]
    rfl
  have hrun : ((r.addOverload procedure).preparation ((r.addOverload procedure).services 1)
      ⟨r.overloads.size, plan⟩ [some 0] (localWorld.note records)).Leads (fun _ => False)
      (fun _ => False) (.done v [some 0]) := hprepared ▸ .here _ _
  have hargs : localWorld.state.store.asArgs [some 0] = .ok [⟨.arith .i32, .mutable⟩] := rfl
  have hover := (Catalog.mem_overloadsOf.mp (hos ▸ List.mem_singleton_self _)).1
  obtain ⟨-, hruns⟩ := const_references hr htidy (List.forall_mem_nil _) hargs
    (by rw [List.forall_mem_singleton]; trivial) hresolve hover rfl
  obtain ⟨tr, ty, _, htr, _, _, hcases⟩ := hruns (fun _ => False) (fun _ => False) v [some 0]
    (fun _ h => h.elim) hrun 0 (markedWord 3 Keyword.clref) 0 rfl rfl rfl
  obtain rfl : .borrow = tr := Option.some.inj htr
  refine ⟨_, _, records, v, hr, htidy, hresolve, hrun, fun h => ?_⟩
  rcases hcases with ⟨_, _, a, ha, _, hrefuses⟩ | ⟨htarget, _⟩
  · obtain rfl : ⟨.arith .i32, .mutable⟩ = a := Except.ok.inj ha
    exact hrefuses.mp h rfl
  · cases htarget

end Overloading
