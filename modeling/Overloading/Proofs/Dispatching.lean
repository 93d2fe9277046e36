import Overloading.Proofs.Delivery
import Overloading.Proofs.LinearRuns
import Overloading.Proofs.Lookup

/-!
# Dispatching keeps types

A dispatch resolves a call, prepares the arguments as the plan says, and hands them over.  The plan
has been made from types alone; here its transfers are run, on values, through suspensions and
nested constructors.

* `Catalog.Converts`    the implementations of converting constructors give what their calls
                        return;
* `sound_preparer`      a transfer gives a variable of the type it delivers;
* `dispatch_types`      whatever a linear run of a dispatch comes to, the implementation gets one
                        variable for each parameter, of the type the parameter has, or is not run.
-/

namespace Overloading

open Grammar

variable {τ : Type}

def Engine.TypedAs (w : Engine τ) (ty : Ty) (b : Value) : Prop :=
  ∃ x, b = some x ∧ w.state.store.typeOf x = .ok ty

theorem Engine.TypedAs.keep {w v : Engine τ} {ty : Ty} {b : Value} (h : w.TypedAs ty b)
    (hv : w.KeepsTypes v) : v.TypedAs ty b := by
  obtain ⟨x, hx, hty⟩ := h
  exact ⟨x, hx, hv x ty hty⟩

theorem Engine.typedAs_some {w : Engine τ} {ty : Ty} {x : VarId} :
    w.TypedAs ty (some x) ↔ w.state.store.typeOf x = .ok ty := by
  constructor
  · rintro ⟨y, hy, hty⟩
    cases hy
    exact hty
  · exact fun hty => ⟨x, rfl, hty⟩

theorem typed_of_asArgs {w : Engine τ} {args : List Value} {as : List Arg}
    (h : w.state.store.asArgs args = .ok as) :
    List.Forall₂ (fun v a => w.TypedAs a.type v) args as := by
  induction args generalizing as with
  | nil =>
    cases h
    exact .nil
  | cons v args ih =>
    cases v with
    | none => cases h
    | some x =>
      rw [Store.asArgs] at h
      cases ha : w.state.store.asArg x with
      | error e => rw [ha] at h; cases h
      | ok a =>
        rw [ha] at h
        dsimp only at h
        cases hrest : w.state.store.asArgs args with
        | error e => rw [hrest] at h; cases h
        | ok rest =>
          rw [hrest] at h
          cases h
          refine .cons ⟨x, rfl, ?_⟩ (ih hrest)
          unfold Store.asArg at ha
          unfold Store.typeOf
          cases hview : w.state.store.view x with
          | error e => rw [hview] at ha; cases ha
          | ok p =>
            rw [hview] at ha
            cases ha
            rfl

/-! ## Actions on the store -/

section Actions

variable {α : Type} {F : Nat → Prop} {w : Engine τ} {P : Engine τ → α → Prop}

theorem sound_tryStore {f : Store → Except Fault (α × Store)} (hF : w.Has F)
    (h : ∀ a s, f w.state.store = .ok (a, s) →
      w.state.store.Grows s ∧ ∀ u : Engine τ, u.state.store = s → P u a) :
    (Comp.tryStore f w).Sound F w P := by
  unfold Comp.tryStore
  cases hf : f w.state.store with
  | error e => exact Step.sound_fail (.refl F w) hF
  | ok r =>
    obtain ⟨hgrows, hP⟩ := h r.1 r.2 hf
    exact Step.sound_done (Engine.spares_of_grows rfl hgrows) hF (hP _ rfl)

theorem sound_fromValue {P : Engine τ → Value → Prop} {v : Value}
    {f : VarId → Store → Except Fault (VarId × Store)} (hF : w.Has F)
    (h : ∀ x y s, v = some x → f x w.state.store = .ok (y, s) →
      w.state.store.Grows s ∧ ∀ u : Engine τ, u.state.store = s → P u (some y)) :
    (Comp.fromValue v f w).Sound F w P := by
  cases v with
  | none => exact Step.sound_fail (.refl F w) hF
  | some x =>
    show (Comp.tryStore (fun s => (f x s).map fun r => (some r.1, r.2)) w).Sound F w P
    refine sound_tryStore hF fun b s hb => ?_
    cases hf : f x w.state.store with
    | error e => rw [hf] at hb; cases hb
    | ok r =>
      rw [hf] at hb
      cases hb
      exact h x r.1 r.2 rfl hf

theorem sound_objectOf {c : ClassTy} {names : List String} {vals : List Value} (hF : w.Has F) :
    (Catalog.objectOf c names vals w).Sound F w fun u b => u.TypedAs (.cls c) b := by
  unfold Catalog.objectOf
  split
  · exact Step.sound_fail (.refl F w) hF
  · next members _ =>
    have hadds := w.state.store.adds_allocObject c members
    exact Step.sound_done (Engine.spares_of_grows rfl hadds.grows) hF ⟨_, rfl, hadds.typeOf⟩

end Actions

namespace Catalog

variable {r : Catalog τ} {services : Services (Engine τ)} {F : Nat → Prop} {w : Engine τ}

/-! ## Calls -/

def preparation (r : Catalog τ) (services : Services (Engine τ)) (sel : Selection)
    (args : List Value) : Comp (Engine τ) (List Value) :=
  Comp.each ((preparers r services sel.plan.transfers).zip args) fun _ p => p.1 p.2

def handOver (services : Services (Engine τ)) (target : Implementation τ) (d : Declaration)
    (plan : Match) (vals : List Value) : Comp (Engine τ) Value :=
  match callOf d plan with
  | .error e => Comp.fail e
  | .ok call => target services call vals

theorem handOver_eq {target : Implementation τ} {d : Declaration} {plan : Match} {call : Call}
    (h : callOf d plan = .ok call) (vals : List Value) :
    handOver services target d plan vals = target services call vals := by
  unfold handOver
  rw [h]

/-- the implementations of converting constructors leave alone what is not theirs, and give a
variable of the type that their call returns -/
def Converts (r : Catalog τ) (services : Services (Engine τ)) : Prop :=
  ∀ e ∈ r.conversions, ∀ o target, r.overloads[e.2]? = some o → o.target = some target →
    ∀ (call : Call) (ty : Ty), call.declaration = o.toDeclaration → call.returns = some ty →
      ∀ (vals : List Value) (F : Nat → Prop) (w : Engine τ), w.Has F →
        (target services call vals w).Sound F w fun u b => u.TypedAs ty b

theorem dispatchIn_eq {domain name : String} {explicit : List Ty} {args : List Value}
    {as : List Arg} (hargs : w.state.store.asArgs args = .ok as) :
    (∀ e, r.resolve domain name as explicit = .error e →
      r.dispatchIn services domain name explicit args w = .fail w e) ∧
    ∀ sel records, r.resolve domain name as explicit = .ok (sel, records) →
      r.dispatchIn services domain name explicit args w =
        r.performIn services sel args (w.note records) := by
  have hbind : ∀ f : List Arg → Except Fault (Selection × List Record),
      (w.state.store.asArgs args).bind f = f as := fun f => by rw [hargs]; rfl
  refine ⟨fun e he => ?_, fun sel records hsel => ?_⟩
  · rw [dispatchIn.eq_def, hbind, he]
  · rw [dispatchIn.eq_def, hbind, hsel]

theorem performWith_eq {overload : Nat} {o : Overload τ} {target : Implementation τ}
    {prepare : List (Value → Comp (Engine τ) Value)} {plan : Match} {args : List Value}
    (ho : r.overloads[overload]? = some o) (hlen : args.length = prepare.length)
    (htarget : o.target = some target) :
    r.performWith services overload prepare plan args =
      (Comp.each (prepare.zip args) fun _ p => p.1 p.2).andThen
        (handOver services target o.toDeclaration plan) := by
  unfold performWith
  rw [ho]
  dsimp only
  rw [if_neg (not_not.mpr hlen), htarget]
  rfl

theorem returns_of_callOf {d : Declaration} {m : Match} {call : Call} {ts : List String}
    (h : callOf d m = .ok call) (hts : m.returns = some ts) :
    call.declaration = d ∧
      ∃ ty, call.returns = some ty ∧ signature.readType (Match.withoutMarker ts) = .ok ty := by
  unfold callOf at h
  rw [hts] at h
  obtain ⟨returns, hreturns, h⟩ := bind_eq_ok.mp h
  cases h
  refine ⟨rfl, ?_⟩
  have hresult : m.resultType = signature.readType (Match.withoutMarker ts) := by
    unfold Match.resultType
    rw [hts]
  rw [hresult] at hreturns
  cases hread : signature.readType (Match.withoutMarker ts) with
  | error e => rw [hread] at hreturns; cases hreturns
  | ok ty =>
    rw [hread] at hreturns
    cases hreturns
    exact ⟨ty, rfl, rfl⟩

theorem sound_performWith {P : Engine τ → Value → Prop} {overload : Nat}
    {prepare : List (Value → Comp (Engine τ) Value)} {plan : Match} {args : List Value}
    (hF : w.Has F)
    (hprepare : (Comp.each (prepare.zip args) (fun _ p => p.1 p.2) w).Sound F w fun _ _ => True)
    (htarget : ∀ o target call, r.overloads[overload]? = some o → o.target = some target →
      callOf o.toDeclaration plan = .ok call → ∀ (vals : List Value) (G : Nat → Prop)
        (u : Engine τ), u.Has G → w.KeepsTypes u → (target services call vals u).Sound G u P) :
    (r.performWith services overload prepare plan args w).Sound F w P := by
  cases ho : r.overloads[overload]? with
  | none =>
    unfold performWith
    rw [ho]
    exact Step.sound_fail (.refl F w) hF
  | some o =>
    by_cases hlen : args.length = prepare.length
    · cases ht : o.target with
      | none =>
        unfold performWith
        rw [ho]
        dsimp only
        rw [if_neg (not_not.mpr hlen), ht]
        exact Step.sound_fail (.refl F w) hF
      | some target =>
        rw [performWith_eq ho hlen ht]
        refine hprepare.andThen (.refl F w) fun G u vals hFG _ hG hspares _ => ?_
        have hspares := hspares.mono (G := G) fun i _ hi => hFG i hi
        unfold handOver
        cases hcall : callOf o.toDeclaration plan with
        | error e => exact Step.sound_fail hspares hG
        | ok call =>
          exact (htarget o target call ho ht hcall vals G u hG hspares.types).base hspares
    · unfold performWith
      rw [ho]
      dsimp only
      rw [if_pos hlen]
      exact Step.sound_fail (.refl F w) hF

theorem exists_conversion {maker : Candidate}
    (h : ∃ u c, r.castRules.user = some u ∧ maker ∈ u.constructors c) :
    ∃ e ∈ r.conversions, e.2 = maker.id := by
  obtain ⟨u, c, hu, hmaker⟩ := h
  cases hu
  obtain ⟨e, he, heq⟩ := List.mem_filterMap.mp hmaker
  refine ⟨e, he, ?_⟩
  split at heq
  · obtain ⟨o, _, rfl⟩ := Option.map_eq_some_iff.mp heq
    rfl
  · cases heq

/-! ## Transfers -/

/-- what a transfer makes of a value: a variable of the type it delivers -/
def Makes (tr : Transfer) (w : Engine τ) (v : Value) (u : Engine τ) (b : Value) : Prop :=
  ∀ src dst, tr.Delivers src dst → dst.WellFormed → w.TypedAs src v → u.TypedAs dst b

/-- a transfer can be run on any value in any world -/
def SoundPreparer (r : Catalog τ) (services : Services (Engine τ)) (tr : Transfer) : Prop :=
  ∀ (v : Value) (F : Nat → Prop) (w : Engine τ), w.Has F →
    (preparer r services tr v w).Sound F w (Makes tr w v)

/-- a transfer leaves alone what is not its own, whatever it makes -/
def SafePreparer (r : Catalog τ) (services : Services (Engine τ)) (tr : Transfer) : Prop :=
  ∀ (v : Value) (F : Nat → Prop) (w : Engine τ), w.Has F →
    (preparer r services tr v w).Sound F w fun _ _ => True

theorem SoundPreparer.safe {tr : Transfer} (h : r.SoundPreparer services tr) :
    r.SafePreparer services tr := fun v F w hF => (h v F w hF).mono fun _ _ _ => trivial

theorem preparers_eq_map (trs : List Transfer) :
    preparers r services trs = trs.map (preparer r services) := by
  induction trs with
  | nil => rw [preparers]; rfl
  | cons tr trs ih => rw [preparers, ih]; rfl

def IsPreparer (r : Catalog τ) (services : Services (Engine τ)) (trs : List Transfer)
    (p : (Value → Comp (Engine τ) Value) × Value) : Prop :=
  ∃ tr ∈ trs, p.1 = preparer r services tr

theorem isPreparer_of_mem {trs : List Transfer} {vs : List Value}
    {p : (Value → Comp (Engine τ) Value) × Value}
    (h : p ∈ (preparers r services trs).zip vs) : r.IsPreparer services trs p := by
  rw [preparers_eq_map] at h
  obtain ⟨tr, htr, heq⟩ := List.mem_map.mp (List.of_mem_zip h).1
  exact ⟨tr, htr, heq.symm⟩

theorem sound_each_preparers {trs : List Transfer} {vs : List Value} (hF : w.Has F)
    (h : ∀ tr ∈ trs, r.SafePreparer services tr) :
    (Comp.each ((preparers r services trs).zip vs) (fun _ p => p.1 p.2) w).Sound F w
      fun _ _ => True := by
  have hall := sound_each (I := fun p _ => r.IsPreparer services trs p) (P := fun _ _ _ => True)
    (f := fun _ p => p.1 p.2) (fun _ _ _ _ hp => hp) (fun _ _ _ _ _ _ => trivial)
    (fun _ p G u hG hp => by
      obtain ⟨tr, htr, heq⟩ := hp
      rw [heq]
      exact h tr htr p.2 G u hG)
    ((preparers r services trs).zip vs) hF fun p hp => isPreparer_of_mem hp
  exact hall.mono fun _ _ _ => trivial

theorem withoutMarker_class (c : ClassTy) : Match.withoutMarker c.tokens = (Ty.cls c).tokens := by
  obtain ⟨n, as, o⟩ := c
  rw [Ty.tokens, ClassTy.tokens, Match.withoutMarker, if_neg (by decide)]

theorem sound_construct (hconv : r.Converts services) {t : Ty} {maker : Candidate}
    {nested : List Transfer} {bindings : List (Nat × List String)} {returns : Option (List String)}
    (hmade : (Transfer.construct t maker nested bindings returns).MadeBy r.castRules)
    (hnested : ∀ tr ∈ nested, r.SoundPreparer services tr) :
    r.SoundPreparer services (.construct t maker nested bindings returns) := by
  intro v F w hF
  rw [Transfer.MadeBy] at hmade
  obtain ⟨hmaker, ⟨ts, hts⟩, _⟩ := hmade
  obtain ⟨e, he, hid⟩ := exists_conversion hmaker
  rw [preparer]
  refine sound_performWith hF (sound_each_preparers hF fun tr htr => (hnested tr htr).safe) ?_
  intro o target call ho htarget hcall vals G u hG _
  obtain ⟨hdecl, ty, hreturns, hread⟩ := returns_of_callOf hcall hts
  rw [← hid] at ho
  refine (hconv e he o target ho htarget call ty hdecl hreturns vals G u hG).mono ?_
  rintro x b hb src dst ⟨c, rfl, hc⟩ hwell _
  obtain rfl : ts = c.tokens := Option.some.inj (hts.symm.trans hc)
  rw [withoutMarker_class, readType_tokens hwell] at hread
  cases hread
  exact hb

theorem sound_fillFromBraces {P : Engine τ → Value → Prop} {t : Ty} {shape : Shape}
    {elements : List Transfer} {v : Value} (hF : w.Has F)
    (helements : ∀ tr ∈ elements, r.SafePreparer services tr)
    (hP : ∀ (c : ClassTy), t = .cls c → ∀ (G : Nat → Prop) (u : Engine τ) (vals : List Value),
      u.Has G → w.KeepsTypes u →
      (Comp.tryStore (fun s => (allocInitializerList c vals s).map fun r => (some r.1, r.2))
        u).Sound G u P ∧ ∀ names, (objectOf c names vals u).Sound G u P) :
    (r.fillFromBraces t shape (preparers r services elements) v w).Sound F w P := by
  cases v with
  | none => exact Step.sound_fail (.refl F w) hF
  | some x =>
    unfold fillFromBraces
    dsimp only
    split
    · exact Step.sound_fail (.refl F w) hF
    · exact Step.sound_fail (.refl F w) hF
    split
    · exact Step.sound_fail (.refl F w) hF
    · next items c _ =>
      refine (sound_each_preparers hF helements).andThen (.refl F w)
        fun G u vals hFG _ hG hspares _ => ?_
      have hspares := hspares.mono (G := G) fun i _ hi => hFG i hi
      obtain ⟨hlist, hobject⟩ := hP c rfl G u vals hG hspares.types
      split
      · exact hlist.base hspares
      · exact Step.sound_fail hspares hG
      · next i =>
        cases hshape : (r.shapesOf c)[i]? with
        | none => exact Step.sound_fail hspares hG
        | some shape => exact (hobject _).base hspares
    · exact Step.sound_fail (.refl F w) hF

theorem sound_braces {t : Ty} {shape : Shape} {elements : List Transfer}
    (helements : ∀ tr ∈ elements, r.SoundPreparer services tr) :
    r.SoundPreparer services (.braces t shape elements) := by
  intro v F w hF
  rw [preparer]
  refine sound_fillFromBraces hF (fun tr htr => (helements tr htr).safe) fun c hc G u vals hG _ => ?_
  have hclass : ∀ s : Step (Engine τ) Value, (s.Sound G u fun y b => y.TypedAs (.cls c) b) →
      s.Sound G u (Makes (.braces t shape elements) w v) := by
    intro s hs
    refine hs.mono ?_
    rintro y b hb src dst ⟨rfl, _⟩ _ _
    rw [hc]
    exact hb
  refine ⟨hclass _ (sound_tryStore hG fun b s hb => ?_), fun names => hclass _ (sound_objectOf hG)⟩
  cases hlist : allocInitializerList c vals u.state.store with
  | error e => rw [hlist] at hb; cases hb
  | ok p =>
    rw [hlist] at hb
    cases hb
    have hadds := adds_allocInitializerList hlist
    exact ⟨hadds.grows, fun y hy => ⟨_, rfl, by rw [hy]; exact hadds.typeOf⟩⟩

theorem adds_of_decays {s s' : Store} {x y : VarId} {t src dst : Ty}
    (hdel : (Transfer.decay t).Delivers src dst) (hx : s.typeOf x = .ok src)
    (h : s.decay x = .ok (y, s')) : s.Adds dst y s' := by
  rcases Store.adds_decay h with ⟨ts, ht, hadds⟩ | ⟨e, n, ht, hadds⟩ | ⟨e, ht, _⟩ <;>
    cases hx.symm.trans ht <;> rcases hdel with ⟨_, hts, rfl⟩ | ⟨_, _, he, rfl⟩
  · cases hts
    exact hadds
  · cases he
  · cases hts
  · cases he
    exact hadds
  · cases hts
  · cases he

mutual
/-- **Preparing an argument** gives a variable of the type that its transfer delivers, in a linear
run. -/
theorem sound_preparer (hconv : r.Converts services) :
    ∀ tr : Transfer, tr.MadeBy r.castRules → r.SoundPreparer services tr
  | .borrow, _ => fun v F w hF => by
    rw [preparer]
    refine Step.sound_done (.refl F w) hF ?_
    rintro src _ rfl _ h
    exact h
  | .clone, _ => fun v F w hF => by
    rw [preparer]
    refine sound_fromValue hF fun x y s hx hy => ?_
    obtain ⟨t, ht, hadds⟩ := Store.adds_clone hy
    refine ⟨hadds.grows, fun u hu => ?_⟩
    rintro src _ rfl _ hsrc
    rw [hx, Engine.typedAs_some, ht] at hsrc
    cases hsrc
    rw [Engine.typedAs_some, hu]
    exact hadds.typeOf
  | .decay t, _ => fun v F w hF => by
    rw [preparer]
    refine sound_fromValue hF fun x y s hx hy => ?_
    refine ⟨(Store.builds_decay hy).grows, fun u hu => ?_⟩
    intro src dst hdel _ hsrc
    rw [hx, Engine.typedAs_some] at hsrc
    rw [Engine.typedAs_some, hu]
    exact (adds_of_decays hdel hsrc hy).typeOf
  | .numeric t, _ => fun v F w hF => by
    rw [preparer]
    cases hk : t.kind? with
    | none => exact Step.sound_fail (.refl F w) hF
    | some k =>
      refine sound_fromValue hF fun x y s _ hy => ?_
      have hadds := Store.adds_convert hy
      refine ⟨hadds.grows, fun u hu => ?_⟩
      rintro src _ ⟨rfl, k', rfl⟩ _ _
      cases hk
      rw [Engine.typedAs_some, hu]
      exact hadds.typeOf
  | .construct t maker nested bindings returns, hmade => by
    have hnested : Transfer.MadeByAll r.castRules nested := by
      rw [Transfer.MadeBy] at hmade
      exact hmade.2.2
    exact sound_construct hconv hmade (sound_preparers hconv nested hnested)
  | .braces t shape elements, hmade => by
    rw [Transfer.MadeBy] at hmade
    exact sound_braces (sound_preparers hconv elements hmade)
  | .unregistered t, _ => fun v F w hF => by
    rw [preparer]
    exact Step.sound_fail (.refl F w) hF
  | .unsupported t, _ => fun v F w hF => by
    cases v with
    | none =>
      rw [preparer]
      exact Step.sound_fail (.refl F w) hF
    | some x =>
      rw [preparer]
      refine sound_tryStore hF fun b s hb => ?_
      split at hb <;> cases hb

theorem sound_preparers (hconv : r.Converts services) :
    ∀ trs : List Transfer, Transfer.MadeByAll r.castRules trs →
      ∀ tr ∈ trs, r.SoundPreparer services tr
  | [], _ => List.forall_mem_nil _
  | a :: as, hmade => by
    rw [Transfer.MadeByAll] at hmade
    exact List.forall_mem_cons.mpr
      ⟨sound_preparer hconv a hmade.1, sound_preparers hconv as hmade.2⟩
end

/-! ## All arguments -/

/-- one variable for each parameter, of the type that the parameter has under the bindings -/
def Prepared (B : Nat → Option (List String)) (params : List Tree) (w : Engine τ)
    (vals : List Value) : Prop :=
  List.Forall₂ (fun p b => ∃ ty, p.splitRef.2.typeUnder? B = some ty ∧ w.TypedAs ty b) params vals

/-- what one item of a preparation makes, whichever transfer it has come from -/
def MakesItem (r : Catalog τ) (services : Services (Engine τ)) (w : Engine τ)
    (p : (Value → Comp (Engine τ) Value) × Value) (u : Engine τ) (b : Value) : Prop :=
  ∀ tr, p.1 = preparer r services tr → tr.MadeBy r.castRules → Makes tr w p.2 u b

theorem prepared_of_makes {B : Nat → Option (List String)} {u : Engine τ} {args : List Value}
    {as : List Arg} {params : List Tree} {trs : List Transfer} {vals : List Value}
    (hargs : List.Forall₂ (fun v a => w.TypedAs a.type v) args as)
    (hlen : as.length = params.length) (hmade : Transfer.MadeByAll r.castRules trs)
    (hdel : List.Forall₂ (fun x tr => Delivered B x.1 x.2 tr) (as.zip params) trs)
    (hvals : List.Forall₂ (fun p b => r.MakesItem services w p u b)
      ((preparers r services trs).zip args) vals) : Prepared B params u vals := by
  induction hargs generalizing params trs vals with
  | nil =>
    obtain rfl : params = [] := List.length_eq_zero_iff.mp hlen.symm
    rw [List.zip_nil_right] at hvals
    cases hvals
    exact .nil
  | @cons v a args as hv _ ih =>
    obtain ⟨p, params, rfl⟩ := List.exists_cons_of_length_pos (l := params) (by
      rw [← hlen]; exact Nat.succ_pos _)
    rw [List.zip_cons_cons] at hdel
    cases hdel with
    | @cons _ tr _ trs hone hdel =>
    rw [Transfer.MadeByAll] at hmade
    rw [preparers, List.zip_cons_cons] at hvals
    cases hvals with
    | @cons _ b _ vals hb hvals =>
    obtain ⟨ty, hty, hwell, hdelivers⟩ := hone
    refine .cons ⟨ty, hty, ?_⟩ (ih (by simpa using hlen) hmade.2 hdel hvals)
    exact hb tr rfl hmade.1 a.type ty hdelivers hwell hv

/-- what each transfer of a plan makes, and time does not undo, is there for all of them when the
last argument is prepared -/
theorem sound_preparing {Q : Transfer → Engine τ → Value → Engine τ → Value → Prop}
    (hkeep : ∀ tr w v u u' b, u.KeepsTypes u' → Q tr w v u b → Q tr w v u' b)
    (hbase : ∀ tr w w' v u b, w.KeepsTypes w' → Q tr w' v u b → Q tr w v u b)
    (hsound : ∀ tr : Transfer, tr.MadeBy r.castRules → ∀ (v : Value) (F : Nat → Prop)
      (w : Engine τ), w.Has F → (preparer r services tr v w).Sound F w (Q tr w v))
    {trs : List Transfer} {args : List Value} (hmade : Transfer.MadeByAll r.castRules trs)
    (hF : w.Has F) :
    (Comp.each ((preparers r services trs).zip args) (fun _ p => p.1 p.2) w).Sound F w
      fun u vals => List.Forall₂ (fun p b => ∀ tr, p.1 = preparer r services tr →
        tr.MadeBy r.castRules → Q tr w p.2 u b) ((preparers r services trs).zip args) vals := by
  refine sound_each (I := fun p u => r.IsPreparer services trs p ∧ w.KeepsTypes u) ?_ ?_ ?_ _ hF ?_
  · exact fun p u v hv hp => ⟨hp.1, hp.2.trans hv⟩
  · exact fun p u v b hv hb tr heq htr => hkeep tr w p.2 u v b hv (hb tr heq htr)
  · rintro _ p G u hG ⟨⟨tr, htr, heq⟩, hu⟩ F' t ht
    have ht' := ht
    rw [heq] at ht'
    obtain ⟨hspares, hhas, _⟩ := hsound tr (hmade.of_mem htr) p.2 G u hG F' t ht'
    refine ⟨hspares, hhas, fun y b hb tr' heq' hmade' => ?_⟩
    rw [heq'] at ht
    exact hbase tr' w u p.2 y b hu ((hsound tr' hmade' p.2 G u hG F' t ht).2.2 y b hb)
  · exact fun p hp => ⟨isPreparer_of_mem hp, fun _ _ h => h⟩

/-- **The preparation of a call**: it ends, if at all, in one variable for each parameter. -/
theorem sound_preparation (hconv : r.Converts services) {sel : Selection} {args : List Value}
    {as : List Arg} {params : List Tree} {B : Nat → Option (List String)} (hF : w.Has F)
    (hargs : List.Forall₂ (fun v a => w.TypedAs a.type v) args as)
    (hlen : as.length = params.length)
    (hmade : Transfer.MadeByAll r.castRules sel.plan.transfers)
    (hdel : List.Forall₂ (fun x tr => Delivered B x.1 x.2 tr) (as.zip params)
      sel.plan.transfers) :
    (r.preparation services sel args w).Sound F w fun u vals => Prepared B params u vals := by
  refine (sound_preparing (Q := Makes) ?_ ?_ (sound_preparer hconv) hmade hF).mono
    fun u vals hvals => prepared_of_makes hargs hlen hmade hdel hvals
  · exact fun tr w v u u' b hu hb src dst hdel hwell hty => (hb src dst hdel hwell hty).keep hu
  · exact fun tr w w' v u b hw hb src dst hdel hwell hty => hb src dst hdel hwell (hty.keep hw)

end Catalog

/-- **Dispatching keeps types**: a call that resolves to an overload with an implementation is
prepared first.  A linear run of it is in the midst of that, or has failed with it, or has come to
one variable for each parameter, each of the type its parameter has under the bindings of the
match, and goes on in the implementation, which gets them. -/
theorem dispatch_types {r : Catalog τ} {services : Services (Engine τ)} (hr : r.Reachable)
    (hconv : r.Converts services) {domain name : String} {explicit : List Ty}
    {args : List Value} {as : List Arg} {w : Engine τ} (hexplicit : ∀ t ∈ explicit, t.WellFormed)
    (hargs : w.state.store.asArgs args = .ok as) (hwell : ∀ a ∈ as, a.type.WellFormed) :
    (∃ e, r.resolve domain name as explicit = .error e ∧
      r.dispatchIn services domain name explicit args w = .fail w e) ∨
    ∃ sel records o, r.resolve domain name as explicit = .ok (sel, records) ∧
      (o, sel.overload) ∈ r.overloadsOf domain name ∧
      ((o.target = none ∧ r.dispatchIn services domain name explicit args w =
          .fail (w.note records) (.notImplemented o.text)) ∨
        ∃ target, o.target = some target ∧ ∀ (F F' : Nat → Prop) (t : Step (Engine τ) Value),
          w.Has F → (r.dispatchIn services domain name explicit args w).Leads F F' t →
          (∃ u, (r.preparation services sel args (w.note records)).Leads F F' u ∧
            u.isFinished = false ∧
            t = u.andThen (Catalog.handOver services target o.toDeclaration sel.plan)) ∨
          (∃ v e, (r.preparation services sel args (w.note records)).Leads F F' (.fail v e) ∧
            t = .fail v e) ∨
          ∃ G v vals, (r.preparation services sel args (w.note records)).Leads F G
              (.done v vals) ∧
            Catalog.Prepared (fun id => sel.plan.bindings.lookup id) o.signature.params v vals ∧
            (Catalog.handOver services target o.toDeclaration sel.plan vals v).Leads G F' t) := by
  cases hres : r.resolve domain name as explicit with
  | error e => exact .inl ⟨e, rfl, (Catalog.dispatchIn_eq hargs).1 e hres⟩
  | ok p =>
    obtain ⟨sel, records⟩ := p
    have hdispatch : r.dispatchIn services domain name explicit args w =
        r.performIn services sel args (w.note records) :=
      (Catalog.dispatchIn_eq hargs).2 sel records hres
    obtain ⟨call, o, hcall, ho, hadmits⟩ := Catalog.resolve_eq_ok hres
    have hover : r.overloads[sel.overload]? = some o := (Catalog.mem_overloadsOf.mp ho).1
    obtain ⟨⟨src, strict, hsup⟩, hfun⟩ := hr.compiled _ o hover
    obtain ⟨hlen, hmade, hdel⟩ := delivered_of_admits hwell hexplicit hcall
      (compiledFrom_of_compile (by decide) hsup) hfun hadmits
    have htyped := typed_of_asArgs hargs
    have hcount : args.length = (Catalog.preparers r services sel.plan.transfers).length := by
      rw [Catalog.preparers_eq_map, List.length_map, ← hdel.length_eq, List.length_zip, ← hlen,
        Nat.min_self, htyped.length_eq]
    refine .inr ⟨sel, records, o, rfl, ho, ?_⟩
    rw [hdispatch]
    cases htarget : o.target with
    | none =>
      refine .inl ⟨rfl, ?_⟩
      dsimp only [Catalog.performIn]
      unfold Catalog.performWith
      rw [hover]
      dsimp only
      rw [if_neg (not_not.mpr hcount), htarget]
      rfl
    | some target =>
      refine .inr ⟨target, rfl, fun F F' t hF ht => ?_⟩
      dsimp only [Catalog.performIn] at ht
      rw [Catalog.performWith_eq hover hcount htarget] at ht
      rcases Step.leads_andThen ht with hmidst | hfailed | ⟨G, v, vals, hdone, hrest⟩
      · exact .inl hmidst
      · exact .inr (.inl hfailed)
      · have hsound := Catalog.sound_preparation (w := w.note records) hconv hF htyped hlen hmade
          hdel
        exact .inr (.inr ⟨G, v, vals, hdone, (hsound G _ hdone).2.2 v vals rfl, hrest⟩)

/-! ## A converting constructor at work -/

def makeObject : Implementation τ := fun _ call _ =>
  match call.returns with
  | some (.cls c) => Catalog.objectOf c [] []
  | _ => Comp.fail .absentValue

theorem sound_makeObject {services : Services (Engine τ)} {call : Call} {ty : Ty}
    (hty : call.returns = some ty) (vals : List Value) {F : Nat → Prop} {w : Engine τ}
    (hF : w.Has F) :
    (makeObject services call vals w).Sound F w fun u b => u.TypedAs ty b := by
  unfold makeObject
  rw [hty]
  cases ty with
  | cls c => exact sound_objectOf hF
  | arith | pointer | array | function | void | list => exact Step.sound_fail (.refl F w) hF

def boxClass : ClassTy := .mk "Box" [] none

def boxObject : Tree :=
  .branch Symbol.object 3 [classTree "Box" (.branch Symbol.typeList 1 [])
    (.branch Symbol.enclosing 1 [])]

/-- `FUNCTION CLASS Box < > ( I32 )` -/
def boxMaker : Signature :=
  ⟨typedCallForm (.cls boxClass) [⟨.arith .i32, .none⟩], [],
    Binding.ofTexts (typedCallForm (.cls boxClass) [⟨.arith .i32, .none⟩]), Symbol.function,
    formTree (.branch Symbol.return_ 0 [.branch Symbol.type 0 [boxObject]])
      (paramsTree [valueParam wordTree])⟩

/-- `FUNCTION VOID ( CLASS Box < > )` -/
def boxProcedure : Signature :=
  ⟨["FUNCTION", "VOID", "(", "CLASS", "Box", "<", ">", ")"], [],
    Binding.ofTexts ["FUNCTION", "VOID", "(", "CLASS", "Box", "<", ">", ")"], Symbol.function,
    procedureTree (paramsTree [.branch Symbol.paramObject 0 [boxObject]])⟩

theorem formed_boxObject : boxObject.Formed := by
  have hnil : (Tree.branch Symbol.typeList 1 []).Formed :=
    formed_branch.mpr ⟨by decide, List.forall_mem_nil _⟩
  have houter : (Tree.branch Symbol.enclosing 1 []).Formed :=
    formed_branch.mpr ⟨by decide, List.forall_mem_nil _⟩
  have hname : signature.classify "Box" = Symbol.ident :=
    classify_name (by decide) (by decide) (by decide) (by decide) (by decide)
  exact formed_single (by decide) (formed_classTree hname hnil rfl houter rfl)

theorem compile_boxMaker (strict : Bool) :
    signature.compile (typedCallForm (.cls boxClass) [⟨.arith .i32, .none⟩]) Symbol.function
      strict = .ok boxMaker := by
  have hstart : Symbol.function ∈ signatureWildcards := by decide
  have hparams := formed_paramsTree (l := [valueParam wordTree])
    (by simpa using formed_valueParam formed_wordTree rfl)
  have hreturn : (Tree.branch Symbol.return_ 0 [.branch Symbol.type 0 [boxObject]]).Formed := by
    refine formed_single (by decide) ?_
    exact formed_single (by decide) formed_boxObject
  exact compile_of_formed boxMaker.source strict ⟨[], boxMaker.tokens⟩ hstart
    (prepareBody_signature (by rintro ⟨_, _, _, _, _, _, _⟩ rfl; cases strict <;> rfl))
    (formed_formTree.mpr ⟨⟨hreturn, rfl⟩, hparams⟩) rfl rfl

theorem compile_boxProcedure :
    signature.compileText "FUNCTION VOID ( CLASS Box < > )" Symbol.function true =
      .ok boxProcedure := by
  have hstart : Symbol.function ∈ signatureWildcards := by decide
  have hparam : (Tree.branch Symbol.paramObject 0 [boxObject]).Formed :=
    formed_single (by decide) formed_boxObject
  have hparams := formed_paramsTree (l := [.branch Symbol.paramObject 0 [boxObject]])
    (by simpa using ⟨hparam, rfl⟩)
  exact compile_of_formed boxProcedure.source true ⟨[], boxProcedure.tokens⟩ hstart
    (prepareBody_signature (by rintro ⟨_, _, _, _, _, _, _⟩ rfl; rfl))
    (formed_procedureTree hparams.1 hparams.2) rfl rfl

theorem classMatch_eq {user : Option Conversions} {u : Conversions} {c : ClassTy}
    {F : ClassTy → Conversions → Planned Transfer} :
    user = some u →
    (match Ty.cls c, user with
      | .cls c, some user => F c user
      | _, _ => .ok none) = F c u := by
  rintro rfl
  rfl

/-- the first of some constructors that admits a call and returns the class -/
def CastRules.firstMaker (m : CastRules) (dst : Ty) (c : ClassTy) (makers : List Candidate)
    (call : Signature) : Planned Transfer :=
  firstPlan
    (fun maker =>
      (admitsWith m.castPlainly call maker.signature []).map fun r => r.bind fun res =>
        if res.returns = some c.tokens then
          some (.construct dst maker res.transfers res.bindings res.returns)
        else none)
    makers

theorem construct_eq {m : CastRules} {u : Conversions} {c : ClassTy} {src : Ty} {ref : Ref}
    {call : Signature} (hu : m.user = some u)
    (hcall : signature.compile (typedCallForm (.cls c) [⟨src, ref⟩]) Symbol.function false =
      .ok call) :
    m.construct src ref (.cls c) = m.firstMaker (.cls c) c (u.constructors c) call := by
  rw [CastRules.construct.eq_def]
  refine (classMatch_eq hu).trans ?_
  rw [hcall]
  rfl

theorem cast_word_box {m : CastRules} (horder : m.order = Strategy.all) :
    m.cast (.arith .i32) .none (.cls boxClass) =
      m.construct (.arith .i32) .none (.cls boxClass) := by
  rw [CastRules.cast, castWith, horder]
  · simp only [Strategy.all, firstPlan, castSimply, decayTo, numericTo]
    split <;> simp only [*]
  · intros; contradiction

theorem cast_box {m : CastRules} {u : Conversions} {n : Nat} (horder : m.order = Strategy.all)
    (hu : m.user = some u) (hmakers : u.constructors boxClass = [⟨n, boxMaker⟩]) :
    m.cast (.arith .i32) .none (.cls boxClass) = .ok (some (.construct (.cls boxClass)
      ⟨n, boxMaker⟩ [.clone] [] (some boxClass.tokens))) := by
  have hmake : admitsWith m.castPlainly boxMaker boxMaker [] =
      .ok (some ⟨[.clone], [], some boxClass.tokens⟩) := rfl
  rw [cast_word_box horder, construct_eq hu (compile_boxMaker false), hmakers,
    CastRules.firstMaker, firstPlan]
  simp only [hmake]
  rfl

theorem concretize_boxParam :
    concretize (.branch Symbol.paramObject 0 [boxObject]) [] = .ok (some (.cls boxClass)) := by
  have hformed : (Tree.branch Symbol.paramObject 0 [boxObject]).Formed :=
    formed_single (by decide) formed_boxObject
  have hparse : signature.parsePlain ["CLASS", "Box", "<", ">"] Symbol.paramObject =
      some (.branch Symbol.paramObject 0 [boxObject]) :=
    (parsePlain_eq_some_iff (by decide)).mpr ⟨hformed, rfl, rfl⟩
  rw [concretize_plain [] rfl rfl hparse]
  rfl

theorem admits_boxProcedure_eq (m : CastRules) : m.admits wordCall boxProcedure [] =
    (m.cast (.arith .i32) .none (.cls boxClass)).map fun r =>
      r.map fun a => ⟨[a], [], some ["VOID"]⟩ := by
  have hplan : m.admits wordCall boxProcedure [] =
      (finishAll m.cast [] [.convert .none (valueParam wordTree)
        (.branch Symbol.paramObject 0 [boxObject])]).map fun r =>
        r.map fun transfers => ⟨transfers, [], some ["VOID"]⟩ := rfl
  have hsource : Ty.ofTree (valueParam wordTree) = .ok (.arith .i32) := rfl
  rw [hplan, finishAll, finish, concretize_boxParam]
  simp only [hsource]
  rcases m.cast (.arith .i32) .none (.cls boxClass) with e | _ | a <;> rfl

theorem admits_boxProcedure {m : CastRules} {u : Conversions} {n : Nat}
    (horder : m.order = Strategy.all) (hu : m.user = some u)
    (hmakers : u.constructors boxClass = [⟨n, boxMaker⟩]) :
    m.admits wordCall boxProcedure [] = .ok (some ⟨[.construct (.cls boxClass) ⟨n, boxMaker⟩
      [.clone] [] (some boxClass.tokens)], [], some ["VOID"]⟩) := by
  rw [admits_boxProcedure_eq, cast_box horder hu hmakers]
  rfl

theorem exists_boxes : ∃ (r : Catalog Unit) (n : Nat) (o : Overload Unit) (i : Nat),
    r.Reachable ∧ (∀ services, r.Converts services) ∧ r.order = Strategy.all ∧
      r.constructorsOf boxClass = [⟨n, boxMaker⟩] ∧ o.signature = boxProcedure ∧
      (o.target = some fun _ _ _ => Comp.done none) ∧ r.overloadsOf globalDomain "f" = [(o, i)] := by
  obtain ⟨r, _, hnew⟩ := Catalog.exists_new Unit
  obtain ⟨hconfig, horder, _, hnone⟩ := Catalog.new_spec hnew
  have hconversions := Catalog.conversions_new hnew
  let maker : Overload Unit := ⟨⟨"Box", constructorName, boxMaker⟩, some makeObject⟩
  let procedure : Overload Unit :=
    ⟨⟨globalDomain, "f", boxProcedure⟩, some fun _ _ _ => Comp.done none⟩
  have hcompile : signature.compileText "FUNCTION CLASS Box < > ( I32 )" Symbol.function
    r.config.strictWildcards = .ok boxMaker := compile_boxMaker _
  have hr : (r.addOverload maker).Reachable := by
    refine .declare (.new hnew) (Catalog.declare_fresh _ hcompile rfl ?_)
    rw [Catalog.declared?, hnone _ _ (by decide)]
    rfl
  have hcompile := compile_boxProcedure
  rw [show true = (r.addOverload maker).config.strictWildcards by
    rw [Catalog.addOverload, hconfig]; rfl] at hcompile
  have hnil : (r.addOverload maker).overloadsOf globalDomain "f" = [] := by
    rw [Catalog.overloadsOf_addOverload, hnone _ _ (by decide)]
    rfl
  have hr : ((r.addOverload maker).addOverload procedure).Reachable := by
    refine .declare hr (Catalog.declare_fresh _ hcompile rfl ?_)
    rw [Catalog.declared?, hnil]
    rfl
  have hconv : ((r.addOverload maker).addOverload procedure).conversions =
      [("Box", r.overloads.size)] := by
    have hmaker : Catalog.isConversion maker.toDeclaration = true := by decide
    have hprocedure : Catalog.isConversion procedure.toDeclaration = false := by decide
    simp [Catalog.addOverload, hmaker, hprocedure, hconversions, maker]
  have hget : ((r.addOverload maker).addOverload procedure).overloads[r.overloads.size]? =
      some maker := by
    rw [Catalog.getElem?_addOverload, Catalog.getElem?_addOverload]
    simp [Catalog.addOverload]
  refine ⟨_, r.overloads.size, procedure, (r.addOverload maker).overloads.size, hr, ?_, ?_, ?_,
    rfl, rfl, ?_⟩
  · intro services e he o target ho htarget call ty _ hty vals F w hF
    rw [hconv] at he
    cases List.mem_singleton.mp he
    rw [hget] at ho
    cases ho
    cases htarget
    exact sound_makeObject hty vals hF
  · exact (Except.ok.inj horder).symm
  · rw [Catalog.constructorsOf, hconv]
    simp [hget, maker, boxClass, ClassTy.domain, ClassTy.domainBefore]
  · rw [Catalog.overloadsOf_addOverload, hnil]
    rfl

theorem prepared_box {v : Engine τ} {vals : List Value}
    (h : Catalog.Prepared (fun _ => none) boxProcedure.params v vals) :
    ∃ x, vals = [some x] ∧ v.state.store.typeOf x = .ok (.cls boxClass) := by
  have htype : (Tree.branch Symbol.paramObject 0 [boxObject]).typeUnder? (fun _ => none) =
      some (.cls boxClass) := typeUnder_of_concretize concretize_boxParam
  have hparams : boxProcedure.params = [.branch Symbol.paramObject 0 [boxObject]] := rfl
  rw [hparams] at h
  cases h with
  | cons hone hnil =>
    cases hnil
    obtain ⟨ty, hty, x, rfl, hx⟩ := hone
    obtain rfl : .cls boxClass = ty := Option.some.inj (htype.symm.trans hty)
    exact ⟨x, rfl, hx⟩

def wordWorld : Engine Unit := World.new ⟨(Store.empty.temp (.arith .i32) (.int 7)).2, ()⟩

/-- a procedure that takes a box is called with a word -/
theorem dispatch_types_box : ∃ (r : Catalog Unit) (sel : Selection) (o : Overload Unit) (n : Nat)
    (records : List Record), r.Reachable ∧ r.Converts (r.services 1) ∧
      r.resolve globalDomain "f" [⟨.arith .i32, .none⟩] [] = .ok (sel, records) ∧
      sel.plan.transfers = [.construct (.cls boxClass) ⟨n, boxMaker⟩ [.clone] []
        (some boxClass.tokens)] ∧
      ∀ (F F' : Nat → Prop) (t : Step (Engine Unit) Value), wordWorld.Has F →
        (r.dispatchIn (r.services 1) globalDomain "f" [] [some 0] wordWorld).Leads F F' t →
        (∃ u, (r.preparation (r.services 1) sel [some 0] (wordWorld.note records)).Leads F F' u ∧
          u.isFinished = false ∧ t = u.andThen (Catalog.handOver (r.services 1)
            (fun _ _ _ => Comp.done none) o.toDeclaration sel.plan)) ∨
        (∃ v e, (r.preparation (r.services 1) sel [some 0] (wordWorld.note records)).Leads F F'
          (.fail v e) ∧ t = .fail v e) ∨
        ∃ G v x, (r.preparation (r.services 1) sel [some 0] (wordWorld.note records)).Leads F G
            (.done v [some x]) ∧
          v.state.store.typeOf x = .ok (.cls boxClass) ∧
          (Catalog.handOver (r.services 1) (fun _ _ _ => Comp.done none) o.toDeclaration sel.plan
            [some x] v).Leads G F' t := by
  obtain ⟨r, n, o, i, hr, hconv, horder, hmakers, hsignature, htarget, hos⟩ := exists_boxes
  let plan : Match := ⟨[.construct (.cls boxClass) ⟨n, boxMaker⟩ [.clone] [] (some boxClass.tokens)],
    [], some ["VOID"]⟩
  have hsearch : r.search globalDomain "f" [⟨.arith .i32, .none⟩] [] =
      .ok (some (⟨i, plan⟩, [Catalog.resolvedRecord o.toDeclaration plan])) := by
    have hadmits : r.castRules.admits wordCall boxProcedure [] = .ok (some plan) :=
      admits_boxProcedure horder rfl hmakers
    rw [Catalog.search_eq [] compile_wordCall, hos, Catalog.firstAdmitting, hsignature]
    simp only [List.map_nil, hadmits]
  have hresolve := Catalog.resolve_of_search hsearch
  have hargs : wordWorld.state.store.asArgs [some 0] = .ok [⟨.arith .i32, .none⟩] := rfl
  refine ⟨r, ⟨i, plan⟩, o, n, _, hr, hconv _, hresolve, rfl, fun F F' t hF ht => ?_⟩
  have hkept := @dispatch_types Unit r (r.services 1) hr (hconv _) globalDomain "f" [] [some 0]
    _ wordWorld (List.forall_mem_nil _) hargs (by rw [List.forall_mem_singleton]; trivial)
  rcases hkept with ⟨e, he, _⟩ | ⟨sel, records, o', hsel, ho', hrest⟩
  · rw [hresolve] at he
    cases he
  · rw [hresolve] at hsel
    cases hsel
    rw [hos] at ho'
    cases List.mem_singleton.mp ho'
    rcases hrest with ⟨hnone, _⟩ | ⟨target, htarget', hruns⟩
    · rw [htarget] at hnone
      cases hnone
    · rw [htarget] at htarget'
      cases htarget'
      rcases hruns F F' t hF ht with hmidst | hfailed | ⟨G, v, vals, hdone, hprepared, hlast⟩
      · exact .inl hmidst
      · exact .inr (.inl hfailed)
      · rw [hsignature] at hprepared
        obtain ⟨x, rfl, hx⟩ := prepared_box hprepared
        exact .inr (.inr ⟨G, v, x, hdone, hx, hlast⟩)

end Overloading
