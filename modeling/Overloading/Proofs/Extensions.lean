import Overloading.Proofs.CatalogInvariants
import Overloading.Proofs.Dispatching

/-!
# Catalogs that grow

More constructors and more shapes open more ways to convert a value.  A way that is opened may be
tried before the one that was taken so far, and then the plan changes; but no plan is lost, and
what a call binds depends on its signature alone.

* `Lasts`               where one search has a plan the other has one too, unless it faults first;
* `castWith_lasts`      casts last under larger cast rules, whatever the nesting of the value;
* `extension_keeps_resolutions`   a call that resolves goes on to do so, to the same overload or
                                  an earlier one.
-/

namespace Overloading

open Grammar

/-! ## Plans that last -/

/-- where there is a plan there is one, unless a fault comes before it -/
def Lasts {α β : Type} (p : Planned α) (q : Planned β) : Prop :=
  ∀ a, p = .ok (some a) → q ≠ .ok none

section Lasts

variable {α β γ δ : Type}

theorem lasts_none (q : Planned β) : Lasts (.ok none : Planned α) q := nofun

theorem lasts_some (p : Planned α) (b : β) : Lasts p (.ok (some b)) := nofun

theorem lasts_self (p : Planned α) : Lasts p p := by
  rintro a rfl
  nofun

theorem Lasts.map {p : Planned α} {q : Planned β} (h : Lasts p q) (f : α → γ) (g : β → δ) :
    Lasts (p.map fun r => r.map f) (q.map fun r => r.map g) := by
  intro c hc hnone
  obtain ⟨a, ha, _⟩ := planned_map_eq hc
  refine h a ha ?_
  match q, hnone with
  | .ok none, _ => rfl

def consPlan (p : Planned α) (q : Planned (List α)) : Planned (List α) :=
  match p with
  | .error e => .error e
  | .ok none => .ok none
  | .ok (some a) => q.map fun r => r.map fun as => a :: as

theorem Lasts.cons {p p' : Planned α} {q q' : Planned (List α)} (h : Lasts p p')
    (hrest : Lasts q q') : Lasts (consPlan p q) (consPlan p' q') := by
  match p, p', h with
  | .error _, _, _ => exact nofun
  | .ok none, _, _ => exact lasts_none _
  | .ok (some a), .ok none, h => exact absurd rfl (h a rfl)
  | .ok (some _), .error _, _ => exact fun _ _ => nofun
  | .ok (some _), .ok (some _), _ => exact hrest.map _ _

theorem castAllWith_cons (m : CastRules) (user : Ty → Ref → Ty → Planned Transfer) (e f : Ty)
    (es fs : List Ty) : castAllWith m user (e :: es) (f :: fs) =
      consPlan (convertWith m user e .none f) (castAllWith m user es fs) := by
  rw [castAllWith]
  unfold convertWith
  generalize (if e = f then .ok (some .clone) else castWith m user e .none f : Planned Transfer) = p
  rcases p with e | _ | a <;> rfl

theorem finishAll_cons (cast : Ty → Ref → Ty → Planned Transfer) (b : Bindings) (d : Draft)
    (ds : List Draft) :
    finishAll cast b (d :: ds) = consPlan (finish cast b d) (finishAll cast b ds) := by
  rw [finishAll]
  generalize finish cast b d = p
  rcases p with e | _ | a <;> rfl

theorem none_of_firstPlan {f : α → Planned β} {as : List α} (h : firstPlan f as = .ok none) :
    ∀ a ∈ as, f a = .ok none := by
  induction as with
  | nil => exact List.forall_mem_nil _
  | cons a as ih =>
    rw [firstPlan] at h
    split at h
    · next hnone => exact List.forall_mem_cons.mpr ⟨hnone, ih h⟩
    · next hother => exact absurd h hother

theorem lasts_firstPlan {f : α → Planned β} {g : α → Planned γ} {as as' : List α}
    (hsub : as ⊆ as') (h : ∀ a ∈ as, Lasts (f a) (g a)) :
    Lasts (firstPlan f as) (firstPlan g as') := by
  intro b hb hnone
  obtain ⟨a, ha, hfa⟩ := exists_of_firstPlan hb
  exact h a ha b hfa (none_of_firstPlan hnone a (hsub ha))

end Lasts

/-! ## Casts under larger rules -/

/-- cast rules that try all that others try, in the same order -/
structure CastRules.Extends (m m' : CastRules) : Prop where
  order : m'.order = m.order
  user : ∀ u, m.user = some u → ∃ u', m'.user = some u' ∧
    ∀ c, u.constructors c <+: u'.constructors c ∧ u.shapes c <+: u'.shapes c

section Casts

variable {m m' : CastRules} {user user' : Ty → Ref → Ty → Planned Transfer}

theorem lasts_bracesInto (hm : m.Extends m') {all all' : List Ty → Planned (List Transfer)}
    (hall : ∀ fs, Lasts (all fs) (all' fs)) (length : Nat) (dst : Ty) :
    Lasts (bracesInto m all length dst) (bracesInto m' all' length dst) := by
  cases dst with
  | arith | pointer | array | function | void | list => exact lasts_none _
  | cls c =>
    unfold bracesInto
    dsimp only
    cases c.listElement? with
    | some t => exact (hall _).map _ _
    | none =>
      dsimp only
      cases hu : m.user with
      | none => exact lasts_none _
      | some u =>
        obtain ⟨u', hu', hparts⟩ := hm.user u hu
        obtain ⟨more, hmore⟩ := (hparts c).2
        rw [hu']
        dsimp only
        refine lasts_firstPlan ?_ fun shape _ => ?_
        · rw [← hmore, List.zipIdx_append]
          exact List.subset_append_left _ _
        · obtain ⟨fields | fields, i⟩ := shape
          · exact lasts_none _
          · dsimp only
            split
            · exact (hall fields).map _ _
            · exact lasts_none _

theorem lasts_castSimply {src dst : Ty} {ref : Ref}
    (h : Lasts (user src ref dst) (user' src ref dst)) (s : Strategy) :
    Lasts (castSimply user src ref dst s) (castSimply user' src ref dst s) := by
  cases s with
  | constructor => exact h
  | decay | numeric => exact lasts_self _
  | braceList => exact lasts_none _

-- by the nesting of lists in the source; the destination may grow on the way
mutual
theorem castWith_lasts (hm : m.Extends m')
    (huser : ∀ src ref dst, Lasts (user src ref dst) (user' src ref dst)) :
    ∀ src ref dst, Lasts (castWith m user src ref dst) (castWith m' user' src ref dst)
  | .list es, ref, dst => by
    have helems := castAllWith_lasts hm huser es
    rw [castWith, castWith, hm.order]
    refine lasts_firstPlan (List.Subset.refl _) fun s _ => ?_
    cases s with
    | braceList => exact lasts_bracesInto hm helems _ dst
    | decay | numeric | constructor => exact lasts_castSimply (huser _ ref dst) _
  | .arith k, ref, dst | .pointer e, ref, dst | .array e n, ref, dst | .cls c, ref, dst
  | .function ts, ref, dst | .void, ref, dst => by
    rw [castWith, castWith, hm.order]
    · exact lasts_firstPlan (List.Subset.refl _) fun s _ => lasts_castSimply (huser _ ref dst) s
    · intros; contradiction
    · intros; contradiction

theorem castAllWith_lasts (hm : m.Extends m')
    (huser : ∀ src ref dst, Lasts (user src ref dst) (user' src ref dst)) :
    ∀ es fs, Lasts (castAllWith m user es fs) (castAllWith m' user' es fs)
  | [], fs => by
    rw [castAllWith, castAllWith]
    · exact lasts_self _
    · intros; contradiction
    · intros; contradiction
  | e :: es, [] => by
    rw [castAllWith, castAllWith]
    · exact lasts_self _
    · intros; contradiction
    · intros; contradiction
  | e :: es, f :: fs => by
    have hone : Lasts (convertWith m user e .none f) (convertWith m' user' e .none f) := by
      unfold convertWith
      by_cases h : e = f
      · rw [if_pos h, if_pos h]
        exact lasts_some _ _
      · rw [if_neg h, if_neg h]
        exact castWith_lasts hm huser e .none f
    rw [castAllWith_cons, castAllWith_cons]
    exact hone.cons (castAllWith_lasts hm huser es fs)
end

end Casts

/-! ## Admission under larger rules -/

section Admission

variable {cast cast' : Ty → Ref → Ty → Planned Transfer} {sub sup : Signature}

theorem bindings_of_planCall {b : Bindings} {r r' : Match}
    (h : planCall cast sub sup b = .ok (some r)) (h' : planCall cast' sub sup b = .ok (some r')) :
    r'.bindings = r.bindings ∧ r'.returns = r.returns := by
  obtain ⟨_, subRet, supRet, b₁, ds, b₂, b₃, hsub, hsup, hret, hdraft, hpromote, _, hb, hr⟩ :=
    planCall_stages h
  obtain ⟨_, subRet', supRet', b₁', ds', b₂', b₃', hsub', hsup', hret', hdraft', hpromote', _, hb',
    hr'⟩ := planCall_stages h'
  obtain rfl : subRet = subRet' := Option.some.inj (hsub.symm.trans hsub')
  obtain rfl : supRet = supRet' := Option.some.inj (hsup.symm.trans hsup')
  obtain rfl : b₁ = b₁' := Option.some.inj (hret.symm.trans hret')
  obtain ⟨rfl, rfl⟩ : ds = ds' ∧ b₂ = b₂' := by simpa using hdraft.symm.trans hdraft'
  obtain rfl : b₃ = b₃' := by simpa using hpromote.symm.trans hpromote'
  exact ⟨hb'.trans hb.symm, hr'.trans hr.symm⟩

theorem bindings_of_admitsWith {explicit : List (List String)} {r r' : Match}
    (h : admitsWith cast sub sup explicit = .ok (some r))
    (h' : admitsWith cast' sub sup explicit = .ok (some r')) :
    r'.bindings = r.bindings ∧ r'.returns = r.returns := by
  unfold admitsWith at h h'
  cases hb : bindExplicit 0 sup.declared explicit with
  | none =>
    rw [hb] at h
    cases h
  | some b =>
    rw [hb] at h h'
    dsimp only at h h'
    by_cases hfun : (sub.isFunction && sup.isFunction) = true
    · rw [if_pos hfun] at h h'
      exact bindings_of_planCall h h'
    · rw [if_neg hfun] at h h'
      rw [h] at h'
      cases h'
      exact ⟨rfl, rfl⟩

variable (hcast : ∀ src ref dst, Lasts (cast src ref dst) (cast' src ref dst))

include hcast

theorem lasts_finish (b : Bindings) (d : Draft) : Lasts (finish cast b d) (finish cast' b d) := by
  cases d with
  | settled a => exact lasts_self _
  | promote id ref k => exact lasts_self _
  | convert ref actual formal =>
    unfold finish
    dsimp only
    cases concretize formal b with
    | error e => exact lasts_self _
    | ok target =>
      cases target with
      | none => exact lasts_self _
      | some dst =>
        dsimp only
        split
        · split
          · exact lasts_self _
          · exact hcast _ _ _
        · exact lasts_self _

theorem lasts_finishAll (b : Bindings) (ds : List Draft) :
    Lasts (finishAll cast b ds) (finishAll cast' b ds) := by
  induction ds with
  | nil => exact lasts_self _
  | cons d ds ih =>
    rw [finishAll_cons, finishAll_cons]
    exact (lasts_finish hcast b d).cons ih

theorem lasts_planCall (b : Bindings) :
    Lasts (planCall cast sub sup b) (planCall cast' sub sup b) := by
  intro r hr hnone
  obtain ⟨hlen, subRet, supRet, b₁, ds, b₂, b₃, hsub, hsup, hret, hdraft, hpromote, hfinish, _⟩ :=
    planCall_stages hr
  -- only the third pass casts, so the other two come to what they came to
  unfold planCall at hnone
  simp only [hlen, hsub, hsup, hret, hdraft, hpromote, ne_eq, not_true, if_false] at hnone
  refine lasts_finishAll hcast b₃ ds _ hfinish ?_
  match finishAll cast' b₃ ds, hnone with
  | .ok none, _ => rfl

theorem lasts_admitsWith (explicit : List (List String)) :
    Lasts (admitsWith cast sub sup explicit) (admitsWith cast' sub sup explicit) := by
  unfold admitsWith
  cases bindExplicit 0 sup.declared explicit with
  | none => exact lasts_none _
  | some b =>
    dsimp only
    by_cases hfun : (sub.isFunction && sup.isFunction) = true
    · rw [if_pos hfun, if_pos hfun]
      exact lasts_planCall hcast b
    · rw [if_neg hfun, if_neg hfun]
      exact lasts_self _

end Admission

/-- how a constructor makes a class from the argument of a call -/
def CastRules.plannedBy (m : CastRules) (call : Signature) (maker : Candidate) (c : ClassTy) :
    Planned Transfer :=
  (admitsWith m.castPlainly call maker.signature []).map fun r => r.bind fun res =>
    if res.returns = some c.tokens then
      some (.construct (.cls c) maker res.transfers res.bindings res.returns)
    else none

namespace CastRules.Extends

variable {m m' : CastRules} (hm : m.Extends m')

include hm

theorem castPlainly_lasts (src : Ty) (ref : Ref) (dst : Ty) :
    Lasts (m.castPlainly src ref dst) (m'.castPlainly src ref dst) :=
  castWith_lasts hm (fun _ _ _ => lasts_none _) src ref dst

/-- a constructor that made a class makes it still: whether it returns the class does not depend
on how its argument is cast -/
theorem maker_lasts (call : Signature) (maker : Candidate) (c : ClassTy) :
    Lasts (m.plannedBy call maker c) (m'.plannedBy call maker c) := by
  intro tr htr hnone
  unfold plannedBy at htr hnone
  match hplan : admitsWith m.castPlainly call maker.signature [], htr with
  | .ok (some res), htr =>
    have hreturns : res.returns = some c.tokens := by
      by_contra hother
      simp [Except.map, hother] at htr
    match hplan' : admitsWith m'.castPlainly call maker.signature [], hnone with
    | .ok none, _ => exact lasts_admitsWith hm.castPlainly_lasts [] res hplan hplan'
    | .ok (some res'), hnone =>
      obtain ⟨_, hsame⟩ := bindings_of_admitsWith hplan hplan'
      simp [Except.map, hsame, hreturns] at hnone

/-- a class that could be made can be made, though another constructor may do so now -/
theorem construct_lasts (src : Ty) (ref : Ref) (dst : Ty) :
    Lasts (m.construct src ref dst) (m'.construct src ref dst) := by
  cases dst with
  | arith | pointer | array | function | void | list =>
    rw [construct.eq_def]
    exact lasts_none _
  | cls c =>
    cases hu : m.user with
    | none =>
      rw [construct.eq_def, hu]
      exact lasts_none _
    | some u =>
      obtain ⟨u', hu', hparts⟩ := hm.user u hu
      cases hcall : signature.compile (typedCallForm (.cls c) [⟨src, ref⟩]) Symbol.function
          false with
      | error e =>
        have hfault : m.construct src ref (.cls c) = .error e := by
          rw [construct.eq_def]
          refine (classMatch_eq hu).trans ?_
          rw [hcall]
        intro a ha
        rw [hfault] at ha
        cases ha
      | ok call =>
        rw [construct_eq hu hcall, construct_eq hu' hcall]
        exact lasts_firstPlan (hparts c).1.subset fun maker _ => hm.maker_lasts call maker c

theorem admits_lasts (sub sup : Signature) (explicit : List (List String)) :
    Lasts (m.admits sub sup explicit) (m'.admits sub sup explicit) :=
  lasts_admitsWith (castWith_lasts hm hm.construct_lasts) explicit

end CastRules.Extends

/-! ## Growing catalogs -/

namespace Catalog

variable {τ : Type} {r r' : Catalog τ}

theorem constructorsOf_eq (hr : r.Consistent) (c : ClassTy) :
    r.constructorsOf c = if c.domain = globalDomain then []
      else (r.makersOf c.domain).map fun s => ⟨s.2, s.1⟩ := by
  have hnumbers : r.constructorsOf c =
      ((r.conversions.filter fun e => e.1 == c.domain).map Prod.snd).filterMap fun i =>
        (r.overloads[i]?).map fun o => ⟨i, o.signature⟩ := by
    rw [List.filterMap_map, List.filterMap_filter]
    rfl
  rw [hnumbers, hr.conversions]
  split
  · rfl
  rw [List.filterMap_map, ← List.filterMap_eq_map]
  apply List.filterMap_congr
  intro s hs
  obtain ⟨o, ho, rfl⟩ := List.mem_map.mp (List.mem_of_mem_filter hs)
  simp [(mem_overloadsOf.mp ho).1]

theorem Grows.castRules (h : r.Grows r') (hr : r.Consistent) (hr' : r'.Consistent) :
    r.castRules.Extends r'.castRules := by
  refine ⟨h.order, fun u hu => ?_⟩
  cases hu
  refine ⟨_, rfl, fun c => ⟨?_, ?_⟩⟩
  · show r.constructorsOf c <+: r'.constructorsOf c
    rw [constructorsOf_eq hr, constructorsOf_eq hr']
    split
    · exact List.prefix_rfl
    · exact ((h.signatures c.domain constructorName).filter _).map _
  · exact ((h.shapes.filter _).map _).map _

theorem castRules_eq (hr : r.Consistent) (hr' : r'.Consistent) (horder : r'.order = r.order)
    (hmakers : ∀ d, d ≠ globalDomain → r'.makersOf d = r.makersOf d)
    (hshapes : r'.shapes = r.shapes) : r'.castRules = r.castRules := by
  have hconstructors : r'.constructorsOf = r.constructorsOf := by
    funext c
    rw [constructorsOf_eq hr, constructorsOf_eq hr']
    split
    · rfl
    · next h => rw [hmakers _ h]
  unfold castRules
  rw [hconstructors, horder]
  unfold shapesOf
  rw [hshapes]

/-- an overload stays where it is among those of its name, and so do those before it -/
theorem Grows.overloadsOf_split (h : r.Grows r') {domain name : String} {o : Overload τ} {i : Nat}
    {front back : List (Overload τ × Nat)}
    (hos : r.overloadsOf domain name = front ++ (o, i) :: back) :
    ∃ front' o' back', r'.overloadsOf domain name = front' ++ (o', i) :: back' ∧
      front'.length = front.length ∧ o'.toDeclaration = o.toDeclaration ∧
      ∀ x ∈ front', ∃ y ∈ front, y.1.signature = x.1.signature := by
  obtain ⟨more, hmore⟩ := h.signatures domain name
  unfold signaturesOf at hmore
  rw [hos, List.map_append, List.map_cons, List.append_assoc, List.cons_append] at hmore
  obtain ⟨front', rest, hos', hfront, hrest⟩ := List.map_eq_append_iff.mp hmore.symm
  obtain ⟨⟨o', i'⟩, back', rfl, hhead, _⟩ := List.map_eq_cons_iff.mp hrest
  obtain ⟨_, rfl⟩ : o'.signature = o.signature ∧ i' = i := by simpa using hhead
  refine ⟨front', o', back', hos', by simpa using congrArg List.length hfront, ?_, fun x hx => ?_⟩
  rotate_left
  · have hx : (x.1.signature, x.2) ∈ front.map fun x => (x.1.signature, x.2) := by
      rw [← hfront]
      exact List.mem_map_of_mem hx
    obtain ⟨y, hy, hyx⟩ := List.mem_map.mp hx
    exact ⟨y, hy, congrArg Prod.fst hyx⟩
  have ho : (o, i') ∈ r.overloadsOf domain name := by simp [hos]
  have ho' : (o', i') ∈ r'.overloadsOf domain name := by simp [hos']
  obtain ⟨p, hp, hdeclaration, _⟩ := h.overloads i' o (mem_overloadsOf.mp ho).1
  obtain rfl : p = o' := Option.some.inj (hp.symm.trans (mem_overloadsOf.mp ho').1)
  exact hdeclaration

def placeOf? (r : Catalog τ) (domain name : String) (i : Nat) : Option Nat :=
  (r.overloadsOf domain name).findIdx? fun o => o.2 == i

theorem placeOf?_eq {domain name : String} {o : Overload τ} {i : Nat}
    {front back : List (Overload τ × Nat)}
    (hos : r.overloadsOf domain name = front ++ (o, i) :: back) :
    r.placeOf? domain name i = some front.length := by
  have hordered := r.ordered_signaturesOf domain name
  rw [numbers_signaturesOf, hos, List.map_append, List.pairwise_append] at hordered
  unfold placeOf?
  rw [hos, List.findIdx?_append, List.findIdx?_eq_none_iff.mpr]
  · simp [List.findIdx?_cons]
  · intro x hx
    have hlt := hordered.2.2 x.2 (List.mem_map_of_mem hx) i (by simp)
    simpa using Nat.ne_of_lt hlt

theorem search_lasts (h : r.Grows r') (hrules : r.castRules.Extends r'.castRules)
    {domain name : String} {args : List Arg} {explicit : List Ty} {sel : Selection}
    {records : List Record}
    (hsearch : r.search domain name args explicit = .ok (some (sel, records))) :
    ∃ k, r.placeOf? domain name sel.overload = some k ∧
      ∀ res, r'.search domain name args explicit = .ok res →
        ∃ sel' records' j, res = some (sel', records') ∧
          r'.placeOf? domain name sel'.overload = some j ∧ j ≤ k ∧
          (j = k → sel'.overload = sel.overload ∧ sel'.plan.bindings = sel.plan.bindings ∧
            sel'.plan.returns = sel.plan.returns) := by
  obtain ⟨call, hcall, front, o, back, hos, _, hadmits⟩ := search_eq_ok hsearch
  refine ⟨front.length, placeOf?_eq hos, fun res hres => ?_⟩
  obtain ⟨front', o', back', hos', hlength, hdeclaration, _⟩ := h.overloadsOf_split hos
  have hlasts := hrules.admits_lasts call o.signature (explicit.map Ty.tokens)
  rw [← hdeclaration] at hlasts hadmits
  obtain ⟨call', hcall', hfirst⟩ := search_eq_ok hres
  obtain rfl : call = call' := Except.ok.inj (hcall.symm.trans hcall')
  cases res with
  | none => exact absurd (hfirst (o', sel.overload) (by simp [hos'])) (hlasts _ hadmits)
  | some res =>
    obtain ⟨sel', records'⟩ := res
    obtain ⟨first, p, rest, hsplit, hpassed, hp⟩ := hfirst
    refine ⟨sel', records', first.length, rfl, placeOf?_eq hsplit, ?_, fun hsame => ?_⟩
    · -- the overload admitted so far is not passed over
      by_contra hlate
      have hget : first[front'.length]? = some (o', sel.overload) := by
        have hat : (r'.overloadsOf domain name)[front'.length]? = some (o', sel.overload) := by
          rw [hos', List.getElem?_append_right (Nat.le_refl _)]
          simp
        rw [hsplit, List.getElem?_append_left (by omega)] at hat
        exact hat
      exact hlasts _ hadmits (hpassed _ (List.mem_of_getElem? hget))
    · obtain ⟨_, heq⟩ := List.append_inj (hsplit.symm.trans hos') (by omega)
      obtain ⟨⟨rfl, hnumber⟩, _⟩ : (p = o' ∧ sel'.overload = sel.overload) ∧ rest = back' := by
        simpa using heq
      exact ⟨hnumber, bindings_of_admitsWith hadmits hp⟩

theorem search_stays (h : r.Grows r') (hrules : r'.castRules = r.castRules)
    {domain name : String} {args : List Arg} {explicit : List Ty} {sel : Selection}
    {records : List Record}
    (hsearch : r.search domain name args explicit = .ok (some (sel, records))) :
    r'.search domain name args explicit = .ok (some (sel, records)) := by
  obtain ⟨call, hcall, front, o, back, hos, hfront, hadmits⟩ := search_eq_ok hsearch
  rw [search_eq explicit hcall, hos, firstAdmitting_eq hfront hadmits] at hsearch
  obtain ⟨front', o', back', hos', _, hdeclaration, hsame⟩ := h.overloadsOf_split hos
  rw [search_eq explicit hcall, hos', hrules, ← hsearch, ← hdeclaration]
  refine firstAdmitting_eq (fun x hx => ?_) (by rw [hdeclaration]; exact hadmits)
  obtain ⟨y, hy, hyx⟩ := hsame x hx
  rw [← hyx]
  exact hfront y hy

end Catalog

/-- **More never loses a resolution**: whatever a catalog has seen, and whatever it sees then, a
call that resolves goes on to resolve, unless the search faults: to the same overload, with the
same bindings and the same return, or to an overload before it.  Where no class has got another
constructor of one argument or another shape, it is the same overload by the same plan. -/
theorem extension_keeps_resolutions {τ : Type} {config : Config} {r₀ : Catalog τ}
    {records₀ : List Record} (h : Catalog.new config = .ok (r₀, records₀)) (es es' : List (Edit τ))
    {domain name : String} {args : List Arg} {explicit : List Ty} {sel : Selection}
    {records : List Record}
    (hsearch : (r₀.after es).search domain name args explicit = .ok (some (sel, records))) :
    (∃ k, (r₀.after es).placeOf? domain name sel.overload = some k ∧
      ∀ res, (r₀.after (es ++ es')).search domain name args explicit = .ok res →
        ∃ sel' records' j, res = some (sel', records') ∧
          (r₀.after (es ++ es')).placeOf? domain name sel'.overload = some j ∧ j ≤ k ∧
          (j = k → sel'.overload = sel.overload ∧ sel'.plan.bindings = sel.plan.bindings ∧
            sel'.plan.returns = sel.plan.returns)) ∧
    ((∀ d, d ≠ globalDomain → (r₀.after (es ++ es')).makersOf d = (r₀.after es).makersOf d) →
      (r₀.after (es ++ es')).shapes = (r₀.after es).shapes →
      (r₀.after (es ++ es')).search domain name args explicit = .ok (some (sel, records))) := by
  obtain ⟨hr, _⟩ := Catalog.sound_after (Catalog.consistent_new h) es
  obtain ⟨hr', hgrows⟩ := Catalog.sound_after hr es'
  rw [Catalog.after_append]
  refine ⟨Catalog.search_lasts hgrows (hgrows.castRules hr hr') hsearch, fun hmakers hshapes => ?_⟩
  exact Catalog.search_stays hgrows (Catalog.castRules_eq hr hr' hgrows.order hmakers hshapes)
    hsearch

/-! ## A constructor that opens an earlier overload -/

theorem after_declare {r : Catalog Unit} {domain name sig : String} {s : Signature}
    (es : List (Edit Unit))
    (hs : signature.compileText sig Symbol.function r.config.strictWildcards = .ok s)
    (hfun : s.isFunction = true) (hfresh : r.declared? domain name s = none) :
    r.after (.declare domain name sig none :: es) =
      (r.addOverload ⟨⟨domain, name, s⟩, none⟩).after es := by
  rw [Catalog.after_cons]
  congr 1
  show (Edit.ofChange r (r.declare domain name sig none)).2 = _
  rw [Catalog.declare_fresh none hs hfun hfresh]
  rfl

def twoProcedures : List (Edit Unit) :=
  [.declare globalDomain "f" "FUNCTION VOID ( CLASS Box < > )" none,
    .declare globalDomain "f" "FUNCTION VOID ( I32 )" none]

def boxConstructor : Edit Unit :=
  .declare "Box" constructorName "FUNCTION CLASS Box < > ( I32 )" none

theorem admits_unboxed {r : Catalog Unit} (horder : r.order = Strategy.all)
    (hmakers : r.constructorsOf boxClass = []) :
    r.castRules.admits wordCall boxProcedure [] = .ok none := by
  have hcast : r.castRules.cast (.arith .i32) .none (.cls boxClass) = .ok none := by
    rw [cast_word_box horder, construct_eq rfl (compile_boxMaker false), CastRules.firstMaker]
    show firstPlan _ (r.constructorsOf boxClass) = _
    rw [hmakers]
    rfl
  rw [admits_boxProcedure_eq, hcast]
  rfl

theorem admits_boxed {r : Catalog Unit} {n : Nat} (horder : r.order = Strategy.all)
    (hmakers : r.constructorsOf boxClass = [⟨n, boxMaker⟩]) :
    ∃ plan, r.castRules.admits wordCall boxProcedure [] = .ok (some plan) :=
  ⟨_, admits_boxProcedure horder rfl hmakers⟩

theorem admits_wordProcedure (m : CastRules) : m.admits wordCall wordProcedure [] =
    .ok (some ⟨[.clone], [], some ["VOID"]⟩) := rfl

theorem exists_twoProcedures : ∃ (r : Catalog Unit) (records : List Record)
    (o p : Overload Unit) (i n : Nat), Catalog.new Config.default = .ok (r, records) ∧
      o.signature = boxProcedure ∧ p.signature = wordProcedure ∧
      (r.after twoProcedures).overloadsOf globalDomain "f" = [(o, i), (p, i + 1)] ∧
      (r.after (twoProcedures ++ [boxConstructor])).overloadsOf globalDomain "f" =
        [(o, i), (p, i + 1)] ∧
      (r.after twoProcedures).order = Strategy.all ∧
      (r.after (twoProcedures ++ [boxConstructor])).order = Strategy.all ∧
      (r.after twoProcedures).constructorsOf boxClass = [] ∧
      (r.after (twoProcedures ++ [boxConstructor])).constructorsOf boxClass =
        [⟨n, boxMaker⟩] := by
  obtain ⟨r, records₀, hnew⟩ := Catalog.exists_new Unit
  obtain ⟨hconfig, horder, _, hnone⟩ := Catalog.new_spec hnew
  have hstrict : r.config.strictWildcards = true := by
    rw [hconfig]
    rfl
  let box : Overload Unit := ⟨⟨globalDomain, "f", boxProcedure⟩, none⟩
  let word : Overload Unit := ⟨⟨globalDomain, "f", wordProcedure⟩, none⟩
  let maker : Overload Unit := ⟨⟨"Box", constructorName, boxMaker⟩, none⟩
  let r₂ := (r.addOverload box).addOverload word
  have hnil : r.overloadsOf globalDomain "f" = [] := hnone _ _ (by decide)
  have hone : (r.addOverload box).overloadsOf globalDomain "f" = [(box, r.overloads.size)] := by
    rw [Catalog.overloadsOf_addOverload, hnil]
    rfl
  have htwo : r₂.overloadsOf globalDomain "f" =
      [(box, r.overloads.size), (word, (r.addOverload box).overloads.size)] := by
    rw [Catalog.overloadsOf_addOverload, hone]
    rfl
  have hthree : (r₂.addOverload maker).overloadsOf globalDomain "f" =
      [(box, r.overloads.size), (word, (r.addOverload box).overloads.size)] := by
    rw [Catalog.overloadsOf_addOverload, htwo]
    rfl
  have hfresh : r₂.overloadsOf "Box" constructorName = [] := by
    rw [Catalog.overloadsOf_addOverload, Catalog.overloadsOf_addOverload, hnone _ _ (by decide)]
    rfl
  have hcompileBox : signature.compileText "FUNCTION VOID ( CLASS Box < > )" Symbol.function
      r.config.strictWildcards = .ok boxProcedure := by
    rw [hstrict]
    exact compile_boxProcedure
  have hcompileMaker : signature.compileText "FUNCTION CLASS Box < > ( I32 )" Symbol.function
      r₂.config.strictWildcards = .ok boxMaker := compile_boxMaker _
  have hcompileWord : signature.compileText "FUNCTION VOID ( I32 )" Symbol.function
      (r.addOverload box).config.strictWildcards = .ok wordProcedure := by
    rw [show (r.addOverload box).config.strictWildcards = true from hstrict]
    exact compile_wordProcedure
  have hafter : r.after twoProcedures = r₂ := by
    unfold twoProcedures
    rw [after_declare _ hcompileBox rfl (by rw [Catalog.declared?, hnil]; rfl),
      after_declare _ hcompileWord rfl (by rw [Catalog.declared?, hone]; rfl)]
    rfl
  have hafter' : r.after (twoProcedures ++ [boxConstructor]) = r₂.addOverload maker := by
    rw [Catalog.after_append, hafter, boxConstructor,
      after_declare _ hcompileMaker rfl (by rw [Catalog.declared?, hfresh]; rfl)]
    rfl
  have hconv : r₂.conversions = [] := by
    have hbox : Catalog.isConversion box.toDeclaration = false := by decide
    have hword : Catalog.isConversion word.toDeclaration = false := by decide
    simp [r₂, Catalog.addOverload, hbox, hword, Catalog.conversions_new hnew]
  have hconv' : (r₂.addOverload maker).conversions = [("Box", r₂.overloads.size)] := by
    have hmaker : Catalog.isConversion maker.toDeclaration = true := by decide
    rw [Catalog.addOverload, hconv, hmaker]
    rfl
  have hmakers : (r₂.addOverload maker).constructorsOf boxClass =
      [⟨r₂.overloads.size, boxMaker⟩] := by
    rw [Catalog.constructorsOf, hconv']
    simp [Catalog.getElem?_addOverload, maker, boxClass, ClassTy.domain, ClassTy.domainBefore]
  have horder : r₂.order = Strategy.all := (Except.ok.inj horder).symm
  have horder' : (r₂.addOverload maker).order = Strategy.all := horder
  have hsize : (r.addOverload box).overloads.size = r.overloads.size + 1 := Array.size_push _
  rw [hsize] at htwo hthree
  rw [← hafter] at htwo hconv horder
  rw [← hafter'] at hthree hmakers horder'
  refine ⟨r, records₀, box, word, r.overloads.size, r₂.overloads.size, hnew, rfl, rfl, htwo, hthree,
    horder, horder', ?_, hmakers⟩
  rw [Catalog.constructorsOf, hconv]
  rfl

/-- a call with a word goes to the second procedure, and to the first one once boxes are made from
words -/
theorem extension_keeps_resolutions_earlier :
    ∃ (r₀ : Catalog Unit) (records₀ : List Record) (sel sel' : Selection)
      (records records' : List Record) (j k : Nat),
      Catalog.new Config.default = .ok (r₀, records₀) ∧
      (r₀.after twoProcedures).search globalDomain "f" [⟨.arith .i32, .none⟩] [] =
        .ok (some (sel, records)) ∧
      (r₀.after (twoProcedures ++ [boxConstructor])).search globalDomain "f"
        [⟨.arith .i32, .none⟩] [] = .ok (some (sel', records')) ∧
      (r₀.after (twoProcedures ++ [boxConstructor])).placeOf? globalDomain "f" sel'.overload =
        some j ∧
      (r₀.after twoProcedures).placeOf? globalDomain "f" sel.overload = some k ∧ j < k := by
  obtain ⟨r, records₀, o, p, i, n, hnew, ho, hp, htwo, hthree, horder, horder', hnone, hmakers⟩ :=
    exists_twoProcedures
  have hbox : (r.after twoProcedures).castRules.admits wordCall boxProcedure [] = .ok none :=
    admits_unboxed horder hnone
  obtain ⟨plan', hbox'⟩ : ∃ plan', (r.after (twoProcedures ++ [boxConstructor])).castRules.admits
      wordCall boxProcedure [] = .ok (some plan') := admits_boxed horder' hmakers
  obtain ⟨plan, hword⟩ : ∃ plan, (r.after twoProcedures).castRules.admits wordCall wordProcedure
      [] = .ok (some plan) := ⟨_, admits_wordProcedure _⟩
  have hsearch : (r.after twoProcedures).search globalDomain "f" [⟨.arith .i32, .none⟩] [] =
      .ok (some (⟨i + 1, plan⟩, [Catalog.resolvedRecord p.toDeclaration plan])) := by
    rw [Catalog.search_eq [] compile_wordCall, htwo]
    simp only [List.map_nil, Catalog.firstAdmitting, ho, hp, hbox, hword]
  have hsearch' : (r.after (twoProcedures ++ [boxConstructor])).search globalDomain "f"
      [⟨.arith .i32, .none⟩] [] =
        .ok (some (⟨i, plan'⟩, [Catalog.resolvedRecord o.toDeclaration plan'])) := by
    rw [Catalog.search_eq [] compile_wordCall, hthree]
    simp only [List.map_nil, Catalog.firstAdmitting, ho, hbox']
  obtain ⟨⟨k, hk, hkept⟩, _⟩ :=
    extension_keeps_resolutions hnew twoProcedures [boxConstructor] hsearch
  obtain ⟨sel', _, j, hres, hj, hle, hsame⟩ := hkept _ hsearch'
  cases hres
  refine ⟨r, records₀, _, _, _, _, j, k, hnew, hsearch, hsearch', hj, hk, ?_⟩
  refine Nat.lt_of_le_of_ne hle fun heq => ?_
  have hnumber : i = i + 1 := (hsame heq).1
  omega

end Overloading
