import Overloading.Proofs.AdmissionFaults

/-!
# What a plan delivers

A plan says of each argument how it is prepared.  Here is what its ways make of a type, before
anything is run.

* `Transfer.Delivers`   a transfer takes a variable of one type to a variable of another;
* `Transfer.MadeBy`     every constructor that a transfer runs, however deep, is known to the cast
                        rules, and is run to return a type;
* `delivers_of_cast`    a cast delivers what it was asked for;
* `delivers_of_finish`  so does what becomes of a draft, and the type it was asked for is that of
                        the parameter;
* `delivers_of_admits`  so does each transfer of a plan.
-/

namespace Overloading

open Grammar

/-- a transfer takes a variable of type `src` to one of type `dst` -/
def Transfer.Delivers : Transfer → (src dst : Ty) → Prop
  | .borrow, src, dst | .clone, src, dst => src = dst
  | .decay _, src, dst => (∃ ts, src = .function ts ∧ dst = .pointer (.function ts)) ∨
      ∃ e n, src = .array e n ∧ dst = .pointer e
  | .numeric t, _, dst => t = dst ∧ ∃ k, dst = .arith k
  | .construct _ _ _ _ returns, _, dst => ∃ c, dst = .cls c ∧ returns = some c.tokens
  | .braces t _ _, _, dst => t = dst ∧ ∃ c, dst = .cls c
  | .unregistered _, _, _ | .unsupported _, _, _ => False

mutual
/-- every constructor of a transfer, at any depth, is one of a class, and the call of it returns
a type -/
def Transfer.MadeBy (m : CastRules) : Transfer → Prop
  | .construct _ maker nested _ returns =>
    (∃ u c, m.user = some u ∧ maker ∈ u.constructors c) ∧ (∃ ts, returns = some ts) ∧
      Transfer.MadeByAll m nested
  | .braces _ _ elements => Transfer.MadeByAll m elements
  | _ => True

def Transfer.MadeByAll (m : CastRules) : List Transfer → Prop
  | [] => True
  | a :: as => a.MadeBy m ∧ Transfer.MadeByAll m as
end

theorem Transfer.MadeByAll.of_mem {m : CastRules} {as : List Transfer}
    (h : Transfer.MadeByAll m as) {a : Transfer} (ha : a ∈ as) : a.MadeBy m := by
  induction as with
  | nil => cases ha
  | cons b as ih =>
    rw [Transfer.MadeByAll] at h
    rcases List.mem_cons.mp ha with rfl | ha
    · exact h.1
    · exact ih h.2 ha

/-! ## Casts -/

section Casts

variable {m : CastRules} {user : Ty → Ref → Ty → Planned Transfer}

/-- a way to cast delivers the type it is asked for -/
def CastDelivers (m : CastRules) (cast : Ty → Ref → Ty → Planned Transfer) : Prop :=
  ∀ src ref dst tr, cast src ref dst = .ok (some tr) → tr.Delivers src dst ∧ tr.MadeBy m

theorem delivers_of_castWith (huser : CastDelivers m user) : CastDelivers m (castWith m user) :=
  CastClosed.castWith (P := fun src _ dst a => a.Delivers src dst ∧ a.MadeBy m)
    (Q := fun _ _ as => Transfer.MadeByAll m as)
    { function := fun ts _ => ⟨.inl ⟨ts, rfl, rfl⟩, trivial⟩
      array := fun e n _ => ⟨.inr ⟨e, n, rfl, rfl⟩, trivial⟩
      numeric := fun _ l _ => ⟨⟨rfl, l, rfl⟩, trivial⟩
      constructor := huser
      braces := fun _ _ c _ _ _ _ hall => ⟨⟨rfl, c, rfl⟩, hall⟩
      nil := trivial
      clone := fun _ _ _ _ hrest => ⟨trivial, hrest⟩
      cast := fun _ _ _ _ _ _ _ ha hrest => ⟨ha.2, hrest⟩ }

theorem castPlainly_delivers (m : CastRules) : CastDelivers m m.castPlainly :=
  delivers_of_castWith fun _ _ _ _ h => by cases h

end Casts

/-! ## Drafts -/

/-- what is settled in the first pass is borrowed or cloned -/
def Draft.Plain : Draft → Prop
  | .settled tr => tr = .borrow ∨ tr = .clone
  | _ => True

theorem passAsIs_plain (ref : Ref) (formal : Tree) :
    passAsIs ref formal = .borrow ∨ passAsIs ref formal = .clone := by
  unfold passAsIs
  split
  · exact .inl rfl
  · exact .inr rfl

theorem plain_of_draft {actual formal : Tree} {b b' : Bindings} {d : Draft}
    (h : draft actual formal b = some (d, b')) : d.Plain := by
  cases hhead : formal.isHead with
  | true =>
    obtain ⟨s, i, tok, rfl⟩ : ∃ s i tok, formal = .head s i tok := by
      cases formal with
      | head s i tok => exact ⟨s, i, tok, rfl⟩
      | leaf | branch => cases hhead
    rw [draft] at h
    obtain ⟨b₁, _, he⟩ := Option.map_eq_some_iff.mp h
    cases he
    exact .inl rfl
  | false =>
    rcases draft_cases hhead h with ⟨_, _, rfl, _⟩ | ⟨_, ⟨_, _, _, _, rfl, _⟩ | ⟨rfl, _⟩ |
      ⟨rfl, _⟩⟩
    · exact .inl rfl
    · trivial
    · exact passAsIs_plain _ _
    · trivial

theorem plain_of_draftAll {actuals formals : List Tree} {b b' : Bindings} {ds : List Draft}
    (h : draftAll actuals formals b = some (ds, b')) : ∀ d ∈ ds, d.Plain := by
  induction actuals generalizing formals b ds with
  | nil =>
    rw [draftAll] at h
    · cases h
      exact List.forall_mem_nil _
    · intros; contradiction
  | cons a actuals ih =>
    cases formals with
    | nil =>
      rw [draftAll] at h
      · cases h
        exact List.forall_mem_nil _
      · intros; contradiction
    | cons f formals =>
      rw [draftAll] at h
      split at h
      · cases h
      next d b₁ hd =>
      obtain ⟨⟨ds', b₂⟩, hrest, he⟩ := Option.map_eq_some_iff.mp h
      cases he
      exact List.forall_mem_cons.mpr ⟨plain_of_draft hd, ih hrest⟩

theorem madeBy_of_finish {m : CastRules} {cast : Ty → Ref → Ty → Planned Transfer}
    (hcast : CastDelivers m cast) {b : Bindings} {d : Draft} {tr : Transfer} (hd : d.Plain)
    (h : finish cast b d = .ok (some tr)) : tr.MadeBy m := by
  cases d with
  | settled tr' =>
    rw [finish] at h
    cases h
    rcases hd with rfl | rfl <;> trivial
  | promote id ref k =>
    rw [finish] at h
    split at h
    · cases h
      unfold passPromoted
      split
      · split <;> trivial
      · trivial
    · cases h
  | convert ref actual formal =>
    obtain ⟨src, dst, -, -, hmade⟩ := cast_of_finish h
    exact (hcast src ref dst tr hmade).2

theorem madeBy_of_finishAll {m : CastRules} {cast : Ty → Ref → Ty → Planned Transfer}
    (hcast : CastDelivers m cast) {b : Bindings} {ds : List Draft} {trs : List Transfer}
    (hd : ∀ d ∈ ds, d.Plain) (h : finishAll cast b ds = .ok (some trs)) :
    Transfer.MadeByAll m trs := by
  induction ds generalizing trs with
  | nil =>
    rw [finishAll] at h
    cases h
    trivial
  | cons d ds ih =>
    rw [finishAll] at h
    split at h
    · cases h
    · cases h
    next tr htr =>
    obtain ⟨trs', hrest, rfl⟩ := planned_map_eq h
    exact ⟨madeBy_of_finish hcast (hd d List.mem_cons_self) htr,
      ih (fun d' hd' => hd d' (List.mem_cons_of_mem _ hd')) hrest⟩

theorem madeBy_of_admitsWith {m : CastRules} {cast : Ty → Ref → Ty → Planned Transfer}
    (hcast : CastDelivers m cast) {sub sup : Signature} {explicit : List (List String)} {r : Match}
    (h : admitsWith cast sub sup explicit = .ok (some r)) : Transfer.MadeByAll m r.transfers := by
  unfold admitsWith at h
  split at h
  · cases h
  split at h
  · obtain ⟨_, _, _, _, _, _, _, _, _, _, hdraft, _, hfinish, _⟩ := planCall_stages h
    exact madeBy_of_finishAll hcast (plain_of_draftAll hdraft) hfinish
  · obtain ⟨b, _, rfl⟩ := Option.map_eq_some_iff.mp (Except.ok.inj h)
    trivial

/-! ## Constructors -/

theorem delivers_of_firstMaker {m : CastRules} {c : ClassTy} {src : Ty}
    {plan : Candidate → Planned Match} {makers : List Candidate} {tr : Transfer} {u : Conversions}
    (hu : m.user = some u) (hmakers : makers = u.constructors c)
    (hplan : ∀ maker r, plan maker = .ok (some r) → Transfer.MadeByAll m r.transfers)
    (h : firstPlan (fun maker => (plan maker).map fun r => r.bind fun res =>
      if res.returns = some c.tokens then
        some (.construct (.cls c) maker res.transfers res.bindings res.returns)
      else none) makers = .ok (some tr)) : tr.Delivers src (.cls c) ∧ tr.MadeBy m := by
  obtain ⟨maker, hmem, hmaker⟩ := exists_of_firstPlan h
  cases hp : plan maker with
  | error e => rw [hp] at hmaker; cases hmaker
  | ok r =>
    rw [hp] at hmaker
    obtain ⟨res, hr, hres⟩ := Option.bind_eq_some_iff.mp (Except.ok.inj hmaker)
    split at hres
    · next hreturns =>
      cases hres
      rw [hr] at hp
      rw [hmakers] at hmem
      exact ⟨⟨c, rfl, hreturns⟩, ⟨u, c, hu, hmem⟩, ⟨_, hreturns⟩, hplan maker res hp⟩
    · cases hres

theorem class_of_construct {dst : Ty} {user : Option Conversions}
    {F : ClassTy → Conversions → Planned Transfer} {tr : Transfer}
    (h : (match dst, user with
      | .cls c, some u => F c u
      | _, _ => .ok none) = .ok (some tr)) :
    ∃ c u, dst = .cls c ∧ user = some u ∧ F c u = .ok (some tr) := by
  split at h
  · exact ⟨_, _, rfl, rfl, h⟩
  · cases h

theorem construct_delivers (m : CastRules) : CastDelivers m m.construct := by
  intro src ref dst tr h
  rw [CastRules.construct.eq_def] at h
  obtain ⟨c, u, rfl, hu, h⟩ := class_of_construct h
  cases hcall : signature.compile (typedCallForm (.cls c) [⟨src, ref⟩]) Symbol.function false with
  | error e => rw [hcall] at h; cases h
  | ok call =>
    rw [hcall] at h
    refine delivers_of_firstMaker hu rfl (fun maker r hr => ?_) h
    exact madeBy_of_admitsWith (castPlainly_delivers m) hr

/-- **A cast** delivers the type it was asked for. -/
theorem delivers_of_cast (m : CastRules) : CastDelivers m m.cast :=
  delivers_of_castWith (construct_delivers m)

/-! ## Plans -/

theorem of_guard_eq_some {α : Type} {c : Bool} {x : Option α} {a : α}
    (h : (if c then x else none) = some a) : x = some a := by
  cases c with
  | true => exact h
  | false => cases h

theorem closed_of_bindExplicit {huge : Prop} {id : Nat} {kinds : List Symbol}
    {explicit : List (List String)} {b : Bindings} (hts : ∀ ts ∈ explicit, ClosedRun huge ts)
    (h : bindExplicit id kinds explicit = some b) : b.Closed huge := by
  induction explicit generalizing id kinds b with
  | nil =>
    rw [bindExplicit] at h
    cases h
    exact Bindings.closed_nil
  | cons ts explicit ih =>
    cases kinds with
    | nil => rw [bindExplicit] at h; cases h
    | cons kind kinds =>
      rw [bindExplicit] at h
      obtain ⟨b', hb', rfl⟩ := Option.map_eq_some_iff.mp (of_guard_eq_some h)
      intro j v hv
      rw [Bindings.get?, List.lookup_cons] at hv
      split at hv
      · cases hv
        exact ⟨ts, rfl, hts ts List.mem_cons_self⟩
      · exact ih (fun us hus => hts us (List.mem_cons_of_mem _ hus)) hb' j v hv

theorem ofTree_splitRef {p : Tree} (hp : p.Formed) (hs : p.symbol = Symbol.paramObject) :
    Ty.ofTree p.splitRef.2 = Ty.ofTree p := by
  unfold Tree.splitRef
  split
  · next s alt m t obj =>
    have hs : s = Symbol.paramObject := hs
    have hsym : obj.symbol = Symbol.object := by
      have halts : alternatives Symbol.paramObject = [[Symbol.object], [Symbol.function],
          [Keyword.lref, Symbol.object], [Keyword.clref, Symbol.object]] := by decide
      have halt := (formed_branch.mp hp).1
      rw [hs, halts] at halt
      rcases alt with _ | _ | _ | _ | alt
      · exact nomatch Option.some.inj halt
      · exact nomatch Option.some.inj halt
      · exact ((List.cons.inj (List.cons.inj (Option.some.inj halt)).2).1).symm
      · exact ((List.cons.inj (List.cons.inj (Option.some.inj halt)).2).1).symm
      · cases halt
    have hobj : obj.isLeaf = false :=
      isLeaf_of_formed ((formed_branch.mp hp).2 obj (by simp)) (by rw [hsym]; decide)
    have hty : Ty.ofTree (.branch s alt [.leaf m t, obj]) = Ty.ofTree obj := by
      rw [Ty.ofTree, if_pos (by rw [hs]; decide), hobj]
      rfl
    split
    · exact hty.symm
    split
    · exact hty.symm
    · rfl
  · rfl

/-- what becomes of an argument: it is delivered as the type of its parameter -/
def Delivered (B : Nat → Option (List String)) (a : Arg) (formal : Tree) (tr : Transfer) : Prop :=
  ∃ ty, formal.splitRef.2.typeUnder? B = some ty ∧ ty.WellFormed ∧ tr.Delivers a.type ty

theorem delivers_of_plain {a : Arg} {ty : Ty} {ref : Ref} {tr : Transfer}
    (hplain : tr = .borrow ∨ tr = .clone) (h : a.Passes ty tr ref) :
    a.type = ty ∧ tr.Delivers a.type ty := by
  have htarget : tr.target? = none := by rcases hplain with rfl | rfl <;> rfl
  have hty : a.type = ty := by
    cases ref with
    | mutable => exact h.2.2
    | constant | none =>
      rcases h with ⟨_, h⟩ | h
      · exact h
      · rw [htarget] at h
        cases h
  refine ⟨hty, ?_⟩
  rcases hplain with rfl | rfl <;> exact hty

/-- **What becomes of a draft** delivers the type of the parameter. -/
theorem delivered_of_finish {m : CastRules} {cast : Ty → Ref → Ty → Planned Transfer}
    (hcast : CastDelivers m cast) {a : Arg} {actual formal : Tree} {b : Bindings} {d : Draft}
    {tr : Transfer} (ha : a.ShownBy actual) (hwell : a.type.WellFormed) (hf : formal.IsFormal)
    (hb : b.Closed True) (hplain : d.Plain) (hkeeps : d.Keeps a formal)
    (hd : Drafted a formal b d) (h : finish cast b d = .ok (some tr)) :
    Delivered b.texts? a formal tr := by
  cases d with
  | settled tr' =>
    rw [finish] at h
    cases h
    cases hhead : formal.isHead with
    | true =>
      obtain ⟨s, i, tok, rfl⟩ : ∃ s i tok, formal = .head s i tok := by
        cases formal with
        | head s i tok => exact ⟨s, i, tok, rfl⟩
        | leaf | branch => cases hhead
      obtain ⟨rfl, hbound⟩ := hd.whole s i tok rfl
      have hs : s = Symbol.paramObject := hf.symbol_eq
      have hparse : signature.parsePlain a.tokens s = some actual :=
        (parsePlain_eq_some_iff (by rw [hs]; decide)).mpr
          ⟨ha.spells.formed, ha.spells.symbol_eq.trans hs.symm, ha.spells.yield_eq⟩
      have hty : Ty.ofTree actual = .ok a.type := by
        obtain ⟨_, _, hden⟩ := ha.denotes
        rw [← ofTree_splitRef ha.spells.formed ha.spells.symbol_eq]
        exact hden.type_eq
      exact ⟨a.type, typeUnder_eq hbound hparse hty, hwell, rfl⟩
    | false =>
      obtain ⟨ty, hty, hpasses⟩ := hd.typed hhead
      obtain ⟨rfl, hdelivers⟩ := delivers_of_plain hplain hpasses
      exact ⟨_, hty, hwell, hdelivers⟩
  | promote id ref k =>
    obtain ⟨hf, hhead, rfl, hne, hid, hk⟩ := hd
    rw [finish] at h
    split at h
    · next target htarget =>
      cases h
      refine ⟨.arith target, typeUnder_bareArithmetic (hf.unmarked hhead) hid htarget, trivial, ?_⟩
      unfold passPromoted
      split
      · next heq =>
        rw [hk, heq]
        split <;> rfl
      · exact ⟨rfl, target, rfl⟩
    · cases h
  | convert ref actual' obj =>
    obtain ⟨_, ⟨s, hden⟩, hhead, rfl⟩ := hkeeps
    have htarget : Finds (Excused True True) (Ty.Safe True) (concretize formal.splitRef.2 b) :=
      finds_concretize (hf.unmarked hhead) (fun _ => trivial) hb
    obtain ⟨src, dst, hsrc, hdst, hmade⟩ := cast_of_finish h
    rw [hden.type_eq] at hsrc
    cases hsrc
    rw [hdst] at htarget
    exact ⟨dst, typeUnder_of_concretize hdst, htarget.wellFormed, (hcast _ _ _ _ hmade).1⟩

theorem delivered_of_finishAll {m : CastRules} {cast : Ty → Ref → Ty → Planned Transfer}
    (hcast : CastDelivers m cast) {xs : List (Arg × Tree)} {b : Bindings} {ds : List Draft}
    {trs : List Transfer}
    (hxs : ∀ x ∈ xs, (∃ actual, x.1.ShownBy actual) ∧ x.1.type.WellFormed ∧ x.2.IsFormal)
    (hb : b.Closed True) (hplain : ∀ d ∈ ds, d.Plain)
    (hkeeps : List.Forall₂ (fun x d => Draft.Keeps x.1 x.2 d) xs ds)
    (hd : List.Forall₂ (fun x d => Drafted x.1 x.2 b d) xs ds)
    (h : finishAll cast b ds = .ok (some trs)) :
    List.Forall₂ (fun x tr => Delivered b.texts? x.1 x.2 tr) xs trs := by
  induction hd generalizing trs with
  | nil => rw [finishAll] at h; cases h; exact .nil
  | @cons x d xs ds hd _ ih =>
    cases hkeeps with
    | cons hkeep hkeeps =>
    rw [finishAll] at h
    split at h
    · cases h
    · cases h
    next tr htr =>
    obtain ⟨trs', hrest, rfl⟩ := planned_map_eq h
    obtain ⟨⟨actual, hshown⟩, hwell, hformal⟩ := hxs x List.mem_cons_self
    refine .cons (delivered_of_finish hcast hshown hwell hformal hb
      (hplain d List.mem_cons_self) hkeep hd htr) ?_
    exact ih (fun y hy => hxs y (List.mem_cons_of_mem _ hy))
      (fun d' hd' => hplain d' (List.mem_cons_of_mem _ hd')) hkeeps hrest

/-- the last pass: how each argument reaches its parameter, and what it is delivered as -/
theorem reached_of_admits {m : CastRules} {args : List Arg} {explicit : List Ty}
    {call sup : Signature} {start : Symbol} {strict : Bool} {r : Match}
    (hargs : ∀ a ∈ args, a.type.WellFormed) (hexplicit : ∀ t ∈ explicit, t.WellFormed)
    (hcall : signature.compile (openCallForm args) Symbol.function strict = .ok call)
    (hsup : sup.CompiledFrom start) (hfun : sup.isFunction = true)
    (h : m.admits call sup (explicit.map Ty.tokens) = .ok (some r)) :
    args.length = sup.params.length ∧
      List.Forall₂ (fun x tr => x.1.Reaches (fun id => r.bindings.lookup id) x.2 tr)
        (args.zip sup.params) r.transfers ∧
      List.Forall₂ (fun x tr => Delivered (fun id => r.bindings.lookup id) x.1 x.2 tr)
        (args.zip sup.params) r.transfers := by
  obtain ⟨hcallfun, hret, hshown⟩ := params_shownBy hargs hcall
  obtain ⟨b, hb, hplan⟩ := planCall_of_admitsWith hcallfun hfun h
  obtain ⟨hlen, subRet, supRet, b₁, ds, b₂, b₃, hsubRet, _, hunify, hdraft, hpromote, hfinish,
    hbindings, _⟩ := planCall_stages hplan
  have hclosed : b.Closed True := by
    refine closed_of_bindExplicit (fun ts hts => ?_) hb
    obtain ⟨t, ht, rfl⟩ := List.mem_map.mp hts
    exact Ty.Safe.closedRun ⟨hexplicit t ht, fun _ => trivial⟩
  rw [hret] at hsubRet
  cases hsubRet
  have hsafe : ∀ a ∈ args, a.type.Safe True := fun a ha => ⟨hargs a ha, fun _ => trivial⟩
  obtain ⟨hclosed₃, hkeeps⟩ :=
    closed_of_passes hshown hsafe hlen (.inl rfl) hclosed hunify hdraft hpromote
  have hformal : ∀ p ∈ sup.params, p.IsFormal := fun p hp => isFormal_of_mem_params hsup hp
  obtain ⟨_, hdrafts⟩ := drafted_of_draftAll hshown hformal hlen hdraft
  have hext := extends_of_promoteAll hpromote
  have hlookup : (fun id => r.bindings.lookup id) = b₃.texts? := by
    rw [hbindings]
    exact funext b₃.lookup_toTexts
  have hdrafts := hdrafts.imp fun _ _ hd => hd.mono hext
  rw [hlookup]
  refine ⟨hshown.length_eq.trans hlen, reaches_of_finishAll (target_of_cast m) hdrafts hfinish,
    delivered_of_finishAll (delivers_of_cast m) (fun x hx => ?_) hclosed₃
      (plain_of_draftAll hdraft) hkeeps hdrafts hfinish⟩
  obtain ⟨ha, hp⟩ := List.of_mem_zip hx
  refine ⟨?_, hargs _ ha, hformal _ hp⟩
  obtain ⟨i, hi, heq⟩ := List.mem_iff_getElem.mp ha
  rw [← heq]
  exact ⟨_, (List.forall₂_iff_get.mp hshown).2 i hi (Nat.lt_of_lt_of_eq hi hshown.length_eq)⟩

/-- **A plan delivers**: each argument comes as the type its parameter has under the bindings of
the match. -/
theorem delivered_of_admits {m : CastRules} {args : List Arg} {explicit : List Ty}
    {call sup : Signature} {start : Symbol} {strict : Bool} {r : Match}
    (hargs : ∀ a ∈ args, a.type.WellFormed) (hexplicit : ∀ t ∈ explicit, t.WellFormed)
    (hcall : signature.compile (openCallForm args) Symbol.function strict = .ok call)
    (hsup : sup.CompiledFrom start) (hfun : sup.isFunction = true)
    (h : m.admits call sup (explicit.map Ty.tokens) = .ok (some r)) :
    args.length = sup.params.length ∧ Transfer.MadeByAll m r.transfers ∧
      List.Forall₂ (fun x tr => Delivered (fun id => r.bindings.lookup id) x.1 x.2 tr)
        (args.zip sup.params) r.transfers := by
  obtain ⟨hlen, _, hdelivered⟩ := reached_of_admits hargs hexplicit hcall hsup hfun h
  exact ⟨hlen, madeBy_of_admitsWith (delivers_of_cast m) h, hdelivered⟩

end Overloading
