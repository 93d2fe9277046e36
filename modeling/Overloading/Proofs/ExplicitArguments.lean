import Overloading.Proofs.AdmissionFaults
import Overloading.Proofs.Instantiation

/-!
# Explicit arguments

What a call infers for the first declared wildcards may be given explicitly.

The run with explicit arguments starts from larger bindings.  Pass by pass, its bindings are those
of the run without, and the explicit ones besides (`Bindings.Joins`); what was inferred later has
been there from the start.

* `draft_join`, `promoteAll_join`   each pass comes to the same drafts.  A trial match that failed
                       fails again, since more is bound; one that succeeded does so again, since
                       what it bound is what has been given;
* `planCall_explicit`  so in the end both runs have the same bindings, and the last pass is the same;
* `explicit_agrees`    what has been inferred can be given, because it is a sentence of its kind
                       without a wildcard of the caller.

A wildcard of the caller gets into a binding only where a declaration that is no function takes the
whole of a call that leaves its return open; explicit arguments name no wildcard of the caller, so
nothing that is given agrees with such a binding.
-/

namespace Overloading

open Grammar

/-! ## The passes -/

section Join

variable {e b b' c : Bindings} {V : Nat → Option Binding}

theorem unifyReturn_join {actual formal : Tree} (ha : actual.Formed)
    (hs : Tree.Ordinary actual.symbol) (h : unifyReturn actual formal b = some b')
    (hb' : b'.Within V) (he : e.Within V) (hc : Bindings.Joins e b c) :
    ∃ c', unifyReturn actual formal c = some c' ∧ Bindings.Joins e b' c' := by
  unfold unifyReturn at h ⊢
  split at h
  · next hopen =>
    cases h
    exact ⟨c, if_pos hopen, hc⟩
  · next hopen =>
    rw [if_neg hopen]
    exact unify_join ha hs h hb' he hc

theorem draft_join {actual formal : Tree} {d : Draft} (ha : actual.IsFormal)
    (h : draft actual formal b = some (d, b')) (hb' : b'.Within V) (he : e.Within V)
    (hc : Bindings.Joins e b c) :
    ∃ c', draft actual formal c = some (d, c') ∧ Bindings.Joins e b' c' := by
  have hun := ha.unmarked_splitRef
  have hord : Tree.Ordinary actual.symbol := by
    rw [ha.symbol_eq]
    exact Tree.ordinary_wildcard (by decide)
  cases hhead : formal.isHead with
  | true =>
    cases formal with
    | leaf | branch => cases hhead
    | head s i tok =>
      rw [draft, ← unify_head actual s i] at h ⊢
      obtain ⟨b₁, hb₁, hd⟩ := Option.map_eq_some_iff.mp h
      cases hd
      obtain ⟨c', hc', hjoin⟩ := unify_join ha.formed hord hb₁ hb' he hc
      exact ⟨c', by rw [hc']; rfl, hjoin⟩
  | false =>
    rw [draft_eq hhead] at h ⊢
    by_cases hm : formal.splitRef.1 = .mutable
    · rw [if_pos hm] at h ⊢
      by_cases hma : actual.splitRef.1 = .mutable
      · rw [if_pos hma] at h ⊢
        obtain ⟨b₁, hb₁, hd⟩ := Option.map_eq_some_iff.mp h
        cases hd
        obtain ⟨c', hc', hjoin⟩ := unify_join hun.formed hun.ordinary hb₁ hb' he hc
        exact ⟨c', by rw [hc']; rfl, hjoin⟩
      · rw [if_neg hma] at h
        cases h
    · rw [if_neg hm] at h ⊢
      split at h
      · cases h
        exact ⟨c, rfl, hc⟩
      · split at h
        · next b₁ hb₁ =>
          cases h
          obtain ⟨c', hc', hjoin⟩ := unify_join hun.formed hun.ordinary hb₁ hb' he hc
          rw [hc']
          exact ⟨c', rfl, hjoin⟩
        · next hnone =>
          cases h
          rw [unify_none_of_extends hun.formed hun.ordinary hc.extends_ hnone]
          exact ⟨c, rfl, hc⟩

theorem draftAll_join {args : List Arg} {actuals formals : List Tree} {ds : List Draft}
    (hargs : List.Forall₂ Arg.ShownBy args actuals) (ha : ∀ p ∈ actuals, p.IsFormal)
    (hf : ∀ p ∈ formals, p.IsFormal) (hlen : actuals.length = formals.length)
    (h : draftAll actuals formals b = some (ds, b')) (hb' : b'.Within V) (he : e.Within V)
    (hc : Bindings.Joins e b c) :
    ∃ c', draftAll actuals formals c = some (ds, c') ∧ Bindings.Joins e b' c' := by
  induction hargs generalizing formals b c ds with
  | nil =>
    obtain rfl := List.length_eq_zero_iff.mp hlen.symm
    rw [draftAll] at h ⊢
    · cases h
      exact ⟨c, rfl, hc⟩
    all_goals simp
  | @cons a actual args actuals hshown hargs ih =>
    obtain ⟨formal, formals, rfl⟩ := List.exists_cons_of_length_pos (l := formals) (by
      rw [← hlen]; exact Nat.succ_pos _)
    rw [List.forall_mem_cons] at ha hf
    rw [draftAll] at h ⊢
    split at h
    · cases h
    next d b₁ hd =>
    obtain ⟨⟨ds', b₂⟩, hrest, heq⟩ := Option.map_eq_some_iff.mp h
    cases heq
    obtain ⟨hext, -⟩ := drafted_of_draftAll hargs hf.2 (Nat.succ.inj hlen) hrest
    obtain ⟨c₁, hc₁, hjoin₁⟩ := draft_join ha.1 hd (fun id v hv => hb' id v (hext id v hv)) he hc
    obtain ⟨c', hc', hjoin⟩ := ih ha.2 hf.2 (Nat.succ.inj hlen) hrest hjoin₁
    rw [hc₁]
    dsimp only
    rw [hc']
    exact ⟨c', rfl, hjoin⟩

theorem promoteGroup_join {id : Nat} {kinds : List Kind}
    (h : promoteGroup id kinds b = .ok (some b')) (hb' : b'.Within V) (he : e.Within V)
    (hc : Bindings.Joins e b c) :
    ∃ c', promoteGroup id kinds c = .ok (some c') ∧ Bindings.Joins e b' c' := by
  unfold promoteGroup at h ⊢
  cases hget : b.get? id with
  | some prev =>
    rw [hget] at h
    rw [hc.extends_ id prev hget]
    dsimp only at h ⊢
    split at h
    · cases h
    next hopen =>
    rw [if_neg hopen]
    split at h
    · cases h
      exact ⟨c, rfl, hc⟩
    · cases h
  | none =>
    rw [hget] at h
    dsimp only at h
    split at h
    rotate_left
    · cases h
    next k hk =>
    cases h
    have hk' := hb' id _ (Bindings.get?_insert_self hget _)
    cases hgete : e.get? id with
    | some v =>
      obtain rfl : v = Binding.ofTexts [k.token] :=
        Option.some.inj ((he id v hgete).symm.trans hk')
      rw [hc, hget, hgete]
      have hkind : kindOfTexts? [k.token] = some k := Kind.ofToken?_token k
      simp only [Option.none_or, Binding.isOpen_ofTexts, Binding.texts_ofTexts, hkind,
        Bool.false_eq_true, if_false]
      refine ⟨c, rfl, fun j => ?_⟩
      rw [hc, Bindings.get?_insert]
      by_cases hj : j = id
      · rw [hj, hget, hgete, if_pos rfl]
        rfl
      · rw [if_neg hj, Option.or_none]
    | none =>
      rw [hc, hget, hgete]
      refine ⟨_, rfl, fun j => ?_⟩
      rw [Bindings.get?_insert, Bindings.get?_insert, hc]
      by_cases hj : j = id
      · rw [hj, hget, hgete, if_pos rfl]
        rfl
      · rw [if_neg hj, Option.or_none, Option.or_none]

theorem promoteAll_join {ds : List Draft} {ids : List Nat}
    (h : promoteAll ds ids b = .ok (some b')) (hb' : b'.Within V) (he : e.Within V)
    (hc : Bindings.Joins e b c) :
    ∃ c', promoteAll ds ids c = .ok (some c') ∧ Bindings.Joins e b' c' := by
  induction ids generalizing b c with
  | nil =>
    rw [promoteAll] at h
    cases h
    exact ⟨c, rfl, hc⟩
  | cons id ids ih =>
    rw [promoteAll] at h
    split at h
    · next b₁ hb₁ =>
      have hext := extends_of_promoteAll h
      obtain ⟨c₁, hc₁, hjoin₁⟩ :=
        promoteGroup_join hb₁ (fun id v hv => hb' id v (hext id v hv)) he hc
      obtain ⟨c', hc', hjoin⟩ := ih h hjoin₁
      refine ⟨c', ?_, hjoin⟩
      rw [promoteAll, hc₁]
      exact hc'
    · next hno => exact absurd h (hno b')

/-- what has been given is among what is inferred, so in the end nothing is bound besides -/
theorem Bindings.Joins.get?_eq (hc : Bindings.Joins e b c) (he : e.Within b.get?) :
    c.get? = b.get? := by
  funext id
  rw [hc]
  cases hb : b.get? id with
  | some v => rfl
  | none =>
    cases hv : e.get? id with
    | none => rfl
    | some v =>
      rw [he id v hv] at hb
      cases hb

end Join

/-! ## The last pass -/

section Finish

variable {b c : Bindings}

theorem Bindings.texts?_congr (h : c.get? = b.get?) : c.texts? = b.texts? := by
  funext id
  unfold texts?
  rw [h]

theorem Bindings.isOpen_congr (h : c.get? = b.get?) : c.isOpen = b.isOpen := by
  funext id
  unfold isOpen
  rw [h]

theorem concretize_congr (h : c.get? = b.get?) (formal : Tree) :
    concretize formal c = concretize formal b := by
  unfold concretize
  rw [Bindings.texts?_congr h, Bindings.isOpen_congr h]

theorem instantiate_congr (h : c.get? = b.get?) (ret : Tree) :
    instantiate ret c = instantiate ret b := by
  unfold instantiate
  rw [Bindings.texts?_congr h, Bindings.isOpen_congr h]

theorem finish_congr (h : c.get? = b.get?) (cast : Ty → Ref → Ty → Planned Transfer) (d : Draft) :
    finish cast c d = finish cast b d := by
  cases d with
  | settled => rfl
  | promote => rw [finish, finish, Bindings.texts?_congr h]
  | convert ref actual formal => rw [finish, finish, concretize_congr h]

theorem finishAll_congr (h : c.get? = b.get?) (cast : Ty → Ref → Ty → Planned Transfer)
    (ds : List Draft) : finishAll cast c ds = finishAll cast b ds := by
  induction ds with
  | nil => rfl
  | cons d ds ih => rw [finishAll, finishAll, finish_congr h, ih]

end Finish

/-! ## Calls -/

theorem call_spec {args : List Arg} {call : Signature} {strict : Bool}
    (hargs : ∀ a ∈ args, a.type.WellFormed)
    (h : signature.compile (openCallForm args) Symbol.function strict = .ok call ∨
      ∃ ret : Ty, ret.WellFormed ∧
        signature.compile (typedCallForm ret args) Symbol.function strict = .ok call) :
    call.CompiledFrom Symbol.function ∧ call.isFunction = true ∧
      (∀ r, call.returnTree? = some r → r.ClosedReturn True) ∧
      List.Forall₂ Arg.ShownBy args call.params := by
  rcases h with h | ⟨ret, hret, h⟩
  · obtain ⟨hfun, hreturn, hshown⟩ := params_shownBy hargs h
    refine ⟨compiledFrom_of_compile (by decide) h, hfun, fun r hr => ?_, hshown⟩
    rw [hreturn] at hr
    cases hr
    exact .inl rfl
  · obtain ⟨⟨hfun, ⟨r', hr', hspells⟩, hshown⟩, -⟩ := calls_of_compile hret hargs h
    refine ⟨compiledFrom_of_compile (by decide) h, hfun, fun r hr => ?_, hshown⟩
    rw [hr'] at hr
    cases hr
    have hsafe : ret.Safe True := ⟨hret, fun _ => trivial⟩
    exact .inr ⟨_, _, hspells, hsafe.closedRun⟩

/-- what a match comes to if some of its bindings are given: the bindings `b` are sentences of
their kinds without wildcards of the caller, and a run that starts from some of them has them all
in the end -/
structure Resumes (kindOf : Nat → Symbol) (b : Bindings) (run : Bindings → Bindings → Prop) :
    Prop where
  closed : ∀ id v, b.get? id = some v → ∃ ts, v = Binding.ofTexts ts
  worded : b.Worded kindOf
  again : ∀ e : Bindings, e.Within b.get? → ∃ c : Bindings, c.get? = b.get? ∧ run e c

theorem worded_nil {kindOf : Nat → Symbol} : Bindings.Worded kindOf [] := by
  intro id v hv
  cases hv

section Admission

variable {start start' : Symbol} {call sup : Signature} {kindOf : Nat → Symbol}

/-- **A plan** that starts from some of its bindings comes out as before. -/
theorem planCall_explicit {cast : Ty → Ref → Ty → Planned Transfer} {args : List Arg} {r : Match}
    (hargs : ∀ a ∈ args, a.type.WellFormed) (hcall : call.CompiledFrom start)
    (hret : ∀ r, call.returnTree? = some r → r.ClosedReturn True)
    (hshown : List.Forall₂ Arg.ShownBy args call.params) (hsup : sup.CompiledFrom start')
    (hord : Tree.Ordinary sup.root.symbol) (hk : sup.Kinded kindOf)
    (h : planCall cast call sup [] = .ok (some r)) :
    ∃ b, r.bindings = b.toTexts ∧ Resumes kindOf b fun e c =>
      planCall cast call sup e = .ok (some ⟨r.transfers, c.toTexts, r.returns⟩) := by
  obtain ⟨hlen, callRet, supRet, b₁, ds, b₂, b, hcallRet, hsupRet, hunify, hdraft, hpromote,
    hfinish, hbindings, hreturns⟩ := planCall_stages h
  have hsafe : ∀ a ∈ args, a.type.Safe True := fun a ha => ⟨hargs a ha, fun _ => trivial⟩
  have hformal : ∀ {s : Symbol} {sig : Signature}, sig.CompiledFrom s →
      ∀ p ∈ sig.params, p.IsFormal := fun hc p hp => isFormal_of_mem_params hc hp
  refine ⟨b, hbindings, ?_, ?_, fun e he => ?_⟩
  · intro id v hv
    obtain ⟨hclosed, -⟩ := closed_of_passes hshown hsafe hlen (hret _ hcallRet)
      Bindings.closed_nil hunify hdraft hpromote
    obtain ⟨ts, hts, -⟩ := hclosed id v hv
    exact ⟨ts, hts⟩
  · exact worded_of_passes hcall hsup hord hk worded_nil hcallRet hsupRet hunify hdraft hpromote
  have hext₂ := extends_of_promoteAll hpromote
  have hext₁ := (drafted_of_draftAll hshown (hformal hsup) hlen hdraft).1.trans hext₂
  obtain ⟨hf, hs, -⟩ := mem_returnTree hcall hcallRet
  obtain ⟨c₁, hc₁, hjoin₁⟩ := unifyReturn_join hf (hs ▸ Tree.ordinary_wildcard (by decide)) hunify
    hext₁ he (c := e) fun _ => (Option.none_or).symm
  obtain ⟨c₂, hc₂, hjoin₂⟩ := draftAll_join hshown (hformal hcall) (hformal hsup) hlen hdraft
    hext₂ he hjoin₁
  obtain ⟨c, hc, hjoin⟩ := promoteAll_join hpromote (Bindings.Extends.refl b) he hjoin₂
  have hget := hjoin.get?_eq he
  refine ⟨c, hget, ?_⟩
  rw [hreturns, ← instantiate_congr hget]
  exact planCall_eq hlen hcallRet hsupRet hc₁ hc₂ hc ((finishAll_congr hget cast ds).trans hfinish)

theorem unify_explicit {b : Bindings} (hcall : call.CompiledFrom start) (hplain : call.root.Plain)
    (hcallord : Tree.Ordinary call.root.symbol) (hk : sup.Kinded kindOf)
    (h : unify call.root sup.root [] = some b) :
    Resumes kindOf b fun e c => unify call.root sup.root e = some c := by
  refine ⟨fun id v hv => ?_, ?_, fun e he => ?_⟩
  · have hsolves := unify_solves hcall.formed hplain h
    rcases hsolves.only id v hv with hnil | ⟨kind, hhead⟩
    · cases hnil
    · obtain ⟨id', ts, hid, hget, -⟩ := hsolves.bound _ hhead
      cases hid
      exact ⟨ts, Option.some.inj (hv.symm.trans hget)⟩
  · exact worded_of_unify hcall.formed hcallord hcall.numbered hk.heads worded_nil h
  · obtain ⟨c, hc, hjoin⟩ := unify_join hcall.formed hcallord h (Bindings.Extends.refl b) he
      (c := e) fun _ => (Option.none_or).symm
    exact ⟨c, hjoin.get?_eq he, hc⟩

theorem Resumes.imp {b : Bindings} {run run' : Bindings → Bindings → Prop}
    (h : Resumes kindOf b run) (himp : ∀ e c, run e c → run' e c) : Resumes kindOf b run' := by
  refine ⟨h.closed, h.worded, fun e he => ?_⟩
  obtain ⟨c, hget, hrun⟩ := h.again e he
  exact ⟨c, hget, himp e c hrun⟩

theorem admits_of_bindExplicit (m : CastRules) {explicit : List (List String)} {e : Bindings}
    (he : bindExplicit 0 sup.declared explicit = some e) :
    m.admits call sup explicit =
      if call.isFunction && sup.isFunction then planCall m.cast call sup e
      else .ok ((unify call.root sup.root e).map fun b => ⟨[], b.toTexts, none⟩) := by
  unfold CastRules.admits admitsWith
  rw [he]

/-- **Admission** that starts from some of the bindings of a match comes out as before, unless a
wildcard of the caller has been bound. -/
theorem admits_again {m : CastRules} {args : List Arg} {r : Match}
    (hargs : ∀ a ∈ args, a.type.WellFormed) (hcall : call.CompiledFrom Symbol.function)
    (hfun : call.isFunction = true)
    (hret : ∀ r, call.returnTree? = some r → r.ClosedReturn True)
    (hshown : List.Forall₂ Arg.ShownBy args call.params) (hsup : sup.CompiledFrom start')
    (hord : Tree.Ordinary sup.root.symbol) (hk : sup.Kinded kindOf)
    (hform : sup.isFunction = true ∨ call.root.Plain) (h : m.admits call sup [] = .ok (some r)) :
    ∃ b, r.bindings = b.toTexts ∧ Resumes kindOf b fun e c =>
      ∀ explicit, bindExplicit 0 sup.declared explicit = some e →
        m.admits call sup explicit = .ok (some ⟨r.transfers, c.toTexts, r.returns⟩) := by
  have hnil : bindExplicit 0 sup.declared [] = some [] := by rw [bindExplicit]
  rw [admits_of_bindExplicit m hnil, hfun, Bool.true_and] at h
  cases hsupfun : sup.isFunction with
  | true =>
    rw [hsupfun, if_pos rfl] at h
    obtain ⟨b, hb, hresumes⟩ := planCall_explicit hargs hcall hret hshown hsup hord hk h
    refine ⟨b, hb, hresumes.imp fun e c hplan explicit he => ?_⟩
    rw [admits_of_bindExplicit m he, hfun, hsupfun]
    exact hplan
  | false =>
    rw [hsupfun, if_neg Bool.false_ne_true] at h
    have hplain : call.root.Plain := hform.resolve_left (by rw [hsupfun]; exact Bool.false_ne_true)
    obtain ⟨b, hb, rfl⟩ := Option.map_eq_some_iff.mp (Except.ok.inj h)
    have hcallord : Tree.Ordinary call.root.symbol := by
      rw [hcall.symbol_eq]
      exact Tree.ordinary_wildcard (by decide)
    refine ⟨b, rfl, (unify_explicit hcall hplain hcallord hk hb).imp fun e c hc explicit he => ?_⟩
    rw [admits_of_bindExplicit m he, hfun, hsupfun, hc]
    rfl

/-- what a match has bound can be given: each is a sentence of its kind -/
theorem exists_explicit {b : Bindings} {run : Bindings → Bindings → Prop}
    (hb : Resumes kindOf b run) (hk : sup.Kinded kindOf)
    (hd : ∀ k ∈ sup.declared, k ∈ signatureWildcards) {explicit : List (List String)}
    (hlen : explicit.length ≤ sup.declared.length)
    (hbound : ∀ (i : Nat) (ts : List String), explicit[i]? = some ts → b.texts? i = some ts) :
    ∃ e, bindExplicit 0 sup.declared explicit = some e ∧ e.Within b.get? := by
  have hget : ∀ i ts, explicit[i]? = some ts → b.get? i = some (Binding.ofTexts ts) := by
    intro i ts hts
    obtain ⟨v, hv, rfl⟩ := Option.map_eq_some_iff.mp (hbound i ts hts)
    obtain ⟨us, rfl⟩ := hb.closed i v hv
    rw [hv, Binding.texts_ofTexts]
  have hsome : (bindExplicit 0 sup.declared explicit).isSome = true := by
    refine bindExplicit_isSome.mpr fun i ts hts => ?_
    have hi : i < sup.declared.length :=
      Nat.lt_of_lt_of_le (List.getElem?_eq_some_iff.mp hts).1 hlen
    have hkind := List.getElem?_eq_getElem hi
    refine ⟨_, hkind, (recognize_iff_sentence (hd _ (List.getElem_mem hi))).mpr ?_⟩
    have hsentence := hb.worded i _ (hget i ts hts) (Binding.isOpen_ofTexts ts)
    rwa [hk.declared i _ hkind, Binding.texts_ofTexts] at hsentence
  obtain ⟨e, he⟩ := Option.isSome_iff_exists.mp hsome
  refine ⟨e, he, fun i v hv => ?_⟩
  rw [get?_bindExplicit he, if_neg (Nat.not_lt_zero i), Nat.sub_zero] at hv
  obtain ⟨ts, hts, rfl⟩ := Option.map_eq_some_iff.mp hv
  exact hget i ts hts

end Admission

/-! ## Calls that are matched as a whole -/

section Whole

variable {call sup : Signature} {start : Symbol} {b b' : Bindings}

/-- only a wildcard for all of it makes a declaration that is no function match a call -/
theorem head_of_unify (hcall : call.CompiledFrom Symbol.function) (hsup : sup.CompiledFrom start)
    (hnot : sup.isFunction = false) (h : unify call.root sup.root b = some b') :
    ∃ s i tok, sup.root.unwrap = .head s i tok ∧ bind s tok.wildcard call.root b = some b' := by
  have hcallsym : call.root.symbol = Symbol.function := hcall.symbol_eq
  have hcallformed := hcall.formed
  rcases unify_cases h with ⟨s, i, tok, hroot, hbind⟩ | ⟨s, tok, tok', hleaf, -⟩ |
    ⟨s, i, cs, fs, hbranch, hroot, -⟩ | ⟨s, i, c, hbranch, -⟩
  · refine ⟨s, i, tok, ?_, hbind⟩
    rcases hroot with hroot | hroot
    · rw [hroot, Tree.unwrap]
      simp
    · exact hroot
  · rw [hleaf] at hcallsym hcallformed
    have hs : s = Symbol.function := hcallsym
    exact absurd (by rw [hs]; decide) (formed_leaf.mp hcallformed).1
  · rw [hbranch] at hcallsym
    have hs : s = Symbol.function := hcallsym
    subst hs
    have hunwrap : sup.root.unwrap = .branch Symbol.function i fs := by
      rcases hroot with hroot | hroot
      · have hformed := hsup.formed
        rw [hroot] at hformed ⊢
        exact unwrap_of_not_wrapper hformed (by
          show Symbol.function.isWrapper = false
          decide)
      · exact hroot
    unfold Signature.isFunction at hnot
    rw [hunwrap] at hnot
    cases hnot
  · rw [hbranch] at hcallsym hcallformed
    have hs : s = Symbol.function := hcallsym
    subst hs
    obtain ⟨halt, -⟩ := formed_branch.mp hcallformed
    have halts : alternatives Symbol.function = [[Keyword.function, Symbol.return_,
      Keyword.lparen, Symbol.paramList, Keyword.rparen]] := by decide
    rw [halts] at halt
    rcases i with _ | i
    · exact absurd (congrArg (Option.map List.length) halt) (by simp)
    · cases halt

/-- a call that leaves its return open has a wildcard -/
theorem isOpen_marks_of_open {args : List Arg} {strict : Bool}
    (hargs : ∀ a ∈ args, a.type.WellFormed)
    (h : signature.compile (openCallForm args) Symbol.function strict = .ok call) :
    Binding.isOpen call.root.marks = true := by
  have hcall := compiledFrom_of_compile (by decide) h
  have hord : Tree.Ordinary call.root.symbol := by
    rw [hcall.symbol_eq]
    exact Tree.ordinary_wildcard (by decide)
  have hhead : (Symbol.return_, some 0) ∈ call.root.heads := by
    rw [Tree.heads_eq hcall.formed hord, hcall.yield_eq, callTokens_of_compile hargs h]
    refine List.mem_filterMap.mpr ⟨⟨Symbol.return_, some 0⟩, ?_, by decide⟩
    unfold callTokens formTokens
    simp
  rw [← Bool.not_eq_false]
  intro hclosed
  cases (Tree.isOpen_marks _).mp hclosed _ hhead

/-- **Nothing can be given** for a wildcard that takes the whole of a call with an open return:
what it stands for names a wildcard of the caller. -/
theorem admits_whole {m : CastRules} {args : List Arg} {strict : Bool} {r : Match}
    {explicit : List (List String)} (hargs : ∀ a ∈ args, a.type.WellFormed)
    (hcall : signature.compile (openCallForm args) Symbol.function strict = .ok call)
    (hsup : sup.CompiledFrom start) (hnot : sup.isFunction = false)
    (h : m.admits call sup [] = .ok (some r)) (hne : explicit ≠ [])
    (hbound : ∀ (i : Nat) (ts : List String), explicit[i]? = some ts →
      r.bindings.lookup i = some ts) : m.admits call sup explicit = .ok none := by
  have hopen := isOpen_marks_of_open hargs hcall
  have hc := compiledFrom_of_compile (by decide) hcall
  obtain ⟨ts, rest, rfl⟩ := List.exists_cons_of_ne_nil hne
  cases he : bindExplicit 0 sup.declared (ts :: rest) with
  | none =>
    unfold CastRules.admits admitsWith
    rw [he]
  | some e =>
    have hget := get?_bindExplicit he
    have hnil : bindExplicit 0 sup.declared [] = some [] := by rw [bindExplicit]
    rw [admits_of_bindExplicit m hnil, hnot, Bool.and_false, if_neg Bool.false_ne_true] at h
    rw [admits_of_bindExplicit m he, hnot, Bool.and_false, if_neg Bool.false_ne_true]
    obtain ⟨b, hb, rfl⟩ := Option.map_eq_some_iff.mp (Except.ok.inj h)
    obtain ⟨s, i, tok, hroot, hbind⟩ := head_of_unify hc hsup hnot hb
    obtain ⟨-, n, hn, ⟨hnil, -⟩ | ⟨-, rfl⟩⟩ := bind_cases hbind
    · cases hnil
    obtain rfl : n = 0 := by
      have hzero := hbound 0 ts rfl
      rw [Bindings.lookup_toTexts] at hzero
      obtain ⟨v, hv, -⟩ := Option.map_eq_some_iff.mp hzero
      rw [Bindings.get?_insert] at hv
      split at hv
      · next hzero => exact hzero.symm
      · cases hv
    cases hu : unify call.root sup.root e with
    | none => rfl
    | some e' =>
      obtain ⟨s', i', tok', hroot', hbind'⟩ := head_of_unify hc hsup hnot hu
      rw [hroot] at hroot'
      cases hroot'
      rw [hn] at hbind'
      obtain ⟨-, n', hn', hcases⟩ := bind_cases hbind'
      cases hn'
      rw [hget] at hcases
      rcases hcases with ⟨hsame, -⟩ | ⟨hnone, -⟩
      · have hmarks : Binding.ofTexts ts = call.root.marks := Option.some.inj hsame
        rw [← hmarks, Binding.isOpen_ofTexts] at hopen
        cases hopen
      · cases hnone

end Whole

/-! ## The theorem -/

/-- **Explicit and inferred arguments agree**: a call that a declaration admits is admitted again if
what its first declared wildcards stand for is given, with the same transfers, return and bindings.
The exception is a call that leaves its return open, taken as a whole by a wildcard of a declaration
that is no function: its return is a wildcard of the caller, so what is bound cannot be given. -/
theorem explicit_agrees (m : CastRules) {args : List Arg} {call sup : Signature}
    {src : List String} {start : Symbol} {strict strict' : Bool} {r : Match}
    {explicit : List (List String)} (hargs : ∀ a ∈ args, a.type.WellFormed)
    (hsup : signature.compile src start strict' = .ok sup)
    (hr : m.admits call sup [] = .ok (some r))
    (hlen : explicit.length ≤ sup.declared.length)
    (hbound : ∀ (i : Nat) (ts : List String), explicit[i]? = some ts →
      r.bindings.lookup i = some ts) :
    ((∃ ret : Ty, ret.WellFormed ∧
          signature.compile (typedCallForm ret args) Symbol.function strict = .ok call) ∨
        signature.compile (openCallForm args) Symbol.function strict = .ok call ∧
          (sup.isFunction = true ∨ explicit = []) →
      ∃ r', m.admits call sup explicit = .ok (some r') ∧ r'.transfers = r.transfers ∧
        r'.returns = r.returns ∧ ∀ id, r'.bindings.lookup id = r.bindings.lookup id) ∧
    (signature.compile (openCallForm args) Symbol.function strict = .ok call →
      sup.isFunction = false → explicit ≠ [] → m.admits call sup explicit = .ok none) := by
  obtain ⟨hstart, hsupc, kindOf, hk⟩ := exists_kinded hsup
  have hord : Tree.Ordinary sup.root.symbol :=
    hsupc.symbol_eq ▸ Tree.ordinary_of_mem_heads hstart
  refine ⟨fun hcall => ?_, fun hcall hnot hne =>
    admits_whole hargs hcall hsupc hnot hr hne hbound⟩
  by_cases hnil : explicit = []
  · rw [hnil]
    exact ⟨r, hr, rfl, rfl, fun _ => rfl⟩
  have hform : sup.isFunction = true ∨ call.root.Plain := by
    rcases hcall with ⟨ret, hret, hcall⟩ | ⟨-, hfun | hnil'⟩
    · exact .inr (calls_of_compile hret hargs hcall).2
    · exact .inl hfun
    · exact absurd hnil' hnil
  obtain ⟨hc, hfun, hret, hshown⟩ := call_spec hargs (hcall.symm.imp_left And.left)
  obtain ⟨b, hb, hagain⟩ := admits_again hargs hc hfun hret hshown hsupc hord hk hform hr
  obtain ⟨e, he, hwithin⟩ := exists_explicit hagain hk hsupc.declared_mem hlen fun i ts hts => by
    rw [← Bindings.lookup_toTexts, ← hb]
    exact hbound i ts hts
  obtain ⟨c, hget, hadmits⟩ := hagain.again e hwithin
  refine ⟨_, hadmits explicit he, rfl, rfl, fun id => ?_⟩
  rw [hb, Bindings.lookup_toTexts, Bindings.lookup_toTexts, Bindings.texts?_congr hget]

/-- `!Arithmetic FUNCTION ?0 ( ?0 ?0 )` called with `I32` and `F64`, and with `F64` given for its
wildcard -/
theorem explicit_agrees_operator :
    ∃ sup call r r',
      signature.compile ["!Arithmetic", "FUNCTION", "?0", "(", "?0", "?0", ")"] Symbol.function
        false = .ok sup ∧
      signature.compile (openCallForm [⟨.arith .i32, .none⟩, ⟨.arith .f64, .none⟩])
        Symbol.function false = .ok call ∧
      CastRules.admits ⟨none, []⟩ call sup [] = .ok (some r) ∧
      r.bindings.lookup 0 = some ["F64"] ∧
      CastRules.admits ⟨none, []⟩ call sup [["F64"]] = .ok (some r') ∧
      r'.transfers = [.numeric (.arith .f64), .clone] ∧ r'.returns = some ["F64"] := by
  have hpre : signature.prepareBody ["!Arithmetic", "FUNCTION", "?0", "(", "?0", "?0", ")"] false =
      .ok ⟨[Symbol.arithmetic], formTokens [⟨Symbol.arithmetic, some 0⟩]
        (List.replicate 2 [⟨Symbol.arithmetic, some 0⟩])⟩ :=
    prepareBody_signature (by rintro ⟨_, _, _, _, _, _, _⟩ rfl; rfl)
  have hsup := compile_operatorForm hpre
  have hkinds : [(⟨.arith .i32, .none⟩ : Arg), ⟨.arith .f64, .none⟩].map Arg.type =
      [Kind.i32, Kind.f64].map Ty.arith := rfl
  have hargs := wellFormed_of_arith hkinds
  obtain ⟨call, hcall⟩ := compile_open false hargs (by simp)
  have hr := admits_operatorForm ⟨none, []⟩
    ["!Arithmetic", "FUNCTION", "?0", "(", "?0", "?0", ")"] hkinds (k := .f64) (by decide) hcall
  have hbound : ∀ (i : Nat) (ts : List String), [["F64"]][i]? = some ts →
      (meeting [.i32, .f64] .f64).bindings.lookup i = some ts := by
    rintro (_ | i) ts hts
    · cases hts
      rfl
    · cases hts
  obtain ⟨r', hr', htransfers, hreturns, -⟩ :=
    (explicit_agrees ⟨none, []⟩ hargs hsup hr (by decide) hbound).1 (.inr ⟨hcall, .inl rfl⟩)
  exact ⟨_, call, _, r', hsup, hcall, hr, rfl, hr', htransfers, hreturns⟩

/-- `!Function ?0` -/
def anyFunction : Signature :=
  ⟨["!Function", "?0"], [Symbol.function], [⟨Symbol.function, some 0⟩], Symbol.function,
    .head Symbol.function 1 ⟨Symbol.function, some 0⟩⟩

/-- a call without arguments that leaves its return open -/
def bareCall : Signature :=
  ⟨openCallForm [], [], callTokens [], Symbol.function, callTree (paramsTree [])⟩

theorem compile_anyFunction :
    signature.compile ["!Function", "?0"] Symbol.function false = .ok anyFunction := by
  have hstart : Symbol.function ∈ signatureWildcards := by decide
  have hhead : anyFunction.root.Formed := formed_head.mpr ⟨by decide, by decide, rfl⟩
  exact compile_of_formed _ false ⟨[Symbol.function], anyFunction.tokens⟩ hstart
    (prepareBody_signature (by rintro ⟨_, _, _, _, _, _, _⟩ rfl; rfl)) hhead rfl rfl

theorem compile_bareCall :
    signature.compile (openCallForm []) Symbol.function false = .ok bareCall := by
  have hstart : Symbol.function ∈ signatureWildcards := by decide
  have hparams := formed_paramsTree (l := []) (List.forall_mem_nil _)
  exact compile_of_formed _ false ⟨[], callTokens []⟩ hstart
    (prepareBody_signature (by rintro ⟨_, _, _, _, _, _, _⟩ rfl; rfl))
    (formed_callTree hparams.1 hparams.2) rfl rfl

theorem admits_anyFunction (m : CastRules) : m.admits bareCall anyFunction [] =
    .ok (some ⟨[], [(0, ["FUNCTION", "Return", "(", ")"])], none⟩) := by
  have hformed := (compiledFrom_of_compile (by decide) compile_bareCall).formed
  have hderives : signature.derives Symbol.function bareCall.root.unwrap.symbol = true :=
    derives_unwrap hformed (by decide)
  have hunify : unify bareCall.root anyFunction.root [] = some [(0, bareCall.root.marks)] := by
    rw [show anyFunction.root = .head Symbol.function 1 ⟨Symbol.function, some 0⟩ from rfl,
      unify_head, bind.eq_def, if_pos hderives]
    rfl
  have hnil : bindExplicit 0 anyFunction.declared [] = some [] := by rw [bindExplicit]
  have hfun : (bareCall.isFunction && anyFunction.isFunction) = false := rfl
  rw [admits_of_bindExplicit m hnil, hfun, if_neg Bool.false_ne_true, hunify]
  rfl

/-- `!Function ?0` takes a call as a whole; its wildcard then stands for `FUNCTION Return ( )`, and
with that given the call is not admitted -/
theorem explicit_disagrees_whole :
    ∃ sup call r, signature.compile ["!Function", "?0"] Symbol.function false = .ok sup ∧
      signature.compile (openCallForm []) Symbol.function false = .ok call ∧
      0 < sup.declared.length ∧ CastRules.admits ⟨none, []⟩ call sup [] = .ok (some r) ∧
      r.bindings.lookup 0 = some ["FUNCTION", "Return", "(", ")"] ∧
      CastRules.admits ⟨none, []⟩ call sup [["FUNCTION", "Return", "(", ")"]] = .ok none := by
  refine ⟨anyFunction, bareCall, _, compile_anyFunction, compile_bareCall, by decide,
    admits_anyFunction _, rfl, ?_⟩
  refine admits_whole (List.forall_mem_nil _) compile_bareCall
    (compiledFrom_of_compile (by decide) compile_anyFunction) rfl (admits_anyFunction _)
    (List.cons_ne_nil _ _) ?_
  rintro (_ | i) ts hts
  · cases hts
    rfl
  · cases hts

end Overloading
