import Overloading.Catalog.Calling
import Overloading.Proofs.Delivery
import Overloading.Proofs.Demands
import Overloading.Proofs.Extensions
import Overloading.Proofs.Lookup
import Overloading.Proofs.Promotion

/-!
# Declarations without wildcards

A declaration without wildcards takes its arguments one by one: none of them binds anything, so
none has a say in what becomes of another.

* `unify_plain`      trees without wildcards that denote types match just if the types agree; trees
                     are compared token by token, types as values;
* `CastRules.pass`   how an argument reaches a parameter of a given type and marker;
* `draft_pass`       drafting and finishing an argument comes to that, whatever has been bound;
* `admits_plain`     so a plan of the whole call is a way to pass each argument.
-/

namespace Overloading

open Grammar

/-! ## Trees without wildcards -/

theorem graft_plain {σ : Symbol → Option Nat → Tree} {t : Tree} (h : t.heads = []) :
    t.graft σ = t := by
  induction t using Tree.induct with
  | leaf s tok => rw [Tree.graft]
  | head s i tok => rw [Tree.heads] at h; cases h
  | branch s i cs ih =>
    rw [Tree.graft_branch]
    congr 1
    exact (List.map_congr_left fun c hc => ih c hc (heads_child h hc)).trans (List.map_id cs)

theorem substitute_plain {B : Nat → Option (List String)} {t : Tree} (h : t.heads = []) :
    t.substitute B = some t.tokens := by
  have hsub : t.substitute B = some (t.graft fun _ _ => t).tokens :=
    Tree.substitute_graft fun x hx => by rw [h] at hx; cases hx
  rw [hsub, graft_plain h]

theorem unify_self {t : Tree} (ht : t.Formed) (h : t.heads = []) (b : Bindings) :
    ∃ b', unify t t b = some b' := by
  obtain ⟨b', hb', -⟩ := unify_graft (σ := fun _ _ => t) (V := b.get?) (b := b) ht
    (fun x hx => by rw [h] at hx; cases hx) fun _ _ hv => hv
  rw [graft_plain h] at hb'
  exact ⟨b', hb'⟩

theorem unify_binds_nothing {actual formal : Tree} (ha : actual.Formed)
    (hs : Tree.Ordinary actual.symbol) (hf : formal.heads = []) {b b' : Bindings}
    (h : unify actual formal b = some b') : unify actual formal b = some b := by
  obtain ⟨o, ho⟩ := exists_demands ha hs formal
  rw [ho.unify_eq] at h ⊢
  obtain ⟨ds, hds, _⟩ := Option.bind_eq_some_iff.mp h
  have hnil : ds = [] := List.eq_nil_iff_forall_not_mem.mpr fun d hd => by
    have hhead := (ho.between ds hds d hd).head
    rw [hf] at hhead
    cases hhead
  rw [hds, hnil]
  rfl

theorem unify_wrapper {s : Symbol} {c formal : Tree} (i : Nat) (b : Bindings)
    (hc : c.isLeaf = false) (hs : formal.symbol ≠ s)
    (hroot : ∃ s' i' fs, formal.unwrap = .branch s' i' fs ∧ s' ≠ s) :
    unify (.branch s i [c]) formal b = unify c formal.unwrap b := by
  obtain ⟨s', i', fs, hunwrap, hne⟩ := hroot
  have hhead : formal.isHead = false := by
    cases formal with
    | head s i tok => rw [Tree.unwrap] at hunwrap <;> cases hunwrap
    | leaf | branch => rfl
  rw [unify_branch s i [c] b hhead, if_neg hs, hunwrap]
  simp only [if_neg hne, hc, Bool.false_eq_true, if_false]

theorem object_forms {o : Tree} (ho : o.Formed) (hs : o.symbol = Symbol.object)
    (hheads : o.heads = []) : ∃ i s j xs, o = .branch Symbol.object i [.branch s j xs] ∧
      s.isWrapper = false ∧ (Tree.branch s j xs).Formed ∧ o.unwrap = .branch s j xs := by
  cases o with
  | leaf s tok =>
    have hs : s = Symbol.object := hs
    exact absurd (by rw [hs]; decide) (formed_leaf.mp ho).1
  | head s i tok => rw [Tree.heads] at hheads; cases hheads
  | branch s i cs =>
    have hs : s = Symbol.object := hs
    subst hs
    have halt := (formed_branch.mp ho).1
    obtain ⟨x, hx, hbody, hw, -⟩ := object_alternatives _ (List.mem_of_getElem? halt)
    rw [hbody] at halt
    obtain ⟨c, rfl, hc, hcx⟩ := single_child halt ho
    have hleaf := isLeaf_of_formed hc (by rw [hcx]; exact hx)
    have hunwrap : (Tree.branch Symbol.object i [c]).unwrap = c := by
      rw [unwrap_wrapper hleaf, unwrap_of_not_wrapper hc (by rw [hcx]; exact hw)]
    have hchild := heads_child hheads List.mem_cons_self
    cases c with
    | leaf s tok => cases hleaf
    | head s j tok => rw [Tree.heads] at hchild; cases hchild
    | branch s j xs =>
      have hcx : s = x := hcx
      exact ⟨i, s, j, xs, rfl, hcx ▸ hw, hc, hunwrap⟩

theorem unify_param {o : Tree} (ho : o.Formed) (hs : o.symbol = Symbol.object)
    (hheads : o.heads = []) (b : Bindings) :
    (∃ b', unify (.branch Symbol.paramObject 0 [o]) o b = some b') ∧
      ∃ b', unify o (.branch Symbol.paramObject 0 [o]) b = some b' := by
  obtain ⟨i, s, j, xs, rfl, hw, hx, hunwrap⟩ := object_forms ho hs hheads
  have hobject : s ≠ Symbol.object := by rintro rfl; exact absurd hw (by decide)
  have hparam : s ≠ Symbol.paramObject := by rintro rfl; exact absurd hw (by decide)
  have hself : (Tree.branch s j xs).unwrap = .branch s j xs := unwrap_of_not_wrapper hx hw
  have hinner : ∀ formal : Tree, formal.symbol ≠ Symbol.object →
      formal.unwrap = .branch s j xs →
        ∃ b', unify (.branch Symbol.object i [.branch s j xs]) formal b = some b' := by
    intro formal hne hroot
    rw [unify_wrapper i b rfl hne ⟨s, j, xs, hroot, hobject⟩, hroot]
    exact unify_self hx (heads_child hheads List.mem_cons_self) b
  constructor
  · have hleaf : (Tree.branch Symbol.object i [.branch s j xs]).isLeaf = false := rfl
    have hne : (Tree.branch Symbol.object i [.branch s j xs]).symbol ≠ Symbol.paramObject := by
      show Symbol.object ≠ Symbol.paramObject
      decide
    rw [unify_wrapper 0 b hleaf hne ⟨s, j, xs, hunwrap, hparam⟩, hunwrap]
    exact hinner _ hobject hself
  · have hne : Symbol.paramObject ≠ Symbol.object := by decide
    refine hinner _ hne ?_
    rw [unwrap_wrapper rfl, hunwrap]

/-- **Trees without wildcards** match just if they denote the same type, and bind nothing. -/
theorem unify_plain {actual formal : Tree} {s s' : Symbol} {ty ty' : Ty}
    (ha : actual.Denotes s ty) (hs : s = Symbol.object ∨ s = Symbol.paramObject)
    (hf : formal.Denotes s' ty') (hs' : s' = Symbol.object ∨ s' = Symbol.paramObject)
    (hty : ty.WellFormed) (hty' : ty'.WellFormed) (b : Bindings) :
    unify actual formal b = if ty = ty' then some b else none := by
  have hwild : ∀ {x : Symbol}, x = Symbol.object ∨ x = Symbol.paramObject →
      x ∈ signatureWildcards := by
    rintro x (rfl | rfl) <;> decide
  have hord : Tree.Ordinary actual.symbol := by
    rw [ha.symbol_eq]
    exact Tree.ordinary_wildcard (hwild hs)
  have hkeep : ∀ b', unify actual formal b = some b' → unify actual formal b = some b :=
    fun b' => unify_binds_nothing ha.formed hord hf.heads_eq
  by_cases hsame : ty = ty'
  · subst hsame
    rw [if_pos rfl]
    have hyield : actual.yield = formal.yield := ha.yield_eq.trans hf.yield_eq.symm
    suffices h : ∃ b', unify actual formal b = some b' from hkeep _ h.choose_spec
    rcases hs with rfl | rfl <;> rcases hs' with rfl | rfl
    · rw [derives_unique compiled_signature (hwild (.inl rfl)) ⟨ha.formed, ha.symbol_eq, hyield⟩
        ⟨hf.formed, hf.symbol_eq, rfl⟩]
      exact unify_self hf.formed hf.heads_eq b
    · rw [param_eq_wrapper hf.formed hf.symbol_eq ha.formed ha.symbol_eq hyield.symm]
      exact (unify_param ha.formed ha.symbol_eq ha.heads_eq b).2
    · rw [param_eq_wrapper ha.formed ha.symbol_eq hf.formed hf.symbol_eq hyield]
      exact (unify_param hf.formed hf.symbol_eq hf.heads_eq b).1
    · rw [derives_unique compiled_signature (hwild (.inr rfl)) ⟨ha.formed, ha.symbol_eq, hyield⟩
        ⟨hf.formed, hf.symbol_eq, rfl⟩]
      exact unify_self hf.formed hf.heads_eq b
  · rw [if_neg hsame]
    cases hu : unify actual formal b with
    | none => rfl
    | some b' =>
      have hreads := (unify_solves ha.formed ha.plain hu).reads
      rw [substitute_plain hf.heads_eq, hf.tokens_eq, ha.tokens_eq] at hreads
      exact absurd (tokens_injective hty hty' (Option.some.inj hreads).symm) hsame

/-! ## One argument -/

section Argument

variable {m : CastRules} {a f : Arg} {p q : Tree}

theorem Arg.ShownBy.plain (h : a.ShownBy p) :
    p.isHead = false ∧ p.splitRef.2.bareArithmetic? = none := by
  constructor
  · cases p with
    | head s i tok =>
      have hheads := h.spells.heads_eq
      rw [Tree.heads] at hheads
      cases hheads
    | leaf | branch => rfl
  · obtain ⟨s, -, hden⟩ := h.denotes
    have hheads := hden.heads_eq
    rw [← Tree.heads_unwrap] at hheads
    unfold Tree.bareArithmetic?
    split
    · next heq =>
      rw [heq, Tree.heads] at hheads
      cases hheads
    · rfl

/-- how an argument that has the type of its parameter is passed -/
def Arg.passSame (f : Arg) : Transfer :=
  if f.marker = .constant ∨ f.type.isFunction = true then .borrow else .clone

theorem passAsIs_shown (hf : f.ShownBy q) (hq : q.IsFormal) (hne : f.marker ≠ .mutable) :
    passAsIs f.marker q.splitRef.2 = f.passSame := by
  obtain ⟨s, -, hden⟩ := hf.denotes
  have hpasses := passes_asIs (a := f) (σ := fun _ _ => q) hq hf.plain.1
    (by rw [hf.marker_eq]; exact hne) (by rw [graft_plain hden.heads_eq]; exact hden.formed)
    (by rw [hden.heads_eq]; exact List.forall_mem_nil _)
    (by rw [graft_plain hden.heads_eq]; exact hden.type_eq)
  rw [hf.marker_eq] at hpasses
  have htarget : (passAsIs f.marker q.splitRef.2).target? = none := by
    rcases passAsIs_plain f.marker q.splitRef.2 with h | h <;> rw [h] <;> rfl
  unfold Arg.passSame
  cases hm : f.marker with
  | mutable => exact absurd hm hne
  | constant =>
    rw [hm] at hpasses htarget
    rcases hpasses with ⟨h, _⟩ | h
    · rw [h, if_pos (.inl rfl)]
    · rw [htarget] at h; cases h
  | none =>
    rw [hm] at hpasses htarget
    rcases hpasses with ⟨h, _⟩ | h
    · rw [h]
      simp
    · rw [htarget] at h; cases h

theorem cast_marker (m : CastRules) (a : Arg) (dst : Ty) :
    m.cast a.type a.marker dst = m.cast a.type a.ref dst := by
  obtain ⟨ty, ref⟩ := a
  unfold Arg.marker
  cases ty with
  | arith | pointer | array | cls | list | void => rfl
  | function ts =>
    have hconstruct : m.construct (.function ts) .none dst = m.construct (.function ts) ref dst := by
      have hform : ∀ c, typedCallForm (.cls c) [⟨.function ts, .none⟩] =
          typedCallForm (.cls c) [⟨.function ts, ref⟩] := fun _ => rfl
      rw [CastRules.construct.eq_def, CastRules.construct.eq_def]
      simp only [hform]
    show castWith m m.construct (.function ts) .none dst = castWith m m.construct _ ref dst
    rw [castWith, castWith]
    · refine congrArg (firstPlan · m.order) (funext fun s => ?_)
      cases s with
      | constructor => exact hconstruct
      | decay | numeric | braceList => rfl
    all_goals simp

/-- how an argument reaches a parameter of a declaration without wildcards, the parameter written
as an argument too -/
def CastRules.pass (m : CastRules) (a f : Arg) : Planned Transfer :=
  if f.marker = .mutable then
    .ok (if a.marker = .mutable ∧ a.type = f.type then some .borrow else none)
  else if a.type = f.type then .ok (some f.passSame)
  else m.cast a.type a.ref f.type

theorem draft_plain (ha : a.ShownBy p) (hf : f.ShownBy q) (hq : q.IsFormal)
    (hwell : a.type.WellFormed) (hwell' : f.type.WellFormed) (b : Bindings) :
    draft p q b =
      if f.marker = .mutable then
        if a.marker = .mutable ∧ a.type = f.type then some (.settled .borrow, b) else none
      else if a.type = f.type then some (.settled f.passSame, b)
      else some (.convert a.marker p.splitRef.2 q.splitRef.2, b) := by
  obtain ⟨hhead, hbare⟩ := hf.plain
  obtain ⟨s, hs, hden⟩ := ha.denotes
  obtain ⟨s', hs', hden'⟩ := hf.denotes
  have hunify := unify_plain hden hs hden' hs' hwell hwell' b
  have hpass := passAsIs_shown hf hq
  rw [draft_eq hhead, ha.marker_eq, hf.marker_eq, hbare]
  dsimp only
  by_cases hm : f.marker = .mutable
  · rw [if_pos hm, if_pos hm]
    by_cases ham : a.marker = .mutable
    · rw [if_pos ham, hunify]
      by_cases hsame : a.type = f.type
      · rw [if_pos hsame, if_pos ⟨ham, hsame⟩]
        rfl
      · rw [if_neg hsame, if_neg fun h => hsame h.2]
        rfl
    · rw [if_neg ham, if_neg fun h => ham h.1]
  · rw [if_neg hm, if_neg hm, hunify, hpass hm]
    by_cases hsame : a.type = f.type
    · simp only [if_pos hsame]
    · simp only [if_neg hsame]

/-- **One argument**: drafting it leaves the bindings alone, and what becomes of the draft does not
depend on them. -/
theorem draft_pass (m : CastRules) (ha : a.ShownBy p) (hf : f.ShownBy q) (hq : q.IsFormal)
    (hwell : a.type.WellFormed) (hwell' : f.type.WellFormed) (b : Bindings) :
    (draft p q b = none ∧ m.pass a f = .ok none) ∨
      ∃ d, draft p q b = some (d, b) ∧ (∀ ds, Draft.groups (d :: ds) = Draft.groups ds) ∧
        finish m.cast b d = m.pass a f := by
  rw [draft_plain ha hf hq hwell hwell']
  unfold CastRules.pass
  have hsettled : ∀ tr ds, Draft.groups (.settled tr :: ds) = Draft.groups ds :=
    fun _ _ => by rw [Draft.groups]; simp
  by_cases hm : f.marker = .mutable
  · simp only [if_pos hm]
    by_cases hsuits : a.marker = .mutable ∧ a.type = f.type
    · simp only [if_pos hsuits]
      exact .inr ⟨_, rfl, hsettled _, rfl⟩
    · simp only [if_neg hsuits]
      exact .inl ⟨trivial, trivial⟩
  simp only [if_neg hm]
  by_cases hsame : a.type = f.type
  · simp only [if_pos hsame]
    exact .inr ⟨_, rfl, hsettled _, rfl⟩
  simp only [if_neg hsame]
  refine .inr ⟨_, rfl, fun _ => by rw [Draft.groups]; simp, ?_⟩
  obtain ⟨s, -, hden⟩ := ha.denotes
  obtain ⟨s', hs', hden'⟩ := hf.denotes
  have hwild : q.splitRef.2.symbol ∈ signatureWildcards := by
    rw [hden'.symbol_eq]
    rcases hs' with rfl | rfl <;> decide
  have hparse : signature.parsePlain q.splitRef.2.tokens q.splitRef.2.symbol =
      some q.splitRef.2 :=
    (parsePlain_eq_some_iff hwild).mpr ⟨hden'.formed, rfl, hden'.plain.yield_eq⟩
  have htarget := concretize_plain b hden'.heads_eq (substitute_plain hden'.heads_eq) hparse
  rw [hden'.type_eq] at htarget
  rw [finish, htarget]
  simp only [Except.map, hden.heads_eq, List.isEmpty_nil, if_true, hden.type_eq]
  exact cast_marker m a f.type

end Argument

/-! ## All arguments -/

section Arguments

variable {m : CastRules} {args formals : List Arg}

def CastRules.passAll (m : CastRules) : List (Arg × Arg) → Planned (List Transfer)
  | [] => .ok (some [])
  | x :: xs => consPlan (m.pass x.1 x.2) (m.passAll xs)

theorem passAll_spec {xs : List (Arg × Arg)} (hok : ∀ x ∈ xs, ∃ r, m.pass x.1 x.2 = .ok r) :
    ∃ o, m.passAll xs = .ok o ∧ ∀ trs, o = some trs ↔
      List.Forall₂ (fun x tr => m.pass x.1 x.2 = .ok (some tr)) xs trs := by
  induction xs with
  | nil =>
    refine ⟨some [], rfl, fun trs => ?_⟩
    rw [List.forall₂_nil_left_iff, Option.some.injEq, eq_comm]
  | cons x xs ih =>
    rw [List.forall_mem_cons] at hok
    obtain ⟨r, hr⟩ := hok.1
    obtain ⟨o, ho, hspec⟩ := ih hok.2
    rw [CastRules.passAll, hr, ho]
    cases r with
    | none =>
      refine ⟨none, rfl, fun trs => ⟨by simp, fun h => ?_⟩⟩
      obtain ⟨tr, _, htr, _⟩ := List.forall₂_cons_left_iff.mp h
      rw [hr] at htr
      cases htr
    | some tr =>
      refine ⟨o.map fun trs => tr :: trs, rfl, fun trs => ?_⟩
      rw [List.forall₂_cons_left_iff, Option.map_eq_some_iff]
      constructor
      · rintro ⟨rest, hrest, rfl⟩
        exact ⟨tr, rest, hr, (hspec rest).mp hrest, rfl⟩
      · rintro ⟨tr', rest, htr, hrest, rfl⟩
        rw [hr] at htr
        cases htr
        exact ⟨rest, (hspec rest).mpr hrest, rfl⟩

/-- **The first pass over all arguments**: unless one of them cannot be passed at all, what becomes
of the drafts is what becomes of the arguments. -/
theorem draftAll_pass (m : CastRules) {ps qs : List Tree}
    (hargs : List.Forall₂ Arg.ShownBy args ps) (hformals : List.Forall₂ Arg.ShownBy formals qs)
    (hq : ∀ q ∈ qs, q.IsFormal) (hlen : args.length = formals.length)
    (hwell : ∀ a ∈ args, a.type.WellFormed) (hwell' : ∀ f ∈ formals, f.type.WellFormed)
    (b : Bindings) :
    (draftAll ps qs b = none ∧ ∃ x ∈ args.zip formals, m.pass x.1 x.2 = .ok none) ∨
      ∃ ds, draftAll ps qs b = some (ds, b) ∧ Draft.groups ds = [] ∧
        finishAll m.cast b ds = m.passAll (args.zip formals) := by
  induction hargs generalizing formals qs with
  | nil =>
    obtain rfl := List.length_eq_zero_iff.mp hlen.symm
    cases hformals
    exact .inr ⟨[], by rw [draftAll]; simp, rfl, rfl⟩
  | @cons a p args ps ha _ ih =>
    cases hformals with
    | nil => cases hlen
    | @cons f q formals qs hf hformals =>
    rw [List.forall_mem_cons] at hq hwell hwell'
    rw [draftAll]
    rcases draft_pass m ha hf hq.1 hwell.1 hwell'.1 b with ⟨hd, hnone⟩ | ⟨d, hd, hgroups, hfinish⟩
    · rw [hd]
      exact .inl ⟨rfl, (a, f), List.mem_cons_self, hnone⟩
    rw [hd]
    dsimp only
    rcases ih hformals hq.2 (Nat.succ.inj hlen) hwell.2 hwell'.2 with
      ⟨hrest, x, hx, hnone⟩ | ⟨ds, hrest, hgroups', hfinish'⟩
    · rw [hrest]
      exact .inl ⟨rfl, x, List.mem_cons_of_mem _ hx, hnone⟩
    · rw [hrest]
      refine .inr ⟨d :: ds, rfl, (hgroups ds).trans hgroups', ?_⟩
      rw [finishAll_cons, hfinish, hfinish', List.zip_cons_cons, CastRules.passAll]

/-- **A plan without wildcards** is a way to pass each argument, if no cast faults. -/
theorem admits_plain {call sup : Signature} {ret : Ty} {start : Symbol} {r : Tree}
    (hfun : call.isFunction = true) (hreturn : call.returnTree? = some r)
    (hopen : r.isOpenReturn = true) (hshown : List.Forall₂ Arg.ShownBy args call.params)
    (hsup : sup.Calls ret formals) (hcompiled : sup.CompiledFrom start)
    (hlen : args.length = formals.length) (hwell : ∀ a ∈ args, a.type.WellFormed)
    (hwell' : ∀ f ∈ formals, f.type.WellFormed)
    (hok : ∀ x ∈ args.zip formals, ∃ r, m.pass x.1 x.2 = .ok r) :
    ∃ res : Option Match, m.admits call sup [] = .ok res ∧ ∀ trs,
      (∃ r, res = some r ∧ r.transfers = trs) ↔
        List.Forall₂ (fun x tr => m.pass x.1 x.2 = .ok (some tr)) (args.zip formals) trs := by
  obtain ⟨supRet, hsupRet, -⟩ := hsup.returns
  have hparams : call.params.length = sup.params.length := by
    rw [← hshown.length_eq, hlen, hsup.params.length_eq]
  have hret : unifyReturn r supRet [] = some [] := by
    unfold unifyReturn
    rw [if_pos hopen]
  rw [admits_call hfun hsup.isFunction]
  unfold planCall
  rw [if_neg (not_not.mpr hparams), hreturn, hsupRet]
  simp only [hret]
  rcases draftAll_pass m hshown hsup.params
    (fun q hq => isFormal_of_mem_params hcompiled hq) hlen hwell hwell' [] with
    ⟨hdraft, x, hx, hnone⟩ | ⟨ds, hdraft, hgroups, hfinish⟩
  · rw [hdraft]
    refine ⟨none, rfl, fun trs => ⟨by simp, fun h => ?_⟩⟩
    obtain ⟨i, hi, rfl⟩ := List.mem_iff_getElem.mp hx
    have hpass := (List.forall₂_iff_get.mp h).2 i hi ((List.Forall₂.length_eq h) ▸ hi)
    rw [List.get_eq_getElem, hnone] at hpass
    cases hpass
  · obtain ⟨o, ho, hspec⟩ := passAll_spec hok
    have hpromote : promoteAll ds [] [] = .ok (some []) := rfl
    simp only [hdraft, hgroups, hpromote, hfinish, ho]
    refine ⟨o.map fun trs => ⟨trs, Bindings.toTexts [], instantiate supRet []⟩, rfl,
      fun trs => ?_⟩
    rw [← hspec]
    constructor
    · rintro ⟨_, hr, rfl⟩
      obtain ⟨_, htrs, rfl⟩ := Option.map_eq_some_iff.mp hr
      exact htrs
    · rintro rfl
      exact ⟨_, rfl, rfl⟩

end Arguments

/-! ## Passing and converting -/

section Passing

variable {m : CastRules} {a f : Arg}

theorem marker_eq_mutable : a.marker = .mutable ↔ a.type.isFunction = false ∧ a.ref = .mutable := by
  unfold Arg.marker
  cases a.type.isFunction with
  | true => simp
  | false => exact ⟨fun h => ⟨rfl, h⟩, fun h => h.2⟩

theorem pass_eq_convert (hm : f.marker ≠ .mutable)
    (hsame : a.type = f.type → f.passSame = .clone) :
    m.pass a f = m.convert a.type a.ref f.type := by
  unfold CastRules.pass CastRules.convert convertWith CastRules.cast
  rw [if_neg hm]
  split
  · next h => rw [hsame h]
  · rfl

theorem passes_iff : (∃ tr, m.pass a f = .ok (some tr)) ↔
    if f.marker = .mutable then a.type.isFunction = false ∧ a.ref = .mutable ∧ a.type = f.type
    else ∃ tr, m.convert a.type a.ref f.type = .ok (some tr) := by
  by_cases hm : f.marker = .mutable
  · unfold CastRules.pass
    rw [if_pos hm, if_pos hm, ← and_assoc, ← marker_eq_mutable]
    by_cases hsuits : a.marker = .mutable ∧ a.type = f.type
    · rw [if_pos hsuits]
      exact ⟨fun _ => hsuits, fun _ => ⟨_, rfl⟩⟩
    · rw [if_neg hsuits]
      exact ⟨by simp, fun h => absurd h hsuits⟩
  rw [if_neg hm]
  by_cases hsame : a.type = f.type
  · unfold CastRules.pass CastRules.convert convertWith
    simp only [if_neg hm, if_pos hsame]
    exact ⟨fun _ => ⟨_, rfl⟩, fun _ => ⟨_, rfl⟩⟩
  · rw [pass_eq_convert hm fun h => absurd h hsame]

theorem not_delivers_function {tr : Transfer} {src dst : Ty} (hne : src ≠ dst)
    (hdst : dst.isFunction = true) : ¬ tr.Delivers src dst := by
  intro h
  cases tr with
  | borrow | clone => exact hne h
  | decay =>
    rcases h with ⟨_, _, rfl⟩ | ⟨_, _, _, rfl⟩ <;> cases hdst
  | numeric =>
    obtain ⟨_, _, rfl⟩ := h
    cases hdst
  | construct =>
    obtain ⟨_, rfl, _⟩ := h
    cases hdst
  | braces =>
    obtain ⟨_, _, rfl⟩ := h
    cases hdst
  | unregistered | unsupported => exact h

theorem pass_spec {tr : Transfer} (h : m.pass a f = .ok (some tr)) :
    if f.marker = .mutable ∨ f.type.isFunction = true ∨ f.marker = .constant ∧ a.type = f.type then
      tr = .borrow
    else m.convert a.type a.ref f.type = .ok (some tr) := by
  by_cases hm : f.marker = .mutable
  · unfold CastRules.pass at h
    rw [if_pos hm] at h
    rw [if_pos (.inl hm)]
    obtain ⟨_, htr⟩ := Option.ite_none_right_eq_some.mp (Except.ok.inj h)
    exact (Option.some.inj htr).symm
  by_cases hsame : a.type = f.type
  · have hpass : m.pass a f = .ok (some f.passSame) := by
      unfold CastRules.pass
      rw [if_neg hm, if_pos hsame]
    unfold Arg.passSame at hpass
    by_cases hborrow : f.marker = .constant ∨ f.type.isFunction = true
    · rw [h, if_pos hborrow] at hpass
      cases hpass
      rw [if_pos (.inr (hborrow.symm.imp_right fun hc => ⟨hc, hsame⟩))]
    · rw [if_neg (by tauto), ← pass_eq_convert hm fun _ => if_neg hborrow]
      exact h
  · rw [pass_eq_convert hm fun h => absurd h hsame] at h
    have hfun : ¬ f.type.isFunction = true := fun hfun => by
      unfold CastRules.convert convertWith at h
      rw [if_neg hsame] at h
      exact not_delivers_function hsame hfun (delivers_of_cast m _ _ _ _ h).1
    rw [if_neg (by tauto)]
    exact h

theorem pass_eq_ok (hok : ∃ r, m.convert a.type a.ref f.type = .ok r) :
    ∃ r, m.pass a f = .ok r := by
  by_cases hm : f.marker = .mutable
  · unfold CastRules.pass
    rw [if_pos hm]
    exact ⟨_, rfl⟩
  by_cases hsame : a.type = f.type
  · unfold CastRules.pass
    rw [if_neg hm, if_pos hsame]
    exact ⟨_, rfl⟩
  · rw [pass_eq_convert hm fun h => absurd h hsame]
    exact hok

theorem castIn_eq {τ : Type} {r : Catalog τ} (services : Services (Engine τ)) {v : Value}
    {t : Ty} {w : Engine τ} {tr : Transfer} (hv : w.state.store.asArgs [v] = .ok [a])
    (h : r.castRules.convert a.type a.ref t = .ok (some tr)) :
    r.castIn services v t w = Catalog.preparer r services tr v w := by
  unfold Catalog.castIn
  simp only [hv, h]

end Passing

/-! ## Pointwise admission -/

theorem exists_forall₂_iff {α β : Type} {R : α → β → Prop} {xs : List α} :
    (∃ ys, List.Forall₂ R xs ys) ↔ ∀ x ∈ xs, ∃ y, R x y := by
  induction xs with
  | nil => exact ⟨fun _ => List.forall_mem_nil _, fun _ => ⟨[], .nil⟩⟩
  | cons x xs ih =>
    rw [List.forall_mem_cons, ← ih]
    constructor
    · rintro ⟨_, h⟩
      obtain ⟨y, ys, hy, hys, rfl⟩ := List.forall₂_cons_left_iff.mp h
      exact ⟨⟨y, hy⟩, ys, hys⟩
    · rintro ⟨⟨y, hy⟩, ys, hys⟩
      exact ⟨y :: ys, .cons hy hys⟩

theorem forall_mem_zip {α β : Type} {P : α × β → Prop} {xs : List α} {ys : List β} :
    (∀ x ∈ xs.zip ys, P x) ↔
      ∀ (i : Nat) (x : α) (y : β), xs[i]? = some x → ys[i]? = some y → P (x, y) := by
  constructor
  · intro h i x y hx hy
    exact h _ (List.mem_of_getElem? (List.getElem?_zip_eq_some.mpr ⟨hx, hy⟩))
  · rintro h ⟨x, y⟩ hmem
    obtain ⟨i, hi⟩ := List.mem_iff_getElem?.mp hmem
    obtain ⟨hx, hy⟩ := List.getElem?_zip_eq_some.mp hi
    exact h i x y hx hy

/-- **Admission without wildcards is pointwise**: a procedure whose parameters have no wildcards
admits a call just if each argument suits its own parameter, where no conversion of an argument
faults.  An argument suits a mutable parameter if it is a mutable lvalue of the same type, and any
other if it can be converted to its type.  It is then converted as a cast of its value is, unless
it is borrowed: by a mutable parameter, by a function, and by a constant parameter of its type. -/
theorem pointwise_admission (m : CastRules) {args formals : List Arg} (strict strict' : Bool)
    (hlen : args.length = formals.length)
    (hargs : ∀ a ∈ args, a.type.WellFormed ∧ a.type ≠ .void)
    (hformals : ∀ f ∈ formals, f.type.WellFormed ∧ f.type ≠ .void)
    (hok : ∀ (i : Nat) (a f : Arg), args[i]? = some a → formals[i]? = some f →
      ∃ r, m.convert a.type a.ref f.type = .ok r) :
    ∃ call sup res,
      signature.compile (openCallForm args) Symbol.function strict = .ok call ∧
      signature.compile (typedCallForm .void formals) Symbol.function strict' = .ok sup ∧
      m.admits call sup [] = .ok res ∧
      (res.isSome = true ↔
        ∀ (i : Nat) (a f : Arg), args[i]? = some a → formals[i]? = some f →
          if f.marker = .mutable then
            a.type.isFunction = false ∧ a.ref = .mutable ∧ a.type = f.type
          else ∃ tr, m.convert a.type a.ref f.type = .ok (some tr)) ∧
      ∀ r, res = some r → r.transfers.length = args.length ∧
        ∀ (i : Nat) (a f : Arg) (tr : Transfer), args[i]? = some a → formals[i]? = some f →
          r.transfers[i]? = some tr →
            if f.marker = .mutable ∨ f.type.isFunction = true ∨
                f.marker = .constant ∧ a.type = f.type then tr = .borrow
            else m.convert a.type a.ref f.type = .ok (some tr) ∧
              ∀ (τ : Type) (r : Catalog τ) (services : Services (Engine τ)) (v : Value)
                (w : Engine τ), r.castRules = m → w.state.store.asArgs [v] = .ok [a] →
                  r.castIn services v f.type w = Catalog.preparer r services tr v w := by
  have hwell : ∀ a ∈ args, a.type.WellFormed := fun a ha => (hargs a ha).1
  have hwell' : ∀ f ∈ formals, f.type.WellFormed := fun f hf => (hformals f hf).1
  obtain ⟨call, hcall⟩ := compile_open strict hwell fun a ha => (hargs a ha).2
  have hvoid : Ty.void.WellFormed := trivial
  obtain ⟨sup, hsup, hcalls⟩ := compile_typed strict' hvoid hwell'
    fun f hf => (hformals f hf).2
  obtain ⟨hfun, hreturn, hshown⟩ := params_shownBy hwell hcall
  obtain ⟨res, hres, hspec⟩ := admits_plain hfun hreturn rfl hshown hcalls
    (compiledFrom_of_compile (by decide) hsup) hlen hwell hwell'
    (forall_mem_zip.mpr fun i a f ha hf => pass_eq_ok (hok i a f ha hf))
  refine ⟨call, sup, res, hcall, hsup, hres, ?_, fun r hr => ?_⟩
  · have hsome : res.isSome = true ↔
        ∃ trs, List.Forall₂ (fun x tr => m.pass x.1 x.2 = .ok (some tr)) (args.zip formals) trs := by
      rw [Option.isSome_iff_exists]
      constructor
      · rintro ⟨r, hr⟩
        exact ⟨r.transfers, (hspec _).mp ⟨r, hr, rfl⟩⟩
      · rintro ⟨trs, htrs⟩
        obtain ⟨r, hr, -⟩ := (hspec trs).mpr htrs
        exact ⟨r, hr⟩
    rw [hsome, exists_forall₂_iff, forall_mem_zip]
    simp only [passes_iff]
  · have hpass := (hspec r.transfers).mp ⟨r, hr, rfl⟩
    refine ⟨?_, fun i a f tr ha hf htr => ?_⟩
    · rw [← hpass.length_eq, List.length_zip, ← hlen, Nat.min_self]
    have hzip : (args.zip formals)[i]? = some (a, f) := List.getElem?_zip_eq_some.mpr ⟨ha, hf⟩
    have hpass := pass_spec (forall₂_getElem? hpass hzip htr)
    split
    · next hborrow => rwa [if_pos hborrow] at hpass
    · next hconvert =>
      rw [if_neg hconvert] at hpass
      refine ⟨hpass, fun τ r services v w hr hv => castIn_eq services hv ?_⟩
      rw [hr]
      exact hpass

/-- `FUNCTION VOID ( F64 LREF I32 )` called with a value and a variable of type `I32` -/
theorem pointwise_admission_words :
    ∃ call sup r,
      signature.compile (openCallForm [⟨.arith .i32, .none⟩, ⟨.arith .i32, .mutable⟩])
        Symbol.function false = .ok call ∧
      signature.compile (typedCallForm .void [⟨.arith .f64, .none⟩, ⟨.arith .i32, .mutable⟩])
        Symbol.function false = .ok sup ∧
      CastRules.admits ⟨none, [.numeric]⟩ call sup [] = .ok (some r) ∧
      r.transfers = [.numeric (.arith .f64), .borrow] := by
  have hlen : ([⟨.arith .i32, .none⟩, ⟨.arith .i32, .mutable⟩] : List Arg).length =
      ([⟨.arith .f64, .none⟩, ⟨.arith .i32, .mutable⟩] : List Arg).length := rfl
  have hwide : CastRules.convert ⟨none, [.numeric]⟩ (.arith .i32) .none (.arith .f64) =
      .ok (some (.numeric (.arith .f64))) := by
    unfold CastRules.convert convertWith
    rw [if_neg (by simp), castWith]
    · rfl
    · simp
  have hsame : CastRules.convert ⟨none, [.numeric]⟩ (.arith .i32) .mutable (.arith .i32) =
      .ok (some .clone) := if_pos rfl
  obtain ⟨call, sup, res, hcall, hsup, hres, hsuits, htransfers⟩ :=
    pointwise_admission ⟨none, [.numeric]⟩ false false hlen (by simp [Ty.WellFormed])
      (by simp [Ty.WellFormed]) (by
        rintro (_ | _ | i) a f ⟨⟩ ⟨⟩
        · exact ⟨_, hwide⟩
        · exact ⟨_, hsame⟩)
  have hsome : res.isSome = true := by
    rw [hsuits]
    rintro (_ | _ | i) a f ⟨⟩ ⟨⟩
    · exact ⟨_, hwide⟩
    · exact ⟨rfl, rfl, rfl⟩
  obtain ⟨r, rfl⟩ := Option.isSome_iff_exists.mp hsome
  obtain ⟨hlen, hall⟩ := htransfers r rfl
  refine ⟨call, sup, r, hcall, hsup, hres, ?_⟩
  obtain ⟨x, y, htrs⟩ := List.length_eq_two.mp hlen
  have hx := (hall 0 _ _ x rfl rfl (by rw [htrs]; rfl)).1
  have hy : y = .borrow := hall 1 _ _ y rfl rfl (by rw [htrs]; rfl)
  have hx : x = .numeric (.arith .f64) :=
    Option.some.inj (Except.ok.inj (hx.symm.trans hwide))
  rw [htrs, hx, hy]

end Overloading
