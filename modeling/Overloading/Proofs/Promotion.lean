import Overloading.Catalog.Operators
import Overloading.Proofs.CallForms
import Overloading.Proofs.CallPlans
import Overloading.Proofs.TypeReading

/-!
# Calls of one arithmetic wildcard

A form `!Arithmetic FUNCTION ?0 ( ?0 … ?0 )` takes arithmetic arguments, all in one kind, and
returns that kind: the common kind of the arguments, each of them promoted first.

* `Kind.promote_integral`   the common kind of integral kinds is one arithmetic takes place in;
* `kind?_of_denotes`        the kind of an argument is seen in its tree;
* `admits_operands`         the whole plan of a call of a declaration whose parameters are all one
                            arithmetic wildcard, however its arguments are marked;
* `admits_operatorForm`     the same for such a form.
-/

namespace Overloading

open Grammar

/-! ## Common kinds -/

namespace Kind

theorem promote_integral {a b : Kind} (ha : a.isIntegral = true) (hb : b.isIntegral = true) :
    (a.promote b).isIntegral = true ∧ a.promote b ≠ bool := by
  have hall : ∀ a ∈ all, ∀ b ∈ all, a.isIntegral = true → b.isIntegral = true →
      (a.promote b).isIntegral = true ∧ a.promote b ≠ bool := by decide
  exact hall a (mem_all a) b (mem_all b) ha hb

theorem promote_promote (a b : Kind) : (a.promote a).promote b = a.promote b := by
  have hall : ∀ a ∈ all, ∀ b ∈ all, (a.promote a).promote b = a.promote b := by decide
  exact hall a (mem_all a) b (mem_all b)

end Kind

/-! ## The kind of an argument -/

theorem kind?_of_denotes {t : Tree} {s : Symbol} {k : Kind}
    (hs : s = Symbol.object ∨ s = Symbol.paramObject) (h : t.Denotes s (.arith k)) :
    t.kind? = some k := by
  obtain ⟨i, hk⟩ := denotes_arith k
  have ho := hk.wrap (s := Symbol.object) (i := 0) (by decide) (by decide) (by decide)
  have hp := ho.wrap (s := Symbol.paramObject) (i := 0) (by decide) (by decide) (by decide)
  have hunique : ∀ {u : Tree}, s ∈ signatureWildcards → u.Denotes s (.arith k) → t = u :=
    fun hwild hu => derives_unique compiled_signature hwild
      ⟨h.formed, h.symbol_eq, h.yield_eq⟩ ⟨hu.formed, hu.symbol_eq, hu.yield_eq⟩
  have hkind : (Tree.branch Symbol.arithmetic i [.leaf k.token ⟨k.token, none⟩]).kind? =
      some k := by
    show (if Symbol.arithmetic == Symbol.arithmetic then Kind.ofToken? k.token else none) = some k
    rw [if_pos (by decide), Kind.ofToken?_token]
  rcases hs with rfl | rfl
  · rw [hunique (by decide) ho]
    exact hkind
  · rw [hunique (by decide) hp]
    exact hkind

/-! ## Forms over one wildcard -/

/-- the wildcard `?0` of such a form -/
def operandHead : Tree := .head Symbol.arithmetic 11 ⟨Symbol.arithmetic, some 0⟩

theorem formed_operandHead : operandHead.Formed := formed_head.mpr ⟨by decide, by decide, rfl⟩

/-- `!Arithmetic FUNCTION ?0 ( ?0 … ?0 )`, with so many parameters -/
def operatorForm (src : List String) (n : Nat) : Signature :=
  ⟨src, [Symbol.arithmetic],
    formTokens [⟨Symbol.arithmetic, some 0⟩] (List.replicate n [⟨Symbol.arithmetic, some 0⟩]),
    Symbol.function,
    formTree (.branch Symbol.return_ 0 [.branch Symbol.type 0 [.branch Symbol.object 0
      [operandHead]]]) (paramsTree (List.replicate n (valueParam operandHead)))⟩

variable {src : List String} {n : Nat}

theorem isFunction_operatorForm : (operatorForm src n).isFunction = true := rfl

theorem params_operatorForm :
    (operatorForm src n).params = List.replicate n (valueParam operandHead) :=
  elements_paramsTree _

theorem compile_operandForm {strict : Bool} {ps : List Tree}
    (hps : ∀ p ∈ ps, p.Formed ∧ p.symbol = Symbol.paramObject)
    (hpre : signature.prepareBody src strict = .ok ⟨[Symbol.arithmetic],
      formTokens [⟨Symbol.arithmetic, some 0⟩] (ps.map Tree.yield)⟩) :
    signature.compile src Symbol.function strict = .ok ⟨src, [Symbol.arithmetic],
      formTokens [⟨Symbol.arithmetic, some 0⟩] (ps.map Tree.yield), Symbol.function,
      formTree (.branch Symbol.return_ 0 [.branch Symbol.type 0 [.branch Symbol.object 0
        [operandHead]]]) (paramsTree ps)⟩ := by
  have hobject : (Tree.branch Symbol.object 0 [operandHead]).Formed :=
    formed_single (by decide) formed_operandHead
  have htype : (Tree.branch Symbol.type 0 [.branch Symbol.object 0 [operandHead]]).Formed :=
    formed_single (by decide) hobject
  have hreturn : (Tree.branch Symbol.return_ 0 [.branch Symbol.type 0 [.branch Symbol.object 0
      [operandHead]]]).Formed := formed_single (by decide) htype
  exact compile_of_formed src strict _ (by decide) hpre
    (formed_formTree.mpr ⟨⟨hreturn, rfl⟩, formed_paramsTree hps⟩) rfl (yield_formTree _ _)

theorem compile_operatorForm {strict : Bool}
    (hpre : signature.prepareBody src strict = .ok ⟨[Symbol.arithmetic],
      formTokens [⟨Symbol.arithmetic, some 0⟩]
        (List.replicate n [⟨Symbol.arithmetic, some 0⟩])⟩) :
    signature.compile src Symbol.function strict = .ok (operatorForm src n) := by
  have hyields : (List.replicate n (valueParam operandHead)).map Tree.yield =
      List.replicate n [⟨Symbol.arithmetic, some 0⟩] := List.map_replicate
  have hps : ∀ p ∈ List.replicate n (valueParam operandHead),
      p.Formed ∧ p.symbol = Symbol.paramObject := fun p hp => by
    rw [List.eq_of_mem_replicate hp]
    exact formed_valueParam formed_operandHead rfl
  have h := compile_operandForm hps (by rw [hyields]; exact hpre)
  rw [hyields] at h
  exact h

/-! ## The plan of a call -/

/-- the plan of a call in which arguments of some kinds meet in a kind -/
def meeting (kinds : List Kind) (k : Kind) : Match :=
  ⟨kinds.map fun j => passPromoted .none j k, [(0, [k.token])], some [k.token]⟩

theorem resultType_meeting (kinds : List Kind) (k : Kind) :
    (meeting kinds k).resultType = .ok (.arith k) := by
  have hmarker : Match.withoutMarker [k.token] = [k.token] := by cases k <;> decide
  show signature.readType (Match.withoutMarker [k.token]) = .ok (.arith k)
  rw [hmarker]
  exact readType_tokens (show (Ty.arith k).WellFormed from trivial)

/-- a parameter that is an arithmetic wildcard and nothing else, passed by value or by constant
reference -/
structure Tree.IsOperand (id : Nat) (ref : Ref) (q : Tree) : Prop where
  head : q.isHead = false
  ref_eq : q.splitRef.1 = ref
  passed : ref ≠ .mutable
  bare : q.splitRef.2.bareArithmetic? = some id

/-- the drafts of the operands of a wildcard: the reference and the kind of each -/
def operandDrafts (id : Nat) (ops : List (Ref × Kind)) : List Draft :=
  ops.map fun x => .promote id x.1 x.2

section Operands

variable {id : Nat} {ops : List (Ref × Kind)}

theorem draft_operand {a : Arg} {p q : Tree} {ref : Ref} {k : Kind} (ha : a.type = .arith k)
    (hp : a.ShownBy p) (hq : q.IsOperand id ref) (b : Bindings) :
    draft p q b = some (.promote id ref k, b) := by
  obtain ⟨s, hs, hd⟩ := hp.denotes
  rw [ha] at hd
  rw [draft_eq hq.head, hq.ref_eq, if_neg hq.passed, hq.bare, kind?_of_denotes hs hd]

theorem draftAll_operands {args : List Arg} {ps qs : List Tree}
    (hkinds : args.map Arg.type = ops.map fun x => Ty.arith x.2)
    (hps : List.Forall₂ Arg.ShownBy args ps)
    (hqs : List.Forall₂ (fun x q => q.IsOperand id x.1) ops qs) (b : Bindings) :
    draftAll ps qs b = some (operandDrafts id ops, b) := by
  induction hps generalizing ops qs with
  | nil =>
    obtain rfl : ops = [] := List.map_eq_nil_iff.mp hkinds.symm
    cases hqs
    rfl
  | @cons a p args ps hp _ ih =>
    obtain ⟨x, ops, rfl, hx, hrest⟩ := List.map_eq_cons_iff.mp hkinds.symm
    obtain _ | ⟨hq, hqs⟩ := hqs
    rw [draftAll, draft_operand hx.symm hp hq]
    dsimp only
    rw [ih hrest.symm hqs]
    rfl

theorem groups_operands (h : ops ≠ []) : Draft.groups (operandDrafts id ops) = [id] := by
  have hfilter : ∀ ops : List (Ref × Kind),
      (Draft.groups (operandDrafts id ops)).filter (fun i => i != id) = [] := by
    intro ops
    induction ops with
    | nil => rfl
    | cons x ops ih =>
      unfold operandDrafts at ih ⊢
      rw [List.map_cons, Draft.groups, List.filter_cons_of_neg (by simp), List.filter_filter]
      simp only [Bool.and_self]
      exact ih
  obtain ⟨x, ops, rfl⟩ := List.exists_cons_of_ne_nil h
  have hrest := hfilter ops
  unfold operandDrafts at hrest ⊢
  rw [List.map_cons, Draft.groups, hrest]

theorem kindsOf_operands : Draft.kindsOf id (operandDrafts id ops) = ops.map Prod.snd := by
  unfold Draft.kindsOf operandDrafts
  rw [List.filterMap_map, ← List.filterMap_eq_map]
  exact List.filterMap_congr fun x _ => by simp

theorem promoteAll_operands {k : Kind} (hk : commonKind? (ops.map Prod.snd) = some k) :
    promoteAll (operandDrafts id ops) (Draft.groups (operandDrafts id ops)) [] =
      .ok (some [(id, Binding.ofTexts [k.token])]) := by
  have hgroup : promoteGroup id (ops.map Prod.snd) [] =
      .ok (some [(id, Binding.ofTexts [k.token])]) := by
    rw [promoteGroup, Bindings.get?, List.lookup_nil, hk]
    rfl
  have hnonempty : ops ≠ [] := by
    rintro rfl
    cases hk
  rw [groups_operands hnonempty, promoteAll, kindsOf_operands, hgroup]
  rfl

theorem finishAll_operands (cast : Ty → Ref → Ty → Planned Transfer) {b : Bindings} {k : Kind}
    (hb : b.texts? id = some [k.token]) (ops : List (Ref × Kind)) :
    finishAll cast b (operandDrafts id ops) =
      .ok (some (ops.map fun x => passPromoted x.1 x.2 k)) := by
  have hk : (b.texts? id).bind kindOfTexts? = some k := by
    rw [hb]
    exact Kind.ofToken?_token k
  induction ops with
  | nil => rfl
  | cons x ops ih =>
    unfold operandDrafts at ih ⊢
    rw [List.map_cons, finishAll, finish, hk]
    dsimp only
    rw [ih]
    rfl

end Operands

theorem planCall_eq {cast : Ty → Ref → Ty → Planned Transfer} {sub sup : Signature}
    {b b₁ b₂ b₃ : Bindings} {subRet supRet : Tree} {ds : List Draft} {trs : List Transfer}
    (hlen : sub.params.length = sup.params.length) (hsub : sub.returnTree? = some subRet)
    (hsup : sup.returnTree? = some supRet) (hret : unifyReturn subRet supRet b = some b₁)
    (hdraft : draftAll sub.params sup.params b₁ = some (ds, b₂))
    (hpromote : promoteAll ds (Draft.groups ds) b₂ = .ok (some b₃))
    (hfinish : finishAll cast b₃ ds = .ok (some trs)) :
    planCall cast sub sup b = .ok (some ⟨trs, b₃.toTexts, instantiate supRet b₃⟩) := by
  unfold planCall
  rw [if_neg (not_not.mpr hlen), hsub, hsup]
  simp only [hret, hdraft, hpromote, hfinish]
  rfl

theorem admits_call {m : CastRules} {sub sup : Signature} (hsub : sub.isFunction = true)
    (hsup : sup.isFunction = true) : m.admits sub sup [] = planCall m.cast sub sup [] := by
  unfold CastRules.admits admitsWith
  rw [bindExplicit, hsub, hsup]
  rfl

theorem wellFormed_of_arith {args : List Arg} {kinds : List Kind}
    (hkinds : args.map Arg.type = kinds.map Ty.arith) : ∀ a ∈ args, a.type.WellFormed := by
  intro a ha
  obtain ⟨k, _, hk⟩ := List.mem_map.mp (hkinds ▸ List.mem_map_of_mem ha)
  rw [← hk]
  trivial

/-- **A call of one arithmetic wildcard**: whatever the declaration, if its parameters are all one
arithmetic wildcard, its arguments meet in their common kind. -/
theorem admits_operands (m : CastRules) {id : Nat} {ops : List (Ref × Kind)} {args : List Arg}
    {k : Kind} {call sup : Signature} {ret : Tree} {strict : Bool}
    (hkinds : args.map Arg.type = ops.map fun x => Ty.arith x.2)
    (hk : commonKind? (ops.map Prod.snd) = some k)
    (hcall : signature.compile (openCallForm args) Symbol.function strict = .ok call)
    (hfun : sup.isFunction = true) (hret : sup.returnTree? = some ret)
    (hparams : List.Forall₂ (fun x q => q.IsOperand id x.1) ops sup.params) :
    m.admits call sup [] = .ok (some ⟨ops.map fun x => passPromoted x.1 x.2 k, [(id, [k.token])],
      instantiate ret [(id, Binding.ofTexts [k.token])]⟩) := by
  have hsnd : args.map Arg.type = (ops.map Prod.snd).map Ty.arith := by
    rw [hkinds, List.map_map]
    rfl
  obtain ⟨hcallfun, hopen, hps⟩ := params_shownBy (wellFormed_of_arith hsnd) hcall
  have hcount : args.length = ops.length := by simpa using congrArg List.length hkinds
  have hlen : call.params.length = sup.params.length := by
    rw [← hps.length_eq, hcount, hparams.length_eq]
  have hb : Bindings.texts? [(id, Binding.ofTexts [k.token])] id = some [k.token] := by
    rw [Bindings.texts?, Bindings.get?, List.lookup_cons_self]
    rfl
  rw [admits_call hcallfun hfun,
    planCall_eq hlen hopen hret rfl (draftAll_operands hkinds hps hparams [])
      (promoteAll_operands hk) (finishAll_operands m.cast hb ops)]
  rfl

theorem operands_operatorForm (src : List String) (kinds : List Kind) :
    List.Forall₂ (fun x q => q.IsOperand 0 x.1) (kinds.map (Prod.mk Ref.none))
      (operatorForm src kinds.length).params := by
  have hoperand : (valueParam operandHead).IsOperand 0 .none :=
    ⟨rfl, congrArg Prod.fst (splitRef_single _ _ _), by decide, by decide⟩
  rw [params_operatorForm]
  induction kinds with
  | nil => exact .nil
  | cons j kinds ih => exact .cons hoperand ih

/-- a call of a form of one wildcard: its arguments meet in their common kind -/
theorem admits_operatorForm (m : CastRules) (src : List String) {args : List Arg}
    {kinds : List Kind} {k : Kind} {call : Signature} {strict : Bool}
    (hkinds : args.map Arg.type = kinds.map Ty.arith)
    (hk : commonKind? kinds = some k)
    (hcall : signature.compile (openCallForm args) Symbol.function strict = .ok call) :
    m.admits call (operatorForm src kinds.length) [] = .ok (some (meeting kinds k)) := by
  have hops : (kinds.map (Prod.mk Ref.none)).map Prod.snd = kinds := by
    rw [List.map_map]
    exact List.map_id kinds
  have h := admits_operands m (by rw [hkinds, List.map_map]; rfl) (by rw [hops]; exact hk) hcall
    isFunction_operatorForm rfl (operands_operatorForm src kinds)
  rw [h, List.map_map]
  rfl

theorem admits_operatorForm_length {m : CastRules} {args : List Arg} {call : Signature}
    {strict : Bool} (hargs : ∀ a ∈ args, a.type.WellFormed)
    (hcall : signature.compile (openCallForm args) Symbol.function strict = .ok call)
    (hn : args.length ≠ n) : m.admits call (operatorForm src n) [] = .ok none := by
  obtain ⟨hfun, _, hps⟩ := params_shownBy hargs hcall
  have hlen : call.params.length ≠ (operatorForm src n).params.length := by
    rw [params_operatorForm, List.length_replicate, ← hps.length_eq]
    exact hn
  rw [admits_call hfun isFunction_operatorForm]
  unfold planCall
  rw [if_pos hlen]

end Overloading
