import Overloading.Proofs.Dispatching
import Overloading.Proofs.IntegerArithmetic
import Overloading.Proofs.Promotion

/-!
# Calls of the builtin operators

The builtin operators are overloads over one arithmetic wildcard.  A call with integers resolves to
the form with as many parameters; the operands are brought into their common kind one by one, and
the implementation computes the exact result and fits it into that kind.

* `Catalog.HasOperators`   the overloads of the operator names are the builtin ones;
* `dispatchIn_operator`    a call of an operator comes to its implementation, which gets the
                           operands in their common kind;
* `operators_compute`      what a call of an operator gives, or how it fails.
-/

namespace Overloading

open Grammar

variable {τ : Type}

/-! ## The overloads of the operators -/

def binaryForm : Signature := operatorForm ["!Arithmetic", "FUNCTION", "?0", "(", "?0", "?0", ")"] 2

def unaryForm : Signature := operatorForm ["!Arithmetic", "FUNCTION", "?0", "(", "?0", ")"] 1

theorem compile_binaryForm (strict : Bool) :
    signature.compileText binarySignature Symbol.function strict = .ok binaryForm :=
  compile_operatorForm
    (prepareBody_signature (by rintro ⟨_, _, _, _, _, _, _⟩ rfl; cases strict <;> rfl))

theorem compile_unaryForm (strict : Bool) :
    signature.compileText unarySignature Symbol.function strict = .ok unaryForm :=
  compile_operatorForm
    (prepareBody_signature (by rintro ⟨_, _, _, _, _, _, _⟩ rfl; cases strict <;> rfl))

namespace Catalog

/-- the overloads that builtin operators are declared as -/
def operatorOverload (form : String → Signature) (op : String × String × Implementation τ) :
    Overload τ := ⟨⟨globalDomain, op.1, form op.2.1⟩, some op.2.2⟩

theorem declareAll_fresh (form : String → Signature)
    {ops : List (String × String × Implementation τ)} {r : Catalog τ}
    (hform : ∀ op ∈ ops, signature.compileText op.2.1 Symbol.function r.config.strictWildcards =
      .ok (form op.2.1) ∧ (form op.2.1).isFunction = true)
    (hfresh : ∀ op ∈ ops, r.declared? globalDomain op.1 (form op.2.1) = none)
    (hdistinct : ops.Pairwise fun a b => a.1 = b.1 → (form a.2.1).text ≠ (form b.2.1).text) :
    (r.declareAll ops).2 = none ∧
      ∀ name, ((r.declareAll ops).1.1.overloadsOf globalDomain name).map Prod.fst =
        (r.overloadsOf globalDomain name).map Prod.fst ++
          (ops.filter fun op => op.1 == name).map (operatorOverload form) := by
  induction ops generalizing r with
  | nil => exact ⟨rfl, fun name => (List.append_nil _).symm⟩
  | cons op ops ih =>
    obtain ⟨name, sig, target⟩ := op
    obtain ⟨hcompile, hfun⟩ := hform _ List.mem_cons_self
    have hdeclare := declare_fresh (some target) hcompile hfun (hfresh _ List.mem_cons_self)
    obtain ⟨hfirst, hdistinct⟩ := List.pairwise_cons.mp hdistinct
    let o : Overload τ := operatorOverload form (name, sig, target)
    have hstep : (r.declareAll ((name, sig, target) :: ops)).2 =
          ((r.addOverload o).declareAll ops).2 ∧
        (r.declareAll ((name, sig, target) :: ops)).1.1 =
          ((r.addOverload o).declareAll ops).1.1 := by
      rw [declareAll, hdeclare]
      exact ⟨rfl, rfl⟩
    have hstill : ∀ op ∈ ops,
        (r.addOverload o).declared? globalDomain op.1 (form op.2.1) = none := by
      intro op hop
      have hold := hfresh op (List.mem_cons_of_mem _ hop)
      unfold declared? at hold ⊢
      rw [overloadsOf_addOverload, List.find?_append, hold, Option.none_or]
      split
      · next hsame =>
        rw [List.find?_singleton, if_neg]
        exact fun htext => hfirst op hop hsame.2 (beq_iff_eq.mp htext)
      · rfl
    obtain ⟨hnone, hoverloads⟩ := ih (r := r.addOverload o)
      (fun op hop => hform op (List.mem_cons_of_mem _ hop)) hstill hdistinct
    refine ⟨hstep.1.trans hnone, fun n => ?_⟩
    rw [hstep.2, hoverloads, overloadsOf_addOverload, List.map_append, List.append_assoc]
    congr 1
    by_cases hname : name = n
    · rw [if_pos ⟨rfl, hname⟩, List.filter_cons_of_pos (by simpa using hname)]
      rfl
    · rw [if_neg fun h => hname h.2, List.filter_cons_of_neg (by simpa using hname)]
      rfl

def formOf (sig : String) : Signature := if sig = unarySignature then unaryForm else binaryForm

/-- the overloads of an operator, declared under a policy -/
def builtins (policy : String) (op : Operator) : List (Overload τ) :=
  ⟨⟨globalDomain, operatorKey op.symbol, binaryForm⟩, some (binaryTarget policy op)⟩ ::
    if op = .sub then
      [⟨⟨globalDomain, operatorKey op.symbol, unaryForm⟩, some (unaryTarget policy)⟩]
    else []

theorem mem_operators {policy : String} {op : String × String × Implementation τ}
    (h : op ∈ operators policy) : (∃ p : Operator, op.1 = operatorKey p.symbol) ∧
      (op.2.1 = binarySignature ∨ op.2.1 = unarySignature) := by
  rcases List.mem_append.mp h with h | h
  · obtain ⟨p, _, rfl⟩ := List.mem_map.mp h
    exact ⟨⟨p, rfl⟩, .inl rfl⟩
  · cases List.mem_singleton.mp h
    exact ⟨⟨.sub, rfl⟩, .inr rfl⟩

theorem compile_operators {policy : String} {strict : Bool}
    {op : String × String × Implementation τ} (h : op ∈ operators policy) :
    signature.compileText op.2.1 Symbol.function strict = .ok (formOf op.2.1) ∧
      (formOf op.2.1).isFunction = true := by
  rcases (mem_operators h).2 with h | h
  · rw [h]
    exact ⟨compile_binaryForm _, rfl⟩
  · rw [h]
    exact ⟨compile_unaryForm _, rfl⟩

theorem distinct_operators (policy : String) :
    (@operators τ policy).Pairwise fun a b =>
      a.1 = b.1 → (formOf a.2.1).text ≠ (formOf b.2.1).text := by
  have hkeys : Operator.all.Pairwise fun a b => operatorKey a.symbol ≠ operatorKey b.symbol := by
    decide
  have htexts : (formOf binarySignature).text ≠ (formOf unarySignature).text := by decide
  refine List.pairwise_append.mpr ⟨?_, List.pairwise_singleton _ _, fun a ha b hb _ => ?_⟩
  · exact List.pairwise_map.mpr (hkeys.imp fun hne heq => absurd heq hne)
  · obtain ⟨p, _, rfl⟩ := List.mem_map.mp ha
    cases List.mem_singleton.mp hb
    exact htexts

theorem declareOperators_fresh {r : Catalog τ}
    (hnone : ∀ op : Operator, r.overloadsOf globalDomain (operatorKey op.symbol) = []) :
    r.declareOperators.2 = none ∧ ∀ op : Operator,
      (r.declareOperators.1.1.overloadsOf globalDomain (operatorKey op.symbol)).map Prod.fst =
        builtins r.config.unsignedOverflow op := by
  have hfresh : ∀ op ∈ @operators τ r.config.unsignedOverflow,
      r.declared? globalDomain op.1 (formOf op.2.1) = none := by
    intro op hop
    obtain ⟨⟨p, hp⟩, _⟩ := mem_operators hop
    unfold declared?
    rw [hp, hnone]
    rfl
  obtain ⟨hfault, hoverloads⟩ := declareAll_fresh formOf (fun _ hop => compile_operators hop) hfresh
    (distinct_operators _)
  refine ⟨hfault, fun op => ?_⟩
  unfold declareOperators
  rw [hoverloads, hnone]
  cases op <;> rfl

/-- the overloads of the operator names are those that a declaration of the builtin operators,
which has not failed, has added -/
def HasOperators (r : Catalog τ) : Prop :=
  ∃ (r₀ r₁ : Catalog τ) (records : List Record), r₀.config = r.config ∧
    (∀ op : Operator, r₀.overloadsOf globalDomain (operatorKey op.symbol) = []) ∧
    r₀.declareOperators = ((r₁, records), none) ∧
    ∀ op : Operator, r.overloadsOf globalDomain (operatorKey op.symbol) =
      r₁.overloadsOf globalDomain (operatorKey op.symbol)

theorem HasOperators.overloads {r : Catalog τ} (h : r.HasOperators) (op : Operator) :
    (r.overloadsOf globalDomain (operatorKey op.symbol)).map Prod.fst =
      builtins r.config.unsignedOverflow op := by
  obtain ⟨r₀, r₁, records, hconfig, hnone, hdeclare, hsame⟩ := h
  have hbuiltins := (declareOperators_fresh hnone).2 op
  rw [hdeclare] at hbuiltins
  rw [hsame, hbuiltins, hconfig]

/-! ## Preparing the operands -/

section Operands

variable (r : Catalog τ) (services : Services (Engine τ)) {w : Engine τ} {k : Kind}

theorem preparer_promoted {x : Number} (hx : x.In w.state.store) (hk : k.isIntegral = true)
    (hbool : k ≠ .bool) :
    ∃ z s, preparer r services (passPromoted .none x.kind k) (some x.var) w =
        .done { w with state := { w.state with store := s } } (some z) ∧
      (∀ y : Number, y.In w.state.store → y.In s) ∧
      Number.In ⟨z, k, k.normalize x.value⟩ s := by
  unfold passPromoted
  by_cases hsame : x.kind = k
  · subst hsame
    rw [if_pos rfl, if_neg (by decide), preparer]
    unfold Comp.fromValue Comp.tryStore
    dsimp only
    rw [clone_number hx]
    rw [Kind.normalize_of_contains hbool hx.in_range]
    exact ⟨_, _, rfl, fun y hy => hy.fresh _ _, number_fresh _ _ hk hx.in_range⟩
  · rw [if_neg hsame, preparer]
    show ∃ z s, Comp.fromValue (some x.var) (fun v s => s.convert v k) w = _ ∧ _
    unfold Comp.fromValue Comp.tryStore
    dsimp only
    rw [convert_number hx hk]
    exact ⟨_, _, rfl, fun y hy => hy.fresh _ _,
      number_fresh _ _ hk (Kind.contains_normalize _ _)⟩

theorem eachFrom_promoted (hk : k.isIntegral = true) (hbool : k ≠ .bool) (tray : Nat)
    (xs : List Number) (i : Nat) (htray : tray < w.trays.size)
    (hxs : ∀ x ∈ xs, x.In w.state.store) :
    ∃ v zs, Comp.eachFrom (fun _ p => p.1 p.2) tray i
        ((preparers r services (xs.map fun x => passPromoted .none x.kind k)).zip
          (xs.map fun x => some x.var)) w = .done v (w.contents tray ++ zs.map some) ∧
      List.Forall₂ (fun x z => Number.In ⟨z, k, k.normalize x.value⟩ v.state.store) xs zs ∧
      ∀ y : Number, y.In w.state.store → y.In v.state.store := by
  induction xs generalizing i w with
  | nil =>
    refine ⟨w, [], ?_, .nil, fun _ h => h⟩
    rw [List.map_nil, List.map_nil, List.zip_nil_right, Comp.eachFrom, List.map_nil,
      List.append_nil]
  | cons x xs ih =>
    obtain ⟨z, s, hprepare, hkeep, hz⟩ := preparer_promoted r services
      (hxs x List.mem_cons_self) hk hbool
    let u : Engine τ := { w with state := { w.state with store := s } }
    have hput : (u.put tray (some z)).contents tray = w.contents tray ++ [some z] :=
      World.contents_put htray
    obtain ⟨v, zs, hrest, hzs, hkeep'⟩ := ih (w := u.put tray (some z)) (i + 1)
      (by rw [World.size_put]; exact htray)
      fun y hy => hkeep y (hxs y (List.mem_cons_of_mem _ hy))
    refine ⟨v, z :: zs, ?_, .cons (hkeep' _ hz) hzs, fun y hy => hkeep' y (hkeep y hy)⟩
    rw [List.map_cons, List.map_cons, preparers, List.zip_cons_cons, Comp.eachFrom_cons]
    dsimp only
    rw [hprepare, Step.andThen_done]
    refine hrest.trans ?_
    rw [hput, List.map_cons, List.append_assoc]
    rfl

end Operands

/-! ## The call -/

theorem asArgs_numbers {s : Store} {xs : List Number} (h : ∀ x ∈ xs, x.In s) :
    ∃ as, s.asArgs (xs.map fun x => some x.var) = .ok as ∧
      as.map Arg.type = (xs.map Number.kind).map Ty.arith := by
  induction xs with
  | nil => exact ⟨[], rfl, rfl⟩
  | cons x xs ih =>
    obtain ⟨as, has, hkinds⟩ := ih fun y hy => h y (List.mem_cons_of_mem _ hy)
    obtain ⟨a, ha, htype⟩ : ∃ a, s.asArg x.var = .ok a ∧ a.type = .arith x.kind := by
      have ht := (h x List.mem_cons_self).type_eq
      unfold Store.typeOf at ht
      unfold Store.asArg
      cases hv : s.view x.var with
      | error e => rw [hv] at ht; cases ht
      | ok p =>
        rw [hv] at ht
        exact ⟨_, rfl, Except.ok.inj ht⟩
    refine ⟨a :: as, ?_, ?_⟩
    · rw [List.map_cons, Store.asArgs, ha]
      dsimp only
      rw [has]
      rfl
    · rw [List.map_cons, List.map_cons, List.map_cons, htype, hkinds]

theorem callOf_meeting (d : Declaration) (kinds : List Kind) (k : Kind) :
    ∃ call, callOf d (meeting kinds k) = .ok call := by
  have hresult := resultType_meeting kinds k
  unfold callOf
  exact ⟨_, bind_eq_ok.mpr ⟨some (.arith k), by
    show some <$> (meeting kinds k).resultType = _
    rw [hresult]
    rfl, rfl⟩⟩

/-- a call of some values resolves, and its resolution announces the type of the result -/
def Announces (r : Catalog τ) (name : String) (args : List Value) (ty : Ty) (w : Engine τ) :
    Prop :=
  ∃ as sel records, w.state.store.asArgs args = .ok as ∧
    r.resolve globalDomain name as [] = .ok (sel, records) ∧ sel.plan.resultType = .ok ty

/-- **The call of an operator**: it resolves to the first form with as many parameters, announces
the common kind, and comes to the implementation, which gets the operands in that kind. -/
theorem dispatchIn_operator {r : Catalog τ} (services : Services (Engine τ)) {w : Engine τ}
    {k : Kind} {name : String} {xs : List Number} {front back : List (Overload τ × Nat)}
    {o : Overload τ} {i : Nat} {src : List String} {target : Implementation τ}
    (hxs : ∀ x ∈ xs, x.In w.state.store) (hcommon : commonKind? (xs.map Number.kind) = some k)
    (hk : k.isIntegral = true) (hbool : k ≠ .bool)
    (hos : r.overloadsOf globalDomain name = front ++ (o, i) :: back)
    (hfront : ∀ x ∈ front, ∃ src n, x.1.signature = operatorForm src n ∧ xs.length ≠ n)
    (hsignature : o.signature = operatorForm src xs.length) (htarget : o.target = some target) :
    r.Announces name (xs.map fun x => some x.var) (.arith k) w ∧
      ∃ call v zs, r.dispatchIn services globalDomain name [] (xs.map fun x => some x.var) w =
          target services call (zs.map some) v ∧
        List.Forall₂ (fun x z => Number.In ⟨z, k, k.normalize x.value⟩ v.state.store) xs zs := by
  obtain ⟨as, has, htypes⟩ := asArgs_numbers hxs
  have hwell := wellFormed_of_arith htypes
  have hlen : as.length = xs.length := by simpa using congrArg List.length htypes
  have hvoid : ∀ a ∈ as, a.type ≠ .void := by
    intro a ha hv
    obtain ⟨j, _, hj⟩ := List.mem_map.mp (htypes ▸ List.mem_map_of_mem ha)
    rw [hv] at hj
    cases hj
  obtain ⟨call, hcall⟩ := compile_open false hwell hvoid
  let plan : Match := meeting (xs.map Number.kind) k
  have hsearch : r.search globalDomain name as [] =
      .ok (some (⟨i, plan⟩, [resolvedRecord o.toDeclaration plan])) := by
    rw [search_eq [] hcall, hos]
    refine firstAdmitting_eq (fun x hx => ?_) ?_
    · obtain ⟨src, n, hform, hn⟩ := hfront x hx
      rw [hform]
      exact admits_operatorForm_length hwell hcall (by rw [hlen]; exact hn)
    · have hadmits := admits_operatorForm r.castRules src htypes hcommon hcall
      rw [List.length_map] at hadmits
      rw [hsignature]
      exact hadmits
  have hresolve := resolve_of_search hsearch
  refine ⟨⟨as, _, _, has, hresolve, resultType_meeting _ _⟩, ?_⟩
  have hover : r.overloads[i]? = some o := by
    have hmem : (o, i) ∈ r.overloadsOf globalDomain name := by rw [hos]; simp
    exact (mem_overloadsOf.mp hmem).1
  obtain ⟨info, hinfo⟩ := callOf_meeting o.toDeclaration (xs.map Number.kind) k
  have hplan : plan.transfers = xs.map fun x => passPromoted .none x.kind k := List.map_map
  have hcount : (xs.map fun x => some x.var).length =
      (preparers r services plan.transfers).length := by
    rw [preparers_eq_map, hplan, List.length_map, List.length_map, List.length_map]
  let u : Engine τ := w.note [resolvedRecord o.toDeclaration plan]
  obtain ⟨v, zs, heach, hzs, _⟩ := eachFrom_promoted r services (w := u.addTray.2) hk hbool
    u.addTray.1 xs 0 (by rw [World.size_addTray]; exact Nat.lt_succ_self _) hxs
  have hprepare : Comp.each ((preparers r services plan.transfers).zip
      (xs.map fun x => some x.var)) (fun _ p => p.1 p.2) u = .done v (zs.map some) := by
    rw [hplan]
    refine heach.trans ?_
    rw [show u.addTray.2.contents u.addTray.1 = [] from World.contents_addTray u]
    rfl
  refine ⟨info, v, zs, ?_, hzs⟩
  rw [(dispatchIn_eq has).2 _ _ hresolve]
  show r.performWith services i (preparers r services plan.transfers) plan _ u = _
  rw [performWith_eq hover hcount htarget]
  show Step.andThen _ _ = _
  rw [hprepare, Step.andThen_done, handOver_eq hinfo]

end Catalog

/-! ## Results -/

section Results

variable {policy : String} {k : Kind} {n : Int} {s : Step (Engine τ) Value}

/-- a step has ended in a variable of an integral kind that holds an integer of its range -/
def Step.Gives (s : Step (Engine τ) Value) (k : Kind) (n : Int) : Prop :=
  ∃ v z, s = .done v (some z) ∧ Number.In ⟨z, k, n⟩ v.state.store

/-- a step has failed with a fault of a code -/
def Step.FailsWith (s : Step (Engine τ) Value) (c : Code) : Prop :=
  ∃ v e, s = .fail v e ∧ e.code = some c

/-- a step has ended as an exact result demands under a policy: with the result where the kind
holds it, and else by overflow or wrapping -/
structure Step.Fits (s : Step (Engine τ) Value) (policy : String) (k : Kind) (n : Int) : Prop where
  exact : k.contains n = true → s.Gives k n
  signed : k.contains n = false → k.signed = true → s.FailsWith .signedOverflow
  wraps : k.contains n = false → k.signed = false → policy = warnPolicy ∨ policy = ignorePolicy →
    s.Gives k (n % 2 ^ k.bits)
  unsigned : k.contains n = false → k.signed = false → policy ≠ warnPolicy →
    policy ≠ ignorePolicy → s.FailsWith .unsignedOverflow

theorem gives_not_fails {c : Code} (h : s.Gives k n) : ¬ s.FailsWith c := by
  rintro ⟨v, e, hfail, _⟩
  obtain ⟨u, z, hdone, _⟩ := h
  rw [hdone] at hfail
  cases hfail

theorem fails_unique {c d : Code} (h : s.FailsWith c) (h' : s.FailsWith d) : c = d := by
  obtain ⟨v, e, hs, hc⟩ := h
  obtain ⟨v', e', hs', hd⟩ := h'
  rw [hs] at hs'
  cases hs'
  exact Option.some.inj (hc.symm.trans hd)

theorem Step.Fits.not_divisionByZero (h : s.Fits policy k n) : ¬ s.FailsWith .divisionByZero := by
  intro hzero
  cases hn : k.contains n with
  | true => exact gives_not_fails (h.exact hn) hzero
  | false =>
    cases hs : k.signed with
    | true => exact absurd (fails_unique (h.signed hn hs) hzero) (by decide)
    | false =>
      by_cases hpolicy : policy = warnPolicy ∨ policy = ignorePolicy
      · exact gives_not_fails (h.wraps hn hs hpolicy) hzero
      · have hpolicy := not_or.mp hpolicy
        exact absurd (fails_unique (h.unsigned hn hs hpolicy.1 hpolicy.2) hzero) (by decide)

theorem fails_tryLogged {w : Engine τ} {f : Store → Except Fault (VarId × Store × List Record)}
    {e : Fault} {c : Code} (hf : f w.state.store = .error e) (hc : e.code = some c) :
    Step.FailsWith (Comp.tryLogged f w) c := by
  unfold Comp.tryLogged
  rw [hf]
  exact ⟨w, e, rfl, hc⟩

theorem fits_tryLogged (hk : k.isIntegral = true) (hbool : k ≠ .bool) {w : Engine τ}
    {f : Store → Except Fault (VarId × Store × List Record)}
    (hf : f w.state.store = (fit policy k n).map fun r =>
      ((w.state.store.scalar ⟨k, .int r.1⟩).1, (w.state.store.scalar ⟨k, .int r.1⟩).2, r.2)) :
    Step.Fits (Comp.tryLogged f w) policy k n := by
  have hgives : ∀ (m : Int) (records : List Record), fit policy k n = .ok (m, records) →
      k.contains m = true → Step.Gives (Comp.tryLogged f w) k m := by
    intro m records hfit hm
    unfold Comp.tryLogged
    rw [hf, hfit]
    exact ⟨_, _, rfl, number_fresh _ _ hk hm⟩
  have hfails : ∀ e c, fit policy k n = .error e → e.code = some c →
      Step.FailsWith (Comp.tryLogged f w) c := by
    intro e c hfit hc
    rw [hfit] at hf
    exact fails_tryLogged hf hc
  refine ⟨fun hn => hgives n [] (fit_exact hn) hn, fun hn hs => hfails _ _ (fit_signed hn hs) rfl,
    fun hn hs hpolicy => ?_, fun hn hs hwarn hignore =>
      hfails _ _ (fit_unsigned hn hs hwarn hignore) rfl⟩
  obtain ⟨records, hfit⟩ := fit_wraps hbool hn hs hpolicy
  refine hgives _ records hfit ?_
  rw [← Kind.normalize_unsigned hbool hs hn]
  exact k.contains_normalize n

end Results

theorem dispatchIn_binary {r : Catalog τ} (hr : r.HasOperators) (services : Services (Engine τ))
    (op : Operator) {w : Engine τ} {x y : Number} {k : Kind} (hx : x.In w.state.store)
    (hy : y.In w.state.store) (hkind : k = x.kind.promote y.kind) :
    r.Announces (operatorKey op.symbol) [some x.var, some y.var] (.arith k) w ∧ ∃ v z u,
      r.dispatchIn services globalDomain (operatorKey op.symbol) [] [some x.var, some y.var] w =
        Comp.tryLogged (fun s => s.binary r.config.unsignedOverflow op z u) v ∧
      Number.In ⟨z, k, k.normalize x.value⟩ v.state.store ∧
      Number.In ⟨u, k, k.normalize y.value⟩ v.state.store := by
  subst hkind
  obtain ⟨hk, hbool⟩ := Kind.promote_integral hx.integral hy.integral
  have hcommon : commonKind? [x.kind, y.kind] = some (x.kind.promote y.kind) :=
    congrArg some (Kind.promote_promote x.kind y.kind)
  obtain ⟨⟨o, i⟩, back, hos, ho, _⟩ := List.map_eq_cons_iff.mp (hr.overloads op)
  dsimp only at ho
  have hxs : ∀ z ∈ [x, y], z.In w.state.store :=
    List.forall_mem_cons.mpr ⟨hx, List.forall_mem_singleton.mpr hy⟩
  have htarget : o.target = some (binaryTarget r.config.unsignedOverflow op) := by rw [ho]
  obtain ⟨hannounces, info, v, zs, hcall, hzs⟩ := Catalog.dispatchIn_operator services hxs
    hcommon hk hbool (hos.trans (List.nil_append _).symm) (List.forall_mem_nil _) (by rw [ho]; rfl)
    htarget
  obtain ⟨z, zs', hz, hrest, rfl⟩ := List.forall₂_cons_left_iff.mp hzs
  obtain ⟨u, zs'', hu, hnil, rfl⟩ := List.forall₂_cons_left_iff.mp hrest
  cases hnil
  simp only [List.map_cons, List.map_nil] at hcall hannounces
  exact ⟨hannounces, v, z, u, hcall, hz, hu⟩

theorem dispatchIn_negate {r : Catalog τ} (hr : r.HasOperators) (services : Services (Engine τ))
    {w : Engine τ} {x : Number} {k : Kind} (hx : x.In w.state.store)
    (hkind : k = x.kind.promote x.kind) :
    r.Announces (operatorKey Operator.sub.symbol) [some x.var] (.arith k) w ∧ ∃ v z,
      r.dispatchIn services globalDomain (operatorKey Operator.sub.symbol) [] [some x.var] w =
        Comp.tryLogged (fun s => s.negate r.config.unsignedOverflow z) v ∧
      Number.In ⟨z, k, k.normalize x.value⟩ v.state.store := by
  subst hkind
  obtain ⟨hk, hbool⟩ := Kind.promote_integral hx.integral hx.integral
  obtain ⟨⟨o₁, i₁⟩, os, hos, ho₁, hos'⟩ := List.map_eq_cons_iff.mp (hr.overloads .sub)
  obtain ⟨⟨o, i⟩, back, rfl, ho, _⟩ := List.map_eq_cons_iff.mp hos'
  dsimp only at ho₁ ho
  have hxs : ∀ z ∈ [x], z.In w.state.store := List.forall_mem_singleton.mpr hx
  have htarget : o.target = some (unaryTarget r.config.unsignedOverflow) := by rw [ho]
  have hfront : ∀ f ∈ [(o₁, i₁)], ∃ src n, f.1.signature = operatorForm src n ∧
      [x].length ≠ n :=
    List.forall_mem_singleton.mpr ⟨_, 2, by rw [ho₁]; rfl, by show 1 ≠ 2; decide⟩
  obtain ⟨hannounces, info, v, zs, hcall, hzs⟩ := Catalog.dispatchIn_operator services
    (k := x.kind.promote x.kind) hxs rfl hk hbool hos hfront (by rw [ho]; rfl) htarget
  obtain ⟨z, zs', hz, hnil, rfl⟩ := List.forall₂_cons_left_iff.mp hzs
  cases hnil
  simp only [List.map_cons, List.map_nil] at hcall hannounces
  exact ⟨hannounces, v, z, hcall, hz⟩

/-- a call of a binary operator ends as its exact result demands, unless it divides by zero -/
theorem fits_binary {r : Catalog τ} (hr : r.HasOperators) (services : Services (Engine τ))
    (op : Operator) {w : Engine τ} {x y : Number} {k : Kind} (hx : x.In w.state.store)
    (hy : y.In w.state.store) (hkind : k = x.kind.promote y.kind) {call : Step (Engine τ) Value}
    (hcall : call = r.dispatchIn services globalDomain (operatorKey op.symbol) []
      [some x.var, some y.var] w) :
    (call.FailsWith .divisionByZero ↔ op.divides = true ∧ k.normalize y.value = 0) ∧
      (¬ (op.divides = true ∧ k.normalize y.value = 0) → call.Fits r.config.unsignedOverflow k
        (op.onInt (k.normalize x.value) (k.normalize y.value))) := by
  obtain ⟨hk, hbool⟩ := Kind.promote_integral hx.integral hy.integral
  rw [← hkind] at hk hbool
  obtain ⟨-, v, z, u, hdispatch, hz, hu⟩ := dispatchIn_binary hr services op hx hy hkind
  have hbinary := binary_numbers r.config.unsignedOverflow op hz hu rfl hbool
  rw [hcall, hdispatch]
  by_cases hzero : op.divides = true ∧ k.normalize y.value = 0
  · rw [if_pos hzero] at hbinary
    have hfails := fails_tryLogged (c := .divisionByZero)
      (f := fun s => s.binary r.config.unsignedOverflow op z u) hbinary rfl
    exact ⟨⟨fun _ => hzero, fun _ => hfails⟩, fun h => absurd hzero h⟩
  · rw [if_neg hzero] at hbinary
    have hfits := fits_tryLogged (f := fun s => s.binary r.config.unsignedOverflow op z u)
      hk hbool hbinary
    exact ⟨⟨fun h => absurd h hfits.not_divisionByZero, fun h => absurd h hzero⟩, fun _ => hfits⟩

/-- **Operators compute** on integers of any two integral kinds, in their common kind: a division
by zero is a fault, and so is a result out of range, unless the kind is unsigned and the policy
lets it wrap.  Quotients are truncated toward zero, and remainders have the sign of what is divided.
The kind is the one that the resolution of the call announces. -/
theorem operators_compute {r : Catalog τ} (hr : r.HasOperators) (services : Services (Engine τ))
    {w : Engine τ} {x y : Number} (hx : x.In w.state.store) (hy : y.In w.state.store) :
    (let k := x.kind.promote y.kind
     let a := k.normalize x.value
     let b := k.normalize y.value
     let policy := r.config.unsignedOverflow
     let call (name : String) :=
        r.dispatchIn services globalDomain name [] [some x.var, some y.var] w
     (∀ name ∈ ["o(+)", "o(-)", "o(*)", "o(/)", "o(%)"],
        r.Announces name [some x.var, some y.var] (.arith k) w ∧
        ((call name).FailsWith .divisionByZero ↔ (name = "o(/)" ∨ name = "o(%)") ∧ b = 0)) ∧
      (call "o(+)").Fits policy k (a + b) ∧
      (call "o(-)").Fits policy k (a - b) ∧
      (call "o(*)").Fits policy k (a * b) ∧
      (b ≠ 0 → (call "o(/)").Fits policy k (a.tdiv b)) ∧
      (b ≠ 0 → (call "o(%)").Fits policy k (a.tmod b))) ∧
    (let k := x.kind.promote x.kind
     let a := k.normalize x.value
     let call := r.dispatchIn services globalDomain "o(-)" [] [some x.var] w
     r.Announces "o(-)" [some x.var] (.arith k) w ∧
      call.Fits r.config.unsignedOverflow k (-a)) := by
  refine ⟨?_, ?_⟩
  · intro k a b policy call
    have hfits : ∀ op : Operator, ¬ (op.divides = true ∧ b = 0) →
        (call (operatorKey op.symbol)).Fits policy k (op.onInt a b) :=
      fun op => (fits_binary hr services op hx hy (k := k) rfl rfl).2
    have hnames : ∀ name ∈ ["o(+)", "o(-)", "o(*)", "o(/)", "o(%)"],
        ∃ op : Operator, name = operatorKey op.symbol ∧
          (op.divides = true ↔ name = "o(/)" ∨ name = "o(%)") := by
      simp only [List.forall_mem_cons]
      exact ⟨⟨.add, by decide⟩, ⟨.sub, by decide⟩, ⟨.mul, by decide⟩, ⟨.div, by decide⟩,
        ⟨.mod, by decide⟩, List.forall_mem_nil _⟩
    have hexact : ∀ op : Operator, op.divides = false →
        (call (operatorKey op.symbol)).Fits policy k (op.onInt a b) :=
      fun op hop => hfits op fun h => absurd (hop.symm.trans h.1) Bool.false_ne_true
    refine ⟨fun name hname => ?_, hexact .add rfl, hexact .sub rfl, hexact .mul rfl,
      fun hb => hfits .div fun h => hb h.2, fun hb => hfits .mod fun h => hb h.2⟩
    obtain ⟨op, rfl, hdivides⟩ := hnames name hname
    rw [← hdivides]
    exact ⟨(dispatchIn_binary hr services op hx hy rfl).1,
      (fits_binary hr services op hx hy (k := k) rfl rfl).1⟩
  · intro k a call
    obtain ⟨hk, hbool⟩ := Kind.promote_integral hx.integral hx.integral
    obtain ⟨hannounces, v, z, hcall, hz⟩ := dispatchIn_negate (k := k) hr services hx rfl
    have hnegate := negate_number r.config.unsignedOverflow hz hbool
    refine ⟨hannounces, ?_⟩
    rw [show call = _ from hcall]
    exact fits_tryLogged hk hbool hnegate

theorem exists_operators : ∃ r : Catalog Unit, r.HasOperators := by
  obtain ⟨r, _, hnew⟩ := Catalog.exists_new Unit
  obtain ⟨_, _, _, hnone⟩ := Catalog.new_spec hnew
  have hfresh : ∀ op : Operator, r.overloadsOf globalDomain (operatorKey op.symbol) = [] :=
    fun op => hnone _ _ (by cases op <;> decide)
  have hpair : ∀ x : (Catalog Unit × List Record) × Option Fault, x.2 = none →
      x = ((x.1.1, x.1.2), none) := by
    rintro ⟨⟨_, _⟩, _⟩ rfl
    rfl
  have hdeclare := hpair _ (Catalog.declareOperators_fresh hfresh).1
  have hconfig := r.config_declareAll (Catalog.operators r.config.unsignedOverflow)
  exact ⟨_, r, _, _, hconfig.symm, hfresh, hdeclare, fun _ => rfl⟩

/-- a world with the least 32-bit integer, minus one, 7 and -2 in narrower kinds, and 10 without
sign -/
def integerWorld : Engine Unit :=
  let s := (Store.empty.temp (.arith .i32) (.int (-2147483648))).2
  let s := (s.temp (.arith .i32) (.int (-1))).2
  let s := (s.temp (.arith .i16) (.int 7)).2
  let s := (s.temp (.arith .i8) (.int (-2))).2
  World.new ⟨(s.temp (.arith .u32) (.int 10)).2, ()⟩

/-- 7 and -2 give 5, 9, -14, -3 and 1 in 32 bits, and -7 is the opposite of 7.  Beside an unsigned
integer minus one is the greatest.  The least integer, divided by minus one, overflows. -/
theorem operators_compute_integers : ∃ r : Catalog Unit, r.HasOperators ∧
    (∀ x ∈ [⟨0, .i32, -2147483648⟩, ⟨1, .i32, -1⟩, ⟨2, .i16, 7⟩, ⟨3, .i8, -2⟩,
      (⟨4, .u32, 10⟩ : Number)], x.In integerWorld.state.store) ∧
    r.Announces "o(/)" [some 2, some 3] (.arith .i32) integerWorld ∧
    (∀ p ∈ [("o(+)", 5), ("o(-)", 9), ("o(*)", -14), ("o(/)", -3), ("o(%)", 1)],
      (r.dispatchIn (r.services 0) globalDomain p.1 [] [some 2, some 3] integerWorld).Gives
        .i32 p.2) ∧
    (r.dispatchIn (r.services 0) globalDomain "o(-)" [] [some 2] integerWorld).Gives .i32 (-7) ∧
    (r.dispatchIn (r.services 0) globalDomain "o(%)" [] [some 1, some 4] integerWorld).Gives
      .u32 5 ∧
    (r.dispatchIn (r.services 0) globalDomain "o(/)" [] [some 0, some 1] integerWorld).FailsWith
      .signedOverflow := by
  obtain ⟨r, hr⟩ := exists_operators
  have hleast : Number.In ⟨0, .i32, -2147483648⟩ integerWorld.state.store :=
    ⟨rfl, rfl, rfl, by decide⟩
  have hminus : Number.In ⟨1, .i32, -1⟩ integerWorld.state.store := ⟨rfl, rfl, rfl, by decide⟩
  have hseven : Number.In ⟨2, .i16, 7⟩ integerWorld.state.store := ⟨rfl, rfl, rfl, by decide⟩
  have htwo : Number.In ⟨3, .i8, -2⟩ integerWorld.state.store := ⟨rfl, rfl, rfl, by decide⟩
  have hten : Number.In ⟨4, .u32, 10⟩ integerWorld.state.store := ⟨rfl, rfl, rfl, by decide⟩
  obtain ⟨⟨hnames, hadd, hsub, hmul, hdiv, hmod⟩, -, hnegate⟩ :=
    operators_compute hr (r.services 0) hseven htwo
  obtain ⟨⟨-, -, -, -, -, hmixed⟩, -⟩ := operators_compute hr (r.services 0) hminus hten
  obtain ⟨⟨-, -, -, -, hover, -⟩, -⟩ := operators_compute hr (r.services 0) hleast hminus
  refine ⟨r, hr, ?_, (hnames "o(/)" (by decide)).1, ?_, hnegate.exact (by decide),
    (hmixed (by decide)).exact (by decide), (hover (by decide)).signed (by decide) (by decide)⟩
  · simpa using ⟨hleast, hminus, hseven, htwo, hten⟩
  · simp only [List.forall_mem_cons]
    exact ⟨hadd.exact (by decide), hsub.exact (by decide), hmul.exact (by decide),
      (hdiv (by decide)).exact (by decide), (hmod (by decide)).exact (by decide),
      List.forall_mem_nil _⟩

end Overloading
