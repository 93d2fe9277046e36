import Overloading.Proofs.Instantiation
import Overloading.Proofs.Promotion

/-!
# The common kind of a group

The kinds arithmetic takes place in form a ladder, `I32 < U32 < I64 < U64 < F32 < F64`.  Two
operands meet in the higher of their kinds, once nothing narrower than 32 bits is left, and the
fold over a group meets in the highest of all of them.  So neither the order of the arguments nor
the references they are passed by have a say in what the wildcard of a group is bound to.

* `Kind.rank_promote`         two operands meet in the higher kind;
* `Kind.isJoin_commonKind`    a group meets in the highest one;
* `isOperand_of_yield`        a parameter `?0` or `CLREF ?0` is an operand of its wildcard;
* `group_promotion`           the plan of a call whose parameters are all one arithmetic wildcard.
-/

namespace Overloading

open Grammar

/-! ## The ladder -/

namespace Kind

/-- the kinds arithmetic takes place in, the lowest first -/
def ladder : List Kind := [i32, u32, i64, u64, f32, f64]

/-- the place of a kind on the ladder -/
def rank (k : Kind) : Nat := ladder.idxOf k

theorem operandKind_mem_ladder (k : Kind) : k.operandKind ∈ ladder := by cases k <;> decide

theorem operandKind_of_mem {k : Kind} (h : k ∈ ladder) : k.operandKind = k := by
  have hall : ∀ k ∈ ladder, k.operandKind = k := by decide
  exact hall k h

theorem operandKind_operandKind (k : Kind) : k.operandKind.operandKind = k.operandKind :=
  operandKind_of_mem (operandKind_mem_ladder k)

theorem promote_self (k : Kind) : k.promote k = k.operandKind := by cases k <;> decide

theorem promote_choice (a b : Kind) :
    a.promote b = a.operandKind ∨ a.promote b = b.operandKind := by
  have hall : ∀ a ∈ all, ∀ b ∈ all,
      a.promote b = a.operandKind ∨ a.promote b = b.operandKind := by decide
  exact hall a (mem_all a) b (mem_all b)

theorem operandKind_promote (a b : Kind) : (a.promote b).operandKind = a.promote b := by
  rcases promote_choice a b with h | h <;> rw [h, operandKind_operandKind]

/-- two operands meet in the higher of their kinds -/
theorem rank_promote (a b : Kind) :
    (a.promote b).rank = max a.operandKind.rank b.operandKind.rank := by
  have hall : ∀ a ∈ all, ∀ b ∈ all,
      (a.promote b).rank = max a.operandKind.rank b.operandKind.rank := by decide
  exact hall a (mem_all a) b (mem_all b)

/-- the highest of the kinds of some operands -/
structure IsJoin (kinds : List Kind) (k : Kind) : Prop where
  mem : k ∈ kinds.map operandKind
  bound : ∀ j ∈ kinds, j.operandKind.rank ≤ k.rank

variable {kinds kinds' : List Kind} {k k' : Kind}

theorem IsJoin.perm (h : IsJoin kinds k) (hp : kinds.Perm kinds') : IsJoin kinds' k :=
  ⟨(hp.map operandKind).mem_iff.mp h.mem, fun j hj => h.bound j (hp.mem_iff.mpr hj)⟩

theorem IsJoin.mem_ladder (h : IsJoin kinds k) : k ∈ ladder := by
  obtain ⟨j, _, rfl⟩ := List.mem_map.mp h.mem
  exact operandKind_mem_ladder j

theorem IsJoin.unique (h : IsJoin kinds k) (h' : IsJoin kinds k') : k = k' := by
  -- each of the two is the kind of some operand, so each bounds the other
  have hle : ∀ {a b : Kind}, IsJoin kinds a → IsJoin kinds b → a.rank ≤ b.rank := by
    intro a b ha hb
    obtain ⟨j, hj, rfl⟩ := List.mem_map.mp ha.mem
    exact hb.bound j hj
  exact (List.idxOf_inj h.mem_ladder).mp (Nat.le_antisymm (hle h h') (hle h' h))

theorem isJoin_foldl (kinds : List Kind) {a : Kind} (ha : a.operandKind = a) :
    IsJoin (a :: kinds) (kinds.foldl promote a) := by
  induction kinds generalizing a with
  | nil => exact ⟨by simp [ha], by simp [ha]⟩
  | cons b kinds ih =>
    obtain ⟨hmem, hbound⟩ := ih (operandKind_promote a b)
    have hmeet : max a.operandKind.rank b.operandKind.rank ≤
        (kinds.foldl promote (a.promote b)).rank := by
      have h := hbound _ List.mem_cons_self
      rw [operandKind_promote, rank_promote] at h
      exact h
    refine ⟨?_, fun j hj => ?_⟩
    · rw [List.foldl_cons, List.map_cons, List.map_cons]
      rcases List.mem_cons.mp hmem with h | h
      · rw [h, operandKind_promote]
        rcases promote_choice a b with e | e <;> simp [e]
      · exact List.mem_cons_of_mem _ (List.mem_cons_of_mem _ h)
    · rcases List.mem_cons.mp hj with rfl | hj
      · exact le_trans (le_max_left _ _) hmeet
      rcases List.mem_cons.mp hj with rfl | hj
      · exact le_trans (le_max_right _ _) hmeet
      · exact hbound j (List.mem_cons_of_mem _ hj)

theorem isJoin_commonKind (h : commonKind? kinds = some k) : IsJoin kinds k := by
  cases kinds with
  | nil => cases h
  | cons j kinds =>
    rw [commonKind?, List.foldl_cons, promote_self] at h
    obtain rfl := Option.some.inj h
    obtain ⟨hmem, hbound⟩ := isJoin_foldl kinds (operandKind_operandKind j)
    rw [List.map_cons, operandKind_operandKind] at hmem
    refine ⟨hmem, fun i hi => ?_⟩
    rcases List.mem_cons.mp hi with rfl | hi
    · have h := hbound _ List.mem_cons_self
      rw [operandKind_operandKind] at h
      exact h
    · exact hbound i (List.mem_cons_of_mem _ hi)

theorem exists_commonKind (h : kinds ≠ []) : ∃ k, commonKind? kinds = some k := by
  obtain ⟨j, kinds, rfl⟩ := List.exists_cons_of_ne_nil h
  exact ⟨_, rfl⟩

theorem commonKind?_perm (h : kinds.Perm kinds') : commonKind? kinds = commonKind? kinds' := by
  cases kinds with
  | nil => rw [List.nil_perm.mp h]
  | cons j kinds =>
    obtain ⟨k, hk⟩ := exists_commonKind (List.cons_ne_nil j kinds)
    have hne : kinds' ≠ [] := by
      rintro rfl
      exact List.cons_ne_nil j kinds (List.perm_nil.mp h)
    obtain ⟨k', hk'⟩ := exists_commonKind hne
    rw [hk, hk', ((isJoin_commonKind hk).perm h).unique (isJoin_commonKind hk')]

end Kind

/-! ## Operands -/

/-- the tokens of a parameter that is an arithmetic wildcard and nothing else -/
def operandTokens (id : Nat) : Ref → List Token
  | .none => [⟨Symbol.arithmetic, some id⟩]
  | .mutable => [⟨Keyword.lref, none⟩, ⟨Symbol.arithmetic, some id⟩]
  | .constant => [⟨Keyword.clref, none⟩, ⟨Symbol.arithmetic, some id⟩]

def operandParam (id : Nat) (ref : Ref) : Tree :=
  let obj := Tree.branch Symbol.object 0 [.head Symbol.arithmetic 11 ⟨Symbol.arithmetic, some id⟩]
  match ref with
  | .none => .branch Symbol.paramObject 0 [obj]
  | .mutable => .branch Symbol.paramObject 2 [.leaf Keyword.lref ⟨Keyword.lref, none⟩, obj]
  | .constant => .branch Symbol.paramObject 3 [.leaf Keyword.clref ⟨Keyword.clref, none⟩, obj]

theorem derives_operandParam (id : Nat) (ref : Ref) :
    (operandParam id ref).Formed ∧ (operandParam id ref).symbol = Symbol.paramObject ∧
      (operandParam id ref).yield = operandTokens id ref := by
  have hhead : (Tree.head Symbol.arithmetic 11 ⟨Symbol.arithmetic, some id⟩).Formed :=
    formed_head.mpr ⟨by decide, by decide, rfl⟩
  have hobject : (Tree.branch Symbol.object 0
      [.head Symbol.arithmetic 11 ⟨Symbol.arithmetic, some id⟩]).Formed :=
    formed_single rfl hhead
  cases ref with
  | none => exact ⟨formed_single rfl hobject, rfl, rfl⟩
  | mutable =>
    have hmark := (spells_keyword (k := Keyword.lref) (by decide)).formed
    exact ⟨formed_branch.mpr ⟨rfl, by simpa using ⟨hmark, hobject⟩⟩, rfl, rfl⟩
  | constant =>
    have hmark := (spells_keyword (k := Keyword.clref) (by decide)).formed
    exact ⟨formed_branch.mpr ⟨rfl, by simpa using ⟨hmark, hobject⟩⟩, rfl, rfl⟩

theorem isOperand_operandParam (id : Nat) {ref : Ref} (href : ref ≠ .mutable) :
    (operandParam id ref).IsOperand id ref := by
  cases ref with
  | mutable => exact absurd rfl href
  | none =>
    have hsplit : (operandParam id .none).splitRef = (.none, operandParam id .none) :=
      splitRef_single _ _ _
    exact ⟨rfl, congrArg Prod.fst hsplit, href, (congrArg (·.2.bareArithmetic?) hsplit).trans rfl⟩
  | constant => exact ⟨rfl, rfl, href, rfl⟩

/-- a parameter written as a wildcard is an operand of it: there is no other tree over its
tokens -/
theorem isOperand_of_yield {id : Nat} {ref : Ref} {q : Tree} (hq : q.Formed)
    (hs : q.symbol = Symbol.paramObject) (href : ref ≠ .mutable)
    (hy : q.yield = operandTokens id ref) : q.IsOperand id ref := by
  obtain ⟨hf, hs', hy'⟩ := derives_operandParam id ref
  have heq : q = operandParam id ref :=
    derives_unique compiled_signature (by decide) ⟨hq, hs, hy⟩ ⟨hf, hs', hy'⟩
  rw [heq]
  exact isOperand_operandParam id href

theorem operands_of_yields {id : Nat} {refs : List Ref} {qs : List Tree}
    (hqs : ∀ q ∈ qs, q.Formed ∧ q.symbol = Symbol.paramObject) (hrefs : .mutable ∉ refs)
    (hy : qs.map Tree.yield = refs.map (operandTokens id)) :
    List.Forall₂ (fun ref q => q.IsOperand id ref) refs qs := by
  induction refs generalizing qs with
  | nil =>
    obtain rfl : qs = [] := List.map_eq_nil_iff.mp hy
    exact .nil
  | cons ref refs ih =>
    obtain ⟨q, qs, rfl, hq, hrest⟩ := List.map_eq_cons_iff.mp hy
    obtain ⟨hform, hforms⟩ := List.forall_mem_cons.mp hqs
    obtain ⟨hne, hnot⟩ := List.ne_and_not_mem_of_not_mem_cons hrefs
    exact .cons (isOperand_of_yield hform.1 hform.2 (Ne.symm hne) hq) (ih hforms hnot hrest)

theorem exists_returnTree_of_isFunction {start : Symbol} {s : Signature}
    (h : s.CompiledFrom start) (hfun : s.isFunction = true) : ∃ r, s.returnTree? = some r := by
  have hform := hfun
  unfold Signature.isFunction Tree.isFunctionForm at hform
  split at hform
  · next sym i cs heq =>
    obtain rfl : sym = Symbol.function := by simpa using hform
    have hformed := Tree.formed_unwrap h.formed
    rw [heq] at hformed
    obtain ⟨body, hbody, hcs⟩ := children_of_formed hformed
    cases List.mem_singleton.mp hbody
    obtain _ | ⟨_, _ | @⟨_, c, _, _, _, _⟩⟩ := hcs
    refine ⟨c, ?_⟩
    unfold Signature.returnTree?
    rw [if_pos hfun, heq]
    rfl
  · cases hform

/-- with one wildcard bound to a kind, the return is instantiated whenever nothing else is open -/
theorem instantiate_operands (ret : Tree) (id : Nat) (k : Kind) :
    instantiate ret [(id, Binding.ofTexts [k.token])] =
      ret.substitute fun j => List.lookup j [(id, [k.token])] := by
  have hclosed : ∀ j, Bindings.isOpen [(id, Binding.ofTexts [k.token])] j = false := by
    intro j
    rw [Bindings.isOpen, Bindings.get?, List.lookup_cons]
    cases j == id with
    | true => exact Binding.isOpen_ofTexts [k.token]
    | false => rfl
  have htexts : (fun j => List.lookup j [(id, [k.token])]) =
      Bindings.texts? [(id, Binding.ofTexts [k.token])] :=
    funext fun j => Bindings.lookup_toTexts [(id, Binding.ofTexts [k.token])] j
  have hnone : ¬ (ret.heads.any fun h =>
      (h.2.map (Bindings.isOpen [(id, Binding.ofTexts [k.token])])).getD false) = true := by
    intro h
    obtain ⟨⟨kind, number⟩, _, hx⟩ := List.any_eq_true.mp h
    cases number with
    | none => cases hx
    | some j => exact absurd hx (by simp [hclosed j])
  rw [instantiate, if_neg hnone, htexts]

/-! ## Calls -/

/-- a match in which operands of some kinds, for parameters passed in some ways, meet in a kind:
their wildcard is bound to it, and an operand is cast if and only if it is of another kind -/
structure Match.Meets (r : Match) (id : Nat) (refs : List Ref) (kinds : List Kind) (k : Kind) :
    Prop where
  bindings_eq : r.bindings = [(id, [k.token])]
  length_eq : r.transfers.length = kinds.length
  passed : ∀ (i : Nat) (ref : Ref) (j : Kind) (tr : Transfer), refs[i]? = some ref →
    kinds[i]? = some j → r.transfers[i]? = some tr →
      (tr = .numeric (.arith k) ↔ j ≠ k) ∧
        (j = k → tr = if ref = .constant then .borrow else .clone)

theorem passPromoted_spec (ref : Ref) (j k : Kind) :
    (passPromoted ref j k = .numeric (.arith k) ↔ j ≠ k) ∧
      (j = k → passPromoted ref j k = if ref = .constant then .borrow else .clone) := by
  unfold passPromoted
  by_cases h : j = k
  · rw [if_pos h]
    refine ⟨⟨fun e => ?_, fun hne => absurd h hne⟩, fun _ => rfl⟩
    split at e <;> cases e
  · rw [if_neg h]
    exact ⟨⟨fun _ => h, fun _ => rfl⟩, fun e => absurd e h⟩

theorem admits_group (m : CastRules) {src : List String} {start : Symbol} {strict strict' : Bool}
    {sup call : Signature} {id : Nat} {refs : List Ref} {args : List Arg} {kinds : List Kind}
    {k : Kind} {ret : Tree} (hstart : start ∈ signatureWildcards)
    (hsup : signature.compile src start strict = .ok sup) (hrefs : .mutable ∉ refs)
    (hparams : sup.params.map Tree.yield = refs.map (operandTokens id))
    (hkinds : args.map Arg.type = kinds.map Ty.arith) (hlen : kinds.length = refs.length)
    (hk : commonKind? kinds = some k) (hfun : sup.isFunction = true)
    (hret : sup.returnTree? = some ret)
    (hcall : signature.compile (openCallForm args) Symbol.function strict' = .ok call) :
    ∃ r, m.admits call sup [] = .ok (some r) ∧ r.Meets id refs kinds k ∧
      r.returns = ret.substitute fun j => r.bindings.lookup j := by
  have hfst : (refs.zip kinds).map Prod.fst = refs := List.map_fst_zip (Nat.le_of_eq hlen.symm)
  have hsnd : (refs.zip kinds).map Prod.snd = kinds := List.map_snd_zip (Nat.le_of_eq hlen)
  have hoperands : List.Forall₂ (fun x q => q.IsOperand id x.1) (refs.zip kinds) sup.params := by
    have h := operands_of_yields (fun q hq => by
      have hformal := isFormal_of_mem_params (compiledFrom_of_compile hstart hsup) hq
      exact ⟨hformal.formed, hformal.symbol_eq⟩) hrefs hparams
    rw [← hfst] at h
    exact List.forall₂_map_left_iff.mp h
  have hops : args.map Arg.type = (refs.zip kinds).map fun x => Ty.arith x.2 := by
    rw [hkinds]
    conv_lhs => rw [← hsnd]
    exact List.map_map
  have h := admits_operands m hops (by rw [hsnd]; exact hk) hcall hfun hret hoperands
  refine ⟨_, h, ⟨rfl, ?_, fun i ref j tr href hj htr => ?_⟩, instantiate_operands ret id k⟩
  · rw [List.length_map, List.length_zip, hlen, Nat.min_self]
  · have hzip : (refs.zip kinds)[i]? = some (ref, j) :=
      List.getElem?_zip_eq_some.mpr ⟨href, hj⟩
    rw [List.getElem?_map, hzip] at htr
    obtain rfl := Option.some.inj htr
    exact passPromoted_spec ref j k

theorem exists_kinds_of_perm {types : List Ty} {kinds : List Kind}
    (h : types.Perm (kinds.map Ty.arith)) :
    ∃ kinds' : List Kind, kinds'.Perm kinds ∧ types = kinds'.map Ty.arith := by
  have hkinds : List.Forall₂ (fun t k => t = Ty.arith k) (kinds.map Ty.arith) kinds :=
    List.forall₂_map_left_iff.mpr (List.forall₂_same.mpr fun _ _ => rfl)
  obtain ⟨kinds', htypes, hperm⟩ := List.perm_comp_forall₂ h hkinds
  refine ⟨kinds', hperm, ?_⟩
  rw [← List.forall₂_eq_eq_eq]
  exact List.forall₂_map_right_iff.mpr htypes

/-- **A group meets in its highest kind**: a declaration each of whose parameters is one and the
same arithmetic wildcard, by value or by constant reference, admits every call of so many
arithmetic arguments, however they are passed, and binds the wildcard to the highest of their
promoted kinds.  An argument is converted if and only if it is of another kind, and is borrowed or
cloned otherwise; arguments of the same types in another order give the same binding and the same
return. -/
theorem group_promotion (m : CastRules) {src : List String} {start : Symbol} {strict : Bool}
    {sup : Signature} {id : Nat} {refs : List Ref} {args : List Arg} {kinds : List Kind}
    (strict' : Bool) (hstart : start ∈ signatureWildcards)
    (hsup : signature.compile src start strict = .ok sup) (hne : refs ≠ [])
    (hrefs : .mutable ∉ refs)
    (hparams : sup.params.map Tree.yield = refs.map (operandTokens id))
    (hkinds : args.map Arg.type = kinds.map Ty.arith) (hlen : args.length = refs.length) :
    ∃ call r k ret,
      signature.compile (openCallForm args) Symbol.function strict' = .ok call ∧
      m.admits call sup [] = .ok (some r) ∧ Kind.IsJoin kinds k ∧ r.Meets id refs kinds k ∧
      sup.returnTree? = some ret ∧ r.returns = ret.substitute (fun j => r.bindings.lookup j) ∧
      ∀ args' : List Arg, (args'.map Arg.type).Perm (args.map Arg.type) →
        ∃ call' r', signature.compile (openCallForm args') Symbol.function strict' = .ok call' ∧
          m.admits call' sup [] = .ok (some r') ∧ r'.bindings = r.bindings ∧
          r'.returns = r.returns := by
  have hfun : sup.isFunction = true := by
    obtain ⟨ref, rest, hcons⟩ := List.exists_cons_of_ne_nil hne
    rw [hcons, List.map_cons] at hparams
    obtain ⟨q, qs, hq, -⟩ := List.map_eq_cons_iff.mp hparams
    exact isFunction_of_mem_params (hq ▸ List.mem_cons_self)
  obtain ⟨ret, hret⟩ :=
    exists_returnTree_of_isFunction (compiledFrom_of_compile hstart hsup) hfun
  have hcount : kinds.length = refs.length := by
    rw [← hlen]
    simpa using (congrArg List.length hkinds).symm
  have hnonempty : kinds ≠ [] := by
    rintro rfl
    exact hne (List.length_eq_zero_iff.mp hcount.symm)
  obtain ⟨k, hk⟩ := Kind.exists_commonKind hnonempty
  have hplan : ∀ (args' : List Arg) (kinds' : List Kind), kinds'.Perm kinds →
      args'.map Arg.type = kinds'.map Ty.arith → ∃ call r,
        signature.compile (openCallForm args') Symbol.function strict' = .ok call ∧
        m.admits call sup [] = .ok (some r) ∧ r.Meets id refs kinds' k ∧
        r.returns = ret.substitute fun j => r.bindings.lookup j := by
    intro args' kinds' hperm hkinds'
    obtain ⟨call, hcall⟩ := compile_open strict' (wellFormed_of_arith hkinds') (fun a ha hv => by
      obtain ⟨j, _, hj⟩ := List.mem_map.mp (hkinds' ▸ List.mem_map_of_mem ha)
      rw [hv] at hj
      cases hj)
    obtain ⟨r, hr⟩ := admits_group m hstart hsup hrefs hparams hkinds'
      (hperm.length_eq.trans hcount) ((Kind.commonKind?_perm hperm).trans hk) hfun hret hcall
    exact ⟨call, r, hcall, hr⟩
  obtain ⟨call, r, hcall, hadmits, hmeets, hreturns⟩ := hplan args kinds (.refl _) hkinds
  refine ⟨call, r, k, ret, hcall, hadmits, Kind.isJoin_commonKind hk, hmeets, hret, hreturns,
    fun args' hargs' => ?_⟩
  rw [hkinds] at hargs'
  obtain ⟨kinds', hperm, hkinds'⟩ := exists_kinds_of_perm hargs'
  obtain ⟨call', r', hcall', hadmits', hmeets', hreturns'⟩ := hplan args' kinds' hperm hkinds'
  have hbindings : r'.bindings = r.bindings := by rw [hmeets'.bindings_eq, hmeets.bindings_eq]
  exact ⟨call', r', hcall', hadmits', hbindings, by rw [hreturns', hreturns, hbindings]⟩

/-- `!Arithmetic FUNCTION ?0 ( ?0 CLREF ?0 ?0 )` called with an `I8` lvalue, an `I64` and a `U32`,
in this order and in another one -/
theorem group_promotion_mixed :
    ∃ sup call call' r r', signature.compile
        ["!Arithmetic", "FUNCTION", "?0", "(", "?0", "CLREF", "?0", "?0", ")"] Symbol.function
        true = .ok sup ∧
      signature.compile
        (openCallForm [⟨.arith .i8, .mutable⟩, ⟨.arith .i64, .none⟩, ⟨.arith .u32, .constant⟩])
        Symbol.function false = .ok call ∧
      CastRules.admits ⟨none, []⟩ call sup [] = .ok (some r) ∧
      r.Meets 0 [.none, .constant, .none] [.i8, .i64, .u32] .i64 ∧ r.returns = some ["I64"] ∧
      signature.compile
        (openCallForm [⟨.arith .i64, .none⟩, ⟨.arith .u32, .constant⟩, ⟨.arith .i8, .mutable⟩])
        Symbol.function false = .ok call' ∧
      CastRules.admits ⟨none, []⟩ call' sup [] = .ok (some r') ∧
      r'.bindings = [(0, ["I64"])] ∧ r'.returns = some ["I64"] := by
  have hps : ∀ p ∈ [operandParam 0 .none, operandParam 0 .constant, operandParam 0 .none],
      p.Formed ∧ p.symbol = Symbol.paramObject := by
    have hall : ∀ ref, (operandParam 0 ref).Formed ∧
        (operandParam 0 ref).symbol = Symbol.paramObject := fun ref =>
      ⟨(derives_operandParam 0 ref).1, (derives_operandParam 0 ref).2.1⟩
    simp [hall]
  have hpre : signature.prepareBody
      ["!Arithmetic", "FUNCTION", "?0", "(", "?0", "CLREF", "?0", "?0", ")"] true =
        .ok ⟨[Symbol.arithmetic], formTokens [⟨Symbol.arithmetic, some 0⟩]
          ([operandParam 0 .none, operandParam 0 .constant, operandParam 0 .none].map
            Tree.yield)⟩ :=
    prepareBody_signature (by rintro ⟨_, _, _, _, _, _, _⟩ rfl; rfl)
  have hsup := compile_operandForm hps hpre
  have hkinds : [(⟨.arith .i8, .mutable⟩ : Arg), ⟨.arith .i64, .none⟩,
      ⟨.arith .u32, .constant⟩].map Arg.type = [Kind.i8, .i64, .u32].map Ty.arith := rfl
  have hrefs : Ref.mutable ∉ [Ref.none, .constant, .none] := by decide
  obtain ⟨call, r, k, ret, hcall, hadmits, hjoin, hmeets, hret, hreturns, hperm⟩ :=
    group_promotion ⟨none, []⟩ false (by decide) hsup (List.cons_ne_nil _ _) hrefs
      (show _ = List.map (operandTokens 0) _ from rfl) hkinds rfl
  obtain rfl : k = .i64 := hjoin.unique ⟨by decide, by decide⟩
  cases hret
  rw [hmeets.bindings_eq] at hreturns
  have hturned : [Ty.arith .i64, .arith .u32, .arith .i8].Perm
      [Ty.arith .i8, .arith .i64, .arith .u32] :=
    List.perm_append_singleton (Ty.arith .i8) [Ty.arith .i64, .arith .u32]
  obtain ⟨call', r', hcall', hadmits', hbindings, hreturns'⟩ :=
    hperm [⟨.arith .i64, .none⟩, ⟨.arith .u32, .constant⟩, ⟨.arith .i8, .mutable⟩] hturned
  exact ⟨_, call, call', r, r', hsup, hcall, hadmits, hmeets, hreturns, hcall', hadmits',
    hbindings.trans hmeets.bindings_eq, hreturns'.trans hreturns⟩

end Overloading
