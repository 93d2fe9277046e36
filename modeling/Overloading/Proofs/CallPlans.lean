import Overloading.Proofs.CallTrees
import Overloading.Proofs.Unification

/-!
# Plans are sound

A planned call passes every argument in a way its parameter allows, judged by the bindings the
plan ends with and not by those it had when the argument was looked at.

* `CastClosed.castWith`   induction on what a cast plans;
* `target_of_cast`    a cast makes the type it was asked for;
* `Arg.Reaches`       the ways an argument may reach a parameter;
* `Drafted`           what the draft of one argument promises.  A promise is kept by every later
                      binding (`Drafted.mono`), so the passes after the first cannot spoil it;
* `drafted_of_draft`, `reaches_of_finish`   the step of the first and of the last pass;
* `plan_sound`        the whole plan.
-/

namespace Overloading

open Grammar

/-! ## Casts -/

theorem exists_of_firstPlan {α β : Type} {f : α → Planned β} {as : List α} {r : β}
    (h : firstPlan f as = .ok (some r)) : ∃ a ∈ as, f a = .ok (some r) := by
  induction as with
  | nil => rw [firstPlan] at h; cases h
  | cons a as ih =>
    rw [firstPlan] at h
    split at h
    · obtain ⟨b, hb, hf⟩ := ih h
      exact ⟨b, List.mem_cons_of_mem _ hb, hf⟩
    · exact ⟨a, List.mem_cons_self, h⟩

theorem planned_map_eq {α β : Type} {x : Planned α} {f : α → β} {b : β}
    (h : (x.map fun r => r.map f) = .ok (some b)) : ∃ a, x = .ok (some a) ∧ f a = b := by
  cases x with
  | error e => cases h
  | ok r =>
    obtain ⟨a, ha, hb⟩ := Option.map_eq_some_iff.mp (Except.ok.inj h)
    exact ⟨a, by rw [ha], hb⟩

/-- the types of the fields that a shape gives a brace list of some length -/
def Shape.fields? (m : CastRules) (c : ClassTy) (length : Nat) : Shape → Option (List Ty)
  | .initializerList => c.listElement?.map (List.replicate length)
  | .registered i => m.user.bind fun u => ((u.shapes c)[i]?).join
  | .unregistered => none

section Casts

variable {m : CastRules} {user : Ty → Ref → Ty → Planned Transfer}

theorem castSimply_cases {src : Ty} {ref : Ref} {dst : Ty} {s : Strategy} {a : Transfer}
    (h : castSimply user src ref dst s = .ok (some a)) :
    (a = .decay dst ∧ ((∃ ts, src = .function ts ∧ dst = .pointer (.function ts)) ∨
        ∃ e n, src = .array e n ∧ dst = .pointer e)) ∨
      (∃ k l, src = .arith k ∧ dst = .arith l ∧ a = .numeric dst) ∨
      user src ref dst = .ok (some a) := by
  cases s with
  | decay =>
    have h : decayTo src dst = some a := Except.ok.inj h
    unfold decayTo at h
    split at h
    · split at h
      · next heq =>
        cases h
        exact .inl ⟨rfl, .inl ⟨_, rfl, congrArg Ty.pointer heq⟩⟩
      · cases h
    · split at h
      · next heq =>
        cases h
        exact .inl ⟨rfl, .inr ⟨_, _, rfl, congrArg Ty.pointer heq⟩⟩
      · cases h
    · cases h
  | numeric =>
    have h : numericTo src dst = some a := Except.ok.inj h
    unfold numericTo at h
    split at h
    · cases h
      exact .inr (.inl ⟨_, _, rfl, rfl, rfl⟩)
    · cases h
  | constructor => exact .inr (.inr h)
  | braceList => cases h

theorem bracesInto_cases {convertAll : List Ty → Planned (List Transfer)} {length : Nat} {dst : Ty}
    {a : Transfer} (h : bracesInto m convertAll length dst = .ok (some a)) :
    ∃ c shape fields as, dst = .cls c ∧ Shape.fields? m c length shape = some fields ∧
      fields.length = length ∧ convertAll fields = .ok (some as) ∧
      a = .braces (.cls c) shape as := by
  unfold bracesInto at h
  split at h
  rotate_left
  · cases h
  next c =>
  split at h
  · next t ht =>
    obtain ⟨as, has, rfl⟩ := planned_map_eq h
    refine ⟨c, _, _, as, rfl, ?_, List.length_replicate .., has, rfl⟩
    rw [Shape.fields?, ht, Option.map_some]
  split at h
  · cases h
  next u hu =>
  obtain ⟨⟨shape, i⟩, hmem, hshape⟩ := exists_of_firstPlan h
  split at hshape
  · next fields j heq =>
    cases heq
    split at hshape
    · next hlen =>
      obtain ⟨as, has, rfl⟩ := planned_map_eq hshape
      refine ⟨c, _, fields, as, rfl, ?_, hlen, has, rfl⟩
      rw [Shape.fields?, hu, Option.bind_some, List.mem_zipIdx_iff_getElem?.mp hmem]
      rfl
    · cases hshape
  · cases hshape

/-- a property `P` of casts and a property `Q` of the casts of a list, kept by every way to cast -/
structure CastClosed (m : CastRules) (user : Ty → Ref → Ty → Planned Transfer)
    (P : Ty → Ref → Ty → Transfer → Prop) (Q : List Ty → List Ty → List Transfer → Prop) :
    Prop where
  function : ∀ ts ref,
    P (.function ts) ref (.pointer (.function ts)) (.decay (.pointer (.function ts)))
  array : ∀ e n ref, P (.array e n) ref (.pointer e) (.decay (.pointer e))
  numeric : ∀ k l ref, P (.arith k) ref (.arith l) (.numeric (.arith l))
  constructor : ∀ src ref dst a, user src ref dst = .ok (some a) → P src ref dst a
  braces : ∀ es ref c shape fields as, Shape.fields? m c es.length shape = some fields →
    Q es fields as → P (.list es) ref (.cls c) (.braces (.cls c) shape as)
  nil : Q [] [] []
  clone : ∀ e es fs as, Q es fs as → Q (e :: es) (e :: fs) (.clone :: as)
  cast : ∀ e f es fs a as, e ≠ f → P e .none f a → Q es fs as → Q (e :: es) (f :: fs) (a :: as)

namespace CastClosed

variable {P : Ty → Ref → Ty → Transfer → Prop} {Q : List Ty → List Ty → List Transfer → Prop}

theorem castSimply (hc : CastClosed m user P Q) {src : Ty} {ref : Ref} {dst : Ty} {s : Strategy}
    {a : Transfer} (h : castSimply user src ref dst s = .ok (some a)) : P src ref dst a := by
  rcases castSimply_cases h with ⟨rfl, ⟨ts, rfl, rfl⟩ | ⟨e, n, rfl, rfl⟩⟩ | ⟨k, l, rfl, rfl, rfl⟩ | h
  · exact hc.function ts ref
  · exact hc.array e n ref
  · exact hc.numeric k l ref
  · exact hc.constructor src ref dst a h

mutual
/-- **Induction on a cast**, as far as the brace lists of the source are nested: what is kept by
every way to cast holds of every cast that is planned. -/
theorem castWith (hc : CastClosed m user P Q) :
    ∀ src ref dst a, castWith m user src ref dst = .ok (some a) → P src ref dst a
  | .list es, ref, dst, a, h => by
    rw [Overloading.castWith] at h
    obtain ⟨s, _, hs⟩ := exists_of_firstPlan h
    cases s with
    | braceList =>
      obtain ⟨c, shape, fields, as, rfl, hfields, hlen, has, rfl⟩ := bracesInto_cases hs
      exact hc.braces es ref c shape fields as hfields (castAllWith hc es fields as hlen has)
    | decay | numeric | constructor => exact hc.castSimply hs
  | .arith k, ref, dst, a, h | .pointer e, ref, dst, a, h | .array e n, ref, dst, a, h
  | .cls c, ref, dst, a, h | .function ts, ref, dst, a, h | .void, ref, dst, a, h => by
    rw [Overloading.castWith] at h
    · obtain ⟨s, _, hs⟩ := exists_of_firstPlan h
      exact hc.castSimply hs
    · intros; contradiction

theorem castAllWith (hc : CastClosed m user P Q) :
    ∀ es fs as, fs.length = es.length → castAllWith m user es fs = .ok (some as) → Q es fs as
  | [], [], as, _, h => by
    rw [Overloading.castAllWith] at h
    · cases h
      exact hc.nil
    · intros; contradiction
  | [], f :: fs, as, hlen, h | e :: es, [], as, hlen, h => nomatch hlen
  | e :: es, f :: fs, as, hlen, h => by
    have hrest := castAllWith hc es fs
    rw [Overloading.castAllWith] at h
    by_cases hef : e = f
    · subst hef
      simp only [if_true] at h
      obtain ⟨as, has, rfl⟩ := planned_map_eq h
      exact hc.clone e es fs as (hrest as (Nat.succ.inj hlen) has)
    · simp only [hef, if_false] at h
      split at h
      · cases h
      · cases h
      next a ha =>
      obtain ⟨as, has, rfl⟩ := planned_map_eq h
      exact hc.cast e f es fs a as hef (castWith hc e .none f a ha)
        (hrest as (Nat.succ.inj hlen) has)
end

end CastClosed

/-- a way to make types makes those it is asked for -/
def MakesTarget (user : Ty → Ref → Ty → Planned Transfer) : Prop :=
  ∀ src ref dst tr, user src ref dst = .ok (some tr) → tr.target? = some dst

theorem target_of_castWith (huser : MakesTarget user) : MakesTarget (castWith m user) :=
  CastClosed.castWith (m := m) (Q := fun _ _ _ => True)
    { function := fun _ _ => rfl
      array := fun _ _ _ => rfl
      numeric := fun _ _ _ => rfl
      constructor := huser
      braces := fun _ _ _ _ _ _ _ _ => rfl
      nil := trivial
      clone := fun _ _ _ _ _ => trivial
      cast := fun _ _ _ _ _ _ _ _ _ => trivial }

end Casts

theorem target_of_firstMaker {dst : Ty} {want : List String} {plan : Candidate → Planned Match}
    {makers : List Candidate} {tr : Transfer}
    (h : firstPlan (fun maker => (plan maker).map fun r => r.bind fun res =>
      if res.returns = some want then
        some (.construct dst maker res.transfers res.bindings res.returns)
      else none) makers = .ok (some tr)) : tr.target? = some dst := by
  obtain ⟨maker, _, hmaker⟩ := exists_of_firstPlan h
  cases hplan : plan maker with
  | error e => rw [hplan] at hmaker; cases hmaker
  | ok r =>
    rw [hplan] at hmaker
    obtain ⟨res, _, hres⟩ := Option.bind_eq_some_iff.mp (Except.ok.inj hmaker)
    split at hres
    · cases hres; rfl
    · cases hres

theorem class_of_planned {dst : Ty} {user : Option Conversions}
    {F : ClassTy → Conversions → Planned Transfer} {tr : Transfer}
    (h : (match dst, user with
      | .cls c, some u => F c u
      | _, _ => .ok none) = .ok (some tr)) :
    ∃ c u, dst = .cls c ∧ F c u = .ok (some tr) := by
  split at h
  · exact ⟨_, _, rfl, h⟩
  · cases h

theorem target_of_construct (m : CastRules) : MakesTarget m.construct := by
  intro src ref dst tr h
  -- matches are taken apart one by one, lest the kernel run the builder of the grammar
  rw [CastRules.construct.eq_def] at h
  obtain ⟨c, user, rfl, h⟩ := class_of_planned h
  cases hcall : signature.compile (typedCallForm (.cls c) [⟨src, ref⟩]) Symbol.function false with
  | error e => rw [hcall] at h; cases h
  | ok call => rw [hcall] at h; exact target_of_firstMaker h

theorem target_of_cast (m : CastRules) : MakesTarget m.cast :=
  target_of_castWith (target_of_construct m)

/-! ## Parameters -/

/-- a parameter of a compiled declaration -/
structure Tree.IsFormal (p : Tree) : Prop where
  formed : p.Formed
  symbol_eq : p.symbol = Symbol.paramObject
  numbered : p.Numbered

/-- an object or a whole parameter: what is left of a parameter without its marker -/
structure Tree.IsUnmarked (p : Tree) : Prop where
  formed : p.Formed
  symbol_eq : p.symbol = Symbol.object ∨ p.symbol = Symbol.paramObject
  numbered : p.Numbered

theorem Tree.IsUnmarked.ordinary {p : Tree} (h : p.IsUnmarked) : Tree.Ordinary p.symbol := by
  rcases h.symbol_eq with e | e <;> rw [e] <;> exact Tree.ordinary_wildcard (by decide)

theorem Tree.IsUnmarked.wildcard {p : Tree} (h : p.IsUnmarked) : p.symbol ∈ signatureWildcards := by
  rcases h.symbol_eq with e | e <;> rw [e] <;> decide

theorem Tree.IsFormal.marked {k : String} {i : Nat} {cs : List Tree} (ref : Ref)
    (h : (Tree.branch Symbol.paramObject i cs).IsFormal) (hk : k ∈ signatureKeywords)
    (hnot : k ∉ signatureRules.map Rule.head)
    (halt : (alternatives Symbol.paramObject)[i]? = some [k, Symbol.object])
    (hsplit : ∀ tok o, tok.text = k →
      (Tree.branch Symbol.paramObject i [.leaf k tok, o]).splitRef = (ref, o)) :
    ∃ o, (Tree.branch Symbol.paramObject i cs).splitRef = (ref, o) ∧ o.IsUnmarked := by
  obtain ⟨tok, o, rfl, htok, ho, hs⟩ := marked_children hk hnot halt h.formed
  have hmem : o ∈ [Tree.leaf k tok, o] := List.mem_cons_of_mem _ List.mem_cons_self
  exact ⟨o, hsplit tok o htok, ho, .inl hs, h.numbered.child hmem⟩

theorem single_child {s x : Symbol} {i : Nat} {cs : List Tree}
    (halt : (alternatives s)[i]? = some [x]) (h : (Tree.branch s i cs).Formed) :
    ∃ c, cs = [c] ∧ c.Formed ∧ c.symbol = x := by
  obtain ⟨hbody, hcs⟩ := formed_branch.mp h
  rw [halt] at hbody
  have hbody := (Option.some.inj hbody).symm
  obtain ⟨c, rfl⟩ := List.length_eq_one_iff.mp (by simpa using congrArg List.length hbody)
  exact ⟨c, rfl, hcs c List.mem_cons_self, by simpa using hbody⟩

/-- the forms of a parameter: a wildcard, an object, a function, or an object behind a marker -/
theorem Tree.IsFormal.forms {p : Tree} (h : p.IsFormal) :
    (∃ i tok, p = .head Symbol.paramObject i tok) ∨
    (∃ c, p = .branch Symbol.paramObject 0 [c] ∧ c.Formed ∧ c.symbol = Symbol.object) ∨
    (∃ c, p = .branch Symbol.paramObject 1 [c] ∧ c.Formed ∧ c.symbol = Symbol.function) ∨
    (p.isHead = false ∧ ∃ ref o, p.splitRef = (ref, o) ∧ ref ≠ .none ∧ o.IsUnmarked) := by
  cases p with
  | leaf s tok =>
    have hs : s = Symbol.paramObject := h.symbol_eq
    exact absurd (by rw [hs]; decide) (formed_leaf.mp h.formed).1
  | head s i tok =>
    have hs : s = Symbol.paramObject := h.symbol_eq
    exact .inl ⟨i, tok, by rw [hs]⟩
  | branch s i cs =>
    have hs : s = Symbol.paramObject := h.symbol_eq
    subst hs
    have halts : alternatives Symbol.paramObject = [[Symbol.object], [Symbol.function],
        [Keyword.lref, Symbol.object], [Keyword.clref, Symbol.object]] := by decide
    have halt := (formed_branch.mp h.formed).1
    rw [halts] at halt
    rcases i with _ | _ | _ | _ | i
    · obtain ⟨c, rfl, hc⟩ := single_child (x := Symbol.object) (by decide) h.formed
      exact .inr (.inl ⟨c, rfl, hc⟩)
    · obtain ⟨c, rfl, hc⟩ := single_child (x := Symbol.function) (by decide) h.formed
      exact .inr (.inr (.inl ⟨c, rfl, hc⟩))
    · obtain ⟨o, ho⟩ := h.marked (k := Keyword.lref) .mutable (by decide) (by decide)
        (by decide) fun tok o htok => by
          rw [Tree.splitRef, htok, if_pos (by decide)]
      exact .inr (.inr (.inr ⟨rfl, .mutable, o, ho.1, by decide, ho.2⟩))
    · obtain ⟨o, ho⟩ := h.marked (k := Keyword.clref) .constant (by decide) (by decide)
        (by decide) fun tok o htok => by
          rw [Tree.splitRef, htok, if_neg (by decide), if_pos (by decide)]
      exact .inr (.inr (.inr ⟨rfl, .constant, o, ho.1, by decide, ho.2⟩))
    · cases halt

theorem Tree.IsFormal.unmarked {p : Tree} (h : p.IsFormal) (hhead : p.isHead = false) :
    p.splitRef.2.IsUnmarked := by
  obtain ⟨i, tok, rfl⟩ | ⟨c, rfl, _⟩ | ⟨c, rfl, _⟩ | ⟨_, ref, o, hsplit, _, ho⟩ := h.forms
  · cases hhead
  · rw [splitRef_single]
    exact ⟨h.formed, .inr h.symbol_eq, h.numbered⟩
  · rw [splitRef_single]
    exact ⟨h.formed, .inr h.symbol_eq, h.numbered⟩
  · rw [hsplit]
    exact ho

/-! ## The type of a parameter -/

/-- the type a declared tree denotes with given token runs for its wildcards -/
def Tree.typeUnder? (B : Nat → Option (List String)) (p : Tree) : Option Ty :=
  (p.substitute B).bind fun ts =>
    (signature.parsePlain ts p.symbol).bind fun t => (Ty.ofTree t).toOption

theorem typeUnder_eq {B : Nat → Option (List String)} {p u : Tree} {ts : List String} {ty : Ty}
    (hsub : p.substitute B = some ts) (hparse : signature.parsePlain ts p.symbol = some u)
    (hty : Ty.ofTree u = .ok ty) : p.typeUnder? B = some ty := by
  unfold Tree.typeUnder?
  rw [hsub, Option.bind_some, hparse, Option.bind_some, hty]
  rfl

theorem typeUnder_mono {b b' : Bindings} (hb : b.Extends b') {p : Tree} {ty : Ty}
    (h : p.typeUnder? b.texts? = some ty) : p.typeUnder? b'.texts? = some ty := by
  unfold Tree.typeUnder? at h ⊢
  obtain ⟨ts, hts, h⟩ := Option.bind_eq_some_iff.mp h
  rw [Tree.substitute_mono hb hts, Option.bind_some]
  exact h

theorem param_eq_wrapper {p o : Tree} (hp : p.Formed) (hps : p.symbol = Symbol.paramObject)
    (ho : o.Formed) (hos : o.symbol = Symbol.object) (hy : p.yield = o.yield) :
    p = .branch Symbol.paramObject 0 [o] := by
  have hwrap : (Tree.branch Symbol.paramObject 0 [o]).Formed := by
    refine formed_branch.mpr ⟨?_, by simpa using ho⟩
    rw [List.map_singleton, hos]
    decide
  have hwild : Symbol.paramObject ∈ signatureWildcards := by decide
  exact derives_unique compiled_signature hwild
    ⟨hp, hps, hy⟩ ⟨hwrap, rfl, by
      rw [Tree.yield, Tree.yieldAll_cons, Tree.yieldAll_nil, List.append_nil]⟩

theorem ofTree_param_eq {p o : Tree} (hp : p.Formed) (hps : p.symbol = Symbol.paramObject)
    (ho : o.Formed) (hos : o.symbol = Symbol.object) (hy : p.yield = o.yield) :
    Ty.ofTree p = Ty.ofTree o := by
  rw [param_eq_wrapper hp hps ho hos hy]
  exact ofTree_wrap (by decide) (isLeaf_of_formed ho (by rw [hos]; decide))

/-- trees of objects and parameters over the same tokens denote the same -/
theorem ofTree_congr {u v : Tree} (hu : u.Formed)
    (hus : u.symbol = Symbol.object ∨ u.symbol = Symbol.paramObject) (hv : v.Formed)
    (hvs : v.symbol = Symbol.object ∨ v.symbol = Symbol.paramObject) (hy : u.yield = v.yield) :
    Ty.ofTree u = Ty.ofTree v := by
  by_cases hsym : u.symbol = v.symbol
  · have hw : v.symbol ∈ signatureWildcards := by rcases hvs with e | e <;> rw [e] <;> decide
    rw [derives_unique compiled_signature hw ⟨hu, hsym, hy⟩ ⟨hv, rfl, rfl⟩]
  rcases hus with hus | hus <;> rcases hvs with hvs | hvs
  · exact absurd (hus.trans hvs.symm) hsym
  · exact (ofTree_param_eq hv hvs hu hus hy.symm).symm
  · exact ofTree_param_eq hu hus hv hvs hy
  · exact absurd (hus.trans hvs.symm) hsym

theorem typeUnder_of_unify {actual formal : Tree} {s : Symbol} {ty : Ty} {b b' : Bindings}
    (ha : actual.Denotes s ty) (hs : s = Symbol.object ∨ s = Symbol.paramObject)
    (hf : formal.IsUnmarked) (h : unify actual formal b = some b') :
    b.Extends b' ∧ formal.typeUnder? b'.texts? = some ty ∧
      Ty.ofTree (formal.graft (fillTree b'.texts?)) = .ok ty ∧
      (formal.graft (fillTree b'.texts?)).Formed ∧
      ∀ x ∈ formal.heads, (fillTree b'.texts? x.1 x.2).symbol = x.1 := by
  have hplain := ha.toSpells.plain
  have hsolve := unify_solves ha.formed hplain h
  have hσ : formal.Supplied b'.texts? (fillTree b'.texts?) := by
    refine supplied_of_sentences hf.formed fun x hx => ?_
    obtain ⟨id, ts, hid, hget, hsent⟩ := hsolve.bound x hx
    exact ⟨id, ts, hid, by rw [Bindings.texts?_of_get? hget, Binding.texts_ofTexts], hsent⟩
  obtain ⟨hgf, hgs, hread, hgp⟩ := hσ.graft hf.formed hf.ordinary hf.numbered
  have htokens : (formal.graft (fillTree b'.texts?)).tokens = actual.tokens :=
    Option.some.inj (hread.symm.trans hsolve.reads)
  have hyield : (formal.graft (fillTree b'.texts?)).yield = actual.yield := by
    rw [hgp.yield_eq, hplain.yield_eq, htokens]
  have hty : Ty.ofTree (formal.graft (fillTree b'.texts?)) = .ok ty := by
    rw [← ha.type_eq]
    exact ofTree_congr hgf (by rw [hgs]; exact hf.symbol_eq) ha.formed
      (by rw [ha.symbol_eq]; exact hs) hyield
  refine ⟨hsolve.extends_, ?_, hty, hgf, fun x hx => ?_⟩
  · exact typeUnder_eq hread ((parsePlain_eq_some_iff hf.wildcard).mpr ⟨hgf, hgs, hgp.yield_eq⟩) hty
  · obtain ⟨_, _, _, _, _, hsym, _⟩ := hσ x hx
    exact hsym

/-! ## Functions among the parameters -/

theorem unwrap_wrapper {s : Symbol} {i : Nat} {c : Tree} (hc : c.isLeaf = false) :
    (Tree.branch s i [c]).unwrap = c.unwrap := by
  rw [Tree.unwrap, hc]
  rfl

theorem unwrap_of_not_wrapper {t : Tree} (ht : t.Formed) (hs : t.symbol.isWrapper = false) :
    t.unwrap = t := by
  refine Tree.unwrap_rec (P := fun t u => t.Formed → t.symbol.isWrapper = false → u = t)
    (fun _ _ _ => rfl) ?_ t ht hs
  intro s i c u hleaf _ hbranch hs
  obtain ⟨halt, hcs⟩ := formed_branch.mp hbranch
  obtain ⟨r, hr, rfl, hbody⟩ := exists_rule halt
  have hw := wrapper_of_single r hr _ (List.mem_of_getElem? hbody) rfl fun z hz => by
    rw [List.map_singleton, List.mem_singleton] at hz
    rw [hz]
    exact formed_symbol_mem (hcs c List.mem_cons_self) hleaf
  exact absurd (hw.symm.trans hs) (by decide)

theorem unwrap_head (s : Symbol) (i : Nat) (tok : Token) :
    (Tree.head s i tok).unwrap = .head s i tok := rfl

theorem splitRef_head (s : Symbol) (i : Nat) (tok : Token) :
    (Tree.head s i tok).splitRef = (.none, .head s i tok) := rfl

/-- an object is a wildcard for objects or, looked through, no wrapper and no function -/
theorem unwrap_object_cases {c : Tree} (hc : c.Formed) (hs : c.symbol = Symbol.object) :
    c.unwrap.symbol = Symbol.object ∨
      c.unwrap.symbol.isWrapper = false ∧ c.unwrap.symbol ≠ Symbol.function := by
  cases c with
  | leaf s tok =>
    have hs : s = Symbol.object := hs
    exact absurd (by rw [hs]; decide) (formed_leaf.mp hc).1
  | head s i tok => exact .inl hs
  | branch s i cs =>
    have hs : s = Symbol.object := hs
    subst hs
    have halt := (formed_branch.mp hc).1
    obtain ⟨x, hx, hbody, hw, hne⟩ := object_alternatives _ (List.mem_of_getElem? halt)
    rw [hbody] at halt
    obtain ⟨d, rfl, hd, hdx⟩ := single_child halt hc
    rw [unwrap_wrapper (isLeaf_of_formed hd (by rw [hdx]; exact hx)),
      unwrap_of_not_wrapper hd (by rw [hdx]; exact hw), hdx]
    exact .inr ⟨hw, hne⟩

theorem unwrap_object {c : Tree} (hc : c.Formed) (hs : c.symbol = Symbol.object) :
    c.unwrap.symbol ≠ Symbol.function := by
  rcases unwrap_object_cases hc hs with h | ⟨-, hne⟩
  · rw [h]
    decide
  · exact hne

/-- whether a parameter without a marker is a function is seen before its wildcards are bound -/
theorem isFunction_of_formal {p : Tree} {σ : Symbol → Option Nat → Tree} {ty : Ty}
    (hp : p.IsFormal) (hhead : p.isHead = false) (href : p.splitRef.1 = .none)
    (hg : (p.graft σ).Formed) (hσ : ∀ x ∈ p.heads, (σ x.1 x.2).symbol = x.1)
    (hty : Ty.ofTree (p.graft σ) = .ok ty) :
    (p.unwrap.symbol == Symbol.function) = ty.isFunction := by
  have hchild : ∀ i c, p = .branch Symbol.paramObject i [c] → c.Formed →
      c.symbol ∈ signatureRules.map Rule.head →
      p.unwrap = c.unwrap ∧ (c.graft σ).Formed ∧ (c.graft σ).symbol = c.symbol ∧
        Ty.ofTree (c.graft σ) = .ok ty := by
    rintro i c rfl hc hs
    rw [Tree.graft_branch, List.map_singleton] at hg hty
    have hgc := (formed_branch.mp hg).2 _ List.mem_cons_self
    have hgs : (c.graft σ).symbol = c.symbol := Tree.symbol_graft fun x hx =>
      hσ x (Tree.mem_heads_branch.mpr ⟨c, List.mem_cons_self, hx⟩)
    rw [ofTree_wrap (by decide) (isLeaf_of_formed hgc (by rw [hgs]; exact hs))] at hty
    exact ⟨unwrap_wrapper (isLeaf_of_formed hc hs), hgc, hgs, hty⟩
  obtain ⟨i, tok, rfl⟩ | ⟨c, rfl, hc, hs⟩ | ⟨c, rfl, hc, hs⟩ | ⟨_, ref, o, hsplit, hne, _⟩ :=
    hp.forms
  · cases hhead
  · obtain ⟨hun, hgc, hgs, htyc⟩ := hchild 0 c rfl hc (by rw [hs]; decide)
    rw [(isFunction_of_ofTree hgc htyc).1 (hgs.trans hs), hun]
    simpa using unwrap_object hc hs
  · obtain ⟨hun, hgc, hgs, htyc⟩ := hchild 1 c rfl hc (by rw [hs]; decide)
    rw [(isFunction_of_ofTree hgc htyc).2 (hgs.trans hs), hun,
      unwrap_of_not_wrapper hc (by rw [hs]; decide), hs]
    decide
  · rw [hsplit] at href
    exact absurd href hne

/-! ## How an argument may reach a parameter -/

/-- the ways to pass an argument to a parameter of a type, by the marker of the parameter -/
def Arg.Passes (a : Arg) (ty : Ty) (tr : Transfer) : Ref → Prop
  | .mutable => a.ref = .mutable ∧ tr = .borrow ∧ a.type = ty
  | .constant => (tr = .borrow ∧ a.type = ty) ∨ tr.target? = some ty
  | .none => (tr = (if ty.isFunction then .borrow else .clone) ∧ a.type = ty) ∨ tr.target? = some ty

/-- an argument reaches a parameter: a wildcard for any parameter borrows it and stands for its
tokens, any other parameter has a type, and the argument is passed by its marker -/
structure Arg.Reaches (a : Arg) (B : Nat → Option (List String)) (formal : Tree) (tr : Transfer) :
    Prop where
  whole : ∀ s i tok, formal = .head s i tok →
    tr = .borrow ∧ tok.wildcard.bind B = some a.tokens
  typed : formal.isHead = false → ∃ ty, formal.splitRef.2.typeUnder? B = some ty ∧
    a.Passes ty tr formal.splitRef.1

theorem Arg.Reaches.of_typed {a : Arg} {B : Nat → Option (List String)} {formal : Tree}
    {tr : Transfer} {ty : Ty} (hhead : formal.isHead = false)
    (hty : formal.splitRef.2.typeUnder? B = some ty) (h : a.Passes ty tr formal.splitRef.1) :
    a.Reaches B formal tr := by
  refine ⟨?_, fun _ => ⟨ty, hty, h⟩⟩
  rintro s i tok rfl
  cases hhead

theorem Arg.Reaches.mono {a : Arg} {b b' : Bindings} (hb : b.Extends b') {formal : Tree}
    {tr : Transfer} (h : a.Reaches b.texts? formal tr) : a.Reaches b'.texts? formal tr := by
  refine ⟨fun s i tok hf => ?_, fun hhead => ?_⟩
  · obtain ⟨h1, h2⟩ := h.whole s i tok hf
    refine ⟨h1, ?_⟩
    obtain ⟨id, hid, hts⟩ := Option.bind_eq_some_iff.mp h2
    obtain ⟨v, hv, hv'⟩ := Option.map_eq_some_iff.mp hts
    rw [hid, Option.bind_some, Bindings.texts?_of_get? (hb id v hv), hv']
  · obtain ⟨ty, hty, hpass⟩ := h.typed hhead
    exact ⟨ty, typeUnder_mono hb hty, hpass⟩

/-! ## The first pass -/

/-- what a draft promises about an argument and its parameter -/
def Drafted (a : Arg) (formal : Tree) (b : Bindings) : Draft → Prop
  | .settled tr => a.Reaches b.texts? formal tr
  | .promote id ref k => formal.IsFormal ∧ formal.isHead = false ∧ formal.splitRef.1 = ref ∧
      ref ≠ .mutable ∧ formal.splitRef.2.bareArithmetic? = some id ∧ a.type = .arith k
  | .convert _ _ obj => formal.isHead = false ∧ formal.splitRef.1 ≠ .mutable ∧
      obj = formal.splitRef.2

theorem Drafted.mono {a : Arg} {formal : Tree} {b b' : Bindings} {d : Draft} (hb : b.Extends b')
    (h : Drafted a formal b d) : Drafted a formal b' d := by
  cases d with
  | settled tr => exact Arg.Reaches.mono hb h
  | promote id ref k => exact h
  | convert ref actual obj => exact h

theorem arith_of_kind? {t : Tree} {ty : Ty} {k : Kind} (ht : t.Formed) (hty : Ty.ofTree t = .ok ty)
    (hk : t.kind? = some k) : ty = .arith k := by
  unfold Tree.kind? at hk
  split at hk
  · next s' i tok s'' heq =>
    split at hk
    · next hs =>
      have hs : s' = Symbol.arithmetic := by simpa using hs
      have hunwrap := ofTree_unwrap ht
      rw [heq, hty, hs, Ty.ofTree, if_neg (by decide), if_pos (by decide)] at hunwrap
      simp only [hk] at hunwrap
      exact (Except.ok.inj hunwrap).symm
    · cases hk
  · cases hk

theorem passes_asIs {formal : Tree} {a : Arg} {σ : Symbol → Option Nat → Tree}
    (hf : formal.IsFormal) (hhead : formal.isHead = false) (hne : formal.splitRef.1 ≠ .mutable)
    (hg : (formal.splitRef.2.graft σ).Formed)
    (hσ : ∀ x ∈ formal.splitRef.2.heads, (σ x.1 x.2).symbol = x.1)
    (hty : Ty.ofTree (formal.splitRef.2.graft σ) = .ok a.type) :
    a.Passes a.type (passAsIs formal.splitRef.1 formal.splitRef.2) formal.splitRef.1 := by
  cases href : formal.splitRef.1 with
  | mutable => exact absurd href hne
  | constant =>
    refine .inl ⟨?_, rfl⟩
    unfold passAsIs
    rw [if_pos]
    rfl
  | none =>
    refine .inl ⟨?_, rfl⟩
    have hself : formal.splitRef.2 = formal := by
      obtain ⟨i, tok, rfl⟩ | ⟨c, rfl, _⟩ | ⟨c, rfl, _⟩ | ⟨_, ref, o, hsplit, hne', _⟩ := hf.forms
      · cases hhead
      · rw [splitRef_single]
      · rw [splitRef_single]
      · rw [hsplit] at href
        exact absurd href hne'
    rw [hself] at hg hσ hty ⊢
    unfold passAsIs
    rw [isFunction_of_formal hf hhead href hg hσ hty]
    rfl

theorem draft_eq {actual formal : Tree} (hhead : formal.isHead = false) (b : Bindings) :
    draft actual formal b =
      if formal.splitRef.1 = .mutable then
        if actual.splitRef.1 = .mutable then
          (unify actual.splitRef.2 formal.splitRef.2 b).map fun b => (.settled .borrow, b)
        else none
      else match formal.splitRef.2.bareArithmetic?, actual.splitRef.2.kind? with
        | some id, some k => some (.promote id formal.splitRef.1 k, b)
        | _, _ => match unify actual.splitRef.2 formal.splitRef.2 b with
          | some b => some (.settled (passAsIs formal.splitRef.1 formal.splitRef.2), b)
          | none => some (.convert actual.splitRef.1 actual.splitRef.2 formal.splitRef.2, b) := by
  cases formal with
  | head => cases hhead
  | leaf => rfl
  | branch => rfl

theorem draft_cases {actual formal : Tree} {b b' : Bindings} {d : Draft}
    (hhead : formal.isHead = false) (h : draft actual formal b = some (d, b')) :
    (formal.splitRef.1 = .mutable ∧ actual.splitRef.1 = .mutable ∧ d = .settled .borrow ∧
      unify actual.splitRef.2 formal.splitRef.2 b = some b') ∨
    (formal.splitRef.1 ≠ .mutable ∧
      ((∃ id k, formal.splitRef.2.bareArithmetic? = some id ∧ actual.splitRef.2.kind? = some k ∧
          d = .promote id formal.splitRef.1 k ∧ b' = b) ∨
        (d = .settled (passAsIs formal.splitRef.1 formal.splitRef.2) ∧
          unify actual.splitRef.2 formal.splitRef.2 b = some b') ∨
        (d = .convert actual.splitRef.1 actual.splitRef.2 formal.splitRef.2 ∧ b' = b))) := by
  rw [draft_eq hhead] at h
  by_cases hm : formal.splitRef.1 = .mutable
  · rw [if_pos hm] at h
    by_cases hma : actual.splitRef.1 = .mutable
    · rw [if_pos hma] at h
      obtain ⟨b₁, hb₁, he⟩ := Option.map_eq_some_iff.mp h
      cases he
      exact .inl ⟨hm, hma, rfl, hb₁⟩
    · rw [if_neg hma] at h
      cases h
  · rw [if_neg hm] at h
    refine .inr ⟨hm, ?_⟩
    split at h
    · next id k hid hk =>
      cases h
      exact .inl ⟨id, k, hid, hk, rfl, rfl⟩
    · split at h
      · next b₁ hu =>
        cases h
        exact .inr (.inl ⟨rfl, hu⟩)
      · cases h
        exact .inr (.inr ⟨rfl, rfl⟩)

/-- **The first pass, one argument**: the bindings grow, and the draft keeps its promise. -/
theorem drafted_of_draft {a : Arg} {actual formal : Tree} {b b' : Bindings} {d : Draft}
    (ha : a.ShownBy actual) (hf : formal.IsFormal) (h : draft actual formal b = some (d, b')) :
    b.Extends b' ∧ Drafted a formal b' d := by
  cases hhead : formal.isHead with
  | true =>
    obtain ⟨s, i, tok, rfl⟩ : ∃ s i tok, formal = .head s i tok := by
      cases formal with
      | head s i tok => exact ⟨s, i, tok, rfl⟩
      | leaf | branch => cases hhead
    rw [draft] at h
    obtain ⟨b₁, hb₁, he⟩ := Option.map_eq_some_iff.mp h
    cases he
    have hsolve := solves_bind (i := i) ha.spells.formed ha.spells.plain hb₁
    refine ⟨hsolve.extends_, ?_, nofun⟩
    rintro _ _ _ ⟨⟩
    refine ⟨rfl, ?_⟩
    have := hsolve.reads
    rw [Tree.substitute] at this
    rw [this, ← Tree.texts_yield, ha.spells.yield_eq, Binding.texts_ofTexts]
  | false =>
    have hun := hf.unmarked hhead
    obtain ⟨s, hs, hden⟩ := ha.denotes
    rcases draft_cases hhead h with ⟨hm, hma, rfl, hu⟩ | ⟨hne, ⟨id, k, hid, hk, rfl, rfl⟩ |
      ⟨rfl, hu⟩ | ⟨rfl, rfl⟩⟩
    · obtain ⟨hext, hty, _⟩ := typeUnder_of_unify hden hs hun hu
      refine ⟨hext, Arg.Reaches.of_typed hhead hty ?_⟩
      rw [hm]
      have href : a.marker = .mutable := ha.marker_eq.symm.trans hma
      unfold Arg.marker at href
      split at href
      · cases href
      · exact ⟨href, rfl, rfl⟩
    · exact ⟨Bindings.Extends.refl _, hf, hhead, rfl, hne, hid,
        arith_of_kind? hden.formed hden.type_eq hk⟩
    · obtain ⟨hext, hty, hof, hg, hσ⟩ := typeUnder_of_unify hden hs hun hu
      exact ⟨hext, Arg.Reaches.of_typed hhead hty (passes_asIs hf hhead hne hg hσ hof)⟩
    · exact ⟨Bindings.Extends.refl _, hhead, hne, rfl⟩

/-- **The first pass**: each draft keeps its promise under the bindings all of them have made. -/
theorem drafted_of_draftAll {args : List Arg} {actuals formals : List Tree} {b b' : Bindings}
    {ds : List Draft} (hargs : List.Forall₂ Arg.ShownBy args actuals)
    (hf : ∀ p ∈ formals, p.IsFormal) (hlen : actuals.length = formals.length)
    (h : draftAll actuals formals b = some (ds, b')) :
    b.Extends b' ∧
      List.Forall₂ (fun x d => Drafted x.1 x.2 b' d) (args.zip formals) ds := by
  induction hargs generalizing formals b ds with
  | nil =>
    have hnil : formals = [] := List.length_eq_zero_iff.mp hlen.symm
    subst hnil
    rw [draftAll] at h
    · cases h
      exact ⟨Bindings.Extends.refl _, .nil⟩
    · exact nofun
  | @cons a actual args actuals ha _ ih =>
    obtain ⟨formal, formals, rfl⟩ := List.exists_cons_of_length_pos (l := formals) (by
      rw [← hlen]; exact Nat.succ_pos _)
    rw [draftAll] at h
    split at h
    · cases h
    next d b₁ hd =>
    obtain ⟨⟨ds', b₂⟩, hrest, he⟩ := Option.map_eq_some_iff.mp h
    cases he
    obtain ⟨hext, hdraft⟩ := drafted_of_draft ha (hf formal List.mem_cons_self) hd
    obtain ⟨hext', hdrafts⟩ := ih (fun p hp => hf p (List.mem_cons_of_mem _ hp))
      (by simpa using hlen) hrest
    exact ⟨hext.trans hext', .cons (hdraft.mono hext') hdrafts⟩

/-! ## The second pass -/

theorem extends_of_promoteGroup {id : Nat} {kinds : List Kind} {b b' : Bindings}
    (h : promoteGroup id kinds b = .ok (some b')) : b.Extends b' := by
  unfold promoteGroup at h
  split at h
  · split at h
    · cases h
    split at h
    · cases h; exact Bindings.Extends.refl _
    · cases h
  · split at h
    · cases h; exact Bindings.extends_insert _
    · cases h

theorem extends_of_promoteAll {ds : List Draft} {ids : List Nat} {b b' : Bindings}
    (h : promoteAll ds ids b = .ok (some b')) : b.Extends b' := by
  induction ids generalizing b with
  | nil => rw [promoteAll] at h; cases h; exact Bindings.Extends.refl _
  | cons id ids ih =>
    rw [promoteAll] at h
    split at h
    · next b₁ hb₁ => exact (extends_of_promoteGroup hb₁).trans (ih h)
    · next hno => exact absurd h (hno b')

/-! ## The third pass -/

theorem typeUnder_of_concretize {formal : Tree} {b : Bindings} {dst : Ty}
    (h : concretize formal b = .ok (some dst)) : formal.typeUnder? b.texts? = some dst := by
  unfold concretize at h
  cases hsub : formal.substitute b.texts? with
  | none => rw [hsub] at h; cases h
  | some ts =>
    rw [hsub] at h
    dsimp only at h
    split at h
    · cases h
    cases hparse : signature.parsePlain ts formal.symbol with
    | none => rw [hparse] at h; cases h
    | some t =>
      rw [hparse] at h
      dsimp only at h
      cases hty : Ty.ofTree t with
      | error e => rw [hty] at h; cases h
      | ok ty =>
        rw [hty] at h
        cases h
        exact typeUnder_eq hsub hparse hty

theorem token_of_ofToken? {t : String} {k : Kind} (h : Kind.ofToken? t = some k) : t = k.token := by
  have := List.find?_some h
  exact (by simpa using this : k.token = t).symm

theorem exists_unmarked_arith (k : Kind) {s : Symbol}
    (hs : s = Symbol.object ∨ s = Symbol.paramObject) : ∃ t : Tree, t.Denotes s (.arith k) := by
  obtain ⟨t, ht⟩ := (hasTrees (.arith k) (by trivial)).1 rfl
  rcases hs with rfl | rfl
  · exact ⟨t, ht⟩
  · exact ⟨_, ht.wrap (i := 0) (by decide) (by decide) (by decide)⟩

theorem typeUnder_bareArithmetic {p : Tree} {id : Nat} {B : Nat → Option (List String)} {k : Kind}
    (hp : p.IsUnmarked) (hid : p.bareArithmetic? = some id)
    (hk : (B id).bind kindOfTexts? = some k) : p.typeUnder? B = some (.arith k) := by
  obtain ⟨ts, hts, hkind⟩ := Option.bind_eq_some_iff.mp hk
  obtain rfl : ts = [k.token] := by
    unfold kindOfTexts? at hkind
    split at hkind
    · rw [token_of_ofToken? hkind]
    · cases hkind
  have hsub : p.substitute B = some [k.token] := by
    unfold Tree.bareArithmetic? at hid
    rw [← Tree.substitute_unwrap]
    split at hid
    · next s i tok heq =>
      split at hid
      · rw [heq, Tree.substitute, hid]
        exact hts
      · cases hid
    · cases hid
  obtain ⟨t, ht⟩ := exists_unmarked_arith k hp.symbol_eq
  exact typeUnder_eq hsub
    ((parsePlain_eq_some_iff hp.wildcard).mpr ⟨ht.formed, ht.symbol_eq, ht.yield_eq⟩) ht.type_eq

theorem passes_promoted {a : Arg} {ref : Ref} {k target : Kind} (hne : ref ≠ .mutable)
    (ha : a.type = .arith k) : a.Passes (.arith target) (passPromoted ref k target) ref := by
  unfold passPromoted
  by_cases hk : k = target
  · subst hk
    rw [if_pos rfl]
    cases ref with
    | mutable => exact absurd rfl hne
    | constant => exact .inl ⟨rfl, ha⟩
    | none => exact .inl ⟨rfl, ha⟩
  · rw [if_neg hk]
    cases ref with
    | mutable => exact absurd rfl hne
    | constant => exact .inr rfl
    | none => exact .inr rfl

theorem cast_of_finish {cast : Ty → Ref → Ty → Planned Transfer} {b : Bindings} {ref : Ref}
    {actual obj : Tree} {tr : Transfer}
    (h : finish cast b (.convert ref actual obj) = .ok (some tr)) :
    ∃ src dst, Ty.ofTree actual = .ok src ∧ concretize obj b = .ok (some dst) ∧
      cast src ref dst = .ok (some tr) := by
  rw [finish] at h
  cases hdst : concretize obj b with
  | error e => rw [hdst] at h; cases h
  | ok r =>
    cases r with
    | none => rw [hdst] at h; cases h
    | some dst =>
      rw [hdst] at h
      dsimp only at h
      split at h
      · cases hsrc : Ty.ofTree actual with
        | error e => rw [hsrc] at h; cases h
        | ok src =>
          rw [hsrc] at h
          exact ⟨src, dst, rfl, rfl, h⟩
      · cases h

/-- **The last pass, one argument**: what is left of a draft is done as promised. -/
theorem reaches_of_finish {cast : Ty → Ref → Ty → Planned Transfer} (hcast : MakesTarget cast)
    {a : Arg} {formal : Tree} {b : Bindings} {d : Draft} {tr : Transfer}
    (hd : Drafted a formal b d) (h : finish cast b d = .ok (some tr)) :
    a.Reaches b.texts? formal tr := by
  cases d with
  | settled tr' =>
    rw [finish] at h
    cases h
    exact hd
  | promote id ref k =>
    obtain ⟨hf, hhead, rfl, hne, hid, hk⟩ := hd
    rw [finish] at h
    split at h
    · next target htarget =>
      cases h
      exact .of_typed hhead (typeUnder_bareArithmetic (hf.unmarked hhead) hid htarget)
        (passes_promoted hne hk)
    · cases h
  | convert ref actual obj =>
    obtain ⟨hhead, hne, rfl⟩ := hd
    obtain ⟨src, dst, -, hdst, hmade⟩ := cast_of_finish h
    refine .of_typed hhead (typeUnder_of_concretize hdst) ?_
    have htarget := hcast _ _ _ _ hmade
    cases href : formal.splitRef.1 with
    | mutable => exact absurd href hne
    | constant => exact .inr htarget
    | none => exact .inr htarget

theorem reaches_of_finishAll {cast : Ty → Ref → Ty → Planned Transfer} (hcast : MakesTarget cast)
    {xs : List (Arg × Tree)} {b : Bindings} {ds : List Draft} {trs : List Transfer}
    (hd : List.Forall₂ (fun x d => Drafted x.1 x.2 b d) xs ds)
    (h : finishAll cast b ds = .ok (some trs)) :
    List.Forall₂ (fun x tr => x.1.Reaches b.texts? x.2 tr) xs trs := by
  induction hd generalizing trs with
  | nil => rw [finishAll] at h; cases h; exact .nil
  | @cons x d xs ds hd _ ih =>
    rw [finishAll] at h
    split at h
    · cases h
    · cases h
    next tr htr =>
    obtain ⟨trs', hrest, rfl⟩ := planned_map_eq h
    exact .cons (reaches_of_finish hcast hd htr) (ih hrest)

/-! ## The whole plan -/

theorem mem_params {start : Symbol} {sup : Signature} (h : sup.CompiledFrom start) {p : Tree}
    (hp : p ∈ sup.params) :
    p.Formed ∧ p.symbol = Symbol.paramObject ∧ ∀ tok ∈ p.yield, tok ∈ sup.root.yield := by
  unfold Signature.params at hp
  split at hp
  · next hfun =>
    unfold Signature.isFunction Tree.isFunctionForm at hfun
    split at hfun
    · next s i cs heq =>
      have hs : s = Symbol.function := by simpa using hfun
      subst hs
      have hformed := Tree.formed_unwrap h.formed
      rw [heq] at hformed hp
      obtain ⟨halt, hcs⟩ := formed_branch.mp hformed
      split at hp
      · next list hlist =>
        have hmem := List.mem_of_getElem? hlist
        have hsym : list.symbol = Symbol.paramList := by
          have hbody : cs.map Tree.symbol = [Keyword.function, Symbol.return_, Keyword.lparen,
              Symbol.paramList, Keyword.rparen] := by
            have halts : alternatives Symbol.function = [[Keyword.function, Symbol.return_,
              Keyword.lparen, Symbol.paramList, Keyword.rparen]] := by decide
            rw [halts] at halt
            rcases i with _ | i
            · exact (Option.some.inj halt).symm
            · cases halt
          have : (cs.map Tree.symbol)[3]? = some list.symbol := by
            rw [List.getElem?_map]
            exact congrArg (Option.map Tree.symbol) hlist
          rw [hbody] at this
          exact (Option.some.inj this).symm
        obtain ⟨htree, hall⟩ := eq_paramsTree (hcs list hmem) hsym
        obtain ⟨h1, h2⟩ := hall p hp
        refine ⟨h1, h2, fun tok htok => ?_⟩
        rw [← Tree.yield_unwrap, heq]
        refine Tree.mem_yield_branch.mpr ⟨list, hmem, ?_⟩
        rw [htree, yield_paramsTree]
        exact List.mem_flatten.mpr ⟨p.yield, List.mem_map_of_mem hp, htok⟩
      · cases hp
    · cases hfun
  · cases hp

theorem isFunction_of_mem_params {s : Signature} {p : Tree} (hp : p ∈ s.params) :
    s.isFunction = true := by
  unfold Signature.params at hp
  split at hp
  · assumption
  · cases hp

theorem isFormal_of_mem_params {start : Symbol} {sup : Signature} (h : sup.CompiledFrom start)
    {p : Tree} (hp : p ∈ sup.params) : p.IsFormal := by
  obtain ⟨hformed, hsymbol, hyield⟩ := mem_params h hp
  exact ⟨hformed, hsymbol, fun tok htok => h.numbered tok (hyield tok htok)⟩

theorem forall₂_getElem? {α β : Type} {R : α → β → Prop} {xs : List α} {ys : List β}
    (h : List.Forall₂ R xs ys) {i : Nat} {x : α} {y : β} (hx : xs[i]? = some x)
    (hy : ys[i]? = some y) : R x y := by
  obtain ⟨hi, rfl⟩ := List.getElem?_eq_some_iff.mp hx
  obtain ⟨hj, rfl⟩ := List.getElem?_eq_some_iff.mp hy
  exact (List.forall₂_iff_get.mp h).2 i hi hj

theorem exists_getElem?_of_forall₂ {α β : Type} {R : α → β → Prop} {xs : List α} {ys : List β}
    (h : List.Forall₂ R xs ys) {i : Nat} {x : α} (hx : xs[i]? = some x) :
    ∃ y, ys[i]? = some y ∧ R x y := by
  obtain ⟨hi, rfl⟩ := List.getElem?_eq_some_iff.mp hx
  have hj : i < ys.length := Nat.lt_of_lt_of_eq hi h.length_eq
  exact ⟨ys[i], List.getElem?_eq_getElem hj, (List.forall₂_iff_get.mp h).2 i hi hj⟩

/-- all that planning a call has done, one pass after the other -/
theorem planCall_stages {cast : Ty → Ref → Ty → Planned Transfer} {sub sup : Signature}
    {b : Bindings} {r : Match} (h : planCall cast sub sup b = .ok (some r)) :
    sub.params.length = sup.params.length ∧ ∃ subRet supRet b₁ ds b₂ b₃,
      sub.returnTree? = some subRet ∧ sup.returnTree? = some supRet ∧
      unifyReturn subRet supRet b = some b₁ ∧
      draftAll sub.params sup.params b₁ = some (ds, b₂) ∧
      promoteAll ds (Draft.groups ds) b₂ = .ok (some b₃) ∧
      finishAll cast b₃ ds = .ok (some r.transfers) ∧ r.bindings = b₃.toTexts ∧
      r.returns = instantiate supRet b₃ := by
  unfold planCall at h
  split at h
  · cases h
  next hlen =>
  refine ⟨not_not.mp hlen, ?_⟩
  split at h
  rotate_left
  · cases h
  next subRet supRet hsub hsup =>
  cases hret : unifyReturn subRet supRet b with
  | none => rw [hret] at h; cases h
  | some b₁ =>
    rw [hret] at h
    dsimp only at h
    cases hdraft : draftAll sub.params sup.params b₁ with
    | none => rw [hdraft] at h; cases h
    | some x =>
      obtain ⟨ds, b₂⟩ := x
      rw [hdraft] at h
      dsimp only at h
      cases hpromote : promoteAll ds (Draft.groups ds) b₂ with
      | error e => rw [hpromote] at h; cases h
      | ok o =>
        cases o with
        | none => rw [hpromote] at h; cases h
        | some b₃ =>
          rw [hpromote] at h
          dsimp only at h
          obtain ⟨trs, htrs, rfl⟩ := planned_map_eq h
          exact ⟨subRet, supRet, b₁, ds, b₂, b₃, hsub, hsup, hret, hdraft, hpromote, htrs, rfl,
            rfl⟩

theorem planCall_passes {cast : Ty → Ref → Ty → Planned Transfer} {sub sup : Signature}
    {b : Bindings} {r : Match} (h : planCall cast sub sup b = .ok (some r)) :
    sub.params.length = sup.params.length ∧ ∃ b₁ ds b₂ b₃,
      draftAll sub.params sup.params b₁ = some (ds, b₂) ∧
      promoteAll ds (Draft.groups ds) b₂ = .ok (some b₃) ∧
      finishAll cast b₃ ds = .ok (some r.transfers) ∧ r.bindings = b₃.toTexts := by
  obtain ⟨hlen, _, _, b₁, ds, b₂, b₃, _, _, _, hdraft, hpromote, hfinish, hbindings, _⟩ :=
    planCall_stages h
  exact ⟨hlen, b₁, ds, b₂, b₃, hdraft, hpromote, hfinish, hbindings⟩

theorem planCall_of_admitsWith {cast : Ty → Ref → Ty → Planned Transfer} {sub sup : Signature}
    {explicit : List (List String)} {r : Match} (hsub : sub.isFunction = true)
    (hsup : sup.isFunction = true) (h : admitsWith cast sub sup explicit = .ok (some r)) :
    ∃ b, bindExplicit 0 sup.declared explicit = some b ∧
      planCall cast sub sup b = .ok (some r) := by
  unfold admitsWith at h
  cases hb : bindExplicit 0 sup.declared explicit with
  | none => rw [hb] at h; cases h
  | some b =>
    rw [hb] at h
    dsimp only at h
    rw [hsub, hsup, Bool.and_self, if_pos rfl] at h
    exact ⟨b, rfl, h⟩

theorem planCall_of_admits {m : CastRules} {sub sup : Signature} {explicit : List (List String)}
    {r : Match} (hsub : sub.isFunction = true) (hsup : sup.isFunction = true)
    (h : m.admits sub sup explicit = .ok (some r)) :
    ∃ b, planCall m.cast sub sup b = .ok (some r) := by
  obtain ⟨b, _, hplan⟩ := planCall_of_admitsWith hsub hsup h
  exact ⟨b, hplan⟩

/-- **Plans are sound**: a call that a function declaration admits passes each argument once, and
in a way its parameter allows under the bindings of the match. -/
theorem plan_sound (m : CastRules) (explicit : List (List String)) {args : List Arg}
    {call : Signature} {strict strict' : Bool} {start : Symbol} {src : List String}
    {sup : Signature} {r : Match} (hargs : ∀ a ∈ args, a.type.WellFormed)
    (hcall : signature.compile (openCallForm args) Symbol.function strict = .ok call)
    (hstart : start ∈ signatureWildcards) (hsup : signature.compile src start strict' = .ok sup)
    (hfun : sup.isFunction = true) (h : m.admits call sup explicit = .ok (some r)) :
    sup.params.length = args.length ∧ r.transfers.length = args.length ∧
      ∀ (i : Nat) (a : Arg) (formal : Tree) (tr : Transfer), args[i]? = some a →
        sup.params[i]? = some formal → r.transfers[i]? = some tr →
          a.Reaches (fun id => r.bindings.lookup id) formal tr := by
  obtain ⟨hcallfun, _, hshown⟩ := params_shownBy hargs hcall
  have hformal : ∀ p ∈ sup.params, p.IsFormal :=
    fun p hp => isFormal_of_mem_params (compiledFrom_of_compile hstart hsup) hp
  obtain ⟨b, hplan⟩ := planCall_of_admits hcallfun hfun h
  obtain ⟨hlen, b₁, ds, b₂, b₃, hdraft, hpromote, hfinish, hbindings⟩ := planCall_passes hplan
  obtain ⟨_, hdrafts⟩ := drafted_of_draftAll hshown hformal hlen hdraft
  have hext := extends_of_promoteAll hpromote
  have hreach := reaches_of_finishAll (target_of_cast m)
    (hdrafts.imp fun _ _ hd => hd.mono hext) hfinish
  have hargslen : sup.params.length = args.length := by rw [← hlen, hshown.length_eq]
  refine ⟨hargslen, ?_, fun i a formal tr ha hf htr => ?_⟩
  · rw [← hreach.length_eq, List.length_zip, hargslen, Nat.min_self]
  · have hlookup : (fun id => r.bindings.lookup id) = b₃.texts? := by
      rw [hbindings]
      exact funext b₃.lookup_toTexts
    rw [hlookup]
    have hzip : (args.zip sup.params)[i]? = some (a, formal) :=
      List.getElem?_zip_eq_some.mpr ⟨ha, hf⟩
    exact forall₂_getElem? hreach hzip htr

def valueParam (t : Tree) : Tree := .branch Symbol.paramObject 0 [.branch Symbol.object 0 [t]]

theorem formed_valueParam {t : Tree} (ht : t.Formed) (hs : t.symbol = Symbol.arithmetic) :
    (valueParam t).Formed ∧ (valueParam t).symbol = Symbol.paramObject := by
  have hobject : (Tree.branch Symbol.object 0 [t]).Formed := by
    refine formed_branch.mpr ⟨?_, by simpa using ht⟩
    rw [List.map_singleton, hs]
    decide
  exact ⟨formed_single (by rfl) hobject, rfl⟩

def procedureTree (params : Tree) : Tree :=
  .branch Symbol.function 0 [.leaf Keyword.function ⟨Keyword.function, none⟩,
    .branch Symbol.return_ 0 [.branch Symbol.type 2 [.leaf Keyword.void ⟨Keyword.void, none⟩]],
    .leaf Keyword.lparen ⟨Keyword.lparen, none⟩, params,
    .leaf Keyword.rparen ⟨Keyword.rparen, none⟩]

theorem formed_procedureTree {params : Tree} (h : params.Formed)
    (hs : params.symbol = Symbol.paramList) : (procedureTree params).Formed := by
  have h1 := (spells_keyword (k := Keyword.function) (by decide)).formed
  have h2 := (spells_keyword (k := Keyword.void) (by decide)).formed
  have h3 := (spells_keyword (k := Keyword.lparen) (by decide)).formed
  have h5 := (spells_keyword (k := Keyword.rparen) (by decide)).formed
  have htype : (Tree.branch Symbol.type 2 [.leaf Keyword.void ⟨Keyword.void, none⟩]).Formed :=
    formed_single (by decide) h2
  have hret : (Tree.branch Symbol.return_ 0
      [.branch Symbol.type 2 [.leaf Keyword.void ⟨Keyword.void, none⟩]]).Formed :=
    formed_single (by decide) htype
  refine formed_branch.mpr ⟨?_, by simpa using ⟨h1, hret, h3, h, h5⟩⟩
  rw [List.map_cons, List.map_cons, List.map_cons, List.map_cons, hs]
  decide

/-- two arguments of one arithmetic wildcard: the narrower one is cast to the wider one's kind -/
theorem plan_sound_promotion :
    ∃ call sup r,
      signature.compile (openCallForm [⟨.arith .i32, .none⟩, ⟨.arith .f64, .none⟩])
        Symbol.function false = .ok call ∧
      signature.compile ["!Arithmetic", "FUNCTION", "VOID", "(", "?0", "?0", ")"] Symbol.function
        false = .ok sup ∧
      CastRules.admits ⟨none, []⟩ call sup [] = .ok (some r) ∧ r.transfers.length = 2 ∧
      ∀ formal tr, sup.params[0]? = some formal → r.transfers[0]? = some tr →
        Arg.Reaches ⟨.arith .i32, .none⟩ (fun id => r.bindings.lookup id) formal tr := by
  have hstart : Symbol.function ∈ signatureWildcards := by decide
  have hi32 := formed_valueParam (t := .branch Symbol.arithmetic 5 [.leaf "I32" ⟨"I32", none⟩])
    (formed_branch.mpr ⟨by decide, by
      simpa using (spells_keyword (k := "I32") (by decide)).formed⟩) rfl
  have hf64 := formed_valueParam (t := .branch Symbol.arithmetic 10 [.leaf "F64" ⟨"F64", none⟩])
    (formed_branch.mpr ⟨by decide, by
      simpa using (spells_keyword (k := "F64") (by decide)).formed⟩) rfl
  have hwild := formed_valueParam (t := .head Symbol.arithmetic 11 ⟨"Arithmetic", some 0⟩)
    (formed_head.mpr ⟨by decide, by decide, rfl⟩) rfl
  obtain ⟨hargs, hargsym⟩ := formed_paramsTree (l := [_, _]) (by simpa using ⟨hi32, hf64⟩)
  obtain ⟨hparams, hparamsym⟩ := formed_paramsTree (l := [_, _]) (by simpa using ⟨hwild, hwild⟩)
  have hcall := compile_of_formed (openCallForm [⟨.arith .i32, .none⟩, ⟨.arith .f64, .none⟩]) false
    ⟨[], callTokens [[⟨"I32", none⟩], [⟨"F64", none⟩]]⟩ hstart
    (prepareBody_signature (by rintro ⟨_, _, _, _, _, _, _⟩ rfl; rfl))
    (formed_callTree hargs hargsym) rfl rfl
  have hsup := compile_of_formed ["!Arithmetic", "FUNCTION", "VOID", "(", "?0", "?0", ")"] false
    ⟨["Arithmetic"], [⟨"FUNCTION", none⟩, ⟨"VOID", none⟩, ⟨"(", none⟩,
      ⟨"Arithmetic", some 0⟩, ⟨"Arithmetic", some 0⟩, ⟨")", none⟩]⟩ hstart
    (prepareBody_signature (by rintro ⟨_, _, _, _, _, _, _⟩ rfl; rfl))
    (formed_procedureTree hparams hparamsym) rfl rfl
  refine ⟨_, _, ⟨[.numeric (.arith .f64), .clone], [(0, ["F64"])], some ["VOID"]⟩, hcall, hsup,
    rfl, ?_⟩
  have hwf : ∀ a ∈ [(⟨.arith .i32, .none⟩ : Arg), ⟨.arith .f64, .none⟩], a.type.WellFormed := by
    intro a ha
    rcases List.mem_pair.mp ha with rfl | rfl <;> trivial
  obtain ⟨_, hlen, hreach⟩ := plan_sound ⟨none, []⟩ [] hwf hcall hstart hsup rfl rfl
  exact ⟨hlen, fun formal tr hformal htr => hreach 0 _ formal tr rfl hformal htr⟩

end Overloading
