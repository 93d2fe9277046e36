import Overloading.Catalog.Operators
import Overloading.Proofs.CallTrees

/-!
# Catalogs along their runs

A catalog is made empty, and then grows by declarations, templates and list shapes
(`Catalog.Reachable`).

* `declare_cases`    all that a declaration can do: nothing, fill a prototype in, add an overload;
* `Catalog.Compiled`    every overload has a compiled function signature, in every catalog that is
                        reached (`Reachable.compiled`).
-/

namespace Overloading

open Grammar

namespace Catalog

variable {τ : Type}

/-! ## Steps -/

def declared? (r : Catalog τ) (domain name : String) (s : Signature) : Option (Overload τ × Nat) :=
  (r.overloadsOf domain name).find? fun o => o.1.signature.text == s.text

/-- a catalog with an implementation for one of its prototypes -/
def implement (r : Catalog τ) (i : Nat) (target : Option (Implementation τ)) : Catalog τ :=
  { r with overloads := r.overloads.modify i fun o => { o with target := target } }

/-- what a declaration has done -/
theorem declare_cases {r r' : Catalog τ} {domain name sig : String}
    {target : Option (Implementation τ)} {records : List Record}
    (h : r.declare domain name sig target = .ok (r', records)) :
    ∃ s, signature.compileText sig Symbol.function r.config.strictWildcards = .ok s ∧
      s.isFunction = true ∧
      ((∃ o i, r.declared? domain name s = some (o, i) ∧
          (target = none ∧ r' = r ∨
            target.isSome = true ∧ o.target = none ∧ r' = r.implement i target)) ∨
        (r.declared? domain name s = none ∧
          r' = r.addOverload ⟨⟨domain, name, s⟩, target⟩)) := by
  unfold declare at h
  obtain ⟨s, hs, h⟩ := bind_eq_ok.mp h
  cases hfun : s.isFunction with
  | false =>
    rw [hfun] at h
    cases h
  | true =>
    refine ⟨s, hs, hfun, ?_⟩
    rw [hfun] at h
    simp only [Bool.not_true, Bool.false_eq_true, if_false] at h
    split at h
    · next o i hfind =>
      refine .inl ⟨o, i, hfind, ?_⟩
      cases target with
      | none =>
        cases h
        exact .inl ⟨rfl, rfl⟩
      | some t =>
        cases himpl : o.target with
        | some _ => rw [himpl] at h; cases h
        | none =>
          rw [himpl] at h
          cases h
          exact .inr ⟨rfl, rfl, rfl⟩
    · next hfind =>
      cases h
      exact .inr ⟨hfind, rfl⟩

theorem declare_fresh {r : Catalog τ} {domain name sig : String} {s : Signature}
    (target : Option (Implementation τ))
    (hs : signature.compileText sig Symbol.function r.config.strictWildcards = .ok s)
    (hfun : s.isFunction = true) (hfresh : r.declared? domain name s = none) :
    r.declare domain name sig target = .ok (r.addOverload ⟨⟨domain, name, s⟩, target⟩,
      [registeredRecord ⟨domain, name, s⟩ target.isNone]) := by
  unfold declare
  refine bind_eq_ok.mpr ⟨s, hs, ?_⟩
  unfold declared? at hfresh
  simp only [hfun, hfresh, Bool.not_true, Bool.false_eq_true, if_false]
  rfl

theorem getElem?_implement (r : Catalog τ) (i j : Nat) (target : Option (Implementation τ)) :
    (r.implement i target).overloads[j]? =
      (r.overloads[j]?).map fun o => if i = j then { o with target := target } else o := by
  show (r.overloads.modify i _)[j]? = _
  rw [Array.getElem?_modify]
  split <;> simp

theorem getElem?_addOverload (r : Catalog τ) (o : Overload τ) (j : Nat) :
    (r.addOverload o).overloads[j]? =
      if j = r.overloads.size then some o else r.overloads[j]? := by
  show (r.overloads.push o)[j]? = _
  rw [Array.getElem?_push]

/-! ## Runs -/

/-- the catalogs that are made by declarations, templates and list shapes -/
inductive Reachable : Catalog τ → Prop where
  | new {config : Config} {r : Catalog τ} {records : List Record}
      (h : Catalog.new config = .ok (r, records)) : Reachable r
  | declare {r r' : Catalog τ} {domain name sig : String} {target : Option (Implementation τ)}
      {records : List Record} (hr : Reachable r)
      (h : r.declare domain name sig target = .ok (r', records)) : Reachable r'
  | addTemplate {r r' : Catalog τ} {owner name : String} {arity : Int} {layout : Layout}
      {records : List Record} (hr : Reachable r)
      (h : r.addTemplate owner name arity layout = .ok (r', records)) : Reachable r'
  | addShape {r : Catalog τ} (hr : Reachable r) (domain : String) (s : BraceLayout) :
      Reachable (r.addShape domain s).1

theorem config_declare {r r' : Catalog τ} {domain name sig : String}
    {target : Option (Implementation τ)} {records : List Record}
    (h : r.declare domain name sig target = .ok (r', records)) : r'.config = r.config := by
  obtain ⟨s, _, _, ⟨o, i, _, ⟨_, rfl⟩ | ⟨_, _, rfl⟩⟩ | ⟨_, rfl⟩⟩ := declare_cases h
  · rfl
  · rfl
  · rfl

theorem config_declareAll (r : Catalog τ) (ops : List (String × String × Implementation τ)) :
    (r.declareAll ops).1.1.config = r.config := by
  induction ops generalizing r with
  | nil => rfl
  | cons op ops ih =>
    obtain ⟨name, sig, target⟩ := op
    rw [declareAll]
    split
    · rfl
    · next r' records h => exact (ih r').trans (config_declare h)

theorem Reachable.declareAll {r : Catalog τ} (hr : r.Reachable)
    (ops : List (String × String × Implementation τ)) : (r.declareAll ops).1.1.Reachable := by
  induction ops generalizing r with
  | nil => exact hr
  | cons op ops ih =>
    obtain ⟨name, sig, target⟩ := op
    rw [Catalog.declareAll]
    split
    · exact hr
    · next r' records h => exact ih (.declare hr h)

theorem addTemplate_cases {r r' : Catalog τ} {owner name : String} {arity : Int} {layout : Layout}
    {records : List Record} (h : r.addTemplate owner name arity layout = .ok (r', records)) :
    ∃ (t : Template) (r₁ : Catalog τ) (records₁ : List Record),
      t = ⟨owner, name, arity.toNat, layout⟩ ∧ 0 ≤ arity ∧ r.template? t.domain = none ∧
      r.declare t.domain defaultConstructorName t.nullarySignature (some (memberwiseDefault t)) =
        .ok (r₁, records₁) ∧
      r' = { r₁ with
        templates := r₁.templates ++ [(t.domain, t)]
        shapes := r₁.shapes ++ [(t.domain, ⟨layout, arity⟩)] } := by
  unfold addTemplate at h
  by_cases harity : arity < 0
  · rw [if_pos harity] at h
    cases h
  rw [if_neg harity] at h
  dsimp only at h
  cases htemplate : r.template? (Template.domain ⟨owner, name, arity.toNat, layout⟩) with
  | some t =>
    rw [htemplate] at h
    cases h
  | none =>
    rw [htemplate] at h
    simp only [Option.isSome_none, Bool.false_eq_true, if_false] at h
    obtain ⟨⟨r₁, records₁⟩, hdeclare, h⟩ := bind_eq_ok.mp h
    cases h
    exact ⟨_, r₁, records₁, rfl, by omega, htemplate, hdeclare, rfl⟩

theorem new_cases {config : Config} {r : Catalog τ} {records : List Record}
    (h : Catalog.new config = .ok (r, records)) :
    ∃ order, Strategy.parseOrder config.castOrder = .ok order ∧
      addTemplate ⟨config, order, #[], [], [], []⟩ globalDomain initializerListName 1
        initializerListLayout = .ok (r, records) := by
  unfold Catalog.new at h
  obtain ⟨_, _, h⟩ := bind_eq_ok.mp h
  obtain ⟨order, horder, h⟩ := bind_eq_ok.mp h
  exact ⟨order, horder, h⟩

/-- every overload has a compiled function signature -/
def Compiled (r : Catalog τ) : Prop :=
  ∀ (i : Nat) (o : Overload τ), r.overloads[i]? = some o →
    (∃ src strict, signature.compile src Symbol.function strict = .ok o.signature) ∧
      o.signature.isFunction = true

/-- what every declaration of a catalog has, and a new one too, every declaration has afterwards -/
theorem declaration_declare {r r' : Catalog τ} {domain name sig : String}
    {target : Option (Implementation τ)} {records : List Record} {P : Declaration → Prop}
    (h : r.declare domain name sig target = .ok (r', records))
    (hr : ∀ (i : Nat) (o : Overload τ), r.overloads[i]? = some o → P o.toDeclaration)
    (hnew : ∀ s, signature.compileText sig Symbol.function r.config.strictWildcards = .ok s →
      s.isFunction = true → P ⟨domain, name, s⟩) :
    ∀ (i : Nat) (o : Overload τ), r'.overloads[i]? = some o → P o.toDeclaration := by
  obtain ⟨s, hs, hfun, ⟨o, i, _, ⟨_, rfl⟩ | ⟨_, _, rfl⟩⟩ | ⟨_, rfl⟩⟩ := declare_cases h
  · exact hr
  · intro j p hp
    rw [getElem?_implement] at hp
    obtain ⟨q, hq, rfl⟩ := Option.map_eq_some_iff.mp hp
    have hold := hr j q hq
    split <;> exact hold
  · intro j p hp
    rw [getElem?_addOverload] at hp
    split at hp
    · cases hp
      exact hnew s hs hfun
    · exact hr j p hp

theorem Compiled.declare {r r' : Catalog τ} {domain name sig : String}
    {target : Option (Implementation τ)} {records : List Record} (hr : r.Compiled)
    (h : r.declare domain name sig target = .ok (r', records)) : r'.Compiled :=
  declaration_declare h
    (P := fun d => (∃ src strict, signature.compile src Symbol.function strict = .ok d.signature) ∧
      d.signature.isFunction = true) hr fun _ hs hfun => ⟨⟨_, _, hs⟩, hfun⟩

theorem Compiled.addTemplate {r r' : Catalog τ} {owner name : String} {arity : Int}
    {layout : Layout} {records : List Record} (hr : r.Compiled)
    (h : r.addTemplate owner name arity layout = .ok (r', records)) : r'.Compiled := by
  obtain ⟨t, r₁, records₁, _, _, _, hdeclare, rfl⟩ := addTemplate_cases h
  have hr₁ : r₁.Compiled := hr.declare hdeclare
  exact hr₁

theorem Reachable.compiled {r : Catalog τ} (h : r.Reachable) : r.Compiled := by
  induction h with
  | @new config r records h =>
    obtain ⟨order, _, htemplate⟩ := new_cases h
    have hempty : Compiled (⟨config, order, #[], [], [], []⟩ : Catalog τ) := by
      intro i o ho
      simp at ho
    exact hempty.addTemplate htemplate
  | declare _ h ih => exact ih.declare h
  | addTemplate _ h ih => exact ih.addTemplate h
  | addShape _ domain s ih =>
    intro i o ho
    exact ih i o ho

theorem mem_overloadsOf {r : Catalog τ} {domain name : String} {o : Overload τ} {i : Nat} :
    (o, i) ∈ r.overloadsOf domain name ↔
      r.overloads[i]? = some o ∧ o.domain = domain ∧ o.name = name := by
  unfold overloadsOf
  rw [List.mem_filter, List.mem_zipIdx_iff_getElem?, Array.getElem?_toList]
  simp

theorem overloadsOf_addOverload (r : Catalog τ) (o : Overload τ) (domain name : String) :
    (r.addOverload o).overloadsOf domain name = r.overloadsOf domain name ++
      if o.domain = domain ∧ o.name = name then [(o, r.overloads.size)] else [] := by
  unfold overloadsOf addOverload
  rw [Array.toList_push, List.zipIdx_append, List.filter_append]
  congr 1
  simp only [List.zipIdx_singleton, Array.length_toList, Nat.zero_add, List.filter_singleton]
  simp

/-! ## The first catalog -/

/-- the list shapes of a catalog give well-formed classes well-formed fields -/
def WellShaped (r : Catalog τ) : Prop :=
  ∀ c : ClassTy, c.WellFormed → ∀ s ∈ r.shapesOf c, ∀ fs, s.fieldTypes? c = some fs →
    ∀ f ∈ fs, f.WellFormed

theorem wellFormed_initializerList {c : ClassTy} (hc : c.WellFormed) {fs : List Ty}
    (h : BraceLayout.fieldTypes? ⟨initializerListLayout, 1⟩ c = some fs) :
    ∀ f ∈ fs, f.WellFormed := by
  unfold BraceLayout.fieldTypes? at h
  split at h
  · cases h
  obtain ⟨fields, hfields, rfl⟩ := Option.map_eq_some_iff.mp h
  obtain ⟨n, as, outer⟩ := c
  rw [ClassTy.WellFormed] at hc
  cases as with
  | nil => cases hfields
  | cons t ts =>
    cases hfields
    rw [Ty.WellFormedAll] at hc
    intro f hf
    rcases List.mem_pair.mp hf with rfl | rfl
    · rw [Ty.WellFormed]
      exact hc.2.1.1
    · trivial

theorem new_spec {config : Config} {r : Catalog τ} {records : List Record}
    (h : Catalog.new config = .ok (r, records)) :
    r.config = config ∧ Strategy.parseOrder config.castOrder = .ok r.order ∧ r.WellShaped ∧
      ∀ domain name, name ≠ defaultConstructorName → r.overloadsOf domain name = [] := by
  obtain ⟨order, horder, htemplate⟩ := new_cases h
  obtain ⟨t, r₁, records₁, rfl, _, _, hdeclare, rfl⟩ := addTemplate_cases htemplate
  obtain ⟨s, _, _, ⟨o, i, hfind, _⟩ | ⟨_, rfl⟩⟩ := declare_cases hdeclare
  · simp [declared?, overloadsOf] at hfind
  refine ⟨rfl, horder, fun c hc shape hshape fs hfs => ?_, fun domain name hname => ?_⟩
  · have heq : shape = ⟨initializerListLayout, 1⟩ := by
      obtain ⟨e, he, rfl⟩ := List.mem_map.mp hshape
      have he := List.mem_of_mem_filter he
      simp only [addOverload, List.nil_append, List.mem_singleton] at he
      rw [he]
    rw [heq] at hfs
    exact wellFormed_initializerList hc hfs
  · simp only [overloadsOf, addOverload]
    simp [hname.symm]

theorem conversions_new {config : Config} {r : Catalog τ} {records : List Record}
    (h : Catalog.new config = .ok (r, records)) : r.conversions = [] := by
  obtain ⟨order, _, htemplate⟩ := new_cases h
  obtain ⟨t, r₁, records₁, rfl, _, _, hdeclare, rfl⟩ := addTemplate_cases htemplate
  obtain ⟨s, _, _, ⟨o, i, hfind, _⟩ | ⟨_, rfl⟩⟩ := declare_cases hdeclare
  · simp [declared?, overloadsOf] at hfind
  · have hname : (defaultConstructorName == constructorName) = false := by decide
    simp [addOverload, isConversion, hname]

/-- the tree of `FUNCTION CLASS initializer_list < Type > ( )` -/
def emptyListTree : Tree :=
  formTree (.branch Symbol.return_ 0 [.branch Symbol.type 0 [.branch Symbol.object 3
    [classTree initializerListName
      (.branch Symbol.typeList 0 [.head Symbol.type 3 ⟨Symbol.type, some 0⟩,
        .branch Symbol.typeList 1 []])
      (.branch Symbol.enclosing 1 [])]]]) (paramsTree [])

theorem formed_emptyListTree : emptyListTree.Formed := by
  have hhead : (Tree.head Symbol.type 3 ⟨Symbol.type, some 0⟩).Formed :=
    formed_head.mpr ⟨by decide, by decide, rfl⟩
  have hnil : (Tree.branch Symbol.typeList 1 []).Formed := formed_branch.mpr ⟨by decide, nofun⟩
  have houter : (Tree.branch Symbol.enclosing 1 []).Formed := formed_branch.mpr ⟨by decide, nofun⟩
  have hlist : (Tree.branch Symbol.typeList 0 [.head Symbol.type 3 ⟨Symbol.type, some 0⟩,
      .branch Symbol.typeList 1 []]).Formed :=
    formed_branch.mpr ⟨by decide, by simpa using ⟨hhead, hnil⟩⟩
  have hname : signature.classify initializerListName = Symbol.ident :=
    classify_name (by decide) (by decide) (by decide) (by decide) (by decide)
  have hclass := formed_single (s := Symbol.object) (i := 3) (by decide)
    (formed_classTree hname hlist rfl houter rfl)
  have htype := formed_single (s := Symbol.type) (i := 0) (by decide) hclass
  exact formed_formTree.mpr ⟨⟨formed_single (by decide) htype, rfl⟩, formed_paramsTree nofun⟩

theorem exists_parseOrder {seen names : List String} (h : Config.checkOrder seen names = .ok ()) :
    ∃ order, Strategy.parseOrder names = .ok order := by
  induction names generalizing seen with
  | nil => exact ⟨[], rfl⟩
  | cons n names ih =>
    rw [Config.checkOrder] at h
    split at h
    · cases h
    next hknown =>
    split at h
    · cases h
    obtain ⟨order, horder⟩ := ih h
    have hmem : n ∈ Strategy.all.map Strategy.name := by
      simpa [Config.defaultCastOrder] using hknown
    obtain ⟨s, _, rfl⟩ := List.mem_map.mp hmem
    refine ⟨s :: order, ?_⟩
    rw [Strategy.parseOrder, Strategy.ofName?_name]
    dsimp only
    rw [horder]
    rfl

theorem validate_spec {config : Config} (h : config.validate = .ok ()) :
    (∃ p, Overflow.ofText config.unsignedOverflow = .ok p) ∧
      ∃ order, Strategy.parseOrder config.castOrder = .ok order := by
  unfold Config.validate at h
  obtain ⟨p, hp, h⟩ := bind_eq_ok.mp h
  refine ⟨⟨p, hp⟩, ?_⟩
  dsimp only at h
  split at h
  · obtain ⟨_, hthrow, _⟩ := bind_eq_ok.mp h
    cases hthrow
  split at h
  · obtain ⟨_, hthrow, _⟩ := bind_eq_ok.mp h
    cases hthrow
  · exact exists_parseOrder h

/-- settings that make sense give a catalog: its one signature compiles, whichever rule there is
for the order of wildcards, and nothing else can go wrong -/
theorem exists_new_of_validate (τ : Type) {config : Config} (h : config.validate = .ok ()) :
    ∃ (r : Catalog τ) (records : List Record), Catalog.new config = .ok (r, records) := by
  obtain ⟨_, order, horder⟩ := validate_spec h
  let t : Template := ⟨globalDomain, initializerListName, 1, initializerListLayout⟩
  have hfields : Text.fields t.nullarySignature =
      ["!Type", "FUNCTION", "CLASS", "initializer_list", "<", "?0", ">", "(", ")"] := by decide
  have hcompile := fun strict : Bool => compile_of_formed
    ["!Type", "FUNCTION", "CLASS", "initializer_list", "<", "?0", ">", "(", ")"] strict
    ⟨["Type"], [⟨"FUNCTION", none⟩, ⟨"CLASS", none⟩, ⟨"initializer_list", none⟩, ⟨"<", none⟩,
      ⟨"Type", some 0⟩, ⟨">", none⟩, ⟨"(", none⟩, ⟨")", none⟩]⟩
    (show Symbol.function ∈ signatureWildcards by decide)
    (prepareBody_signature (by rintro ⟨_, _, _, _, _, _, _⟩ rfl; cases strict <;> rfl))
    formed_emptyListTree rfl rfl
  rw [← hfields] at hcompile
  have hdeclare : ∃ res, (⟨config, order, #[], [], [], []⟩ : Catalog τ).declare
      t.domain defaultConstructorName t.nullarySignature (some (memberwiseDefault t)) = .ok res :=
    ⟨_, bind_eq_ok.mpr ⟨_, hcompile config.strictWildcards, rfl⟩⟩
  obtain ⟨res, hres⟩ := hdeclare
  exact ⟨_, _, bind_eq_ok.mpr ⟨(), h, bind_eq_ok.mpr ⟨order, horder,
    bind_eq_ok.mpr ⟨res, hres, rfl⟩⟩⟩⟩

theorem exists_new (τ : Type) :
    ∃ (r : Catalog τ) (records : List Record), Catalog.new Config.default = .ok (r, records) :=
  exists_new_of_validate τ rfl

end Catalog

end Overloading
