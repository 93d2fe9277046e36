import Overloading.Proofs.CatalogEdits

/-!
# What edits keep

* `Catalog.Grows`       what edits never undo: signatures and their order, implementations, list
                        shapes and templates;
* `Catalog.Consistent`  how the tables of a catalog hang together;
* `Edit.sound`          one edit, whether it faults or not: a consistent catalog stays so and grows;
* `catalog_invariants`  any edits of a new catalog; a declaration or a template that faults leaves
                        everything as it was.
-/

namespace Overloading

open Grammar

variable {τ : Type}

/-! ## Signatures and their texts -/

theorem Signature.eq_of_text {a b : String} {start : Symbol} {strict : Bool} {s s' : Signature}
    (hs : signature.compileText a start strict = .ok s)
    (hs' : signature.compileText b start strict = .ok s') (h : s.text = s'.text) : s = s' := by
  have hsource : s.source = Text.fields a := by
    obtain ⟨_, _, _, _, rfl⟩ := compile_eq_ok.mp hs
    rfl
  have hsource' : s'.source = Text.fields b := by
    obtain ⟨_, _, _, _, rfl⟩ := compile_eq_ok.mp hs'
    rfl
  have hfields : Text.fields a = Text.fields b := by
    unfold Signature.text at h
    rw [hsource, hsource'] at h
    rw [← Text.fields_intercalate a, h, Text.fields_intercalate]
  unfold compileText at hs hs'
  rw [hfields, hs'] at hs
  exact (Except.ok.inj hs).symm

namespace Catalog

variable {r r' r'' : Catalog τ}

/-- the signatures of a name with their numbers, in the order they were declared -/
def signaturesOf (r : Catalog τ) (domain name : String) : List (Signature × Nat) :=
  (r.overloadsOf domain name).map fun o => (o.1.signature, o.2)

/-- the signatures of the constructors of a domain that take one argument -/
def makersOf (r : Catalog τ) (domain : String) : List (Signature × Nat) :=
  (r.signaturesOf domain constructorName).filter fun s => s.1.params.length == 1

theorem overloadsOf_implement (r : Catalog τ) (i : Nat) (target : Option (Implementation τ))
    (domain name : String) : (r.implement i target).overloadsOf domain name =
      (r.overloadsOf domain name).map fun o =>
        (if i = o.2 then { o.1 with target := target } else o.1, o.2) := by
  have hzip : (r.implement i target).overloads.toList.zipIdx = r.overloads.toList.zipIdx.map
      fun o => (if i = o.2 then { o.1 with target := target } else o.1, o.2) := by
    apply List.ext_getElem?
    intro j
    rw [List.getElem?_zipIdx, List.getElem?_map, List.getElem?_zipIdx, Array.getElem?_toList,
      Array.getElem?_toList, getElem?_implement]
    cases r.overloads[j]? with
    | none => rfl
    | some o => simp
  unfold overloadsOf
  rw [hzip, List.filter_map]
  congr 1
  apply List.filter_congr
  intro o _
  show _ = _
  by_cases h : i = o.2
  · simp [h]
  · simp [h]

theorem signaturesOf_implement (r : Catalog τ) (i : Nat) (target : Option (Implementation τ))
    (domain name : String) :
    (r.implement i target).signaturesOf domain name = r.signaturesOf domain name := by
  unfold signaturesOf
  rw [overloadsOf_implement, List.map_map]
  apply List.map_congr_left
  intro o _
  by_cases h : i = o.2
  · simp [h]
  · simp [h]

theorem signaturesOf_addOverload (r : Catalog τ) (o : Overload τ) (domain name : String) :
    (r.addOverload o).signaturesOf domain name = r.signaturesOf domain name ++
      if o.domain = domain ∧ o.name = name then [(o.signature, r.overloads.size)] else [] := by
  unfold signaturesOf
  rw [overloadsOf_addOverload, List.map_append]
  congr 1
  split <;> rfl

/-! ## Growth -/

/-- what one catalog has the other has too, in the same order and unchanged; only prototypes may
have been implemented -/
structure Grows (r r' : Catalog τ) : Prop where
  config : r'.config = r.config
  order : r'.order = r.order
  signatures : ∀ domain name, r.signaturesOf domain name <+: r'.signaturesOf domain name
  overloads : ∀ (i : Nat) (o : Overload τ), r.overloads[i]? = some o →
    ∃ o', r'.overloads[i]? = some o' ∧ o'.toDeclaration = o.toDeclaration ∧
      ∀ f, o.target = some f → o'.target = some f
  shapes : r.shapes <+: r'.shapes
  templates : r.templates <+: r'.templates

theorem Grows.refl (r : Catalog τ) : r.Grows r :=
  ⟨rfl, rfl, fun _ _ => List.prefix_rfl, fun _ o ho => ⟨o, ho, rfl, fun _ hf => hf⟩,
    List.prefix_rfl, List.prefix_rfl⟩

theorem Grows.trans (h : r.Grows r') (h' : r'.Grows r'') : r.Grows r'' := by
  refine ⟨h'.config.trans h.config, h'.order.trans h.order, fun domain name => ?_, ?_,
    h.shapes.trans h'.shapes, h.templates.trans h'.templates⟩
  · exact (h.signatures domain name).trans (h'.signatures domain name)
  · intro i o ho
    obtain ⟨o', ho', hd, ht⟩ := h.overloads i o ho
    obtain ⟨o'', ho'', hd', ht'⟩ := h'.overloads i o' ho'
    exact ⟨o'', ho'', hd'.trans hd, fun f hf => ht' f (ht f hf)⟩

theorem mem_of_declared? {domain name : String} {s : Signature} {o : Overload τ} {i : Nat}
    (h : r.declared? domain name s = some (o, i)) :
    (o, i) ∈ r.overloadsOf domain name ∧ o.signature.text = s.text :=
  ⟨List.mem_of_find?_eq_some h, by simpa using List.find?_some h⟩

theorem grows_implement {o : Overload τ} {i : Nat} (ho : r.overloads[i]? = some o)
    (htarget : o.target = none) (target : Option (Implementation τ)) :
    r.Grows (r.implement i target) := by
  refine ⟨rfl, rfl, fun domain name => ?_, fun j p hp => ?_, List.prefix_rfl, List.prefix_rfl⟩
  · exact ⟨[], by rw [List.append_nil, signaturesOf_implement]⟩
  rw [getElem?_implement, hp, Option.map_some]
  by_cases h : i = j
  · subst h
    rw [ho] at hp
    cases hp
    rw [if_pos rfl]
    refine ⟨_, rfl, rfl, fun f hf => ?_⟩
    rw [htarget] at hf
    cases hf
  · rw [if_neg h]
    exact ⟨p, rfl, rfl, fun _ hf => hf⟩

theorem grows_addOverload (r : Catalog τ) (o : Overload τ) : r.Grows (r.addOverload o) := by
  refine ⟨rfl, rfl, fun domain name => ?_, fun i p hp => ⟨p, ?_, rfl, fun _ hf => hf⟩,
    List.prefix_rfl, List.prefix_rfl⟩
  · rw [signaturesOf_addOverload]
    exact List.prefix_append _ _
  · rw [getElem?_addOverload, if_neg, hp]
    exact Nat.ne_of_lt (Array.getElem?_eq_some_iff.mp hp).1

theorem grows_declare {domain name sig : String} {target : Option (Implementation τ)}
    {records : List Record} (h : r.declare domain name sig target = .ok (r', records)) :
    r.Grows r' := by
  obtain ⟨s, _, _, ⟨o, i, hfind, ⟨_, rfl⟩ | ⟨_, htarget, rfl⟩⟩ | ⟨_, rfl⟩⟩ := declare_cases h
  · exact .refl _
  · exact grows_implement (mem_overloadsOf.mp (mem_of_declared? hfind).1).1 htarget target
  · exact grows_addOverload r _

theorem grows_addTemplate {owner name : String} {arity : Int} {layout : Layout}
    {records : List Record} (h : r.addTemplate owner name arity layout = .ok (r', records)) :
    r.Grows r' := by
  obtain ⟨t, r₁, records₁, _, _, _, hdeclare, rfl⟩ := addTemplate_cases h
  have h₁ := grows_declare hdeclare
  exact ⟨h₁.config, h₁.order, h₁.signatures, h₁.overloads,
    h₁.shapes.trans (List.prefix_append _ _), h₁.templates.trans (List.prefix_append _ _)⟩

theorem grows_addShape (r : Catalog τ) (domain : String) (s : BraceLayout) :
    r.Grows (r.addShape domain s).1 :=
  ⟨rfl, rfl, fun _ _ => List.prefix_rfl, fun _ o ho => ⟨o, ho, rfl, fun _ hf => hf⟩,
    List.prefix_append _ _, List.prefix_rfl⟩

/-! ## Consistency -/

/-- every signature has been compiled from a text, under the catalog's own rule on wildcards -/
def Written (r : Catalog τ) : Prop :=
  ∀ (i : Nat) (o : Overload τ), r.overloads[i]? = some o →
    ∃ sig, signature.compileText sig Symbol.function r.config.strictWildcards = .ok o.signature

/-- a template has its default constructor, implemented, and its shape in the domain it is noted
under -/
structure Provided (r : Catalog τ) (domain : String) (t : Template) : Prop where
  domain_eq : t.domain = domain
  default : ∃ o i, (o, i) ∈ r.overloadsOf domain defaultConstructorName ∧
    signature.compileText t.nullarySignature Symbol.function r.config.strictWildcards =
      .ok o.signature ∧ o.target = some (memberwiseDefault t)
  shape : (domain, ⟨t.layout, t.arity⟩) ∈ r.shapes

/-- how the tables of a catalog hang together -/
structure Consistent (r : Catalog τ) : Prop where
  written : r.Written
  distinct : ∀ domain name, ((r.signaturesOf domain name).map fun s => s.1.text).Nodup
  ordered : ∀ domain name, ((r.signaturesOf domain name).map Prod.snd).Pairwise (· < ·)
  conversions : ∀ domain, (r.conversions.filter fun e => e.1 == domain).map Prod.snd =
    if domain = globalDomain then [] else (r.makersOf domain).map Prod.snd
  templates : ∀ e ∈ r.templates, r.Provided e.1 e.2

theorem Grows.provided (h : r.Grows r') {domain : String} {t : Template}
    (ht : r.Provided domain t) : r'.Provided domain t := by
  obtain ⟨o, i, ho, hs, htarget⟩ := ht.default
  obtain ⟨hget, hdomain, hname⟩ := mem_overloadsOf.mp ho
  obtain ⟨o', hget', hd, hf⟩ := h.overloads i o hget
  refine ⟨ht.domain_eq, ⟨o', i, mem_overloadsOf.mpr ⟨hget', ?_, ?_⟩, ?_, hf _ htarget⟩,
    h.shapes.subset ht.shape⟩
  · rw [hd, hdomain]
  · rw [hd, hname]
  · rw [hd, h.config]
    exact hs

theorem numbers_signaturesOf (r : Catalog τ) (domain name : String) :
    (r.signaturesOf domain name).map Prod.snd = (r.overloadsOf domain name).map Prod.snd := by
  unfold signaturesOf
  rw [List.map_map]
  rfl

theorem ordered_signaturesOf (r : Catalog τ) (domain name : String) :
    ((r.signaturesOf domain name).map Prod.snd).Pairwise (· < ·) := by
  rw [numbers_signaturesOf]
  have hall : (r.overloads.toList.zipIdx.map Prod.snd).Pairwise (· < ·) := by
    rw [List.zipIdx_map_snd]
    exact List.pairwise_lt_range'
  exact hall.sublist (List.filter_sublist.map Prod.snd)

/-! ## What one declaration does to the tables -/

theorem written_declare (hr : r.Written) {domain name sig : String}
    {target : Option (Implementation τ)} {records : List Record}
    (h : r.declare domain name sig target = .ok (r', records)) : r'.Written := by
  unfold Written
  rw [config_declare h]
  exact declaration_declare h (P := fun d => ∃ sig,
    signature.compileText sig Symbol.function r.config.strictWildcards = .ok d.signature) hr
    fun _ hs _ => ⟨sig, hs⟩

/-- a declaration with an implementation leaves an overload that has it -/
theorem implemented_declare (hr : r.Written) {domain name sig : String} {f : Implementation τ}
    {records : List Record} (h : r.declare domain name sig (some f) = .ok (r', records)) :
    ∃ o i, (o, i) ∈ r'.overloadsOf domain name ∧
      signature.compileText sig Symbol.function r.config.strictWildcards = .ok o.signature ∧
      o.target = some f := by
  obtain ⟨s, hs, _, ⟨o, i, hfind, ⟨hnone, _⟩ | ⟨_, _, rfl⟩⟩ | ⟨_, rfl⟩⟩ := declare_cases h
  · cases hnone
  · -- the prototype that is implemented has the signature that was asked for, not only its text
    obtain ⟨hmem, htext⟩ := mem_of_declared? hfind
    obtain ⟨hget, hdomain, hname⟩ := mem_overloadsOf.mp hmem
    obtain ⟨sig', hs'⟩ := hr i o hget
    refine ⟨{ o with target := some f }, i, ?_, ?_, rfl⟩
    · refine mem_overloadsOf.mpr ⟨?_, hdomain, hname⟩
      rw [getElem?_implement, hget, Option.map_some, if_pos rfl]
    · rw [Signature.eq_of_text hs' hs htext]
      exact hs
  · refine ⟨⟨⟨domain, name, s⟩, some f⟩, r.overloads.size, ?_, hs, rfl⟩
    refine mem_overloadsOf.mpr ⟨?_, rfl, rfl⟩
    rw [getElem?_addOverload, if_pos rfl]

theorem makersOf_addOverload (r : Catalog τ) (o : Overload τ) (domain : String) :
    (r.addOverload o).makersOf domain = r.makersOf domain ++
      if o.domain = domain ∧ o.name = constructorName ∧ o.signature.params.length = 1
        then [(o.signature, r.overloads.size)] else [] := by
  unfold makersOf
  rw [signaturesOf_addOverload, List.filter_append]
  congr 1
  by_cases hname : o.domain = domain ∧ o.name = constructorName
  · rw [if_pos hname, List.filter_singleton]
    by_cases hlen : o.signature.params.length = 1
    · simp [hname, hlen]
    · rw [if_neg fun h => hlen h.2.2, beq_false_of_ne hlen]
      rfl
  · rw [if_neg hname, if_neg fun h => hname ⟨h.1, h.2.1⟩]
    rfl

theorem conversions_addOverload (r : Catalog τ) (o : Overload τ) (domain : String) :
    ((r.addOverload o).conversions.filter fun e => e.1 == domain).map Prod.snd =
      (r.conversions.filter fun e => e.1 == domain).map Prod.snd ++
        if o.domain = domain ∧ isConversion o.toDeclaration = true then [r.overloads.size]
        else [] := by
  show ((if isConversion o.toDeclaration = true then _ else _ : List (String × Nat)).filter _).map
    _ = _
  by_cases hconv : isConversion o.toDeclaration = true
  · rw [if_pos hconv, List.filter_append, List.map_append, List.filter_singleton]
    congr 1
    by_cases hdomain : o.domain = domain
    · simp [hdomain, hconv]
    · rw [if_neg fun h => hdomain h.1, beq_false_of_ne hdomain]
      rfl
  · rw [if_neg hconv, if_neg fun h => hconv h.2, List.append_nil]

theorem distinct_addOverload (hr : r.Consistent) {d : Declaration}
    (hfresh : r.declared? d.domain d.name d.signature = none)
    (target : Option (Implementation τ)) (domain name : String) :
    (((r.addOverload ⟨d, target⟩).signaturesOf domain name).map fun s => s.1.text).Nodup := by
  rw [signaturesOf_addOverload, List.map_append]
  by_cases hname : d.domain = domain ∧ d.name = name
  · obtain ⟨rfl, rfl⟩ := hname
    rw [if_pos ⟨rfl, rfl⟩]
    refine List.nodup_append.mpr ⟨hr.distinct _ _, by simp, ?_⟩
    intro a ha b hb hab
    obtain ⟨s, hs, rfl⟩ := List.mem_map.mp ha
    obtain ⟨o, ho, rfl⟩ := List.mem_map.mp hs
    have hother := List.find?_eq_none.mp hfresh o ho
    apply hother
    have hb : b = d.signature.text := by simpa using hb
    show (o.1.signature.text == d.signature.text) = true
    rw [beq_iff_eq, ← hb]
    exact hab
  · rw [if_neg hname]
    simpa using hr.distinct domain name

theorem consistent_declare (hr : r.Consistent) {domain name sig : String}
    {target : Option (Implementation τ)} {records : List Record}
    (h : r.declare domain name sig target = .ok (r', records)) : r'.Consistent := by
  have hgrows := grows_declare h
  have hwritten := written_declare hr.written h
  obtain ⟨s, _, _, ⟨o, i, _, ⟨_, rfl⟩ | ⟨_, _, rfl⟩⟩ | ⟨hfresh, rfl⟩⟩ := declare_cases h
  · exact hr
  · refine ⟨hwritten, fun domain name => ?_, ordered_signaturesOf _, fun domain => ?_, ?_⟩
    · rw [signaturesOf_implement]
      exact hr.distinct domain name
    · unfold makersOf
      rw [signaturesOf_implement]
      exact hr.conversions domain
    · exact fun e he => hgrows.provided (hr.templates e he)
  · refine ⟨hwritten, distinct_addOverload hr hfresh target, ordered_signaturesOf _,
      fun other => ?_, ?_⟩
    · rw [conversions_addOverload, makersOf_addOverload, hr.conversions other]
      unfold isConversion
      by_cases hglobal : other = globalDomain
      · rw [if_pos hglobal, if_pos hglobal, if_neg]
        · rfl
        · rintro ⟨rfl, h⟩
          simp only [Bool.and_eq_true, bne_iff_ne] at h
          exact h.1.2 hglobal
      · rw [if_neg hglobal, if_neg hglobal, List.map_append]
        congr 1
        by_cases hdomain : domain = other
        · subst hdomain
          by_cases hmaker : name = constructorName ∧ s.params.length = 1
          · simp [hmaker, hglobal]
          · rw [if_neg, if_neg]
            · rfl
            · exact fun h => hmaker h.2
            · rintro ⟨_, h⟩
              simp only [Bool.and_eq_true, beq_iff_eq] at h
              exact hmaker ⟨h.1.1, h.2⟩
        · rw [if_neg fun h => hdomain h.1, if_neg fun h => hdomain h.1]
          rfl
    · exact fun e he => hgrows.provided (hr.templates e he)

theorem consistent_addTemplate (hr : r.Consistent) {owner name : String} {arity : Int}
    {layout : Layout} {records : List Record}
    (h : r.addTemplate owner name arity layout = .ok (r', records)) : r'.Consistent := by
  obtain ⟨t, r₁, records₁, rfl, harity, _, hdeclare, rfl⟩ := addTemplate_cases h
  have h₁ := consistent_declare hr hdeclare
  refine ⟨h₁.written, h₁.distinct, h₁.ordered, h₁.conversions, fun e he => ?_⟩
  rcases List.mem_append.mp he with he | he
  · have hold := h₁.templates e he
    exact ⟨hold.domain_eq, hold.default, List.mem_append_left _ hold.shape⟩
  · obtain rfl := List.mem_singleton.mp he
    obtain ⟨o, i, ho, hs, htarget⟩ := implemented_declare hr.written hdeclare
    refine ⟨rfl, ⟨o, i, ho, ?_, htarget⟩, List.mem_append_right _ ?_⟩
    · rw [← config_declare hdeclare] at hs
      exact hs
    · show _ ∈ [(_, BraceLayout.mk layout arity)]
      rw [Int.toNat_of_nonneg harity]
      exact List.mem_singleton_self _

theorem consistent_addShape (hr : r.Consistent) (domain : String) (s : BraceLayout) :
    (r.addShape domain s).1.Consistent :=
  ⟨hr.written, hr.distinct, hr.ordered, hr.conversions,
    fun e he => (grows_addShape r domain s).provided (hr.templates e he)⟩

theorem sound_declareAll (hr : r.Consistent)
    (ops : List (String × String × Implementation τ)) :
    (r.declareAll ops).1.1.Consistent ∧ r.Grows (r.declareAll ops).1.1 := by
  induction ops generalizing r with
  | nil => exact ⟨hr, .refl r⟩
  | cons op ops ih =>
    obtain ⟨name, sig, target⟩ := op
    rw [declareAll]
    split
    · exact ⟨hr, .refl r⟩
    · next r₁ records h =>
      obtain ⟨hr', hgrows⟩ := ih (consistent_declare hr h)
      exact ⟨hr', (grows_declare h).trans hgrows⟩

/-! ## Runs -/

end Catalog

namespace Edit

variable {r : Catalog τ}

theorem of_ofChange {P : Catalog τ → Prop} {change : Except Fault (Catalog τ × List Record)}
    (hr : P r) (h : ∀ r' records, change = .ok (r', records) → P r') :
    P (ofChange r change).2 := by
  cases change with
  | error e => exact hr
  | ok res => exact h res.1 res.2 rfl

theorem apply_operators (r : Catalog τ) :
    ((operators : Edit τ).apply r).2 = r.declareOperators.1.1 := by
  show (ofChanges r.declareOperators).2 = _
  rcases r.declareOperators with ⟨⟨r', records⟩, _ | e⟩ <;> rfl

/-- an edit, whether it faults or not, leaves a consistent catalog, and takes nothing out -/
theorem sound (hr : r.Consistent) (e : Edit τ) :
    (e.apply r).2.Consistent ∧ r.Grows (e.apply r).2 := by
  have hself : r.Consistent ∧ r.Grows r := ⟨hr, .refl r⟩
  cases e with
  | declare domain name sig target =>
    refine of_ofChange (P := fun r' => r'.Consistent ∧ r.Grows r') hself fun r' records h => ?_
    exact ⟨Catalog.consistent_declare hr h, Catalog.grows_declare h⟩
  | template owner name arity layout =>
    refine of_ofChange (P := fun r' => r'.Consistent ∧ r.Grows r') hself fun r' records h => ?_
    exact ⟨Catalog.consistent_addTemplate hr h, Catalog.grows_addTemplate h⟩
  | shape domain s =>
    exact ⟨Catalog.consistent_addShape hr domain s, Catalog.grows_addShape r domain s⟩
  | operators =>
    rw [apply_operators]
    exact Catalog.sound_declareAll hr _

theorem ofChange_of_error {change : Except Fault (Catalog τ × List Record)} {fault : Fault}
    (h : (ofChange r change).1 = .error fault) : (ofChange r change).2 = r := by
  cases change with
  | error e => rfl
  | ok res => cases h

theorem apply_of_error {e : Edit τ} (he : e.isSingle = true) {fault : Fault}
    (h : (e.apply r).1 = .error fault) : (e.apply r).2 = r := by
  cases e with
  | declare domain name sig target => exact ofChange_of_error h
  | template owner name arity layout => exact ofChange_of_error h
  | shape domain s => cases h
  | operators => cases he

end Edit

namespace Catalog

variable {r : Catalog τ}

theorem after_cons (r : Catalog τ) (e : Edit τ) (es : List (Edit τ)) :
    r.after (e :: es) = (e.apply r).2.after es := rfl

theorem after_append (r : Catalog τ) (es es' : List (Edit τ)) :
    r.after (es ++ es') = (r.after es).after es' := List.foldl_append

theorem sound_after (hr : r.Consistent) (es : List (Edit τ)) :
    (r.after es).Consistent ∧ r.Grows (r.after es) := by
  induction es generalizing r with
  | nil => exact ⟨hr, .refl r⟩
  | cons e es ih =>
    obtain ⟨hr₁, hgrows₁⟩ := e.sound hr
    obtain ⟨hr', hgrows⟩ := ih hr₁
    exact ⟨hr', hgrows₁.trans hgrows⟩

theorem consistent_new {config : Config} {records : List Record}
    (h : Catalog.new config = .ok (r, records)) : r.Consistent := by
  obtain ⟨order, _, htemplate⟩ := new_cases h
  refine consistent_addTemplate ⟨?_, ?_, ordered_signaturesOf _, ?_,
    fun e he => absurd he List.not_mem_nil⟩ htemplate
  · intro i o ho
    simp at ho
  · intro domain name
    exact List.nodup_nil
  · intro domain
    split <;> rfl

end Catalog

/-- whatever edits a new catalog has seen: its tables hang together, later edits take nothing out,
and an edit made in place has the outcome it should have, undoing what it did if it faults -/
theorem catalog_invariants {config : Config} {r₀ : Catalog τ} {records : List Record}
    (h : Catalog.new config = .ok (r₀, records)) (es es' : List (Edit τ)) :
    (r₀.after es).Consistent ∧ (r₀.after es).Grows (r₀.after (es ++ es')) ∧
      ∀ e : Edit τ, e.inPlace.result (r₀.after es) = e.apply (r₀.after es) ∧
        (e.isSingle = true → ∀ fault, (e.inPlace.result (r₀.after es)).1 = .error fault →
          (e.inPlace.result (r₀.after es)).2 = r₀.after es) := by
  obtain ⟨hr, _⟩ := Catalog.sound_after (Catalog.consistent_new h) es
  refine ⟨hr, ?_, fun e => ⟨result_inPlace e _, fun he fault hfault => ?_⟩⟩
  · rw [Catalog.after_append]
    exact (Catalog.sound_after hr es').2
  · rw [result_inPlace] at hfault ⊢
    exact Edit.apply_of_error he hfault

theorem Catalog.template?_new {config : Config} {r : Catalog τ} {records : List Record}
    (h : Catalog.new config = .ok (r, records)) : r.template? initializerListName =
      some ⟨globalDomain, initializerListName, 1, initializerListLayout⟩ := by
  obtain ⟨order, _, htemplate⟩ := new_cases h
  obtain ⟨t, r₁, records₁, rfl, _, _, hdeclare, rfl⟩ := addTemplate_cases htemplate
  obtain ⟨s, _, _, ⟨o, i, hfind, _⟩ | ⟨_, rfl⟩⟩ := declare_cases hdeclare
  · simp [declared?, overloadsOf] at hfind
  · rfl

/-- `initializer_list` cannot be defined again -/
theorem catalog_invariants_redefined : ∃ (r₀ : Catalog Unit) (records : List Record),
    Catalog.new Config.default = .ok (r₀, records) ∧
      (r₀.after [.operators, .shape "C" ⟨initializerListLayout, -1⟩, .operators]).Consistent ∧
      ((Edit.template globalDomain initializerListName 1 initializerListLayout).inPlace.result
        r₀).1 = .error (.templateDefined initializerListName) ∧
      ((Edit.template globalDomain initializerListName 1 initializerListLayout).inPlace.result
        r₀).2 = r₀ := by
  obtain ⟨r₀, records, h⟩ := Catalog.exists_new Unit
  have hagain : (r₀.addTemplate globalDomain initializerListName 1 initializerListLayout) =
      .error (.templateDefined initializerListName) := by
    unfold Catalog.addTemplate
    have htemplate : r₀.template? (Template.domain
        ⟨globalDomain, initializerListName, (1 : Int).toNat, initializerListLayout⟩) = _ :=
      Catalog.template?_new h
    dsimp only
    rw [htemplate]
    rfl
  obtain ⟨_, _, hedit⟩ := catalog_invariants h [] []
  obtain ⟨hresult, hkept⟩ :=
    hedit (.template globalDomain initializerListName 1 initializerListLayout)
  have hfault : ((Edit.template globalDomain initializerListName 1
      initializerListLayout).inPlace.result r₀).1 =
        .error (.templateDefined initializerListName) := by
    refine (congrArg Prod.fst hresult).trans ?_
    show (Edit.ofChange r₀ (r₀.addTemplate _ _ _ _)).1 = _
    rw [hagain]
    rfl
  exact ⟨r₀, records, h, (catalog_invariants h _ []).1, hfault, hkept rfl _ hfault⟩

end Overloading
