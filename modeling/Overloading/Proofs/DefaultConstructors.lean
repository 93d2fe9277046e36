import Overloading.Proofs.CatalogInvariants
import Overloading.Proofs.Dispatching
import Overloading.Proofs.TemplateSignatures

/-!
# The default constructors of a catalog

A template declares a default constructor of its domain.  Where nobody else declares any, a domain
has the one of its template, or none; so asking a class of a template for its default runs that one,
and tells it the class.

* `Edit.Declares`         an edit declares an overload of a name by hand;
* `Catalog.Templated`     a domain has one default constructor, or none if it has no template;
* `templated_after`       it is so after any edits that declare no default constructor by hand;
* `constructDefault_eq`   the default of a class is what the constructor of its template makes.
-/

namespace Overloading

open Grammar

variable {τ : Type}

/-- an edit declares an overload of a name by hand -/
def Edit.Declares (name : String) : Edit τ → Prop
  | .declare _ n _ _ => n = name
  | _ => False

namespace Catalog

variable {r r' : Catalog τ}

/-- a domain has one default constructor, or none if it has no template -/
def Templated (r : Catalog τ) : Prop :=
  ∀ domain, (r.overloadsOf domain defaultConstructorName).length =
    (r.template? domain).toList.length

theorem templates_declare {domain name sig : String} {target : Option (Implementation τ)}
    {records : List Record} (h : r.declare domain name sig target = .ok (r', records)) :
    r'.templates = r.templates := by
  obtain ⟨s, _, _, ⟨o, i, _, ⟨_, rfl⟩ | ⟨_, _, rfl⟩⟩ | ⟨_, rfl⟩⟩ := declare_cases h
  · rfl
  · rfl
  · rfl

theorem length_overloadsOf_declare {domain name sig : String} {target : Option (Implementation τ)}
    {records : List Record} (h : r.declare domain name sig target = .ok (r', records))
    {domain' name' : String} (hne : domain ≠ domain' ∨ name ≠ name') :
    (r'.overloadsOf domain' name').length = (r.overloadsOf domain' name').length := by
  obtain ⟨s, _, _, ⟨o, i, _, ⟨_, rfl⟩ | ⟨_, _, rfl⟩⟩ | ⟨_, rfl⟩⟩ := declare_cases h
  · rfl
  · rw [overloadsOf_implement, List.length_map]
  · rw [overloadsOf_addOverload, if_neg, List.append_nil]
    rintro ⟨rfl, rfl⟩
    rcases hne with hne | hne
    · exact hne rfl
    · exact hne rfl

theorem Templated.declare (hr : r.Templated) {domain name sig : String}
    {target : Option (Implementation τ)} {records : List Record}
    (hname : name ≠ defaultConstructorName)
    (h : r.declare domain name sig target = .ok (r', records)) : r'.Templated := by
  intro domain'
  rw [length_overloadsOf_declare h (.inr hname), hr domain']
  unfold template?
  rw [templates_declare h]

theorem Templated.addTemplate (hr : r.Templated) {owner name : String} {arity : Int}
    {layout : Layout} {records : List Record}
    (h : r.addTemplate owner name arity layout = .ok (r', records)) : r'.Templated := by
  obtain ⟨t, r₁, records₁, _, _, hnone, hdeclare, rfl⟩ := addTemplate_cases h
  intro domain
  have htemplate : ({ r₁ with
      templates := r₁.templates ++ [(t.domain, t)]
      shapes := r₁.shapes ++ [(t.domain, ⟨layout, arity⟩)] } : Catalog τ).template? domain =
        (r.template? domain).or (if domain = t.domain then some t else none) := by
    have hnew : [(t.domain, t)].lookup domain = if domain = t.domain then some t else none := by
      split
      · next hd => rw [hd, List.lookup_cons_self]
      · next hd => rw [List.lookup_cons, beq_false_of_ne hd, List.lookup_nil]
    rw [template?, template?, templates_declare hdeclare, List.lookup_append, hnew]
  show (r₁.overloadsOf domain defaultConstructorName).length = _
  rw [htemplate]
  by_cases hd : domain = t.domain
  · -- the first default constructor of its domain
    subst hd
    have hempty : r.overloadsOf t.domain defaultConstructorName = [] := by
      have hlength := hr t.domain
      rw [hnone] at hlength
      exact List.length_eq_zero_iff.mp hlength
    rw [hnone, if_pos rfl]
    obtain ⟨s, _, _, ⟨o, i, hfind, _⟩ | ⟨_, rfl⟩⟩ := declare_cases hdeclare
    · have hmem := (mem_of_declared? hfind).1
      rw [hempty] at hmem
      cases hmem
    · rw [overloadsOf_addOverload, hempty, if_pos ⟨rfl, rfl⟩]
      rfl
  · rw [if_neg hd, Option.or_none, length_overloadsOf_declare hdeclare (.inl (Ne.symm hd)),
      hr domain]

theorem Templated.declareAll (hr : r.Templated) (ops : List (String × String × Implementation τ))
    (hops : ∀ op ∈ ops, op.1 ≠ defaultConstructorName) : (r.declareAll ops).1.1.Templated := by
  induction ops generalizing r with
  | nil => exact hr
  | cons op ops ih =>
    obtain ⟨name, sig, target⟩ := op
    rw [Catalog.declareAll]
    split
    · exact hr
    · next r₁ records h =>
      exact ih (hr.declare (hops _ List.mem_cons_self) h) fun op hop =>
        hops op (List.mem_cons_of_mem _ hop)

theorem operators_not_default (policy : String) :
    ∀ op ∈ (operators policy : List (String × String × Implementation τ)),
      op.1 ≠ defaultConstructorName := by
  have hkey : ∀ op : Operator, operatorKey op.symbol ≠ defaultConstructorName := by
    intro op
    cases op <;> decide
  intro op hop
  unfold operators at hop
  rcases List.mem_append.mp hop with hop | hop
  · obtain ⟨o, _, rfl⟩ := List.mem_map.mp hop
    exact hkey o
  · rw [List.mem_singleton.mp hop]
    exact hkey .sub

/-! ## After edits -/

theorem templated_new {config : Config} {records : List Record}
    (h : Catalog.new config = .ok (r, records)) : r.Templated := by
  obtain ⟨order, _, htemplate⟩ := new_cases h
  have hempty : Templated (⟨config, order, #[], [], [], []⟩ : Catalog τ) := fun domain => rfl
  exact hempty.addTemplate htemplate

end Catalog

theorem Edit.templated {r : Catalog τ} (hr : r.Templated) {e : Edit τ}
    (he : ¬ e.Declares defaultConstructorName) : (e.apply r).2.Templated := by
  cases e with
  | declare domain name sig target =>
    exact of_ofChange hr fun r' records h => hr.declare he h
  | template owner name arity layout => exact of_ofChange hr fun r' records h => hr.addTemplate h
  | shape domain s => exact hr
  | operators =>
    rw [apply_operators]
    exact hr.declareAll _ (Catalog.operators_not_default _)

theorem Edit.reachable {r : Catalog τ} (hr : r.Reachable) (e : Edit τ) :
    (e.apply r).2.Reachable := by
  cases e with
  | declare domain name sig target => exact of_ofChange hr fun r' records h => hr.declare h
  | template owner name arity layout => exact of_ofChange hr fun r' records h => hr.addTemplate h
  | shape domain s => exact hr.addShape domain s
  | operators =>
    rw [apply_operators]
    exact hr.declareAll _

namespace Catalog

variable {r : Catalog τ}

theorem templated_after (hr : r.Templated) {es : List (Edit τ)}
    (hes : ∀ e ∈ es, ¬ e.Declares defaultConstructorName) : (r.after es).Templated := by
  induction es generalizing r with
  | nil => exact hr
  | cons e es ih =>
    rw [after_cons]
    exact ih (Edit.templated hr (hes e List.mem_cons_self)) fun e he =>
      hes e (List.mem_cons_of_mem _ he)

theorem reachable_after (hr : r.Reachable) (es : List (Edit τ)) : (r.after es).Reachable := by
  induction es generalizing r with
  | nil => exact hr
  | cons e es ih =>
    rw [after_cons]
    exact ih (Edit.reachable hr e)

/-- what a catalog has for the classes of a template: its default constructor, compiled and
implemented, and no other one -/
structure Builds (r : Catalog τ) (t : Template) (o : Overload τ) (i : Nat) : Prop where
  overloads : r.overloadsOf t.domain defaultConstructorName = [(o, i)]
  compiled : signature.compileText t.nullarySignature Symbol.function r.config.strictWildcards =
    .ok o.signature
  isFunction : o.signature.isFunction = true
  target : o.target = some (memberwiseDefault t)

theorem exists_builds (hr : r.Consistent) (hc : r.Compiled) (ht : r.Templated) {domain : String}
    {t : Template} (h : r.template? domain = some t) :
    t.domain = domain ∧ ∃ o i, r.Builds t o i := by
  have hmem : (domain, t) ∈ r.templates := by
    obtain ⟨l, l', hsplit, _⟩ := List.lookup_eq_some_iff.mp h
    rw [hsplit]
    exact List.mem_append_right l List.mem_cons_self
  obtain ⟨hdomain, ⟨o, i, ho, hs, htarget⟩, -⟩ := hr.templates _ hmem
  obtain rfl : t.domain = domain := hdomain
  have hlength := ht t.domain
  rw [h] at hlength
  obtain ⟨x, hx⟩ := List.length_eq_one_iff.mp hlength
  rw [hx, List.mem_singleton] at ho
  subst ho
  refine ⟨rfl, o, i, hx, hs, ?_, htarget⟩
  exact (hc i o (mem_overloadsOf.mp (hx ▸ List.mem_singleton_self _)).1).2

/-! ## Asking for a class -/

theorem searchReturning_default {t : Template} {o : Overload τ} {i : Nat} (h : r.Builds t o i)
    {c : ClassTy} (hc : c.WellFormed) (hdomain : t.domain = c.domain)
    (harity : c.args.length = t.arity) :
    ∃ bindings records, r.searchReturning c.domain defaultConstructorName (.cls c) [] =
      .ok (some (⟨i, ⟨[], bindings, some c.tokens⟩⟩, records)) := by
  obtain ⟨call, hcall, -⟩ : ∃ call, signature.compile (typedCallForm (.cls c) []) Symbol.function
      false = .ok call ∧ call.Calls (.cls c) [] :=
    compile_typed false hc (List.forall_mem_nil _) (List.forall_mem_nil _)
  obtain ⟨bindings, hadmits⟩ :=
    Template.admits_nullary hc hdomain harity h.compiled hcall h.isFunction r.castRules
  refine ⟨bindings, [resolvedRecord o.toDeclaration ⟨[], bindings, some c.tokens⟩], ?_⟩
  unfold searchReturning searchTokens
  refine bind_eq_ok.mpr ⟨call, hcall, ?_⟩
  rw [← hdomain, h.overloads, firstAdmitting, hadmits]

theorem resultType_class {c : ClassTy} (hc : c.WellFormed) (bindings : List (Nat × List String)) :
    (⟨[], bindings, some c.tokens⟩ : Match).resultType = .ok (.cls c) := by
  unfold Match.resultType
  dsimp only
  rw [withoutMarker_class]
  exact readType_tokens hc

theorem exists_callOf {c : ClassTy} (hc : c.WellFormed) (d : Declaration)
    (bindings : List (Nat × List String)) :
    ∃ call, callOf d ⟨[], bindings, some c.tokens⟩ = .ok call ∧ call.returns = some (.cls c) := by
  unfold callOf
  rw [resultType_class hc]
  exact ⟨_, rfl, rfl⟩

theorem each_nil {α β σ : Type} (f : Nat → α → Comp (World β σ) β) (w : World β σ) :
    Comp.each [] f w = .done w.addTray.2 [] :=
  congrArg (Step.done w.addTray.2) (World.contents_addTray w)

theorem constructDefault_of_search {c : ClassTy} {res : Selection} {records : List Record}
    (h : r.searchReturning c.domain defaultConstructorName (.cls c) [] = .ok (some (res, records)))
    (services : Services (Engine τ)) :
    r.constructDefault services c = fun w => r.performIn services res [] (w.note records) := by
  -- unfolded as a function: to compare its values the kernel would evaluate the search
  delta constructDefault
  rw [h]

/-- **The default of a class is what the constructor of its template makes**, told the class. -/
theorem constructDefault_eq {t : Template} {o : Overload τ} {i : Nat} (h : r.Builds t o i)
    {c : ClassTy} (hc : c.WellFormed) (hdomain : t.domain = c.domain)
    (harity : c.args.length = t.arity) :
    ∃ (call : Call) (records : List Record), call.returns = some (.cls c) ∧
      ∀ services w, r.constructDefault services c w =
        memberwiseDefault t services call [] (w.note records).addTray.2 := by
  obtain ⟨bindings, records, hsearch⟩ := searchReturning_default h hc hdomain harity
  obtain ⟨call, hcall, hreturns⟩ := exists_callOf hc o.toDeclaration bindings
  refine ⟨call, records, hreturns, fun services w => ?_⟩
  have hget : r.overloads[i]? = some o :=
    (mem_overloadsOf.mp (h.overloads ▸ List.mem_singleton_self _)).1
  rw [constructDefault_of_search hsearch]
  show r.performWith services i (preparers r services []) ⟨[], bindings, some c.tokens⟩ []
    (w.note records) = _
  rw [preparers, performWith_eq hget rfl h.target, List.zip_nil_left]
  show (Comp.each [] _ (w.note records)).andThen _ = _
  rw [each_nil, Step.andThen_done, handOver_eq hcall]

end Catalog

end Overloading
