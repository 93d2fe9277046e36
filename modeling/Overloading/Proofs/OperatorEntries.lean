import Overloading.Proofs.CatalogInvariants
import Overloading.Proofs.OperatorCalls

/-!
# Entering the operators

The builtin operators are declared one after another, and each may be implemented already.  The
first that is ends the installation with a fault; those in front of it have been entered by then
and stay.

* `Catalog.listed`     the overloads of a name, without their numbers;
* `enterAmong`         what entering an implementation makes of the overloads of a name;
* `declare_enters`     declaring an implementation: a fault if there is one, an entry if not;
* `declareAll_enters`  any declarations one after another, by induction: what is entered is the
                       longest part in front in which nothing was implemented;
* `operators_entered`  so the installation of the operators that faults is undone just if nothing
                       stands in front of the operator that was implemented.
-/

namespace Overloading

open Grammar

variable {τ : Type}

/-! ## The overloads of a name -/

/-- whether the overload with a text among some, the first if there are more, is implemented -/
def implementedAmong (text : String) (os : List (Overload τ)) : Bool :=
  ((os.find? fun o => o.signature.text == text).bind fun o => o.target).isSome

/-- the overloads of a name with an implementation entered: in the place of the prototype, or after
the others -/
def enterAmong (d : Declaration) (f : Implementation τ) : List (Overload τ) → List (Overload τ)
  | [] => [⟨d, some f⟩]
  | o :: os =>
    if o.signature.text = d.signature.text then { o with target := some f } :: os
    else o :: enterAmong d f os

section Among

variable {d : Declaration} {f : Implementation τ} {text : String} {os : List (Overload τ)}

theorem implementedAmong_cons (text : String) (o : Overload τ) (os : List (Overload τ)) :
    implementedAmong text (o :: os) =
      if o.signature.text = text then o.target.isSome else implementedAmong text os := by
  unfold implementedAmong
  rw [List.find?_cons]
  by_cases h : o.signature.text = text
  · rw [if_pos h, beq_iff_eq.mpr h]
    rfl
  · rw [if_neg h, beq_false_of_ne h]

theorem implementedAmong_enterAmong (d : Declaration) (f : Implementation τ)
    (os : List (Overload τ)) : implementedAmong d.signature.text (enterAmong d f os) = true := by
  induction os with
  | nil => rw [enterAmong, implementedAmong_cons, if_pos rfl]; rfl
  | cons o os ih =>
    rw [enterAmong]
    split
    · next h => rw [implementedAmong_cons, if_pos h]; rfl
    · next h => rw [implementedAmong_cons, if_neg h, ih]

theorem implementedAmong_enterAmong_of_ne (h : text ≠ d.signature.text) :
    implementedAmong text (enterAmong d f os) = implementedAmong text os := by
  induction os with
  | nil =>
    rw [enterAmong, implementedAmong_cons, if_neg fun heq => h heq.symm]
  | cons o os ih =>
    rw [enterAmong]
    split
    · next ho =>
      have hne : ¬ o.signature.text = text := fun heq => h (heq.symm.trans ho)
      rw [implementedAmong_cons, implementedAmong_cons, if_neg hne, if_neg hne]
    · rw [implementedAmong_cons, implementedAmong_cons, ih]

/-- with no overload of the text there is nothing in whose place to enter -/
theorem enterAmong_of_find?_eq_none
    (h : os.find? (fun o => o.signature.text == d.signature.text) = none) :
    enterAmong d f os = os ++ [⟨d, some f⟩] := by
  induction os with
  | nil => rfl
  | cons o os ih =>
    have hall := List.find?_eq_none.mp h
    have ho : ¬ o.signature.text = d.signature.text := fun heq =>
      hall o List.mem_cons_self (beq_iff_eq.mpr heq)
    rw [enterAmong, if_neg ho, List.cons_append]
    congr 1
    exact ih (List.find?_eq_none.mpr fun x hx => hall x (List.mem_cons_of_mem _ hx))

/-- with numbers that differ, filling in the one that was found is entering -/
theorem map_fill_eq_enterAmong {l : List (Overload τ × Nat)} {o : Overload τ} {i : Nat}
    (hnodup : (l.map Prod.snd).Nodup)
    (h : l.find? (fun o => o.1.signature.text == d.signature.text) = some (o, i)) :
    l.map (fun x => if i = x.2 then { x.1 with target := some f } else x.1) =
      enterAmong d f (l.map Prod.fst) := by
  induction l with
  | nil => cases h
  | cons x l ih =>
    obtain ⟨p, j⟩ := x
    rw [List.map_cons, List.nodup_cons] at hnodup
    rw [List.find?_cons] at h
    rw [List.map_cons, List.map_cons, enterAmong]
    by_cases hp : p.signature.text = d.signature.text
    · rw [beq_iff_eq.mpr hp] at h
      cases h
      rw [if_pos hp, if_pos rfl]
      congr 1
      refine List.map_congr_left fun x hx => if_neg ?_
      intro heq
      exact hnodup.1 (List.mem_map.mpr ⟨x, hx, heq.symm⟩)
    · rw [beq_false_of_ne hp] at h
      have hmem : i ∈ l.map Prod.snd := List.mem_map_of_mem (List.mem_of_find?_eq_some h)
      have hne : ¬ i = j := fun heq => hnodup.1 (heq ▸ hmem)
      rw [if_neg hp, if_neg hne, ih hnodup.2 h]

end Among

namespace Catalog

/-- the overloads of a name in the order they were declared -/
def listed (r : Catalog τ) (domain name : String) : List (Overload τ) :=
  (r.overloadsOf domain name).map Prod.fst

variable {r : Catalog τ} {d : Declaration} {f : Implementation τ}

theorem find?_listed (r : Catalog τ) (d : Declaration) :
    (r.listed d.domain d.name).find? (fun o => o.signature.text == d.signature.text) =
      (r.declared? d.domain d.name d.signature).map Prod.fst := by
  unfold listed
  rw [List.find?_map]
  rfl

theorem listed_addOverload (h : r.declared? d.domain d.name d.signature = none)
    (domain name : String) : (r.addOverload ⟨d, some f⟩).listed domain name =
      if d.domain = domain ∧ d.name = name then enterAmong d f (r.listed domain name)
      else r.listed domain name := by
  have hlisted : (r.addOverload ⟨d, some f⟩).listed domain name = r.listed domain name ++
      if d.domain = domain ∧ d.name = name then [⟨d, some f⟩] else [] := by
    unfold listed
    rw [overloadsOf_addOverload, List.map_append]
    congr 1
    split <;> rfl
  rw [hlisted]
  split
  · next hsame =>
    obtain ⟨rfl, rfl⟩ := hsame
    rw [enterAmong_of_find?_eq_none]
    rw [find?_listed, h]
    rfl
  · exact List.append_nil _

theorem listed_implement {o : Overload τ} {i : Nat}
    (h : r.declared? d.domain d.name d.signature = some (o, i)) (domain name : String) :
    (r.implement i (some f)).listed domain name =
      if d.domain = domain ∧ d.name = name then enterAmong d f (r.listed domain name)
      else r.listed domain name := by
  obtain ⟨hget, hdomain, hname⟩ := mem_overloadsOf.mp (mem_of_declared? h).1
  unfold listed
  rw [overloadsOf_implement, List.map_map]
  split
  · next hsame =>
    obtain ⟨rfl, rfl⟩ := hsame
    have hnodup : ((r.overloadsOf d.domain d.name).map Prod.snd).Nodup := by
      rw [← numbers_signaturesOf]
      exact (ordered_signaturesOf r d.domain d.name).imp fun hlt => Nat.ne_of_lt hlt
    exact map_fill_eq_enterAmong hnodup h
  · next hother =>
    refine List.map_congr_left fun x hx => if_neg ?_
    rintro rfl
    obtain ⟨hx, hxdomain, hxname⟩ := mem_overloadsOf.mp hx
    cases hget.symm.trans hx
    exact hother ⟨hdomain.symm.trans hxdomain, hname.symm.trans hxname⟩

/-! ## One declaration -/

section Declaring

variable {sig : String} {s : Signature} {o : Overload τ} {i : Nat}

theorem declare_declared {domain name : String} (f : Implementation τ)
    (hs : signature.compileText sig Symbol.function r.config.strictWildcards = .ok s)
    (hfun : s.isFunction = true) (hfind : r.declared? domain name s = some (o, i)) :
    r.declare domain name sig (some f) =
      if o.target.isSome then .error (.alreadyImplemented domain name s.text)
      else .ok (r.implement i (some f), [implementedRecord ⟨domain, name, s⟩]) := by
  unfold declare
  unfold declared? at hfind
  rw [hs]
  show (if (!s.isFunction) = true then _ else _) = _
  simp only [hfun, hfind, Bool.not_true, Bool.false_eq_true, if_false]
  cases ho : o.target <;> rfl

/-- declaring an implementation: if there is one already it is a fault, and else it is entered -/
theorem declare_enters (domain name : String) (f : Implementation τ)
    (hs : signature.compileText sig Symbol.function r.config.strictWildcards = .ok s)
    (hfun : s.isFunction = true) :
    (implementedAmong s.text (r.listed domain name) = true ∧
        r.declare domain name sig (some f) = .error (.alreadyImplemented domain name s.text)) ∨
      (implementedAmong s.text (r.listed domain name) = false ∧
        ∃ r' records, r.declare domain name sig (some f) = .ok (r', records) ∧
          ∀ domain' name', r'.listed domain' name' =
            if domain = domain' ∧ name = name'
            then enterAmong ⟨domain, name, s⟩ f (r.listed domain' name')
            else r.listed domain' name') := by
  have hfind := find?_listed r ⟨domain, name, s⟩
  dsimp only at hfind
  unfold implementedAmong
  rw [hfind]
  cases hdeclared : r.declared? domain name s with
  | none =>
    exact .inr ⟨rfl, _, _, declare_fresh (some f) hs hfun hdeclared,
      listed_addOverload (d := ⟨domain, name, s⟩) hdeclared⟩
  | some found =>
    obtain ⟨o, i⟩ := found
    have hdeclare := declare_declared f hs hfun hdeclared
    show (o.target.isSome = true ∧ _) ∨ (o.target.isSome = false ∧ _)
    cases ho : o.target.isSome with
    | true =>
      rw [ho, if_pos rfl] at hdeclare
      exact .inl ⟨rfl, hdeclare⟩
    | false =>
      rw [ho, if_neg Bool.false_ne_true] at hdeclare
      exact .inr ⟨rfl, _, _, hdeclare, listed_implement (d := ⟨domain, name, s⟩) hdeclared⟩

end Declaring

/-! ## Declarations one after another -/

/-- whether an operator is implemented already -/
def HasImplemented (r : Catalog τ) (form : String → Signature)
    (op : String × String × Implementation τ) : Bool :=
  implementedAmong (form op.2.1).text (r.listed globalDomain op.1)

end Catalog

/-- the overloads of a name after the operators of that name among some have been entered -/
def enterAll (form : String → Signature) (name : String) :
    List (String × String × Implementation τ) → List (Overload τ) → List (Overload τ)
  | [], os => os
  | op :: ops, os => enterAll form name ops
      (if op.1 = name then enterAmong ⟨globalDomain, op.1, form op.2.1⟩ op.2.2 os else os)

theorem implementedAmong_enterAll {form : String → Signature} {name text : String}
    {ops : List (String × String × Implementation τ)} {os : List (Overload τ)}
    (h : implementedAmong text os = true) :
    implementedAmong text (enterAll form name ops os) = true := by
  induction ops generalizing os with
  | nil => exact h
  | cons op ops ih =>
    rw [enterAll]
    apply ih
    split
    · by_cases htext : text = (form op.2.1).text
      · subst htext
        exact implementedAmong_enterAmong ⟨globalDomain, op.1, form op.2.1⟩ _ _
      · rw [implementedAmong_enterAmong_of_ne (d := ⟨globalDomain, op.1, form op.2.1⟩) htext]
        exact h
    · exact h

namespace Catalog

variable {r : Catalog τ}

/-- **Declarations one after another.**  Those in front of the first that is implemented already
are entered; that one is the fault, if there is one, and nothing from it on is entered. -/
theorem declareAll_enters (form : String → Signature)
    {ops : List (String × String × Implementation τ)}
    (hform : ∀ op ∈ ops, signature.compileText op.2.1 Symbol.function r.config.strictWildcards =
      .ok (form op.2.1) ∧ (form op.2.1).isFunction = true)
    (hdistinct : ops.Pairwise fun a b => a.1 = b.1 → (form a.2.1).text ≠ (form b.2.1).text) :
    ∃ done rest, ops = done ++ rest ∧ (∀ op ∈ done, r.HasImplemented form op = false) ∧
      (∀ domain name, (r.declareAll ops).1.1.listed domain name =
        if domain = globalDomain then enterAll form name done (r.listed domain name)
        else r.listed domain name) ∧
      (rest = [] ∧ (r.declareAll ops).2 = none ∨
        ∃ op more, rest = op :: more ∧ r.HasImplemented form op = true ∧
          (r.declareAll ops).2 =
            some (.alreadyImplemented globalDomain op.1 (form op.2.1).text)) := by
  induction ops generalizing r with
  | nil => exact ⟨[], [], rfl, nofun, fun domain name => by split <;> rfl, .inl ⟨rfl, rfl⟩⟩
  | cons op ops ih =>
    obtain ⟨name, sig, f⟩ := op
    obtain ⟨hs, hfun⟩ := hform _ List.mem_cons_self
    obtain ⟨hfirst, hdistinct⟩ := List.pairwise_cons.mp hdistinct
    obtain ⟨himpl, hfault⟩ | ⟨himpl, r', records, hdeclare, hlisted⟩ :=
      declare_enters globalDomain name f hs hfun
    · have hstop : r.declareAll ((name, sig, f) :: ops) =
          ((r, []), some (.alreadyImplemented globalDomain name (form sig).text)) := by
        rw [declareAll, hfault]
      rw [hstop]
      exact ⟨[], (name, sig, f) :: ops, rfl, nofun, fun domain name' => (ite_self _).symm,
        .inr ⟨_, _, rfl, himpl, rfl⟩⟩
    · have hsame : ∀ op ∈ ops, r'.HasImplemented form op = r.HasImplemented form op := by
        intro op hop
        unfold HasImplemented
        rw [hlisted]
        split
        · next heq => exact implementedAmong_enterAmong_of_ne fun h => hfirst op hop heq.2 h.symm
        · rfl
      obtain ⟨done, rest, rfl, hdone, hrest, hend⟩ := ih (r := r')
        (fun op hop => config_declare hdeclare ▸ hform op (List.mem_cons_of_mem _ hop)) hdistinct
      have hcatalog : (r.declareAll ((name, sig, f) :: (done ++ rest))).1.1 =
          (r'.declareAll (done ++ rest)).1.1 := by
        rw [declareAll, hdeclare]
      have hfault : (r.declareAll ((name, sig, f) :: (done ++ rest))).2 =
          (r'.declareAll (done ++ rest)).2 := by
        rw [declareAll, hdeclare]
      refine ⟨(name, sig, f) :: done, rest, rfl, fun op hop => ?_, fun domain name' => ?_, ?_⟩
      · rcases List.mem_cons.mp hop with rfl | hop
        · exact himpl
        · rw [← hsame op (List.mem_append_left _ hop)]
          exact hdone op hop
      · rw [hcatalog, hrest, hlisted, enterAll]
        by_cases hdomain : domain = globalDomain
        · rw [if_pos hdomain, if_pos hdomain]
          by_cases hname : name = name'
          · rw [if_pos ⟨hdomain.symm, hname⟩, if_pos hname]
          · rw [if_neg fun h => hname h.2, if_neg hname]
        · rw [if_neg hdomain, if_neg hdomain, if_neg fun h => hdomain h.1.symm]
      · rw [hfault]
        obtain hend | ⟨op, more, hop, himpl, hend⟩ := hend
        · exact .inl hend
        · refine .inr ⟨op, more, hop, ?_, hend⟩
          rw [← hsame op (hop ▸ List.mem_append_right _ List.mem_cons_self)]
          exact himpl

end Catalog

/-! ## The operators -/

/-- **Entering the operators.**  In any catalog, the operators in front of the first one that is
implemented already are entered, each where its prototype stands or after the overloads of its
name, and no other overload or implementation changes.  Without such an operator there is no fault.
With one, the fault names it, and the overloads are what they were just if it is the first of
all. -/
theorem operators_entered (r : Catalog τ) :
    ∃ done rest, Catalog.operators r.config.unsignedOverflow = done ++ rest ∧
      (∀ op ∈ done, r.HasImplemented Catalog.formOf op = false) ∧
      (∀ domain name, r.declareOperators.1.1.listed domain name =
        if domain = globalDomain then enterAll Catalog.formOf name done (r.listed domain name)
        else r.listed domain name) ∧
      (rest = [] ∧ r.declareOperators.2 = none ∨
        ∃ op more, rest = op :: more ∧ r.HasImplemented Catalog.formOf op = true ∧
          r.declareOperators.2 =
            some (.alreadyImplemented globalDomain op.1 (Catalog.formOf op.2.1).text) ∧
          ((∀ domain name, r.declareOperators.1.1.listed domain name = r.listed domain name) ↔
            done = [])) := by
  obtain ⟨done, rest, hops, hdone, hlisted, hend⟩ := Catalog.declareAll_enters (r := r)
    Catalog.formOf (fun _ hop => Catalog.compile_operators hop)
    (Catalog.distinct_operators r.config.unsignedOverflow)
  refine ⟨done, rest, hops, hdone, hlisted, hend.imp id ?_⟩
  rintro ⟨op, more, hrest, himpl, hfault⟩
  refine ⟨op, more, hrest, himpl, hfault, fun hsame => ?_, ?_⟩
  · -- the first that was entered was not implemented, and is so now
    cases done with
    | nil => rfl
    | cons first done =>
      have hnow := (hlisted globalDomain first.1).symm.trans (hsame globalDomain first.1)
      rw [if_pos rfl, enterAll, if_pos rfl] at hnow
      have hentered : implementedAmong (Catalog.formOf first.2.1).text
          (r.listed globalDomain first.1) = true := by
        rw [← hnow]
        exact implementedAmong_enterAll (implementedAmong_enterAmong
          ⟨globalDomain, first.1, Catalog.formOf first.2.1⟩ _ _)
      exact absurd (hentered.symm.trans (hdone first List.mem_cons_self)) (by decide)
  · rintro rfl domain name
    refine (hlisted domain name).trans ?_
    split <;> rfl

def nothingTarget : Implementation Unit := fun _ _ _ => Comp.done none

/-- a catalog in which a product has been declared, with an implementation, and no other operator -/
theorem exists_product : ∃ r : Catalog Unit, r.Reachable ∧ ∀ op : Operator,
    r.listed globalDomain (operatorKey op.symbol) = if op = .mul
      then [⟨⟨globalDomain, operatorKey op.symbol, binaryForm⟩, some nothingTarget⟩] else [] := by
  obtain ⟨r₀, _, hnew⟩ := Catalog.exists_new Unit
  obtain ⟨_, _, _, hnone⟩ := Catalog.new_spec hnew
  have hempty : ∀ op : Operator, r₀.listed globalDomain (operatorKey op.symbol) = [] := by
    intro op
    unfold Catalog.listed
    rw [hnone _ _ (by cases op <;> decide)]
    rfl
  let d : Declaration := ⟨globalDomain, operatorKey Operator.mul.symbol, binaryForm⟩
  have hfresh : r₀.declared? d.domain d.name d.signature = none := by
    unfold Catalog.declared?
    rw [hnone _ _ (by decide)]
    rfl
  have hdeclare := Catalog.declare_fresh (some nothingTarget) (compile_binaryForm _) rfl hfresh
  refine ⟨r₀.addOverload ⟨d, some nothingTarget⟩, .declare (.new hnew) hdeclare, fun op => ?_⟩
  rw [Catalog.listed_addOverload hfresh, hempty]
  cases op <;> rfl

/-- A product that is implemented already is found after sum and difference have been entered:
both stay. -/
theorem operators_entered_product : ∃ r : Catalog Unit, r.Reachable ∧
    r.declareOperators.2 =
      some (.alreadyImplemented globalDomain (operatorKey "*") binaryForm.text) ∧
    r.listed globalDomain (operatorKey "+") = [] ∧
    r.declareOperators.1.1.listed globalDomain (operatorKey "+") =
      [⟨⟨globalDomain, operatorKey "+", binaryForm⟩,
        some (binaryTarget r.config.unsignedOverflow .add)⟩] := by
  obtain ⟨r, hreach, hr⟩ := exists_product
  let entry (op : Operator) : String × String × Implementation Unit :=
    (operatorKey op.symbol, binarySignature, binaryTarget r.config.unsignedOverflow op)
  have hform : Catalog.formOf binarySignature = binaryForm := if_neg (by decide)
  have hopen : ∀ op : Operator, op ≠ .mul → r.HasImplemented Catalog.formOf (entry op) = false := by
    intro op hop
    unfold Catalog.HasImplemented
    rw [hr, if_neg hop]
    rfl
  have hproduct : r.HasImplemented Catalog.formOf (entry .mul) = true := by
    unfold Catalog.HasImplemented
    rw [hr, if_pos rfl, show Catalog.formOf (entry .mul).2.1 = binaryForm from hform,
      implementedAmong_cons, if_pos rfl]
    rfl
  obtain ⟨done, rest, hops, hdone, hlisted, hend⟩ := operators_entered r
  have hops : entry .add :: entry .sub :: entry .mul ::
      (Catalog.operators r.config.unsignedOverflow).drop 3 = done ++ rest := hops
  have hmissing : entry .mul ∉ done := fun hmem =>
    absurd (hproduct.symm.trans (hdone _ hmem)) (by decide)
  obtain ⟨rfl, -⟩ | ⟨op, more, rfl, himpl, hfault, -⟩ := hend
  · rw [List.append_nil] at hops
    exact absurd (by rw [← hops]; simp) hmissing
  obtain rfl : done = [entry .add, entry .sub] := by
    match done, hops with
    | [], hops =>
      cases hops
      exact absurd (himpl.symm.trans (hopen .add (by decide))) (by decide)
    | [_], hops =>
      cases hops
      exact absurd (himpl.symm.trans (hopen .sub (by decide))) (by decide)
    | [_, _], hops =>
      cases hops
      rfl
    | _ :: _ :: c :: _, hops =>
      have hthird := (List.cons.inj (List.cons.inj (List.cons.inj hops).2).2).1
      exact absurd (by simp [hthird]) hmissing
  cases hops
  have hsum : r.listed globalDomain (operatorKey "+") = [] := hr .add
  refine ⟨r, hreach, hfault.trans (congrArg some (by rw [← hform]; rfl)), hsum, ?_⟩
  rw [hlisted, if_pos rfl, hsum, ← hform]
  rfl

end Overloading
