import Overloading.Proofs.CatalogRuns

/-!
# Catalogs under edits

A catalog is edited by declarations, templates, list shapes and the builtin operators; an edit may
end in a fault, and the next one finds what it has left.

* `Edit.apply`, `Catalog.after`   an edit, and any number of them one after the other;
* `Edit.inPlace`      the same edits, assignment by assignment; a fault takes none of them back;
* `result_inPlace`    made in place or not, an edit has the same outcome and leaves the same.
-/

namespace Overloading

open Grammar

variable {τ : Type}

/-! ## Edits -/

inductive Edit (τ : Type) where
  | declare (domain name sig : String) (target : Option (Implementation τ))
  | template (owner name : String) (arity : Int) (layout : Layout)
  | shape (domain : String) (s : BraceLayout)
  | operators

namespace Edit

/-- the outcome of an edit and the catalog it leaves -/
abbrev Result (τ : Type) := Except Fault Unit × Catalog τ

/-- a catalog after a change that may fault -/
def ofChange (r : Catalog τ) : Except Fault (Catalog τ × List Record) → Result τ
  | .ok (r', _) => (.ok (), r')
  | .error e => (.error e, r)

def ofChanges : (Catalog τ × List Record) × Option Fault → Result τ
  | ((r', _), none) => (.ok (), r')
  | ((r', _), some e) => (.error e, r')

def apply (r : Catalog τ) : Edit τ → Result τ
  | declare domain name sig target => ofChange r (r.declare domain name sig target)
  | template owner name arity layout => ofChange r (r.addTemplate owner name arity layout)
  | shape domain s => (.ok (), (r.addShape domain s).1)
  | operators => ofChanges r.declareOperators

/-- whether an edit makes one entry, so that it is made as a whole or not at all -/
def isSingle : Edit τ → Bool
  | operators => false
  | _ => true

end Edit

def Catalog.after (r : Catalog τ) (es : List (Edit τ)) : Catalog τ :=
  es.foldl (fun r e => (e.apply r).2) r

/-! ## Edits in place -/

/-- a change of a catalog in place: what has been assigned stays so, also where a fault follows -/
abbrev InPlace (τ : Type) := ExceptT Fault (StateM (Catalog τ))

/-- enters a signature, given the overload it is declared by if it is: first among the overloads,
then among the conversions if it makes one -/
def enterInPlace (d : Declaration) (target : Option (Implementation τ)) :
    Option (Overload τ × Nat) → InPlace τ Unit
  | some (o, i) =>
    match target with
    | none => pure ()
    | some f =>
      if o.target.isSome then throw (.alreadyImplemented d.domain d.name d.signature.text)
      else modify fun r => r.implement i (some f)
  | none => do
    let number := (← get).overloads.size
    modify fun r => { r with overloads := r.overloads.push ⟨d, target⟩ }
    if Catalog.isConversion d then
      modify fun r => { r with conversions := r.conversions ++ [(d.domain, number)] }

def declareInPlace (domain name sig : String) (target : Option (Implementation τ)) :
    InPlace τ Unit := do
  let r ← get
  match signature.compileText sig Symbol.function r.config.strictWildcards with
  | .error e => throw e
  | .ok s =>
    if s.isFunction then enterInPlace ⟨domain, name, s⟩ target (r.declared? domain name s)
    else throw (.notAFunction name sig)

/-- enters a template: its default constructor, then the template itself, then its shape -/
def templateInPlace (owner name : String) (arity : Int) (layout : Layout) :
    InPlace τ Unit := do
  let r ← get
  let t : Template := ⟨owner, name, arity.toNat, layout⟩
  if arity < 0 then throw (.negativeArity name arity)
  else if (r.template? t.domain).isSome then throw (.templateDefined t.domain)
  else do
    declareInPlace t.domain defaultConstructorName t.nullarySignature
      (some (Catalog.memberwiseDefault t))
    modify fun r => { r with templates := r.templates ++ [(t.domain, t)] }
    modify fun r => { r with shapes := r.shapes ++ [(t.domain, ⟨layout, arity⟩)] }

def InPlace.result (c : InPlace τ Unit) (r : Catalog τ) : Edit.Result τ := c.run.run r

theorem InPlace.result_get (f : Catalog τ → InPlace τ Unit) (r : Catalog τ) :
    InPlace.result (do f (← get)) r = (f r).result r := rfl

theorem InPlace.result_andThen (c c' : InPlace τ Unit) (r : Catalog τ) :
    InPlace.result (do c; c') r = match c.result r with
      | (.ok (), r') => c'.result r'
      | (.error e, r') => (.error e, r') := by
  show (match c.result r with
    | (x, r') => (ExceptT.bindCont (fun _ => c') x : StateM (Catalog τ) _) r') = _
  rcases c.result r with ⟨x | x, r'⟩ <;> rfl

theorem result_declareInPlace (domain name sig : String) (target : Option (Implementation τ))
    (r : Catalog τ) : (declareInPlace domain name sig target).result r =
      Edit.ofChange r (r.declare domain name sig target) := by
  have hget : (declareInPlace domain name sig target).result r = InPlace.result
      (match signature.compileText sig Symbol.function r.config.strictWildcards with
        | .error e => throw e
        | .ok s =>
          if s.isFunction then enterInPlace ⟨domain, name, s⟩ target (r.declared? domain name s)
          else throw (.notAFunction name sig)) r := rfl
  rw [hget]
  unfold Catalog.declare
  cases signature.compileText sig Symbol.function r.config.strictWildcards with
  | error e => rfl
  | ok s =>
    show InPlace.result (if s.isFunction = true then _ else _) r =
      Edit.ofChange r (if (!s.isFunction) = true then _ else _)
    cases s.isFunction with
    | false => rfl
    | true =>
      show InPlace.result (enterInPlace ⟨domain, name, s⟩ target (r.declared? domain name s)) r =
        Edit.ofChange r (match r.declared? domain name s with
          | some (o, i) => _
          | none => _)
      cases r.declared? domain name s with
      | none =>
        unfold enterInPlace Catalog.addOverload
        cases Catalog.isConversion ⟨domain, name, s⟩ <;> rfl
      | some found =>
        obtain ⟨o, i⟩ := found
        cases target with
        | none => rfl
        | some f =>
          unfold enterInPlace
          cases ho : o.target <;> simp only [ho] <;> rfl

theorem result_templateInPlace (owner name : String) (arity : Int) (layout : Layout)
    (r : Catalog τ) : (templateInPlace owner name arity layout).result r =
      Edit.ofChange r (r.addTemplate owner name arity layout) := by
  unfold Catalog.addTemplate
  show InPlace.result (if arity < 0 then _ else _) r = Edit.ofChange r (if arity < 0 then _ else _)
  by_cases harity : arity < 0
  · rw [if_pos harity, if_pos harity]
    rfl
  rw [if_neg harity, if_neg harity]
  dsimp only
  cases htemplate : (r.template? (Template.domain ⟨owner, name, arity.toNat, layout⟩)).isSome with
  | true => rfl
  | false =>
    show InPlace.result (do declareInPlace _ _ _ _; _) r =
      Edit.ofChange r (r.declare _ _ _ _ >>= fun x => _)
    rw [InPlace.result_andThen, result_declareInPlace]
    rcases r.declare _ _ _ _ with e | ⟨r₁, records⟩ <;> rfl

def declareAllInPlace : List (String × String × Implementation τ) → InPlace τ Unit
  | [] => pure ()
  | (name, sig, target) :: rest => do
    declareInPlace globalDomain name sig (some target)
    declareAllInPlace rest

theorem result_declareAllInPlace (ops : List (String × String × Implementation τ))
    (r : Catalog τ) : (declareAllInPlace ops).result r = Edit.ofChanges (r.declareAll ops) := by
  induction ops generalizing r with
  | nil => rfl
  | cons op ops ih =>
    obtain ⟨name, sig, target⟩ := op
    rw [declareAllInPlace, InPlace.result_andThen, result_declareInPlace, Catalog.declareAll]
    rcases r.declare globalDomain name sig (some target) with e | ⟨r', records⟩
    · rfl
    · dsimp only
      show (declareAllInPlace ops).result r' = _
      rw [ih]
      rcases r'.declareAll ops with ⟨⟨r'', more⟩, _ | e⟩ <;> rfl

def Edit.inPlace : Edit τ → InPlace τ Unit
  | declare domain name sig target => declareInPlace domain name sig target
  | template owner name arity layout => templateInPlace owner name arity layout
  | shape domain s => modify fun r => { r with shapes := r.shapes ++ [(domain, s)] }
  | operators => do
    declareAllInPlace (Catalog.operators (← get).config.unsignedOverflow)

theorem result_inPlace (e : Edit τ) (r : Catalog τ) : e.inPlace.result r = e.apply r := by
  cases e with
  | declare domain name sig target => exact result_declareInPlace domain name sig target r
  | template owner name arity layout => exact result_templateInPlace owner name arity layout r
  | shape domain s => rfl
  | operators =>
    unfold Edit.inPlace
    rw [InPlace.result_get]
    exact result_declareAllInPlace _ r

end Overloading
