import Overloading.Proofs.Dispatching
import Overloading.Proofs.Instantiation

/-!
# Plans are well formed

Whatever the casts allowed are, a plan that is found is one that can be followed: each cast in it,
however deep, starts from what it finds and makes what is asked of it, and no path through it takes
two constructors.

* `Transfer.constructs`      a constructor cast occurs, at any depth;
* `Transfer.WellPlanned`     a transfer is well formed for a value of a type, with all its nested
                             matches and elements;
* `castsTo_castWith`         if the way to find constructors plans well, so does the cast built on
                             it, and it brings in no constructor of its own;
* `wellPlanned_of_admitsWith`   a match of a call plans well for the types of its arguments;
* `castsTo_construct`        so a constructor cast, whose match is found without constructors, has
                             none inside;
* `plans_well_formed`        the plans of conversions and of calls.
-/

namespace Overloading

open Grammar

def Signature.argumentTypes (call : Signature) : List (Except Fault Ty) :=
  call.params.map fun p => Ty.ofTree p.splitRef.2

namespace Transfer

mutual
/-- whether a constructor cast occurs, at any depth -/
def constructs : Transfer → Bool
  | .construct .. | .unregistered _ => true
  | .braces _ _ elements => constructsAny elements
  | .borrow | .clone | .decay _ | .numeric _ | .unsupported _ => false

def constructsAny : List Transfer → Bool
  | [] => false
  | a :: as => a.constructs || constructsAny as
end

/-- one transfer for each element of a list: a clone if the element has the type of its field, else
a cast to that type -/
structure Lays (as : List Transfer) (elems fields : List Ty) : Prop where
  length_eq : as.length = elems.length
  fields_length : fields.length = elems.length
  each : ∀ (j : Nat) (a : Transfer) (e f : Ty), as[j]? = some a → elems[j]? = some e →
    fields[j]? = some f → if e = f then a = .clone else a.target? = some f

mutual
/-- a transfer is well formed for a value of type `src`, with all its nested matches and elements -/
def WellPlanned (m : CastRules) : Transfer → (src : Ty) → Prop
  | .borrow, _ | .clone, _ => True
  | .decay t, src =>
    (∃ ts, src = .function ts ∧ t = .pointer src) ∨ ∃ e n, src = .array e n ∧ t = .pointer e
  | .numeric t, src => ∃ k l, src = .arith k ∧ t = .arith l
  | .construct t maker nested bindings returns, src =>
    (∃ u c, m.user = some u ∧ t = .cls c ∧ maker ∈ u.constructors c) ∧ returns = some t.tokens ∧
      constructsAny nested = false ∧ ∃ ref call,
        signature.compile (typedCallForm t [⟨src, ref⟩]) Symbol.function false = .ok call ∧
        admitsWith m.castPlainly call maker.signature [] = .ok (some ⟨nested, bindings, returns⟩) ∧
        WellPlannedAll m nested call.argumentTypes
  | .braces t shape elements, src =>
    ∃ c elems fields, t = .cls c ∧ src = .list elems ∧
      shape.fields? m c elems.length = some fields ∧ Lays elements elems fields ∧
      WellPlannedAll m elements (elems.map .ok)
  | .unregistered _, _ | .unsupported _, _ => False

def WellPlannedAll (m : CastRules) : List Transfer → List (Except Fault Ty) → Prop
  | [], [] => True
  | a :: as, ty :: tys => (∀ src, ty = .ok src → a.WellPlanned m src) ∧ WellPlannedAll m as tys
  | _, _ => False
end

theorem Lays.nil : Lays [] [] [] := ⟨rfl, rfl, fun j a e f h => by cases h⟩

theorem Lays.cons {a : Transfer} {as : List Transfer} {e f : Ty} {es fs : List Ty}
    (ha : if e = f then a = .clone else a.target? = some f) (h : Lays as es fs) :
    Lays (a :: as) (e :: es) (f :: fs) := by
  refine ⟨congrArg (· + 1) h.length_eq, congrArg (· + 1) h.fields_length, ?_⟩
  rintro (_ | j) b e' f' hb he hf
  · cases hb
    cases he
    cases hf
    exact ha
  · exact h.each j b e' f' hb he hf

theorem wellPlanned_of_plain {m : CastRules} {a : Transfer} (h : a = .borrow ∨ a = .clone)
    (src : Ty) : a.WellPlanned m src := by
  rcases h with rfl | rfl <;> trivial

theorem not_constructs_of_plain {a : Transfer} (h : a = .borrow ∨ a = .clone) :
    a.constructs = false := by
  rcases h with rfl | rfl <;> rfl

end Transfer

/-! ## Casts -/

/-- a cast that plans well, and has a constructor in it only if these are allowed -/
structure Transfer.CastsTo (m : CastRules) (allowed : Prop) (src dst : Ty) (a : Transfer) :
    Prop where
  planned : a.WellPlanned m src
  target_eq : a.target? = some dst
  without : ¬ allowed → a.constructs = false

/-- the elements of a brace list, each brought to its field -/
structure Transfer.LaysOut (m : CastRules) (allowed : Prop) (elems fields : List Ty)
    (as : List Transfer) : Prop where
  lays : Transfer.Lays as elems fields
  planned : Transfer.WellPlannedAll m as (elems.map .ok)
  without : ¬ allowed → Transfer.constructsAny as = false

theorem Transfer.LaysOut.cons {m : CastRules} {allowed : Prop} {e f : Ty} {es fs : List Ty}
    {a : Transfer} {as : List Transfer} (h : Transfer.LaysOut m allowed es fs as)
    (ha : if e = f then a = .clone else a.target? = some f)
    (hplanned : ∀ src, (.ok e : Except Fault Ty) = .ok src → a.WellPlanned m src)
    (hwithout : ¬ allowed → a.constructs = false) :
    Transfer.LaysOut m allowed (e :: es) (f :: fs) (a :: as) := by
  refine ⟨h.lays.cons ha, ⟨hplanned, h.planned⟩, fun hnot => ?_⟩
  rw [Transfer.constructsAny, hwithout hnot, h.without hnot]
  rfl

/-- a way to cast plans well -/
def CastPlans (m : CastRules) (allowed : Prop) (cast : Ty → Ref → Ty → Planned Transfer) : Prop :=
  ∀ src ref dst a, cast src ref dst = .ok (some a) → a.CastsTo m allowed src dst

section Casts

variable {m : CastRules} {allowed : Prop} {user : Ty → Ref → Ty → Planned Transfer}

/-- **A cast plans well**: by induction on it, as far as brace lists are nested. -/
theorem castsTo_castWith (huser : CastPlans m allowed user) :
    CastPlans m allowed (castWith m user) :=
  CastClosed.castWith (P := fun src _ dst a => a.CastsTo m allowed src dst)
    (Q := Transfer.LaysOut m allowed)
    { function := fun ts _ => ⟨.inl ⟨ts, rfl, rfl⟩, rfl, fun _ => rfl⟩
      array := fun e n _ => ⟨.inr ⟨e, n, rfl, rfl⟩, rfl, fun _ => rfl⟩
      numeric := fun k l _ => ⟨⟨k, l, rfl, rfl⟩, rfl, fun _ => rfl⟩
      constructor := huser
      braces := fun es _ c _ fields _ hfields has =>
        ⟨⟨c, es, fields, rfl, rfl, hfields, has.lays, has.planned⟩, rfl, has.without⟩
      nil := ⟨.nil, trivial, fun _ => rfl⟩
      clone := fun _ _ _ _ has => has.cons (by rw [if_pos rfl]) (fun _ _ => trivial) fun _ => rfl
      cast := fun _ _ _ _ _ _ hne ha has =>
        has.cons (by rw [if_neg hne, ha.target_eq]) (by rintro _ ⟨⟩; exact ha.planned) ha.without }

end Casts

/-! ## Matches of calls -/

/-- what a draft takes from its argument: the kind, or the argument without its marker -/
def Draft.Takes (p : Tree) : Draft → Prop
  | .settled a => a = .borrow ∨ a = .clone
  | .promote _ _ k => p.splitRef.2.kind? = some k
  | .convert _ actual _ => actual = p.splitRef.2

theorem takes_of_draft {actual formal : Tree} {b b' : Bindings} {d : Draft}
    (h : draft actual formal b = some (d, b')) : d.Takes actual := by
  have hplain := plain_of_draft h
  cases hhead : formal.isHead with
  | true =>
    cases formal with
    | head s i tok =>
      rw [draft] at h
      obtain ⟨b₁, _, he⟩ := Option.map_eq_some_iff.mp h
      cases he
      exact hplain
    | leaf | branch => cases hhead
  | false =>
    rcases draft_cases hhead h with ⟨_, _, rfl, _⟩ | ⟨_, ⟨_, k, _, hk, rfl, _⟩ | ⟨rfl, _⟩ |
      ⟨rfl, _⟩⟩
    · exact hplain
    · exact hk
    · exact hplain
    · exact rfl

theorem takes_of_draftAll {actuals formals : List Tree} {b b' : Bindings} {ds : List Draft}
    (hlen : actuals.length = formals.length) (h : draftAll actuals formals b = some (ds, b')) :
    List.Forall₂ Draft.Takes actuals ds := by
  induction actuals generalizing formals b ds with
  | nil =>
    rw [draftAll] at h
    · cases h
      exact .nil
    · intros; contradiction
  | cons a actuals ih =>
    cases formals with
    | nil => cases hlen
    | cons f formals =>
      rw [draftAll] at h
      split at h
      · cases h
      next d b₁ hd =>
      obtain ⟨⟨ds', b₂⟩, hrest, he⟩ := Option.map_eq_some_iff.mp h
      cases he
      exact .cons (takes_of_draft hd) (ih (Nat.succ.inj hlen) hrest)

section Matches

variable {m : CastRules} {allowed : Prop} {cast : Ty → Ref → Ty → Planned Transfer}

theorem wellPlanned_of_finish (hcast : CastPlans m allowed cast) {p : Tree}
    (hp : p.splitRef.2.Formed) {b : Bindings} {d : Draft} {a : Transfer} (hd : d.Takes p)
    (h : finish cast b d = .ok (some a)) :
    (∀ src, Ty.ofTree p.splitRef.2 = .ok src → a.WellPlanned m src) ∧
      (¬ allowed → a.constructs = false) := by
  cases d with
  | settled a' =>
    rw [finish] at h
    cases h
    exact ⟨fun src _ => Transfer.wellPlanned_of_plain hd src,
      fun _ => Transfer.not_constructs_of_plain hd⟩
  | promote id ref k =>
    rw [finish] at h
    split at h
    rotate_left
    · cases h
    next target _ =>
    cases h
    unfold passPromoted
    split
    · have hplain : (if ref = .constant then Transfer.borrow else .clone) = .borrow ∨
          (if ref = .constant then Transfer.borrow else .clone) = .clone := by
        split
        · exact .inl rfl
        · exact .inr rfl
      exact ⟨fun src _ => Transfer.wellPlanned_of_plain hplain src,
        fun _ => Transfer.not_constructs_of_plain hplain⟩
    · exact ⟨fun src hsrc => ⟨k, target, arith_of_kind? hp hsrc hd, rfl⟩, fun _ => rfl⟩
  | convert ref actual formal =>
    cases hd
    obtain ⟨src, dst, hsrc, -, hmade⟩ := cast_of_finish h
    have ha := hcast src _ dst a hmade
    refine ⟨fun src' hsrc' => ?_, ha.without⟩
    rw [hsrc] at hsrc'
    cases hsrc'
    exact ha.planned

theorem wellPlanned_of_finishAll (hcast : CastPlans m allowed cast) {ps : List Tree}
    (hps : ∀ p ∈ ps, p.splitRef.2.Formed) {b : Bindings} {ds : List Draft} {as : List Transfer}
    (hds : List.Forall₂ Draft.Takes ps ds) (h : finishAll cast b ds = .ok (some as)) :
    Transfer.WellPlannedAll m as (ps.map fun p => Ty.ofTree p.splitRef.2) ∧
      (¬ allowed → Transfer.constructsAny as = false) := by
  induction hds generalizing as with
  | nil =>
    rw [finishAll] at h
    cases h
    exact ⟨trivial, fun _ => rfl⟩
  | @cons p d ps ds hd _ ih =>
    rw [finishAll] at h
    split at h
    · cases h
    · cases h
    next a ha =>
    obtain ⟨as', has, rfl⟩ := planned_map_eq h
    obtain ⟨hplanned, hwithout⟩ :=
      wellPlanned_of_finish hcast (hps p List.mem_cons_self) hd ha
    obtain ⟨hplannedAll, hwithoutAny⟩ := ih (fun q hq => hps q (List.mem_cons_of_mem _ hq)) has
    refine ⟨⟨hplanned, hplannedAll⟩, fun hnot => ?_⟩
    rw [Transfer.constructsAny, hwithout hnot, hwithoutAny hnot]
    rfl

/-- **A match of a call plans well** for the types of its arguments. -/
theorem wellPlanned_of_admitsWith (hcast : CastPlans m allowed cast) {sub sup : Signature}
    {start : Symbol} (hsub : sub.CompiledFrom start) (hfun : sub.isFunction = true)
    (hsupfun : sup.isFunction = true) {explicit : List (List String)} {r : Match}
    (h : admitsWith cast sub sup explicit = .ok (some r)) :
    Transfer.WellPlannedAll m r.transfers sub.argumentTypes ∧
      (¬ allowed → Transfer.constructsAny r.transfers = false) := by
  obtain ⟨b, _, hplan⟩ := planCall_of_admitsWith hfun hsupfun h
  obtain ⟨hlen, _, _, _, _, _, _, _, _, _, hdraft, _, hfinish, _⟩ := planCall_stages hplan
  exact wellPlanned_of_finishAll hcast
    (fun p hp => (isFormal_of_mem_params hsub hp).unmarked_splitRef.formed)
    (takes_of_draftAll hlen hdraft) hfinish

end Matches

/-! ## Constructors -/

theorem castsTo_castPlainly (m : CastRules) : CastPlans m False m.castPlainly :=
  castsTo_castWith fun _ _ _ _ h => by cases h

/-- a constructor cast is the first match of a call, without other constructors, that returns the
class -/
theorem construct_cases {m : CastRules} {src : Ty} {ref : Ref} {dst : Ty} {a : Transfer}
    (h : m.construct src ref dst = .ok (some a)) :
    ∃ u c call maker res, m.user = some u ∧ dst = .cls c ∧ maker ∈ u.constructors c ∧
      signature.compile (typedCallForm (.cls c) [⟨src, ref⟩]) Symbol.function false = .ok call ∧
      admitsWith m.castPlainly call maker.signature [] = .ok (some res) ∧
      res.returns = some c.tokens ∧
      a = .construct (.cls c) maker res.transfers res.bindings res.returns := by
  rw [CastRules.construct.eq_def] at h
  obtain ⟨c, u, rfl, hu, h⟩ := class_of_construct h
  cases hcall : signature.compile (typedCallForm (.cls c) [⟨src, ref⟩]) Symbol.function false with
  | error e => rw [hcall] at h; cases h
  | ok call =>
    rw [hcall] at h
    obtain ⟨maker, hmem, hmaker⟩ := exists_of_firstPlan h
    cases hadmits : admitsWith m.castPlainly call maker.signature [] with
    | error e => rw [hadmits] at hmaker; cases hmaker
    | ok r =>
      rw [hadmits] at hmaker
      obtain ⟨res, rfl, hres⟩ := Option.bind_eq_some_iff.mp (Except.ok.inj hmaker)
      split at hres
      · next hreturns =>
        cases hres
        exact ⟨u, c, call, maker, res, hu, rfl, hmem, hcall, hadmits, hreturns, rfl⟩
      · cases hres

theorem isFunction_of_returns {cast : Ty → Ref → Ty → Planned Transfer} {sub sup : Signature}
    {explicit : List (List String)} {r : Match} {ts : List String}
    (h : admitsWith cast sub sup explicit = .ok (some r)) (hr : r.returns = some ts) :
    sub.isFunction = true ∧ sup.isFunction = true := by
  unfold admitsWith at h
  split at h
  · cases h
  split at h
  · next hfun => exact Bool.and_eq_true_iff.mp hfun
  · obtain ⟨b, _, rfl⟩ := Option.map_eq_some_iff.mp (Except.ok.inj h)
    cases hr

/-- **A constructor cast has none inside**: its match was found without any. -/
theorem castsTo_construct (m : CastRules) : CastPlans m True m.construct := by
  intro src ref dst a h
  obtain ⟨u, c, call, maker, res, hu, rfl, hmem, hcall, hadmits, hreturns, rfl⟩ :=
    construct_cases h
  obtain ⟨hfun, hmakerfun⟩ := isFunction_of_returns hadmits hreturns
  obtain ⟨hplanned, hwithout⟩ := wellPlanned_of_admitsWith (castsTo_castPlainly m)
    (exists_kinded hcall).2.1 hfun hmakerfun hadmits
  exact ⟨⟨⟨u, c, hu, rfl, hmem⟩, hreturns, hwithout not_false, ref, call, hcall, hadmits, hplanned⟩,
    rfl, fun hnot => absurd trivial hnot⟩

theorem castsTo_cast (m : CastRules) : CastPlans m True m.cast :=
  castsTo_castWith (castsTo_construct m)

/-! ## The types of arguments -/

theorem argumentTypes_of_shownBy {call : Signature} {args : List Arg}
    (h : List.Forall₂ Arg.ShownBy args call.params) :
    call.argumentTypes = args.map fun a => .ok a.type := by
  unfold Signature.argumentTypes
  generalize call.params = ps at h
  induction h with
  | nil => rfl
  | cons hp _ ih =>
    obtain ⟨_, _, hden⟩ := hp.denotes
    rw [List.map_cons, List.map_cons, hden.type_eq, ih]

theorem argumentTypes_of_compile {args : List Arg} {strict : Bool} {call : Signature}
    (hargs : ∀ a ∈ args, a.type.WellFormed)
    (hcall : signature.compile (openCallForm args) Symbol.function strict = .ok call ∨
      ∃ ret : Ty, ret.WellFormed ∧
        signature.compile (typedCallForm ret args) Symbol.function strict = .ok call) :
    call.argumentTypes = args.map fun a => .ok a.type := by
  rcases hcall with hcall | ⟨ret, hret, hcall⟩
  · exact argumentTypes_of_shownBy (params_shownBy hargs hcall).2.2
  · exact argumentTypes_of_shownBy (calls_of_compile hret hargs hcall).1.params

/-! ## The theorem -/

/-- **Plans are well formed**: whatever the user-defined conversions and the order of casts, the
plan of a conversion fits its source and makes what it is asked for, and the plan of a call fits
the types of its arguments.  In both, at any depth, a constructor cast returns its class and has no
constructor inside, a brace list has one transfer for each element, a clone or a cast to the type
of its field, pointers come from functions and arrays, and numbers from numbers.  The types of the
arguments are those the call was made for. -/
theorem plans_well_formed (m : CastRules) :
    (∀ (src : Ty) (ref : Ref) (dst : Ty) (a : Transfer), m.convert src ref dst = .ok (some a) →
      a.WellPlanned m src ∧ if src = dst then a = .clone else a.target? = some dst) ∧
    (∀ (src : List String) (start : Symbol) (strict : Bool) (call sup : Signature)
      (explicit : List (List String)) (r : Match),
      signature.compile src start strict = .ok call → call.isFunction = true →
      sup.isFunction = true → m.admits call sup explicit = .ok (some r) →
        Transfer.WellPlannedAll m r.transfers call.argumentTypes) ∧
    ∀ (args : List Arg) (strict : Bool) (call : Signature), (∀ a ∈ args, a.type.WellFormed) →
      (signature.compile (openCallForm args) Symbol.function strict = .ok call ∨
        ∃ ret : Ty, ret.WellFormed ∧
          signature.compile (typedCallForm ret args) Symbol.function strict = .ok call) →
        call.argumentTypes = args.map fun a => .ok a.type := by
  refine ⟨fun src ref dst a h => ?_, ?_,
    fun args strict call hargs hcall => argumentTypes_of_compile hargs hcall⟩
  · unfold CastRules.convert convertWith at h
    split at h
    · next heq =>
      cases h
      exact ⟨trivial, if_pos heq ▸ rfl⟩
    · next hne =>
      have ha := castsTo_castWith (castsTo_construct m) src ref dst a h
      exact ⟨ha.planned, if_neg hne ▸ ha.target_eq⟩
  · intro src start strict call sup explicit r hcall hfun hsup h
    exact (wellPlanned_of_admitsWith (castsTo_cast m) (exists_kinded hcall).2.1 hfun hsup h).1

def boxRules : CastRules := ⟨some ⟨fun _ => [⟨0, boxMaker⟩], fun _ => []⟩, Strategy.all⟩

/-- a word becomes a box by its constructor, on its own and as an argument -/
theorem plans_well_formed_box :
    ∃ a, boxRules.convert (.arith .i32) .none (.cls boxClass) = .ok (some a) ∧
      a.constructs = true ∧ a.WellPlanned boxRules (.arith .i32) ∧
      a.target? = some (.cls boxClass) ∧
      ∃ r, boxRules.admits wordCall boxProcedure [] = .ok (some r) ∧ r.transfers = [a] ∧
        wordCall.argumentTypes = [.ok (.arith .i32)] ∧
        Transfer.WellPlannedAll boxRules r.transfers wordCall.argumentTypes := by
  obtain ⟨hconvert, hcall, htypes⟩ := plans_well_formed boxRules
  have hcast : boxRules.convert (.arith .i32) .none (.cls boxClass) = .ok (some (.construct
      (.cls boxClass) ⟨0, boxMaker⟩ [.clone] [] (some boxClass.tokens))) :=
    (if_neg nofun).trans (cast_box (m := boxRules) rfl rfl rfl)
  have hadmits := admits_boxProcedure (m := boxRules) rfl rfl rfl
  obtain ⟨hplanned, htarget⟩ := hconvert _ _ _ _ hcast
  rw [if_neg nofun] at htarget
  exact ⟨_, hcast, rfl, hplanned, htarget, _, hadmits, rfl,
    htypes [⟨.arith .i32, .none⟩] _ _ (by simp [Ty.WellFormed]) (.inl compile_wordCall),
    hcall _ _ _ _ _ _ _ compile_wordCall rfl rfl hadmits⟩

end Overloading
