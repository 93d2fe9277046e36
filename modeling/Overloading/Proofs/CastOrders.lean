import Overloading.Proofs.WellPlanned

/-!
# The order of casts

Of the four strategies one decays to pointers, one makes numbers and two make classes, so for any
one destination at most two can have anything to say, and those are the constructors and the brace
lists.  Which of the two comes first is all that an order decides.

* `Strategy.concerns`   the strategies that may have something to say about a cast;
* `castWith_filter`     the others can be left out of the order;
* `castWith_congr`      so two orders cast alike if they differ in the others only, at any depth of
                        brace lists;
* `castPlainly_congr`, `construct_congr`   without constructors no two orders differ, and what a
                        constructor is given is cast without constructors;
* `admitsWith_congr`    a call depends on the casts of its own arguments only;
* `cast_orders`         the theorem.
-/

namespace Overloading

open Grammar

/-- an order tries constructors before brace lists -/
def MakersFirst (order : List Strategy) : Prop :=
  [Strategy.constructor, Strategy.braceList].Sublist order

instance (order : List Strategy) : Decidable (MakersFirst order) :=
  inferInstanceAs (Decidable (List.Sublist _ order))

def Ty.isList : Ty → Bool
  | .list _ => true
  | _ => false

/-- whether a strategy may have something to say about a cast, if constructors are allowed or not -/
def Strategy.concerns (makers : Bool) (src dst : Ty) : Strategy → Bool
  | .decay => match dst with
    | .pointer _ => true
    | _ => false
  | .numeric => dst.kind?.isSome
  | .constructor => makers && dst.class?.isSome
  | .braceList => src.isList && dst.class?.isSome

/-! ## Trying in order -/

theorem firstPlan_filter {α β : Type} {f : α → Planned β} {keep : α → Bool} {as : List α}
    (h : ∀ a ∈ as, keep a = false → f a = .ok none) :
    firstPlan f (as.filter keep) = firstPlan f as := by
  induction as with
  | nil => rfl
  | cons a as ih =>
    obtain ⟨ha, has⟩ := List.forall_mem_cons.mp h
    rw [firstPlan]
    cases hkeep : keep a with
    | true =>
      rw [List.filter_cons_of_pos hkeep, firstPlan, ih has]
    | false =>
      rw [List.filter_cons_of_neg (by rw [hkeep]; decide), ih has, ha hkeep]

theorem firstPlan_congr {α β : Type} {f g : α → Planned β} {as : List α}
    (h : ∀ a ∈ as, f a = g a) : firstPlan f as = firstPlan g as := by
  induction as with
  | nil => rfl
  | cons a as ih =>
    obtain ⟨ha, has⟩ := List.forall_mem_cons.mp h
    rw [firstPlan, firstPlan, ha, ih has]

/-! ## One strategy -/

/-- what one strategy says about a cast -/
def castBy (m : CastRules) (user : Ty → Ref → Ty → Planned Transfer) (src : Ty) (ref : Ref)
    (dst : Ty) : Strategy → Planned Transfer
  | .braceList => match src with
    | .list elems => bracesInto m (castAllWith m user elems) elems.length dst
    | _ => .ok none
  | s => castSimply user src ref dst s

theorem castWith_eq (m : CastRules) (user : Ty → Ref → Ty → Planned Transfer) (src : Ty)
    (ref : Ref) (dst : Ty) :
    castWith m user src ref dst = firstPlan (castBy m user src ref dst) m.order := by
  cases src with
  | list elems =>
    rw [castWith]
    refine firstPlan_congr fun s _ => ?_
    cases s <;> rfl
  | arith | pointer | array | cls | function | void =>
    rw [castWith]
    · refine firstPlan_congr fun s _ => ?_
      cases s <;> rfl
    · exact nofun

/-- a way to find constructors says something about classes only, and nothing if none are allowed -/
def FindsMakers (makers : Bool) (user : Ty → Ref → Ty → Planned Transfer) : Prop :=
  ∀ src ref dst, (makers && dst.class?.isSome) = false → user src ref dst = .ok none

theorem castBy_eq_none {m : CastRules} {makers : Bool} {user : Ty → Ref → Ty → Planned Transfer}
    (huser : FindsMakers makers user) {src : Ty} {ref : Ref} {dst : Ty} {s : Strategy}
    (h : s.concerns makers src dst = false) : castBy m user src ref dst s = .ok none := by
  cases s with
  | decay => cases dst <;> first | rfl | cases h
  | numeric =>
    cases dst with
    | arith => cases h
    | pointer | array | cls | function | void | list => cases src <;> rfl
  | constructor => exact huser src ref dst h
  | braceList =>
    cases src with
    | list elems => cases dst <;> first | rfl | cases h
    | arith | pointer | array | cls | function | void => rfl

/-- a cast looks only at the strategies that concern it -/
theorem castWith_filter {m : CastRules} {makers : Bool} {user : Ty → Ref → Ty → Planned Transfer}
    (huser : FindsMakers makers user) (src : Ty) (ref : Ref) (dst : Ty) :
    castWith m user src ref dst = firstPlan (castBy m user src ref dst)
      (m.order.filter (Strategy.concerns makers src dst)) := by
  rw [castWith_eq]
  exact (firstPlan_filter fun s _ hs => castBy_eq_none huser hs).symm

/-! ## Two orders -/

section Orders

variable {makers : Bool} {user : Ty → Ref → Ty → Planned Transfer} {u : Option Conversions}
  {o o' : List Strategy}

/-- two orders put what concerns a cast in the same order -/
def SameFor (makers : Bool) (o o' : List Strategy) (src : Ty) : Prop :=
  ∀ dst, o.filter (Strategy.concerns makers src dst) = o'.filter (Strategy.concerns makers src dst)

theorem bracesInto_congr {convertAll convertAll' : List Ty → Planned (List Transfer)}
    (h : ∀ fields, convertAll fields = convertAll' fields) (length : Nat) (dst : Ty) :
    bracesInto ⟨u, o⟩ convertAll length dst = bracesInto ⟨u, o'⟩ convertAll' length dst := by
  rw [funext h]
  rfl

theorem castWith_eq_of_castBy (huser : FindsMakers makers user) {src : Ty}
    (hsame : SameFor makers o o' src) (ref : Ref) {dst : Ty}
    (h : castBy ⟨u, o⟩ user src ref dst .braceList = castBy ⟨u, o'⟩ user src ref dst .braceList) :
    castWith ⟨u, o⟩ user src ref dst = castWith ⟨u, o'⟩ user src ref dst := by
  rw [castWith_filter huser, castWith_filter huser, hsame dst]
  refine firstPlan_congr fun s _ => ?_
  cases s with
  | decay | numeric | constructor => rfl
  | braceList => exact h

mutual
/-- **Two orders cast alike** that put what concerns any cast in the same order: by recursion over
the source, as far as its brace lists are nested. -/
theorem castWith_congr (huser : FindsMakers makers user) (hsame : ∀ src, SameFor makers o o' src) :
    ∀ src ref dst, castWith ⟨u, o⟩ user src ref dst = castWith ⟨u, o'⟩ user src ref dst
  | .list elems, ref, dst =>
    castWith_eq_of_castBy huser (hsame _) ref
      (bracesInto_congr (castAllWith_congr huser hsame elems) elems.length dst)
  | .arith _, ref, _ | .pointer _, ref, _ | .array _ _, ref, _ | .cls _, ref, _
  | .function _, ref, _ | .void, ref, _ => castWith_eq_of_castBy huser (hsame _) ref rfl

theorem castAllWith_congr (huser : FindsMakers makers user)
    (hsame : ∀ src, SameFor makers o o' src) :
    ∀ es fs, castAllWith ⟨u, o⟩ user es fs = castAllWith ⟨u, o'⟩ user es fs
  | [], [] | [], _ :: _ | _ :: _, [] => by
    rw [castAllWith, castAllWith] <;> exact nofun
  | e :: es, f :: fs => by
    rw [castAllWith, castAllWith, castWith_congr huser hsame e .none f,
      castAllWith_congr huser hsame es fs]
end

/-! ## Orders that name every strategy once -/

section Permutations

variable (ho : o.Perm Strategy.all) (ho' : o'.Perm Strategy.all)
include ho ho'

theorem filter_eq_of_le_one {keep : Strategy → Bool} (h : (Strategy.all.filter keep).length ≤ 1) :
    o.filter keep = o'.filter keep := by
  have hp := ho.filter keep
  have hp' := ho'.filter keep
  match hall : Strategy.all.filter keep with
  | [] =>
    rw [hall] at hp hp'
    rw [hp.eq_nil, hp'.eq_nil]
  | [s] =>
    rw [hall] at hp hp'
    rw [List.perm_singleton.mp hp, List.perm_singleton.mp hp']
  | _ :: _ :: _ =>
    rw [hall] at h
    exact absurd h (by simp)

/-- no cast concerns two strategies, unless constructors are allowed and it makes a class of a
brace list -/
theorem filter_concerns_eq {src dst : Ty}
    (h : (makers && src.isList && dst.class?.isSome) = false) :
    o.filter (Strategy.concerns makers src dst) = o'.filter (Strategy.concerns makers src dst) := by
  refine filter_eq_of_le_one ho ho' ?_
  cases dst with
  | cls c =>
    cases hmakers : makers <;> cases hlist : src.isList <;>
      simp_all [Strategy.all, Strategy.concerns, Ty.kind?, Ty.class?]
  | arith | pointer | array | function | void | list =>
    simp [Strategy.all, List.filter_cons, Strategy.concerns, Ty.kind?, Ty.class?]

theorem sameFor_of_not_both {src : Ty} (h : (makers && src.isList) = false) :
    SameFor makers o o' src := fun dst => filter_concerns_eq ho ho' (by rw [h, Bool.false_and])

end Permutations

theorem filter_makers (ho : o.Perm Strategy.all) :
    (MakersFirst o → o.filter (fun s => s = .constructor ∨ s = .braceList) =
      [.constructor, .braceList]) ∧
    (¬ MakersFirst o → o.filter (fun s => s = .constructor ∨ s = .braceList) =
      [.braceList, .constructor]) := by
  have hperm : (o.filter fun s => s = .constructor ∨ s = .braceList).Perm
      [.constructor, .braceList] := ho.filter _
  refine ⟨fun hfirst => ?_, fun hlast => ?_⟩
  · have hsub := hfirst.filter fun s => decide (s = .constructor ∨ s = .braceList)
    exact (hsub.eq_of_length hperm.length_eq.symm).symm
  · have hsub : (o.filter fun s => s = .constructor ∨ s = .braceList).Sublist o :=
      List.filter_sublist
    obtain ⟨s, t, hst⟩ := List.length_eq_two.mp hperm.length_eq
    rw [hst] at hperm hsub ⊢
    cases s <;> cases t <;> first | rfl | exact absurd hsub hlast | exact absurd hperm (by decide)

theorem sameFor_of_makersFirst (ho : o.Perm Strategy.all) (ho' : o'.Perm Strategy.all)
    (h : MakersFirst o ↔ MakersFirst o') (src : Ty) : SameFor makers o o' src := by
  intro dst
  cases hboth : makers && src.isList && dst.class?.isSome with
  | false => exact filter_concerns_eq ho ho' hboth
  | true =>
    have hconcerns : Strategy.concerns makers src dst =
        fun s => decide (s = .constructor ∨ s = .braceList) := by
      simp only [Bool.and_eq_true] at hboth
      obtain ⟨⟨hmakers, hlist⟩, hclass⟩ := hboth
      cases dst with
      | cls c =>
        funext s
        cases s <;> simp [Strategy.concerns, hmakers, hlist, Ty.kind?, Ty.class?]
      | arith | pointer | array | function | void | list => cases hclass
    rw [hconcerns]
    by_cases hfirst : MakersFirst o
    · rw [(filter_makers ho).1 hfirst, (filter_makers ho').1 (h.mp hfirst)]
    · rw [(filter_makers ho).2 hfirst, (filter_makers ho').2 fun hfirst' => hfirst (h.mpr hfirst')]

/-! ## Constructors -/

theorem findsMakers_none : FindsMakers false fun _ _ _ => .ok none := fun _ _ _ _ => rfl

theorem castPlainly_congr (ho : o.Perm Strategy.all) (ho' : o'.Perm Strategy.all) :
    CastRules.castPlainly ⟨u, o⟩ = CastRules.castPlainly ⟨u, o'⟩ := by
  funext src ref dst
  exact castWith_congr findsMakers_none (fun _ => sameFor_of_not_both ho ho' rfl) src ref dst

theorem findsMakers_construct (m : CastRules) : FindsMakers true m.construct := by
  intro src ref dst h
  cases dst with
  | cls => cases h
  | arith | pointer | array | function | void | list =>
    rw [CastRules.construct.eq_def]

/-- what a constructor is given is cast without constructors, so finding one does not depend on the
order either -/
theorem construct_congr (ho : o.Perm Strategy.all) (ho' : o'.Perm Strategy.all) :
    CastRules.construct ⟨u, o⟩ = CastRules.construct ⟨u, o'⟩ := by
  funext src ref dst
  rw [CastRules.construct.eq_def, CastRules.construct.eq_def, castPlainly_congr ho ho']

/-! ## Casts -/

theorem cast_congr (ho : o.Perm Strategy.all) (ho' : o'.Perm Strategy.all)
    (h : MakersFirst o ↔ MakersFirst o') : CastRules.cast ⟨u, o⟩ = CastRules.cast ⟨u, o'⟩ := by
  funext src ref dst
  rw [CastRules.cast, CastRules.cast, construct_congr ho ho']
  exact castWith_congr (findsMakers_construct _) (sameFor_of_makersFirst ho ho' h) src ref dst

theorem cast_congr_of_not_list (ho : o.Perm Strategy.all) (ho' : o'.Perm Strategy.all) {src : Ty}
    (hsrc : src.isList = false) :
    CastRules.cast ⟨u, o⟩ src = CastRules.cast ⟨u, o'⟩ src := by
  funext ref dst
  rw [CastRules.cast, CastRules.cast, construct_congr ho ho']
  refine castWith_eq_of_castBy (findsMakers_construct _)
    (sameFor_of_not_both ho ho' (by rw [hsrc, Bool.and_false])) ref ?_
  cases src with
  | list => cases hsrc
  | arith | pointer | array | cls | function | void => rfl

theorem convert_congr {src : Ty} (h : CastRules.cast ⟨u, o⟩ src = CastRules.cast ⟨u, o'⟩ src) :
    CastRules.convert ⟨u, o⟩ src = CastRules.convert ⟨u, o'⟩ src := by
  funext ref dst
  have h := congrFun (congrFun h ref) dst
  unfold CastRules.cast at h
  unfold CastRules.convert convertWith
  rw [h]

end Orders

/-! ## Calls -/

section Calls

variable {cast cast' : Ty → Ref → Ty → Planned Transfer}

theorem finish_congr_cast {p : Tree}
    (h : p.splitRef.2.heads = [] → ∀ src, Ty.ofTree p.splitRef.2 = .ok src → cast src = cast' src)
    {b : Bindings} {d : Draft} (hd : d.Takes p) : finish cast b d = finish cast' b d := by
  cases d with
  | settled | promote => rfl
  | convert ref actual formal =>
    cases hd
    rw [finish, finish]
    cases hheads : p.splitRef.2.heads.isEmpty with
    | false => rfl
    | true =>
      cases hsrc : Ty.ofTree p.splitRef.2 with
      | error e => rfl
      | ok src => simp only [h (List.isEmpty_iff.mp hheads) src hsrc]

theorem finishAll_congr_cast {ps : List Tree}
    (h : ∀ p ∈ ps, p.splitRef.2.heads = [] →
      ∀ src, Ty.ofTree p.splitRef.2 = .ok src → cast src = cast' src) {b : Bindings}
    {ds : List Draft} (hds : List.Forall₂ Draft.Takes ps ds) :
    finishAll cast b ds = finishAll cast' b ds := by
  induction hds with
  | nil => rfl
  | cons hd _ ih =>
    obtain ⟨hp, hps⟩ := List.forall_mem_cons.mp h
    rw [finishAll, finishAll, finish_congr_cast hp hd, ih hps]

/-- two ways to cast that agree on the arguments of a call that have no wildcards plan it alike -/
theorem admitsWith_congr_params {sub : Signature}
    (h : ∀ p ∈ sub.params, p.splitRef.2.heads = [] →
      ∀ src, Ty.ofTree p.splitRef.2 = .ok src → cast src = cast' src) (sup : Signature)
    (explicit : List (List String)) :
    admitsWith cast sub sup explicit = admitsWith cast' sub sup explicit := by
  have hplan : ∀ b, planCall cast sub sup b = planCall cast' sub sup b := by
    intro b
    unfold planCall
    split
    · rfl
    next hlen =>
    split
    rotate_left
    · rfl
    split
    · rfl
    split
    · rfl
    next ds b' hdraft =>
    split
    · rfl
    · rfl
    rw [finishAll_congr_cast h (takes_of_draftAll (not_not.mp hlen) hdraft)]
  unfold admitsWith
  simp only [hplan]

theorem admitsWith_congr {sub : Signature}
    (h : ∀ src, .ok src ∈ sub.argumentTypes → cast src = cast' src) (sup : Signature)
    (explicit : List (List String)) :
    admitsWith cast sub sup explicit = admitsWith cast' sub sup explicit :=
  admitsWith_congr_params
    (fun p hp _ src hsrc => h src (List.mem_map.mpr ⟨p, hp, hsrc⟩)) sup explicit

end Calls

/-! ## The theorem -/

/-- **The order of casts** is of no consequence but between constructors and brace lists: two
orders of all strategies that agree on these plan every conversion and every call alike, with the
same faults; and any two orders do where no brace list is converted. -/
theorem cast_orders {user : Option Conversions} {o o' : List Strategy}
    (ho : o.Perm Strategy.all) (ho' : o'.Perm Strategy.all) :
    ((MakersFirst o ↔ MakersFirst o') →
      (∀ src ref dst,
        CastRules.convert ⟨user, o⟩ src ref dst = CastRules.convert ⟨user, o'⟩ src ref dst) ∧
      ∀ sub sup explicit, CastRules.admits ⟨user, o⟩ sub sup explicit =
        CastRules.admits ⟨user, o'⟩ sub sup explicit) ∧
    (∀ src ref dst, src.isList = false →
      CastRules.convert ⟨user, o⟩ src ref dst = CastRules.convert ⟨user, o'⟩ src ref dst) ∧
    (∀ sub sup explicit, (∀ t, .ok t ∈ sub.argumentTypes → t.isList = false) →
      CastRules.admits ⟨user, o⟩ sub sup explicit =
        CastRules.admits ⟨user, o'⟩ sub sup explicit) ∧
    ∀ (args : List Arg) (strict : Bool) (call sup : Signature) (explicit : List (List String)),
      (∀ a ∈ args, a.type.WellFormed ∧ a.type.isList = false) →
      (signature.compile (openCallForm args) Symbol.function strict = .ok call ∨
        ∃ ret : Ty, ret.WellFormed ∧
          signature.compile (typedCallForm ret args) Symbol.function strict = .ok call) →
      CastRules.admits ⟨user, o⟩ call sup explicit =
        CastRules.admits ⟨user, o'⟩ call sup explicit := by
  have hcalls : ∀ sub sup explicit, (∀ t, .ok t ∈ sub.argumentTypes → t.isList = false) →
      CastRules.admits ⟨user, o⟩ sub sup explicit =
        CastRules.admits ⟨user, o'⟩ sub sup explicit := fun sub sup explicit h =>
    admitsWith_congr (fun src hsrc => cast_congr_of_not_list ho ho' (h src hsrc)) sup explicit
  refine ⟨fun h => ?_, fun src ref dst hsrc => ?_, hcalls, ?_⟩
  · have hcast : CastRules.cast ⟨user, o⟩ = CastRules.cast ⟨user, o'⟩ := cast_congr ho ho' h
    refine ⟨fun src ref dst => ?_, fun sub sup explicit => ?_⟩
    · rw [convert_congr (congrFun hcast src)]
    · exact admitsWith_congr (fun src _ => congrFun hcast src) sup explicit
  · rw [convert_congr (cast_congr_of_not_list ho ho' hsrc)]
  · intro args strict call sup explicit hargs hcall
    refine hcalls call sup explicit fun t ht => ?_
    rw [argumentTypes_of_compile (fun a ha => (hargs a ha).1) hcall] at ht
    obtain ⟨a, ha, heq⟩ := List.mem_map.mp ht
    cases heq
    exact (hargs a ha).2

/-- a word becomes a box in the opposite order too, on its own and as an argument, and words in
braces become an `initializer_list` whatever is done first to make a class -/
theorem cast_orders_reversed :
    (∃ a, CastRules.convert ⟨boxRules.user, Strategy.all.reverse⟩ (.arith .i32) .none
        (.cls boxClass) = .ok (some a) ∧ a.constructs = true ∧
      CastRules.admits ⟨boxRules.user, Strategy.all.reverse⟩ wordCall boxProcedure [] =
        .ok (some ⟨[a], [], some ["VOID"]⟩)) ∧
    CastRules.convert ⟨none, [.numeric, .constructor, .decay, .braceList]⟩ (.list [.arith .i8])
        .none (.cls (.mk initializerListName [.arith .i32] none)) =
      .ok (some (.braces (.cls (.mk initializerListName [.arith .i32] none)) .initializerList
        [.numeric (.arith .i32)])) := by
  have hreversed : Strategy.all.reverse.Perm Strategy.all := List.reverse_perm _
  have hmixed : [Strategy.numeric, .constructor, .decay, .braceList].Perm Strategy.all := by decide
  obtain ⟨-, hwords, -, hcalls⟩ := @cast_orders boxRules.user _ _ hreversed (.refl _)
  obtain ⟨hbraces, -⟩ := @cast_orders none _ _ hmixed (.refl _)
  have hbox := cast_box (m := boxRules) rfl rfl rfl
  refine ⟨⟨_, (hwords _ _ _ rfl).trans ((if_neg (by simp)).trans hbox), rfl, ?_⟩, ?_⟩
  · have hplain : ∀ a ∈ [(⟨.arith .i32, .none⟩ : Arg)],
        a.type.WellFormed ∧ a.type.isList = false := by simp [Ty.WellFormed, Ty.isList]
    exact (hcalls _ _ wordCall boxProcedure [] hplain (.inl compile_wordCall)).trans
      (admits_boxProcedure (m := boxRules) rfl rfl rfl)
  · have hnone : ∀ o src ref dst, CastRules.construct ⟨none, o⟩ src ref dst = .ok none := by
      intro o src ref dst
      rw [CastRules.construct.eq_def]
      cases dst <;> rfl
    rw [(hbraces (by decide)).1, CastRules.convert, convertWith, if_neg (by simp), castWith]
    simp [Strategy.all, firstPlan, castSimply, decayTo, numericTo, hnone, bracesInto,
      ClassTy.listElement?, castAllWith, castWith, Except.map]

end Overloading
