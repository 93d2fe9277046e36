import Overloading.Proofs.CastOrders
import Overloading.Proofs.ConstructorCalls

/-!
# How deep a search for a conversion nests

A cast may have to cast again: the elements of a brace list to the fields of a class, and the
argument of a constructor to its parameter.  Neither makes the destination smaller, for the fields
and the parameters are whatever the conversions of a program say.  What ends the search is the
source: elements are nested less deep than their list, and inside a constructor no constructor is
tried.

* `CastRules.castWithin`   a cast with at most so many casts nested in one another.  Where one more
                           is called for, the answer is a fault, and a fault of a nested cast is
                           the answer of the whole search; so a search that comes to the same
                           whatever the fault has no need of more;
* `castOnce_congr`         one cast depends on the casts of its elements and on its constructors
                           only;
* `constructBy_congr`      a constructor is looked for by casts of the very value to be converted;
* `withinBy_eq`            so the nesting of brace lists bounds the nesting of casts, by induction
                           on the casts allowed;
* `LevelsOff`              for values whose types cannot even be written there is a bound as well,
                           though it depends on what they are converted to.
-/

namespace Overloading

open Grammar

/-! ## Casts nested in one another -/

/-- converts each element of a list to the field in its place, by a way to cast -/
def convertEach (cast : Ty → Ref → Ty → Planned Transfer) :
    List Ty → List Ty → Planned (List Transfer)
  | e :: es, f :: fs =>
    consPlan (if e = f then .ok (some .clone) else cast e .none f) (convertEach cast es fs)
  | _, _ => .ok (some [])

namespace CastRules

variable (m : CastRules)

/-- one cast: constructors are found by `user`, the elements of a brace list are cast by `cast` -/
def castOnce (user cast : Ty → Ref → Ty → Planned Transfer) (src : Ty) (ref : Ref) (dst : Ty) :
    Planned Transfer :=
  firstPlan
    (fun s => match s, src with
      | .braceList, .list elems => bracesInto m (convertEach cast elems) elems.length dst
      | s, src => castSimply user src ref dst s)
    m.order

/-- the first one-argument constructor that takes a value, its argument cast by `cast` -/
def constructBy (cast : Ty → Ref → Ty → Planned Transfer) (src : Ty) (ref : Ref) (dst : Ty) :
    Planned Transfer :=
  match dst, m.user with
  | .cls c, some user =>
    match signature.compile (typedCallForm (.cls c) [⟨src, ref⟩]) Symbol.function false with
    | .error e => .error e
    | .ok call =>
      firstPlan
        (fun maker =>
          (admitsWith cast call maker.signature []).map fun r => r.bind fun res =>
            if res.returns = some c.tokens then
              some (.construct dst maker res.transfers res.bindings res.returns)
            else none)
        (user.constructors c)
  | _, _ => .ok none

/-- a cast that may have at most so many casts nested in one another, itself included; `cut` is the
answer where one more is called for.  Constructors are found by `user`, given the casts left. -/
def withinBy (cut : Fault) (user : Nat → Ty → Ref → Ty → Planned Transfer) :
    Nat → Ty → Ref → Ty → Planned Transfer
  | 0, _, _, _ => .error cut
  | n + 1, src, ref, dst => m.castOnce (user n) (withinBy cut user n) src ref dst

/-- a cast without user-defined conversions, with at most so many casts nested in one another -/
def plainlyWithin (cut : Fault) : Nat → Ty → Ref → Ty → Planned Transfer :=
  m.withinBy cut fun _ _ _ _ => .ok none

/-- a cast with at most so many casts nested in one another -/
def castWithin (cut : Fault) : Nat → Ty → Ref → Ty → Planned Transfer :=
  m.withinBy cut fun n => m.constructBy (m.plainlyWithin cut n)

/-- how a value reaches a type, with at most so many casts nested in one another -/
def convertWithin (cut : Fault) (n : Nat) (src : Ty) (ref : Ref) (dst : Ty) : Planned Transfer :=
  if src = dst then .ok (some .clone) else m.castWithin cut n src ref dst

/-- admission with at most so many casts nested in one another -/
def admitsWithin (cut : Fault) (n : Nat) (sub sup : Signature) (explicit : List (List String)) :
    Planned Match :=
  admitsWith (m.castWithin cut n) sub sup explicit

end CastRules

/-! ## The search is made of casts -/

section Once

variable {m : CastRules} {user user' cast cast' : Ty → Ref → Ty → Planned Transfer}

theorem convertEach_congr {es : List Ty} (h : ∀ e ∈ es, cast e = cast' e) (fs : List Ty) :
    convertEach cast es fs = convertEach cast' es fs := by
  induction es generalizing fs with
  | nil => rfl
  | cons e es ih =>
    obtain ⟨he, hes⟩ := List.forall_mem_cons.mp h
    cases fs with
    | nil => rfl
    | cons f fs => rw [convertEach, convertEach, he, ih hes]

theorem castAllWith_eq (es fs : List Ty) :
    castAllWith m user es fs = convertEach (castWith m user) es fs := by
  induction es generalizing fs with
  | nil =>
    rw [castAllWith, convertEach]
    all_goals
      intro _ _ _ _ h
      cases h
  | cons e es ih =>
    cases fs with
    | nil =>
      rw [castAllWith, convertEach]
      all_goals
        intro _ _ _ _ _ h
        cases h
    | cons f fs =>
      rw [castAllWith_cons, convertEach, ih]
      rfl

theorem castOnce_eq (src : Ty) (ref : Ref) (dst : Ty) :
    m.castOnce user (castWith m user) src ref dst = castWith m user src ref dst := by
  rw [castWith_eq, CastRules.castOnce]
  refine firstPlan_congr fun s _ => ?_
  cases s with
  | decay | numeric | constructor => rfl
  | braceList =>
    cases src with
    | list elems =>
      rw [castBy]
      exact congrArg (fun f => bracesInto m f elems.length dst)
        (funext fun fs => (castAllWith_eq elems fs).symm)
    | arith | pointer | array | cls | function | void => rfl

/-- **One cast** depends on its constructors and on the casts of its elements only. -/
theorem castOnce_congr {src : Ty} (huser : user src = user' src)
    (hcast : ∀ es, src = .list es → ∀ e ∈ es, cast e = cast' e) :
    m.castOnce user cast src = m.castOnce user' cast' src := by
  funext ref dst
  refine firstPlan_congr fun s _ => ?_
  cases s with
  | decay | numeric => rfl
  | constructor => exact congrFun (congrFun huser ref) dst
  | braceList =>
    cases src with
    | list elems =>
      exact congrArg (fun f => bracesInto m f elems.length dst)
        (funext fun fs => convertEach_congr (hcast elems rfl) fs)
    | arith | pointer | array | cls | function | void => rfl

theorem planned_congr {dst : Ty} {user : Option Conversions}
    {F G : ClassTy → Conversions → Planned Transfer} (h : ∀ c u, F c u = G c u) :
    (match dst, user with
      | .cls c, some u => F c u
      | _, _ => .ok none) =
    match dst, user with
      | .cls c, some u => G c u
      | _, _ => .ok none := by
  rw [funext fun c => funext (h c)]

theorem construct_eq_constructBy (m : CastRules) : m.construct = m.constructBy m.castPlainly := rfl

theorem constructBy_congr_calls {src : Ty} {ref : Ref}
    (h : ∀ c call sup, signature.compile (typedCallForm (.cls c) [⟨src, ref⟩]) Symbol.function
      false = .ok call → admitsWith cast call sup [] = admitsWith cast' call sup []) (dst : Ty) :
    m.constructBy cast src ref dst = m.constructBy cast' src ref dst := by
  rw [CastRules.constructBy.eq_def, CastRules.constructBy.eq_def]
  refine planned_congr fun c u => ?_
  cases hcall : signature.compile (typedCallForm (.cls c) [⟨src, ref⟩]) Symbol.function false with
  | error e => rfl
  | ok call => exact firstPlan_congr fun maker _ => by rw [h c call maker.signature hcall]

/-- **A constructor is looked for by casts of the value to be converted**, whatever it is to make:
what is read back from the call is the type the call was written for. -/
theorem constructBy_congr {src : Ty} (hread : signature.readType src.tokens = .ok src)
    (h : cast src = cast' src) : m.constructBy cast src = m.constructBy cast' src := by
  funext ref dst
  refine constructBy_congr_calls (fun c call sup hcall => ?_) dst
  refine admitsWith_congr_params (fun p hp hclosed t ht => ?_) sup []
  obtain ⟨hformed, hsymbol, -⟩ := mem_params (compiledFrom_of_compile (by decide) hcall) hp
  rw [ofTree_splitRef hformed hsymbol,
    argument_of_call hread hcall hp (by rw [← p.heads_splitRef]; exact hclosed)] at ht
  rw [← Except.ok.inj ht, h]

end Once

/-! ## Brace lists -/

mutual
def Ty.braceDepth : Ty → Nat
  | .list es => Ty.braceDepthAll es + 1
  | .arith _ | .pointer _ | .array _ _ | .cls _ | .function _ | .void => 0

def Ty.braceDepthAll : List Ty → Nat
  | [] => 0
  | e :: es => max e.braceDepth (Ty.braceDepthAll es)
end

theorem braceDepth_le_all {e : Ty} {es : List Ty} (h : e ∈ es) :
    e.braceDepth ≤ Ty.braceDepthAll es := by
  induction es with
  | nil => cases h
  | cons f es ih =>
    rw [Ty.braceDepthAll]
    rcases List.mem_cons.mp h with rfl | h
    · exact Nat.le_max_left _ _
    · exact Nat.le_trans (ih h) (Nat.le_max_right _ _)

theorem braceDepth_lt {e : Ty} {es : List Ty} (h : e ∈ es) :
    e.braceDepth < (Ty.list es).braceDepth := by
  rw [Ty.braceDepth]
  exact Nat.lt_succ_of_le (braceDepth_le_all h)

/-! ## The nesting of brace lists bounds the nesting of casts -/

section Bounds

variable {m : CastRules} {cut : Fault}

/-- **A search nests as deep as its brace lists**, and as deep as its constructors need beyond that:
by induction on the casts allowed, where the source of a nested cast is an element of the list. -/
theorem withinBy_eq {user : Nat → Ty → Ref → Ty → Planned Transfer}
    {user' : Ty → Ref → Ty → Planned Transfer} (Good : Ty → Prop) (extra : Nat)
    (hgood : ∀ es, Good (.list es) → ∀ e ∈ es, Good e)
    (huser : ∀ src n, Good src → src.braceDepth + extra ≤ n → user n src = user' src) :
    ∀ n src, Good src → src.braceDepth + extra < n →
      m.withinBy cut user n src = castWith m user' src := by
  intro n
  induction n with
  | zero =>
    intro src _ hn
    exact absurd hn (Nat.not_lt_zero _)
  | succ n ih =>
    intro src hsrc hn
    calc m.withinBy cut user (n + 1) src
        = m.castOnce (user n) (m.withinBy cut user n) src := by
          funext ref dst
          rw [CastRules.withinBy]
      _ = m.castOnce user' (castWith m user') src := by
          refine castOnce_congr (huser src n hsrc (Nat.le_of_lt_succ hn)) ?_
          rintro es rfl e he
          have hlt := braceDepth_lt he
          exact ih e (hgood es hsrc e he) (by omega)
      _ = castWith m user' src := by
          funext ref dst
          exact castOnce_eq src ref dst

theorem plainlyWithin_eq {n : Nat} {src : Ty} (hn : src.braceDepth < n) :
    m.plainlyWithin cut n src = m.castPlainly src :=
  withinBy_eq (fun _ => True) 0 (fun _ _ _ _ => trivial) (fun _ _ _ _ => rfl) n src trivial hn

/-- a constructor is looked for once, and what it is given is cast without constructors -/
theorem castWithin_eq {n : Nat} {src : Ty} (hsrc : src.Written) (hn : src.braceDepth + 1 < n) :
    m.castWithin cut n src = m.cast src := by
  refine withinBy_eq Ty.Written 1 (fun es hes e he => hes.element he)
    (fun src n hsrc hn => ?_) n src hsrc hn
  rw [construct_eq_constructBy]
  exact constructBy_congr hsrc.read (plainlyWithin_eq hn)

theorem convertWithin_eq {n : Nat} {src : Ty} (hsrc : src.Written) (hn : src.braceDepth + 2 ≤ n)
    (ref : Ref) (dst : Ty) : m.convertWithin cut n src ref dst = m.convert src ref dst := by
  rw [CastRules.convertWithin, CastRules.convert, convertWith, castWithin_eq hsrc hn]
  rfl

/-- the arguments of a call that are cast are written without wildcards -/
theorem admitsWithin_eq {source : List String} {start : Symbol} {strict : Bool} {sub : Signature}
    {d n : Nat} (hsub : signature.compile source start strict = .ok sub)
    (hd : ∀ t, .ok t ∈ sub.argumentTypes → t.braceDepth ≤ d) (hn : d + 2 ≤ n) (sup : Signature)
    (explicit : List (List String)) :
    m.admitsWithin cut n sub sup explicit = m.admits sub sup explicit := by
  refine admitsWith_congr_params (fun p hp hclosed src hsrc => ?_) sup explicit
  have hunmarked := (isFormal_of_mem_params (exists_kinded hsub).2.1 hp).unmarked_splitRef
  have hplain := hunmarked.numbered.plain hunmarked.formed hunmarked.ordinary hclosed
  have hreads := reads_param hunmarked.formed hplain hclosed hunmarked.symbol_eq
  rw [hsrc] at hreads
  have hdepth := hd src (List.mem_map.mpr ⟨p, hp, hsrc⟩)
  exact castWithin_eq hreads.1.written (by omega)

end Bounds

/-! ## Any search ends -/

/-- with enough casts allowed it comes to the same, whatever answer stands for more -/
def LevelsOff {α : Type} (f : Fault → Nat → α) (a : α) : Prop :=
  ∃ n, ∀ k, n ≤ k → ∀ cut, f cut k = a

section LevelsOff

variable {α β γ : Type}

theorem levelsOff_const (a : α) : LevelsOff (fun _ _ => a) a := ⟨0, fun _ _ _ => rfl⟩

theorem LevelsOff.map {f : Fault → Nat → α} {a : α} (h : LevelsOff f a) (g : α → β) :
    LevelsOff (fun cut k => g (f cut k)) (g a) := by
  obtain ⟨n, hn⟩ := h
  exact ⟨n, fun k hk cut => congrArg g (hn k hk cut)⟩

theorem LevelsOff.both {f : Fault → Nat → α} {f' : Fault → Nat → β} {a : α} {b : β}
    (h : LevelsOff f a) (h' : LevelsOff f' b) :
    ∃ n, ∀ k, n ≤ k → ∀ cut, f cut k = a ∧ f' cut k = b := by
  obtain ⟨n, hn⟩ := h
  obtain ⟨n', hn'⟩ := h'
  refine ⟨max n n', fun k hk cut => ⟨hn k ?_ cut, hn' k ?_ cut⟩⟩
  · exact Nat.le_trans (Nat.le_max_left _ _) hk
  · exact Nat.le_trans (Nat.le_max_right _ _) hk

theorem LevelsOff.map₂ {f : Fault → Nat → α} {f' : Fault → Nat → β} {a : α} {b : β}
    (h : LevelsOff f a) (h' : LevelsOff f' b) (g : α → β → γ) :
    LevelsOff (fun cut k => g (f cut k) (f' cut k)) (g a b) := by
  obtain ⟨n, hn⟩ := h.both h'
  exact ⟨n, fun k hk cut => congrArg₂ g (hn k hk cut).1 (hn k hk cut).2⟩

theorem LevelsOff.of_succ {f : Fault → Nat → α} {a : α}
    (h : LevelsOff (fun cut k => f cut (k + 1)) a) : LevelsOff f a := by
  obtain ⟨n, hn⟩ := h
  refine ⟨n + 1, fun k hk cut => ?_⟩
  obtain ⟨k, rfl⟩ := Nat.exists_eq_add_of_le' (Nat.le_trans (Nat.le_add_left 1 n) hk)
  exact hn k (Nat.le_of_succ_le_succ hk) cut

theorem levelsOff_firstPlan {F : Fault → Nat → α → Planned β} {G : α → Planned β} {as : List α}
    (h : ∀ a ∈ as, LevelsOff (fun cut k => F cut k a) (G a)) :
    LevelsOff (fun cut k => firstPlan (F cut k) as) (firstPlan G as) := by
  induction as with
  | nil => exact levelsOff_const _
  | cons a as ih =>
    obtain ⟨ha, has⟩ := List.forall_mem_cons.mp h
    obtain ⟨n, hn⟩ := ha.both (ih has)
    refine ⟨n, fun k hk cut => ?_⟩
    obtain ⟨hfirst, hrest⟩ := hn k hk cut
    show firstPlan (F cut k) (a :: as) = firstPlan G (a :: as)
    unfold firstPlan
    rw [hfirst, hrest]

variable {m : CastRules} {user cast : Fault → Nat → Ty → Ref → Ty → Planned Transfer}
  {user' cast' : Ty → Ref → Ty → Planned Transfer}

theorem levelsOff_convertEach {es : List Ty}
    (h : ∀ e ∈ es, ∀ dst, LevelsOff (fun cut k => cast cut k e .none dst) (cast' e .none dst))
    (fs : List Ty) :
    LevelsOff (fun cut k => convertEach (cast cut k) es fs) (convertEach cast' es fs) := by
  induction es generalizing fs with
  | nil => exact levelsOff_const _
  | cons e es ih =>
    obtain ⟨he, hes⟩ := List.forall_mem_cons.mp h
    cases fs with
    | nil => exact levelsOff_const _
    | cons f fs =>
      have hone := (he f).map fun r => if e = f then .ok (some .clone) else r
      exact hone.map₂ (ih hes fs) consPlan

theorem levelsOff_bracesInto {all : Fault → Nat → List Ty → Planned (List Transfer)}
    {all' : List Ty → Planned (List Transfer)}
    (h : ∀ fields, LevelsOff (fun cut k => all cut k fields) (all' fields)) (length : Nat)
    (dst : Ty) :
    LevelsOff (fun cut k => bracesInto m (all cut k) length dst)
      (bracesInto m all' length dst) := by
  cases dst with
  | cls c =>
    unfold bracesInto
    dsimp only
    cases c.listElement? with
    | some t => exact (h _).map _
    | none =>
      dsimp only
      cases m.user with
      | none => exact levelsOff_const _
      | some u =>
        refine levelsOff_firstPlan fun shape _ => ?_
        obtain ⟨_ | fields, i⟩ := shape
        · exact levelsOff_const _
        · dsimp only
          split
          · exact (h fields).map _
          · exact levelsOff_const _
  | arith | pointer | array | function | void | list => exact levelsOff_const _

theorem levelsOff_castOnce {src : Ty} {ref : Ref} {dst : Ty}
    (huser : LevelsOff (fun cut k => user cut k src ref dst) (user' src ref dst))
    (hcast : ∀ es, src = .list es → ∀ e ∈ es, ∀ dst,
      LevelsOff (fun cut k => cast cut k e .none dst) (cast' e .none dst)) :
    LevelsOff (fun cut k => m.castOnce (user cut k) (cast cut k) src ref dst)
      (m.castOnce user' cast' src ref dst) := by
  refine levelsOff_firstPlan fun s _ => ?_
  cases s with
  | decay | numeric => exact levelsOff_const _
  | constructor => exact huser
  | braceList =>
    cases src with
    | list es => exact levelsOff_bracesInto (levelsOff_convertEach (hcast es rfl)) es.length dst
    | arith | pointer | array | cls | function | void => exact levelsOff_const _

theorem levelsOff_finish
    (h : ∀ src ref dst, LevelsOff (fun cut k => cast cut k src ref dst) (cast' src ref dst))
    (b : Bindings) (d : Draft) :
    LevelsOff (fun cut k => finish (cast cut k) b d) (finish cast' b d) := by
  cases d with
  | settled | promote => exact levelsOff_const _
  | convert ref actual formal =>
    unfold finish
    dsimp only
    cases concretize formal b with
    | error e => exact levelsOff_const _
    | ok target =>
      cases target with
      | none => exact levelsOff_const _
      | some dst =>
        dsimp only
        split
        · split
          · exact levelsOff_const _
          · exact h _ ref dst
        · exact levelsOff_const _

theorem levelsOff_finishAll
    (h : ∀ src ref dst, LevelsOff (fun cut k => cast cut k src ref dst) (cast' src ref dst))
    (b : Bindings) (ds : List Draft) :
    LevelsOff (fun cut k => finishAll (cast cut k) b ds) (finishAll cast' b ds) := by
  induction ds with
  | nil => exact levelsOff_const _
  | cons d ds ih =>
    simp only [finishAll_cons]
    exact (levelsOff_finish h b d).map₂ ih consPlan

/-- only the last pass of a plan casts, and it casts each argument once -/
theorem levelsOff_admitsWith
    (h : ∀ src ref dst, LevelsOff (fun cut k => cast cut k src ref dst) (cast' src ref dst))
    (sub sup : Signature) (explicit : List (List String)) :
    LevelsOff (fun cut k => admitsWith (cast cut k) sub sup explicit)
      (admitsWith cast' sub sup explicit) := by
  have hplan : ∀ b, LevelsOff (fun cut k => planCall (cast cut k) sub sup b)
      (planCall cast' sub sup b) := by
    intro b
    unfold planCall
    split
    · exact levelsOff_const _
    split
    rotate_left
    · exact levelsOff_const _
    split
    · exact levelsOff_const _
    split
    · exact levelsOff_const _
    split
    · exact levelsOff_const _
    · exact levelsOff_const _
    exact (levelsOff_finishAll h _ _).map _
  unfold admitsWith
  split
  · exact levelsOff_const _
  split
  · exact hplan _
  · exact levelsOff_const _

theorem levelsOff_planned {dst : Ty} {u : Option Conversions}
    {F : Fault → Nat → ClassTy → Conversions → Planned Transfer}
    {G : ClassTy → Conversions → Planned Transfer}
    (h : ∀ c u, LevelsOff (fun cut k => F cut k c u) (G c u)) :
    LevelsOff (fun cut k => match dst, u with
      | .cls c, some u => F cut k c u
      | _, _ => .ok none)
      (match dst, u with
      | .cls c, some u => G c u
      | _, _ => .ok none) := by
  split
  · exact h _ _
  · exact levelsOff_const _

theorem levelsOff_constructBy
    (h : ∀ src ref dst, LevelsOff (fun cut k => cast cut k src ref dst) (cast' src ref dst))
    (src : Ty) (ref : Ref) (dst : Ty) :
    LevelsOff (fun cut k => m.constructBy (cast cut k) src ref dst)
      (m.constructBy cast' src ref dst) := by
  simp only [CastRules.constructBy.eq_def]
  refine levelsOff_planned fun c u => ?_
  cases signature.compile (typedCallForm (.cls c) [⟨src, ref⟩]) Symbol.function false with
  | error e => exact levelsOff_const _
  | ok call =>
    exact levelsOff_firstPlan fun maker _ => (levelsOff_admitsWith h call maker.signature []).map _

/-- **Any cast ends**: by induction on the nesting of brace lists in its source. -/
theorem levelsOff_castWithin (src : Ty) (ref : Ref) (dst : Ty) :
    LevelsOff (fun cut k => m.castWithin cut k src ref dst) (m.cast src ref dst) := by
  induction hd : src.braceDepth using Nat.strong_induction_on generalizing src ref dst with
  | _ d ih =>
    have hplain : ∀ src ref dst,
        LevelsOff (fun cut k => m.plainlyWithin cut k src ref dst) (m.castPlainly src ref dst) :=
      fun src ref dst => ⟨src.braceDepth + 1, fun k hk cut =>
        congrFun (congrFun (plainlyWithin_eq hk) ref) dst⟩
    -- a constructor is given what its call is read as, which may be no part of the source; but it
    -- is cast without constructors, and that ends for any source
    have huser := levelsOff_constructBy (m := m) hplain src ref dst
    rw [← construct_eq_constructBy] at huser
    have helements : ∀ es, src = .list es → ∀ e ∈ es, ∀ dst,
        LevelsOff (fun cut k => m.castWithin cut k e .none dst) (m.cast e .none dst) := by
      rintro es rfl e he dst
      exact ih _ (hd ▸ braceDepth_lt he) e .none dst rfl
    have honce := levelsOff_castOnce (m := m) huser helements
    rw [show m.castOnce m.construct m.cast src ref dst = m.cast src ref dst from
      castOnce_eq src ref dst] at honce
    exact honce.of_succ

theorem levelsOff_convertWithin (src : Ty) (ref : Ref) (dst : Ty) :
    LevelsOff (fun cut k => m.convertWithin cut k src ref dst) (m.convert src ref dst) := by
  unfold CastRules.convertWithin CastRules.convert convertWith
  split
  · exact levelsOff_const _
  · exact levelsOff_castWithin src ref dst

end LevelsOff

/-! ## The theorem -/

/-- **The search for a conversion ends**, whatever the user-defined conversions, the order of casts
and the destination.  With enough casts allowed to nest in one another, a conversion and an
admission come to what they come to without a limit.  For a type that can be written, as every type
that is read from a text can, two casts more than its brace lists are nested deep are enough, and
for a compiled call two more than those of its arguments; neither depends on what they are converted
to, or on how large that gets on the way.

That the type can be written matters where a constructor is called, for the call is written down and
read back.  A host may make a function type of any tokens, such as those of brace lists, and that
counts as no depth; in the call they are read as brace lists, deeper ones than the value has. -/
theorem conversion_search_ends (m : CastRules) :
    (∀ src ref dst,
      LevelsOff (fun cut n => m.convertWithin cut n src ref dst) (m.convert src ref dst)) ∧
    (∀ sub sup explicit,
      LevelsOff (fun cut n => m.admitsWithin cut n sub sup explicit) (m.admits sub sup explicit)) ∧
    (∀ ts src, signature.readType ts = .ok src → src.Written) ∧
    (∀ src ref dst cut, src.Written →
      m.convertWithin cut (src.braceDepth + 2) src ref dst = m.convert src ref dst) ∧
    ∀ source start strict sub d, signature.compile source start strict = .ok sub →
      (∀ t, .ok t ∈ sub.argumentTypes → t.braceDepth ≤ d) →
      ∀ sup explicit cut,
        m.admitsWithin cut (d + 2) sub sup explicit = m.admits sub sup explicit := by
  refine ⟨levelsOff_convertWithin, levelsOff_admitsWith levelsOff_castWithin,
    fun _ _ => written_of_readType,
    fun src ref dst cut hsrc => convertWithin_eq hsrc (Nat.le_refl _) ref dst, ?_⟩
  intro source start strict sub d hsub hd sup explicit cut
  exact admitsWithin_eq hsub hd (Nat.le_refl _) sup explicit

/-- cast rules in which every class is laid out as a larger class of its name around itself -/
def growingRules (maker : Signature) : CastRules :=
  ⟨some ⟨fun _ => [⟨0, maker⟩], fun c => [some [.cls (.mk c.name [.cls c] none)]]⟩, Strategy.all⟩

def bracedWord : Ty := .list [.list [.arith .i8]]

/-- A word in two pairs of braces is converted to a box by at most four casts in one another, on its
own and as an argument, though boxes are made of larger boxes and constructed from boxes. -/
theorem conversion_search_ends_growing :
    signature.readType bracedWord.tokens = .ok bracedWord ∧ bracedWord.Written ∧
    bracedWord.braceDepth = 2 ∧
    ∃ maker, signature.compile (typedCallForm (.cls boxClass) [⟨.cls boxClass, .constant⟩])
        Symbol.function false = .ok maker ∧
      (∀ cut, (growingRules maker).convertWithin cut 4 bracedWord .none (.cls boxClass) =
        (growingRules maker).convert bracedWord .none (.cls boxClass)) ∧
      ∃ call, signature.compile (openCallForm [⟨bracedWord, .none⟩]) Symbol.function false =
          .ok call ∧ call.argumentTypes = [.ok bracedWord] ∧
        ∀ cut, (growingRules maker).admitsWithin cut 4 call boxProcedure [] =
          (growingRules maker).admits call boxProcedure [] := by
  let box : Arg := ⟨.cls boxClass, .constant⟩
  let braced : Arg := ⟨bracedWord, .none⟩
  have hword : bracedWord.WellFormed := by
    unfold bracedWord
    simp [Ty.WellFormed, Ty.WellFormedAll]
  have hdepth : bracedWord.braceDepth = 2 := rfl
  have hbox : (Ty.cls boxClass).WellFormed := by
    unfold boxClass
    rw [Ty.WellFormed, ClassTy.WellFormed]
    exact ⟨classify_name (by decide) (by decide) (by decide) (by decide) (by decide), trivial,
      trivial⟩
  obtain ⟨maker, hmaker, -⟩ := compile_typed false hbox
    (show ∀ a ∈ [box], a.type.WellFormed by simpa [box] using hbox) (by simp [box])
  have hbraced : ∀ a ∈ [braced], a.type.WellFormed := by simpa [braced] using hword
  obtain ⟨call, hcall⟩ := compile_open false hbraced (by simp [braced, bracedWord])
  have htypes : call.argumentTypes = [.ok bracedWord] :=
    argumentTypes_of_compile hbraced (.inl hcall)
  obtain ⟨-, -, hwritten, hconvert, hadmits⟩ := conversion_search_ends (growingRules maker)
  have hread := readType_tokens hword
  refine ⟨hread, hwritten _ _ hread, hdepth, maker, hmaker, fun cut => ?_, call, hcall, htypes,
    fun cut => ?_⟩
  · exact hconvert bracedWord .none (.cls boxClass) cut (hwritten _ _ hread)
  · refine hadmits _ _ _ call 2 hcall (fun t ht => ?_) boxProcedure [] cut
    rw [htypes, List.mem_singleton] at ht
    rw [Except.ok.inj ht]
    exact Nat.le_of_eq hdepth

end Overloading
