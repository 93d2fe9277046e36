import Overloading.Proofs.CallForms
import Overloading.Proofs.CallPlans
import Overloading.Proofs.TypeReading

/-!
# The faults of admission

Admitting a call comes to a plan, to a mismatch, or to a fault.  There are two sorts of faults
only, and both need something odd in what is admitted:

* a parameter, instantiated, has an array size that does not fit a word;
* a brace list among the arguments holds `VOID`, and a class is to be constructed from it: the
  call of the constructor is no sentence.

`Excused` says so for one fault, `Finds` for what a search comes to.  Each pass of a plan keeps
the bindings closed (`Bindings.Closed`), so no wildcard of a caller ever gets into a parameter;
`admits_finds` puts the passes together.
-/

namespace Overloading

open Grammar

/-! ## What a search comes to -/

/-- the faults admission may stop at, where a number is too large or where `VOID` is in a list -/
def Excused (huge void : Prop) (e : Fault) : Prop :=
  (huge ∧ ∃ n, Oversize n ∧ e = .arraySize n) ∨
    (void ∧ ∃ (c : ClassTy) (ref : Ref), e = .notASentence
      (" ".intercalate (typedCallForm (.cls c) [⟨.void, ref⟩])) Symbol.function)

/-- a search stops at certain faults only, and what it finds is good -/
def Finds {α : Type} (E : Fault → Prop) (P : α → Prop) : Planned α → Prop
  | .error e => E e
  | .ok none => True
  | .ok (some a) => P a

section Finds

variable {α β : Type} {E : Fault → Prop} {P : α → Prop} {Q : β → Prop}

theorem Finds.map {r : Planned α} {f : α → β} (h : Finds E P r) (hf : ∀ a, P a → Q (f a)) :
    Finds E Q (r.map fun o => o.map f) := by
  match r, h with
  | .error _, h => exact h
  | .ok none, _ => trivial
  | .ok (some a), h => exact hf a h

theorem finds_firstPlan {f : α → Planned β} {as : List α} (h : ∀ a ∈ as, Finds E Q (f a)) :
    Finds E Q (firstPlan f as) := by
  induction as with
  | nil => trivial
  | cons a as ih =>
    have ha := h a List.mem_cons_self
    rw [firstPlan]
    split
    · exact ih fun b hb => h b (List.mem_cons_of_mem _ hb)
    · exact ha

end Finds

/-! ## Closed token runs -/

/-- tokens without wildcards, and without numbers too large unless there are such numbers -/
structure ClosedRun (huge : Prop) (ts : List String) : Prop where
  free : ∀ x ∈ ts, x ∉ signatureWildcards
  sized : HasOversize ts → huge

/-- a well-formed type, without numbers too large unless there are such numbers -/
structure Ty.Safe (huge : Prop) (ty : Ty) : Prop where
  wellFormed : ty.WellFormed
  sized : HasOversize ty.tokens → huge

/-- every wildcard that is bound stands for a closed run -/
def Bindings.Closed (huge : Prop) (b : Bindings) : Prop :=
  ∀ id v, b.get? id = some v → ∃ ts, v = Binding.ofTexts ts ∧ ClosedRun huge ts

theorem Bindings.closed_nil : Bindings.Closed huge [] := by
  intro id v hv
  cases hv

variable {huge void : Prop}

theorem ClosedRun.mono {ts us : List String} (h : ClosedRun huge us) (hsub : ∀ x ∈ ts, x ∈ us) :
    ClosedRun huge ts :=
  ⟨fun x hx => h.free x (hsub x hx), fun hhuge => h.sized (hhuge.mono hsub)⟩

theorem Ty.Safe.closedRun {ty : Ty} (h : ty.Safe huge) : ClosedRun huge ty.tokens :=
  ⟨fun x hx => (Ty.tokens_closed h.wellFormed x hx).2, h.sized⟩

theorem keyword_not_oversize {k : String} (hk : k ∈ signatureKeywords) : ¬ Oversize k := by
  intro h
  rw [Oversize, (keyword_ne k hk).2.2.2.2] at h
  exact Bool.false_ne_true h.1

theorem closedRun_nil : ClosedRun huge [] :=
  ⟨List.forall_mem_nil _, fun h => absurd h.choose_spec.1 List.not_mem_nil⟩

theorem closedRun_cons {k : String} {ts : List String} (hk : k ∈ signatureKeywords)
    (h : ClosedRun huge ts) : ClosedRun huge (k :: ts) := by
  refine ⟨fun x hx => ?_, ?_⟩
  · rcases List.mem_cons.mp hx with rfl | hx
    · exact (keyword_ne x hk).1
    · exact h.free x hx
  · rintro ⟨n, hn, hhuge⟩
    rcases List.mem_cons.mp hn with rfl | hn
    · exact absurd hhuge (keyword_not_oversize hk)
    · exact h.sized ⟨n, hn, hhuge⟩

theorem Arg.closedRun {a : Arg} (h : a.type.Safe huge) : ClosedRun huge a.tokens := by
  unfold Arg.tokens
  split
  · exact h.closedRun
  split
  · exact h.closedRun
  · exact closedRun_cons (by decide) h.closedRun
  · exact closedRun_cons (by decide) h.closedRun

theorem Bindings.Closed.isOpen {b : Bindings} (h : b.Closed huge) (id : Nat) :
    b.isOpen id = false := by
  unfold Bindings.isOpen
  cases hget : b.get? id with
  | none => rfl
  | some v =>
    obtain ⟨ts, rfl, _⟩ := h id v hget
    simp [Binding.isOpen, Binding.ofTexts]

theorem Bindings.Closed.insert {b : Bindings} (h : b.Closed huge) {id : Nat} {ts : List String}
    (hts : ClosedRun huge ts) : (b.insert id (Binding.ofTexts ts)).Closed huge := by
  intro j v hv
  rw [Bindings.get?_insert] at hv
  cases hget : b.get? j with
  | some w =>
    rw [hget] at hv
    cases hv
    exact h j _ hget
  | none =>
    rw [hget] at hv
    by_cases hj : j = id
    · rw [if_pos hj] at hv
      cases hv
      exact ⟨ts, rfl, hts⟩
    · rw [if_neg hj] at hv
      cases hv

/-! ## Substitution -/

/-- a token of a substitution is one of the tree's own or of what a wildcard stands for -/
theorem Tree.mem_substitute {B : Nat → Option (List String)} {t : Tree} (ht : t.Formed)
    (hs : Ordinary t.symbol) {ts : List String} (h : t.substitute B = some ts) :
    ∀ x ∈ ts, (x ∈ t.tokens ∧ x ∉ signatureWildcards) ∨ ∃ id us, B id = some us ∧ x ∈ us := by
  induction t using Tree.induct generalizing ts with
  | leaf s tok =>
    intro x hx
    rw [substitute] at h
    cases h
    rw [List.mem_singleton.mp hx, tokens]
    exact .inl ⟨List.mem_singleton.mpr rfl, text_not_mem_wildcards hs ht⟩
  | head s i tok =>
    intro x hx
    rw [substitute] at h
    obtain ⟨id, _, hid⟩ := Option.bind_eq_some_iff.mp h
    exact .inr ⟨id, ts, hid, hx⟩
  | branch s i cs ih =>
    rw [substitute] at h
    rw [tokens]
    have hcs : ∀ c ∈ cs, c.Formed ∧ Ordinary c.symbol := fun c hc => formed_child ht hc
    clear ht hs
    induction cs generalizing ts with
    | nil =>
      rw [substituteAll_nil] at h
      cases h
      exact List.forall_mem_nil _
    | cons c cs ihcs =>
      rw [substituteAll_cons] at h
      obtain ⟨us, hus, hrest⟩ := Option.bind_eq_some_iff.mp h
      obtain ⟨ws, hws, rfl⟩ := Option.map_eq_some_iff.mp hrest
      intro x hx
      rw [tokensAll_cons]
      rcases List.mem_append.mp hx with hx | hx
      · obtain ⟨hc, hcs⟩ := hcs c List.mem_cons_self
        rcases ih c List.mem_cons_self hc hcs hus x hx with ⟨hx, hfree⟩ | hx
        · exact .inl ⟨List.mem_append_left _ hx, hfree⟩
        · exact .inr hx
      · rcases ihcs (fun d hd => ih d (List.mem_cons_of_mem _ hd)) hws
          (fun d hd => hcs d (List.mem_cons_of_mem _ hd)) x hx with ⟨hx, hfree⟩ | hx
        · exact .inl ⟨List.mem_append_right _ hx, hfree⟩
        · exact .inr hx

theorem Tree.bound_mem_substitute {B : Nat → Option (List String)} {t : Tree} {ts us : List String}
    {kind : Symbol} {id : Nat} (h : t.substitute B = some ts) (hhead : (kind, some id) ∈ t.heads)
    (hB : B id = some us) : ∀ x ∈ us, x ∈ ts := by
  induction t using Tree.induct generalizing ts with
  | leaf s tok => rw [heads] at hhead; cases hhead
  | head s i tok =>
    rw [heads] at hhead
    rw [substitute, ← (Prod.mk.inj (List.mem_singleton.mp hhead)).2, Option.bind_some, hB] at h
    cases h
    exact fun _ hx => hx
  | branch s i cs ih =>
    rw [substitute] at h
    obtain ⟨c, hc, hchild⟩ := mem_heads_branch.mp hhead
    clear hhead
    induction cs generalizing ts with
    | nil => cases hc
    | cons d cs ihcs =>
      rw [substituteAll_cons] at h
      obtain ⟨vs, hvs, hrest⟩ := Option.bind_eq_some_iff.mp h
      obtain ⟨ws, hws, rfl⟩ := Option.map_eq_some_iff.mp hrest
      intro x hx
      rcases List.mem_cons.mp hc with rfl | hc
      · exact List.mem_append_left _ (ih c List.mem_cons_self hvs hchild x hx)
      · exact List.mem_append_right _
          (ihcs (fun e he => ih e (List.mem_cons_of_mem _ he)) hws hc x hx)

/-! ## The passes keep the bindings closed -/

theorem Solves.closed {actual formal : Tree} {b b' : Bindings} (h : Solves actual formal b b')
    (hb : b.Closed huge) (ha : ClosedRun huge actual.tokens) : b'.Closed huge := by
  intro id v hv
  rcases h.only id v hv with hv | ⟨kind, hhead⟩
  · exact hb id v hv
  · obtain ⟨id', ts, hid, hget, _⟩ := h.bound _ hhead
    cases hid
    rw [hget] at hv
    cases hv
    have hB : b'.texts? id = some ts := by
      rw [Bindings.texts?_of_get? hget, Binding.texts_ofTexts]
    exact ⟨ts, rfl, ha.mono (Tree.bound_mem_substitute h.reads hhead hB)⟩

theorem closed_of_unify {s : Symbol} {actual formal : Tree} {ts : List String} {b b' : Bindings}
    (ha : actual.Spells s ts) (hts : ClosedRun huge ts) (hb : b.Closed huge)
    (h : unify actual formal b = some b') : b'.Closed huge := by
  refine (unify_solves ha.formed ha.plain h).closed hb ?_
  rw [ha.tokens_eq]
  exact hts

/-- the draft of a conversion keeps the argument as it was shown -/
def Draft.Keeps (a : Arg) (formal : Tree) : Draft → Prop
  | .settled _ | .promote _ _ _ => True
  | .convert ref actual obj => ref = a.marker ∧ (∃ s, actual.Denotes s a.type) ∧
      formal.isHead = false ∧ obj = formal.splitRef.2

theorem closed_of_draft {a : Arg} {actual formal : Tree} {b b' : Bindings} {d : Draft}
    (ha : a.ShownBy actual) (hsafe : a.type.Safe huge) (hb : b.Closed huge)
    (h : draft actual formal b = some (d, b')) : b'.Closed huge ∧ d.Keeps a formal := by
  obtain ⟨s, _, hden⟩ := ha.denotes
  cases hhead : formal.isHead with
  | true =>
    obtain ⟨s, i, tok, rfl⟩ : ∃ s i tok, formal = .head s i tok := by
      cases formal with
      | head s i tok => exact ⟨s, i, tok, rfl⟩
      | leaf | branch => cases hhead
    rw [draft] at h
    obtain ⟨b₁, hb₁, he⟩ := Option.map_eq_some_iff.mp h
    cases he
    refine ⟨(solves_bind (i := i) ha.spells.formed ha.spells.plain hb₁).closed hb ?_, trivial⟩
    rw [ha.spells.tokens_eq]
    exact a.closedRun hsafe
  | false =>
    rcases draft_cases hhead h with ⟨_, _, rfl, hu⟩ | ⟨_, ⟨_, _, _, _, rfl, rfl⟩ |
      ⟨rfl, hu⟩ | ⟨rfl, rfl⟩⟩
    · exact ⟨closed_of_unify hden.toSpells hsafe.closedRun hb hu, trivial⟩
    · exact ⟨hb, trivial⟩
    · exact ⟨closed_of_unify hden.toSpells hsafe.closedRun hb hu, trivial⟩
    · exact ⟨hb, ha.marker_eq, ⟨s, hden⟩, hhead, rfl⟩

theorem closed_of_draftAll {args : List Arg} {actuals formals : List Tree} {b b' : Bindings}
    {ds : List Draft} (hargs : List.Forall₂ Arg.ShownBy args actuals)
    (hsafe : ∀ a ∈ args, a.type.Safe huge) (hlen : actuals.length = formals.length)
    (hb : b.Closed huge) (h : draftAll actuals formals b = some (ds, b')) :
    b'.Closed huge ∧ List.Forall₂ (fun x d => Draft.Keeps x.1 x.2 d) (args.zip formals) ds := by
  induction hargs generalizing formals b ds with
  | nil =>
    have hnil : formals = [] := List.length_eq_zero_iff.mp hlen.symm
    subst hnil
    rw [draftAll] at h
    · cases h
      exact ⟨hb, .nil⟩
    · intros; contradiction
  | @cons a actual args actuals ha _ ih =>
    obtain ⟨formal, formals, rfl⟩ := List.exists_cons_of_length_pos (l := formals) (by
      rw [← hlen]; exact Nat.succ_pos _)
    rw [draftAll] at h
    split at h
    · cases h
    next d b₁ hd =>
    obtain ⟨⟨ds', b₂⟩, hrest, he⟩ := Option.map_eq_some_iff.mp h
    cases he
    obtain ⟨hb₁, hkeeps⟩ := closed_of_draft ha (hsafe a List.mem_cons_self) hb hd
    obtain ⟨hb₂, hrest⟩ := ih (fun x hx => hsafe x (List.mem_cons_of_mem _ hx))
      (by simpa using hlen) hb₁ hrest
    exact ⟨hb₂, .cons hkeeps hrest⟩

theorem finds_promoteGroup {E : Fault → Prop} {id : Nat} {kinds : List Kind} {b : Bindings}
    (hb : b.Closed huge) : Finds E (Bindings.Closed huge) (promoteGroup id kinds b) := by
  have hkinds : ∀ k : Kind, ClosedRun huge [k.token] := by
    intro k
    have hk : k.token ∈ signatureKeywords := by cases k <;> decide
    exact closedRun_cons hk closedRun_nil
  unfold promoteGroup
  cases hget : b.get? id with
  | some v =>
    obtain ⟨ts, rfl, _⟩ := hb id v hget
    have hopen : (Binding.ofTexts ts).isOpen = false := by simp [Binding.isOpen, Binding.ofTexts]
    simp only [hopen, Bool.false_eq_true, if_false]
    split
    · exact hb
    · trivial
  | none =>
    dsimp only
    split
    · exact hb.insert (hkinds _)
    · trivial

theorem finds_promoteAll {E : Fault → Prop} {ds : List Draft} {ids : List Nat} {b : Bindings}
    (hb : b.Closed huge) : Finds E (Bindings.Closed huge) (promoteAll ds ids b) := by
  induction ids generalizing b with
  | nil => exact hb
  | cons id ids ih =>
    have hgroup : Finds E (Bindings.Closed huge) (promoteGroup id (Draft.kindsOf id ds) b) :=
      finds_promoteGroup hb
    rw [promoteAll]
    split
    · next b₁ hb₁ =>
      rw [hb₁] at hgroup
      exact ih hgroup
    · exact hgroup

/-! ## Conversions -/

/-- **The target of a conversion** is a well-formed type, unless a size in it is too large. -/
theorem finds_concretize {formal : Tree} {b : Bindings} (hf : formal.IsUnmarked)
    (hsized : HasOversize formal.tokens → huge) (hb : b.Closed huge) :
    Finds (Excused huge void) (Ty.Safe huge) (concretize formal b) := by
  unfold concretize
  cases hsub : formal.substitute b.texts? with
  | none => trivial
  | some ts =>
    have hopen : (formal.heads.any fun h => (h.2.map b.isOpen).getD false) = false := by
      rw [List.any_eq_false]
      intro x _
      cases x.2 with
      | none => simp
      | some id => simp [hb.isOpen id]
    have hclosed : ClosedRun huge ts := by
      have hmem := Tree.mem_substitute hf.formed hf.ordinary hsub
      have hbound : ∀ id us, b.texts? id = some us → ClosedRun huge us := by
        intro id us hus
        obtain ⟨v, hv, rfl⟩ := Option.map_eq_some_iff.mp hus
        obtain ⟨ws, rfl, hws⟩ := hb id v hv
        rw [Binding.texts_ofTexts]
        exact hws
      refine ⟨fun x hx => ?_, ?_⟩
      · rcases hmem x hx with ⟨_, hfree⟩ | ⟨id, us, hus, hx⟩
        · exact hfree
        · exact (hbound id us hus).free x hx
      · rintro ⟨n, hn, hhuge⟩
        rcases hmem n hn with ⟨hn, _⟩ | ⟨id, us, hus, hn⟩
        · exact hsized ⟨n, hn, hhuge⟩
        · exact (hbound id us hus).sized ⟨n, hn, hhuge⟩
    dsimp only
    rw [hopen]
    simp only [Bool.false_eq_true, if_false]
    cases hparse : signature.parsePlain ts formal.symbol with
    | none => trivial
    | some t =>
      have ht := closed_of_parsePlain hf.wildcard hclosed.free hparse
      have hread := reads_param ht.formed ht.plain ht.heads_eq (by
        rw [ht.symbol_eq]; exact hf.symbol_eq)
      rw [ht.tokens_eq] at hread
      dsimp only
      cases hty : Ty.ofTree t with
      | error e =>
        rw [hty] at hread
        obtain ⟨n, hn, hhuge, rfl⟩ := hread trivial
        exact .inl ⟨hclosed.sized ⟨n, hn, hhuge⟩, n, hhuge, rfl⟩
      | ok ty =>
        rw [hty] at hread
        exact ⟨hread.1, fun hhuge => hclosed.sized (hread.2 hhuge)⟩

theorem tokens_splitRef (p : Tree) : ∀ n ∈ p.splitRef.2.tokens, n ∈ p.tokens := by
  intro n hn
  unfold Tree.splitRef at hn
  split at hn
  · split at hn
    · simp [Tree.tokens, show n ∈ _ from hn]
    split at hn
    · simp [Tree.tokens, show n ∈ _ from hn]
    · exact hn
  · exact hn

/-- a way to cast stops at excused faults only, between the types a plan asks it about -/
def CastsSafely (huge void : Prop) (cast : Ty → Ref → Ty → Planned Transfer) (src : Ty) : Prop :=
  ∀ ref dst, dst.Safe huge → Finds (Excused huge void) (fun _ => True) (cast src ref dst)

theorem finds_finish {cast : Ty → Ref → Ty → Planned Transfer} {a : Arg} {formal : Tree}
    {b : Bindings} {d : Draft} (hcast : CastsSafely huge void cast a.type) (hf : formal.IsFormal)
    (hsized : HasOversize formal.tokens → huge) (hb : b.Closed huge) (hd : d.Keeps a formal) :
    Finds (Excused huge void) (fun _ => True) (finish cast b d) := by
  cases d with
  | settled tr => trivial
  | promote id ref k =>
    rw [finish]
    split <;> trivial
  | convert ref actual obj =>
    obtain ⟨-, ⟨s, hden⟩, hhead, rfl⟩ := hd
    have htarget : Finds (Excused huge void) (Ty.Safe huge) (concretize formal.splitRef.2 b) :=
      finds_concretize (hf.unmarked hhead) (fun h => hsized (h.mono (tokens_splitRef formal))) hb
    rw [finish]
    split
    · next e he => rw [he] at htarget; exact htarget
    · trivial
    · next dst hdst =>
      rw [hdst] at htarget
      simp only [hden.heads_eq, List.isEmpty_nil, if_true, hden.type_eq]
      exact hcast ref dst htarget

theorem finds_finishAll {cast : Ty → Ref → Ty → Planned Transfer} {xs : List (Arg × Tree)}
    {b : Bindings} {ds : List Draft} (hcast : ∀ x ∈ xs, CastsSafely huge void cast x.1.type)
    (hf : ∀ x ∈ xs, x.2.IsFormal ∧ (HasOversize x.2.tokens → huge)) (hb : b.Closed huge)
    (hd : List.Forall₂ (fun x d => Draft.Keeps x.1 x.2 d) xs ds) :
    Finds (Excused huge void) (fun _ => True) (finishAll cast b ds) := by
  induction hd with
  | nil => trivial
  | @cons x d xs ds hd _ ih =>
    obtain ⟨hfx, hsized⟩ := hf x List.mem_cons_self
    have hone := finds_finish (hcast x List.mem_cons_self) hfx hsized hb hd
    have hrest := ih (fun y hy => hcast y (List.mem_cons_of_mem _ hy))
      fun y hy => hf y (List.mem_cons_of_mem _ hy)
    rw [finishAll]
    split
    · next e he => rw [he] at hone; exact hone
    · trivial
    · exact hrest.map fun _ _ => trivial

/-! ## Plans -/

/-- the return a call asks for: left open, or closed -/
def Tree.ClosedReturn (huge : Prop) (r : Tree) : Prop :=
  r.isOpenReturn = true ∨ ∃ s ts, r.Spells s ts ∧ ClosedRun huge ts

theorem closed_of_unifyReturn {actual formal : Tree} {b b' : Bindings}
    (ha : actual.ClosedReturn huge) (hb : b.Closed huge)
    (h : unifyReturn actual formal b = some b') : b'.Closed huge := by
  unfold unifyReturn at h
  rcases ha with hopen | ⟨s, ts, hspells, hts⟩
  · rw [if_pos hopen] at h
    cases h
    exact hb
  · split at h
    · cases h
      exact hb
    · exact closed_of_unify hspells hts hb h

theorem closed_of_passes {args : List Arg} {actuals formals : List Tree} {subRet supRet : Tree}
    {ds : List Draft} {b b₁ b₂ b₃ : Bindings} (hshown : List.Forall₂ Arg.ShownBy args actuals)
    (hsafe : ∀ a ∈ args, a.type.Safe huge) (hlen : actuals.length = formals.length)
    (hret : subRet.ClosedReturn huge) (hb : b.Closed huge)
    (hunify : unifyReturn subRet supRet b = some b₁)
    (hdraft : draftAll actuals formals b₁ = some (ds, b₂))
    (hpromote : promoteAll ds (Draft.groups ds) b₂ = .ok (some b₃)) :
    b₃.Closed huge ∧ List.Forall₂ (fun x d => Draft.Keeps x.1 x.2 d) (args.zip formals) ds := by
  have hb₁ := closed_of_unifyReturn hret hb hunify
  obtain ⟨hb₂, hkeeps⟩ := closed_of_draftAll hshown hsafe hlen hb₁ hdraft
  have hb₃ : Finds (Excused True True) (Bindings.Closed huge)
      (promoteAll ds (Draft.groups ds) b₂) := finds_promoteAll hb₂
  rw [hpromote] at hb₃
  exact ⟨hb₃, hkeeps⟩

/-- a declaration that has been compiled, without numbers too large unless there are such -/
structure Signature.Safe (huge : Prop) (s : Signature) : Prop where
  compiled : ∃ start ∈ signatureWildcards, s.CompiledFrom start
  sized : HasOversize (Binding.texts s.tokens) → huge

theorem Signature.Safe.param {sup : Signature} (h : sup.Safe huge) {p : Tree}
    (hp : p ∈ sup.params) : p.IsFormal ∧ (HasOversize p.tokens → huge) := by
  obtain ⟨start, _, hc⟩ := h.compiled
  refine ⟨isFormal_of_mem_params hc hp, fun hhuge => h.sized (hhuge.mono fun n hn => ?_)⟩
  rw [← Tree.texts_yield] at hn
  obtain ⟨tok, htok, rfl⟩ := List.mem_map.mp hn
  rw [← hc.yield_eq]
  exact List.mem_map_of_mem ((mem_params hc hp).2.2 tok htok)

/-- **Planning a call** stops at excused faults only, if casting its arguments does. -/
theorem finds_planCall {cast : Ty → Ref → Ty → Planned Transfer} {sub sup : Signature}
    {args : List Arg} {b : Bindings} (hshown : List.Forall₂ Arg.ShownBy args sub.params)
    (hsafe : ∀ a ∈ args, a.type.Safe huge)
    (hcast : ∀ a ∈ args, CastsSafely huge void cast a.type)
    (hret : ∀ r, sub.returnTree? = some r → r.ClosedReturn huge) (hsup : sup.Safe huge)
    (hb : b.Closed huge) : Finds (Excused huge void) (fun _ => True) (planCall cast sub sup b) := by
  unfold planCall
  split
  · trivial
  next hlen =>
  have hlen : sub.params.length = sup.params.length := not_not.mp hlen
  split
  rotate_left
  · trivial
  next subRet supRet hsubRet _ =>
  cases hu : unifyReturn subRet supRet b with
  | none => trivial
  | some b₁ =>
    have hb₁ := closed_of_unifyReturn (hret subRet hsubRet) hb hu
    dsimp only
    cases hdraft : draftAll sub.params sup.params b₁ with
    | none => trivial
    | some x =>
      obtain ⟨ds, b₂⟩ := x
      obtain ⟨hb₂, hkeeps⟩ := closed_of_draftAll hshown hsafe hlen hb₁ hdraft
      have hpromote : Finds (Excused huge void) (Bindings.Closed huge)
          (promoteAll ds (Draft.groups ds) b₂) := finds_promoteAll hb₂
      dsimp only
      split
      · next e he => rw [he] at hpromote; exact hpromote
      · trivial
      · next b₃ hb₃ =>
        rw [hb₃] at hpromote
        refine (finds_finishAll (fun x hx => ?_) (fun x hx => ?_) hpromote hkeeps).map
          fun _ _ => trivial
        · exact hcast x.1 (List.of_mem_zip hx).1
        · exact hsup.param (List.of_mem_zip hx).2

theorem finds_admitsWith {cast : Ty → Ref → Ty → Planned Transfer} {sub sup : Signature}
    {args : List Arg} (hshown : List.Forall₂ Arg.ShownBy args sub.params)
    (hsafe : ∀ a ∈ args, a.type.Safe huge)
    (hcast : ∀ a ∈ args, CastsSafely huge void cast a.type)
    (hret : ∀ r, sub.returnTree? = some r → r.ClosedReturn huge) (hsup : sup.Safe huge) :
    Finds (Excused huge void) (fun _ => True) (admitsWith cast sub sup []) := by
  unfold admitsWith
  rw [bindExplicit]
  dsimp only
  split
  · exact finds_planCall hshown hsafe hcast hret hsup Bindings.closed_nil
  · cases unify sub.root sup.root [] <;> trivial

/-! ## Casts -/

mutual
/-- whether a type is nothing, or a brace list that holds nothing at some depth -/
def Ty.holdsVoid : Ty → Bool
  | .void => true
  | .list es => Ty.anyHoldsVoid es
  | _ => false

def Ty.anyHoldsVoid : List Ty → Bool
  | [] => false
  | t :: ts => t.holdsVoid || Ty.anyHoldsVoid ts
end

theorem wellFormedAll_iff {ts : List Ty} : Ty.WellFormedAll ts ↔ ∀ t ∈ ts, t.WellFormed := by
  induction ts with
  | nil => exact ⟨fun _ => List.forall_mem_nil _, fun _ => trivial⟩
  | cons t ts ih =>
    rw [Ty.WellFormedAll, ih]
    exact (List.forall_mem_cons).symm

theorem mem_tokensAll {ts : List Ty} {t : Ty} (ht : t ∈ ts) :
    ∀ x ∈ t.tokens, x ∈ Ty.tokensAll ts := by
  intro x hx
  induction ts with
  | nil => cases ht
  | cons u ts ih =>
    rw [Ty.tokensAll]
    rcases List.mem_cons.mp ht with rfl | ht
    · exact List.mem_append_left _ hx
    · exact List.mem_append_right _ (ih ht)

theorem Ty.Safe.of_list {es : List Ty} (h : (Ty.list es).Safe huge) : ∀ e ∈ es, e.Safe huge := by
  obtain ⟨hwell, hsized⟩ := h
  rw [Ty.WellFormed] at hwell
  rw [Ty.tokens] at hsized
  intro e he
  refine ⟨wellFormedAll_iff.mp hwell e he, fun hhuge => hsized (hhuge.mono fun n hn => ?_)⟩
  simp [mem_tokensAll he n hn]

theorem Ty.Safe.of_listElement {c : ClassTy} {t : Ty} (h : (Ty.cls c).Safe huge)
    (ht : c.listElement? = some t) : t.Safe huge := by
  obtain ⟨hwell, hsized⟩ := h
  unfold ClassTy.listElement? at ht
  split at ht
  · split at ht
    · cases ht
      rw [Ty.WellFormed, ClassTy.WellFormed] at hwell
      rw [Ty.tokens, ClassTy.tokens] at hsized
      refine ⟨wellFormedAll_iff.mp hwell.2.1 t List.mem_cons_self, fun hhuge => ?_⟩
      refine hsized (hhuge.mono fun n hn => ?_)
      simp [mem_tokensAll (List.mem_singleton.mpr rfl) n hn]
    · cases ht
  · cases ht

/-- cast rules whose constructors have been compiled and whose shapes have well-formed fields,
without numbers too large unless there are such -/
structure CastRules.Safe (huge : Prop) (m : CastRules) : Prop where
  makers : ∀ u, m.user = some u → ∀ c, ∀ maker ∈ u.constructors c, maker.signature.Safe huge
  fields : ∀ u, m.user = some u → ∀ c, c.WellFormed → ∀ fs, some fs ∈ u.shapes c →
    ∀ f ∈ fs, f.Safe huge

section Casts

variable {m : CastRules} {user : Ty → Ref → Ty → Planned Transfer}

theorem finds_castSimply {src : Ty} {ref : Ref} {dst : Ty}
    (huser : Finds (Excused huge void) (fun _ => True) (user src ref dst)) (s : Strategy) :
    Finds (Excused huge void) (fun _ => True) (castSimply user src ref dst s) := by
  cases s with
  | decay => show Finds _ _ (.ok (decayTo src dst)); cases decayTo src dst <;> trivial
  | numeric => show Finds _ _ (.ok (numericTo src dst)); cases numericTo src dst <;> trivial
  | constructor => exact huser
  | braceList => trivial

theorem finds_bracesInto (hm : m.Safe huge) {convertAll : List Ty → Planned (List Transfer)}
    {n : Nat} {dst : Ty} (hdst : dst.Safe huge)
    (h : ∀ fs : List Ty, (∀ f ∈ fs, f.Safe huge) →
      Finds (Excused huge void) (fun _ => True) (convertAll fs)) :
    Finds (Excused huge void) (fun _ => True) (bracesInto m convertAll n dst) := by
  unfold bracesInto
  split
  · next c =>
    split
    · next t ht =>
      refine (h _ fun f hf => ?_).map fun _ _ => trivial
      rw [List.eq_of_mem_replicate hf]
      exact hdst.of_listElement ht
    · split
      · trivial
      · next u hu =>
        refine finds_firstPlan fun x hx => ?_
        obtain ⟨shape, i⟩ := x
        cases shape with
        | none => trivial
        | some fields =>
          dsimp only
          split
          · have hmem : some fields ∈ u.shapes c :=
              List.mem_of_getElem? (List.mem_zipIdx_iff_getElem?.mp hx)
            have hwell := hdst.wellFormed
            rw [Ty.WellFormed] at hwell
            exact (h fields (hm.fields u hu c hwell fields hmem)).map fun _ _ => trivial
          · trivial
  · trivial

mutual
theorem casts_safely (hm : m.Safe huge)
    (huser : ∀ src : Ty, src.Safe huge → (src.holdsVoid = true → void) →
      CastsSafely huge void user src) :
    ∀ src : Ty, src.Safe huge → (src.holdsVoid = true → void) →
      CastsSafely huge void (castWith m user) src
  | .list es, hsafe, hvoid => by
    intro ref dst hdst
    have helems := castAll_safely hm huser es hsafe.of_list (by
      rw [Ty.holdsVoid] at hvoid; exact hvoid)
    rw [castWith]
    refine finds_firstPlan fun s _ => ?_
    cases s with
    | braceList => exact finds_bracesInto hm hdst helems
    | decay | numeric | constructor =>
      exact finds_castSimply (huser _ hsafe hvoid ref dst hdst) _
  | .arith k, hsafe, hvoid | .pointer e, hsafe, hvoid | .array e n, hsafe, hvoid
  | .cls c, hsafe, hvoid | .function ts, hsafe, hvoid | .void, hsafe, hvoid => by
    intro ref dst hdst
    rw [castWith]
    · exact finds_firstPlan fun s _ => finds_castSimply (huser _ hsafe hvoid ref dst hdst) s
    · intros; contradiction

theorem castAll_safely (hm : m.Safe huge)
    (huser : ∀ src : Ty, src.Safe huge → (src.holdsVoid = true → void) →
      CastsSafely huge void user src) :
    ∀ es : List Ty, (∀ e ∈ es, e.Safe huge) → (Ty.anyHoldsVoid es = true → void) →
      ∀ fs : List Ty, (∀ f ∈ fs, f.Safe huge) →
        Finds (Excused huge void) (fun _ => True) (castAllWith m user es fs)
  | [], _, _, fs, _ => by
    rw [castAllWith]
    · trivial
    · intros; contradiction
  | e :: es, hes, hvoid, [], _ => by
    rw [castAllWith]
    · trivial
    · intros; contradiction
  | e :: es, hes, hvoid, f :: fs, hfs => by
    rw [Ty.anyHoldsVoid, Bool.or_eq_true] at hvoid
    have hone := casts_safely hm huser e (hes e List.mem_cons_self) (fun h => hvoid (.inl h))
      .none f (hfs f List.mem_cons_self)
    have hrest := castAll_safely hm huser es (fun x hx => hes x (List.mem_cons_of_mem _ hx))
      (fun h => hvoid (.inr h)) fs fun x hx => hfs x (List.mem_cons_of_mem _ hx)
    rw [castAllWith]
    by_cases hef : e = f
    · simp only [hef, if_true]
      exact hrest.map fun _ _ => trivial
    · simp only [hef, if_false]
      split
      · next err herr => rw [herr] at hone; exact hone
      · trivial
      · exact hrest.map fun _ _ => trivial
end

theorem castsPlainly_safely (hm : m.Safe huge) {src : Ty} (hsafe : src.Safe huge)
    (hvoid : src.holdsVoid = true → void) : CastsSafely huge void m.castPlainly src := by
  refine casts_safely hm (fun _ _ _ _ _ _ => ?_) src hsafe hvoid
  trivial

theorem finds_classMatch {dst : Ty} {u : Option Conversions}
    {F : ClassTy → Conversions → Planned Transfer} {E : Fault → Prop} {P : Transfer → Prop} :
    (∀ c v, dst = .cls c → u = some v → Finds E P (F c v)) →
    Finds E P (match dst, u with
      | .cls c, some v => F c v
      | _, _ => .ok none) := by
  intro h
  split
  · exact h _ _ rfl rfl
  · trivial

theorem finds_firstMaker {dst : Ty} {want : List String} {plan : Candidate → Planned Match}
    {makers : List Candidate} {E : Fault → Prop}
    (h : ∀ maker ∈ makers, Finds E (fun _ => True) (plan maker)) :
    Finds E (fun _ => True) (firstPlan (fun maker => (plan maker).map fun r => r.bind fun res =>
      if res.returns = some want then
        some (Transfer.construct dst maker res.transfers res.bindings res.returns)
      else none) makers) := by
  refine finds_firstPlan fun maker hmaker => ?_
  have hplan := h maker hmaker
  cases hr : plan maker with
  | error e => rw [hr] at hplan; exact hplan
  | ok r =>
    cases r with
    | none => trivial
    | some res =>
      show Finds _ _ (.ok (if res.returns = some want then _ else none))
      split <;> trivial

/-- **Constructing a class** from a value stops at excused faults only: the call of a constructor
compiles unless the value is nothing. -/
theorem constructs_safely (hm : m.Safe huge) {src : Ty} (hsafe : src.Safe huge)
    (hvoid : src.holdsVoid = true → void) : CastsSafely huge void m.construct src := by
  intro ref dst hdst
  rw [CastRules.construct.eq_def]
  refine finds_classMatch fun c u hc hu => ?_
  subst hc
  have hargs : ∀ a ∈ [(⟨src, ref⟩ : Arg)], a.type.WellFormed := by
    intro a ha
    rw [List.mem_singleton.mp ha]
    exact hsafe.wellFormed
  by_cases hv : src = .void
  · subst hv
    rw [compile_typed_void hdst.wellFormed hargs ⟨_, List.mem_singleton.mpr rfl, rfl⟩]
    exact .inr ⟨hvoid rfl, c, ref, rfl⟩
  · have hne : ∀ a ∈ [(⟨src, ref⟩ : Arg)], a.type ≠ .void := by
      intro a ha
      rw [List.mem_singleton.mp ha]
      exact hv
    obtain ⟨call, hcall, hcalls⟩ := compile_typed false hdst.wellFormed hargs hne
    rw [hcall]
    refine finds_firstMaker fun maker hmaker => ?_
    refine finds_admitsWith hcalls.params (fun a ha => ?_) (fun a ha => ?_) (fun r hr => ?_)
      (hm.makers u hu c maker hmaker)
    · rw [List.mem_singleton.mp ha]
      exact hsafe
    · rw [List.mem_singleton.mp ha]
      exact castsPlainly_safely hm hsafe hvoid
    · obtain ⟨r', hr', hspells⟩ := hcalls.returns
      rw [hr'] at hr
      cases hr
      exact .inr ⟨_, _, hspells, hdst.closedRun⟩

end Casts

/-- **Admission** of a call that leaves its return open stops at excused faults only. -/
theorem finds_admits {m : CastRules} (hm : m.Safe huge) {args : List Arg} {strict : Bool}
    {call sup : Signature} (hargs : ∀ a ∈ args, a.type.Safe huge)
    (hvoid : ∀ a ∈ args, a.type.holdsVoid = true → void)
    (hcall : signature.compile (openCallForm args) Symbol.function strict = .ok call)
    (hsup : sup.Safe huge) :
    Finds (Excused huge void) (fun _ => True) (m.admits call sup []) := by
  obtain ⟨_, hret, hshown⟩ := params_shownBy (fun a ha => (hargs a ha).wellFormed) hcall
  refine finds_admitsWith hshown hargs (fun a ha => ?_) (fun r hr => ?_) hsup
  · exact casts_safely hm (fun src hsrc hv => constructs_safely hm hsrc hv) a.type (hargs a ha)
      (hvoid a ha)
  · rw [hret] at hr
    cases hr
    exact .inl rfl

end Overloading
