import Mathlib.Logic.Relation
import Overloading.Proofs.LeastSets

/-!
# FIRST and FOLLOW by derivations

A derivation rewrites a nonterminal by one of its bodies, somewhere in a sequence of symbols, again
and again.  Nothing else is needed to say which terminals begin what a sequence derives and which
may come after a symbol.  The sets that the passes compute hold exactly these terminals.

* `Rewrites`, `Produces`   one step of a derivation, and any number of steps;
* `Yields`     a derivation that ends in terminals;
* `First`      a terminal begins a terminal sequence that is derived;
* `Follow`     a terminal may come after a symbol in what is derived, or the end may;
* `Leading.Covers`   the invariant of a derivation: what is derived begins with nothing that its
  origin does not begin with;
* `Leading.mem_ofSequence_iff_first`, `SymbolSets.mem_get_iff_follow`   the computed sets are the
  defined ones;
* `mem_productive_iff`   a nonterminal is found productive exactly if it derives terminals.
-/

namespace Overloading

/-- one step of a derivation: somewhere a head is replaced by one of its bodies -/
def Rewrites (ps : List Production) (α β : List Symbol) : Prop :=
  ∃ p ∈ ps, ∃ pre post, α = pre ++ p.head :: post ∧ β = pre ++ p.body ++ post

/-- a sequence of symbols is derived from another one -/
def Produces (ps : List Production) : List Symbol → List Symbol → Prop :=
  Relation.ReflTransGen (Rewrites ps)

/-- a sequence of terminals is derived from a sequence of symbols -/
def Yields (nonterminals : List Symbol) (ps : List Production) (α u : List Symbol) : Prop :=
  Produces ps α u ∧ ∀ s ∈ u, s ∉ nonterminals

/-- FIRST: a terminal can begin a sequence of terminals that is derived -/
def First (nonterminals : List Symbol) (ps : List Production) (α : List Symbol) (t : Symbol) :
    Prop :=
  ∃ u, Yields nonterminals ps α (t :: u)

/-- FOLLOW: a terminal can come right after a symbol in what some nonterminal derives, and the end
can if a wildcardable nonterminal derives something in which the symbol stands last -/
def Follow (nonterminals wildcardable : List Symbol) (ps : List Production) (x t : Symbol) : Prop :=
  (t ∉ nonterminals ∧ ∃ y α β, Produces ps [y] (α ++ x :: t :: β)) ∨
    (t = Symbol.finish ∧ ∃ y ∈ wildcardable, ∃ α, Produces ps [y] (α ++ [x]))

/-! ## Derivations -/

theorem split_append {a b α β : List Symbol} {x : Symbol} (h : a ++ b = α ++ x :: β) :
    (∃ rest, a = α ++ x :: rest ∧ β = rest ++ b) ∨
      ∃ front, α = a ++ front ∧ b = front ++ x :: β := by
  rcases List.append_eq_append_iff.mp h with ⟨front, rfl, hb⟩ | ⟨rest, rfl, hx⟩
  · exact .inr ⟨front, rfl, hb⟩
  · cases rest with
    | nil => exact .inr ⟨[], by simp, by simpa using hx.symm⟩
    | cons y rest =>
      obtain ⟨rfl, rfl⟩ := List.cons_eq_cons.mp hx
      exact .inl ⟨rest, rfl, rfl⟩

section
variable {nonterminals wildcardable : List Symbol} {ps : List Production}
  {α β γ δ : List Symbol} {x t : Symbol}

theorem Produces.refl (α : List Symbol) : Produces ps α α := Relation.ReflTransGen.refl

theorem Produces.trans (h : Produces ps α β) (h' : Produces ps β γ) : Produces ps α γ :=
  Relation.ReflTransGen.trans h h'

theorem Produces.of_mem {p : Production} (hp : p ∈ ps) : Produces ps [p.head] p.body :=
  .single ⟨p, hp, [], [], rfl, by simp⟩

theorem Rewrites.context (h : Rewrites ps α β) (γ δ : List Symbol) :
    Rewrites ps (γ ++ α ++ δ) (γ ++ β ++ δ) := by
  obtain ⟨p, hp, pre, post, rfl, rfl⟩ := h
  exact ⟨p, hp, γ ++ pre, post ++ δ, by simp, by simp⟩

/-- what is derived from a sequence is derived from it anywhere -/
theorem Produces.context (h : Produces ps α β) (γ δ : List Symbol) :
    Produces ps (γ ++ α ++ δ) (γ ++ β ++ δ) :=
  h.lift (fun α => γ ++ α ++ δ) fun _ _ hstep => hstep.context γ δ

theorem Produces.append (h : Produces ps α β) (h' : Produces ps γ δ) :
    Produces ps (α ++ γ) (β ++ δ) := by
  have hleft := h.context [] γ
  have hright := h'.context β []
  simp only [List.nil_append, List.append_nil] at hleft hright
  exact hleft.trans hright

theorem Produces.replace (h : Produces ps γ (α ++ x :: β)) (hx : Produces ps [x] δ) :
    Produces ps γ (α ++ δ ++ β) := by
  have hcontext := hx.context α β
  rw [List.append_assoc, List.singleton_append] at hcontext
  exact h.trans hcontext

theorem Produces.of_split {p : Production} (hp : p ∈ ps) {pre post : List Symbol}
    (hbody : p.body = pre ++ x :: post) (h : Produces ps post γ) :
    Produces ps [p.head] (pre ++ x :: γ) := by
  have hrest := h.context (pre ++ [x]) []
  simp only [List.append_nil, List.append_assoc, List.singleton_append] at hrest
  exact (hbody ▸ Produces.of_mem hp).trans hrest

theorem Produces.forall_mem {Q : Symbol → Prop}
    (heads : ∀ p ∈ ps, (∀ s ∈ p.body, Q s) → Q p.head) (h : Produces ps α β)
    (hβ : ∀ s ∈ β, Q s) : ∀ s ∈ α, Q s := by
  induction h using Relation.ReflTransGen.head_induction_on with
  | refl => exact hβ
  | head hstep _ ih =>
    obtain ⟨p, hp, pre, post, rfl, rfl⟩ := hstep
    simp only [List.forall_mem_append, List.forall_mem_cons] at ih ⊢
    exact ⟨ih.1.1, heads p hp ih.1.2, ih.2⟩

theorem Produces.exists_of_forall {Q : Symbol → Prop}
    (h : ∀ s ∈ α, ∃ u, Produces ps [s] u ∧ ∀ t ∈ u, Q t) :
    ∃ u, Produces ps α u ∧ ∀ t ∈ u, Q t := by
  induction α with
  | nil => exact ⟨[], .refl [], by simp⟩
  | cons s α ih =>
    obtain ⟨⟨u, hu, hQu⟩, h⟩ := List.forall_mem_cons.mp h
    obtain ⟨v, hv, hQv⟩ := ih h
    exact ⟨u ++ v, hu.append hv, List.forall_mem_append.mpr ⟨hQu, hQv⟩⟩

theorem Produces.nil_of_forall (h : ∀ s ∈ α, Produces ps [s] []) : Produces ps α [] := by
  obtain ⟨u, hu, hnone⟩ := exists_of_forall (Q := fun _ => False) fun s hs => ⟨[], h s hs, by simp⟩
  rwa [List.eq_nil_iff_forall_not_mem.mpr hnone] at hu

theorem exists_yields_of_mem (h : x ∈ nonterminals → ∃ u, Yields nonterminals ps [x] u) :
    ∃ u, Yields nonterminals ps [x] u := by
  by_cases hx : x ∈ nonterminals
  · exact h hx
  · exact ⟨[x], .refl [x], by simpa using hx⟩

theorem Vanishes.produces (h : Vanishes ps x) : Produces ps [x] [] := by
  induction h with
  | intro mem _ ih => exact (Produces.of_mem mem).trans (Produces.nil_of_forall ih)

theorem produces_nil_iff : Produces ps α [] ↔ ∀ s ∈ α, Vanishes ps s :=
  ⟨fun h => h.forall_mem (fun _ hp hbody => .intro hp hbody) (by simp),
    fun h => Produces.nil_of_forall fun s hs => (h s hs).produces⟩

/-- a terminal that a nonterminal begins with begins something that is derived from it -/
theorem Begins.produces (h : Begins nonterminals ps t x) :
    t ∉ nonterminals ∧ ∃ γ, Produces ps [x] (t :: γ) := by
  have hbehind : ∀ {p : Production} {pre post γ : List Symbol} {s : Symbol}, p ∈ ps →
      p.body = pre ++ s :: post → (∀ u ∈ pre, Vanishes ps u) → Produces ps [s] (t :: γ) →
      Produces ps [p.head] (t :: γ ++ post) := by
    intro p pre post γ s hp hbody hpre hs
    have hgone := (produces_nil_iff.mpr hpre).append (hs.append (.refl post))
    rw [List.singleton_append, ← hbody] at hgone
    exact (Produces.of_mem hp).trans hgone
  induction h with
  | here mem split gone terminal =>
    exact ⟨terminal, _, hbehind mem split gone (.refl [t])⟩
  | inside mem split gone _ ih =>
    obtain ⟨terminal, γ, hγ⟩ := ih
    exact ⟨terminal, _, hbehind mem split gone hγ⟩

end

/-! ## FIRST -/

section
variable {nonterminals : List Symbol} {ps : List Production} {l : Leading}
  {α β γ δ : List Symbol} {t : Symbol}

theorem Leading.mem_ofSequence_append :
    t ∈ (l.ofSequence nonterminals (α ++ β)).1 ↔ t ∈ (l.ofSequence nonterminals α).1 ∨
      (l.ofSequence nonterminals α).2 = true ∧ t ∈ (l.ofSequence nonterminals β).1 := by
  induction α with
  | nil => simp [Leading.ofSequence]
  | cons s α ih =>
    rw [List.cons_append]
    by_cases hs : s ∈ nonterminals
    · by_cases hn : s ∈ l.nullable
      · rw [Grammar.ofSequence_cons_nullable hs hn, Grammar.ofSequence_cons_nullable hs hn,
          mem_includeAll, mem_includeAll, ih, or_assoc]
      · simp [Grammar.ofSequence_cons_nonempty hs hn]
    · simp [Grammar.ofSequence_cons_terminal hs]

theorem Leading.ofSequence_append_empty :
    (l.ofSequence nonterminals (α ++ β)).2 = true ↔
      (l.ofSequence nonterminals α).2 = true ∧ (l.ofSequence nonterminals β).2 = true := by
  simp only [Leading.ofSequence_empty_iff, List.forall_mem_append]

theorem Leading.ofSequence_singleton {x : Symbol} (hx : x ∈ nonterminals) :
    (l.ofSequence nonterminals [x]).1 = l.first.get x := by
  by_cases hn : x ∈ l.nullable
  · rw [Grammar.ofSequence_cons_nullable hx hn]
    exact includeAll_eq_self (by simp [Leading.ofSequence])
  · rw [Grammar.ofSequence_cons_nonempty hx hn]

/-- one sequence may begin with what another one may, and be empty where that one may -/
structure Leading.Covers (nonterminals : List Symbol) (l : Leading) (α β : List Symbol) : Prop where
  first : ∀ t ∈ (l.ofSequence nonterminals β).1, t ∈ (l.ofSequence nonterminals α).1
  empty : (l.ofSequence nonterminals β).2 = true → (l.ofSequence nonterminals α).2 = true

namespace Leading.Covers

theorem refl (α : List Symbol) : l.Covers nonterminals α α := ⟨fun _ h => h, fun h => h⟩

theorem trans (h : l.Covers nonterminals α β) (h' : l.Covers nonterminals β γ) :
    l.Covers nonterminals α γ :=
  ⟨fun t ht => h.first t (h'.first t ht), fun he => h.empty (h'.empty he)⟩

theorem append (h : l.Covers nonterminals α β) (h' : l.Covers nonterminals γ δ) :
    l.Covers nonterminals (α ++ γ) (β ++ δ) := by
  refine ⟨fun t ht => ?_, fun he => ?_⟩
  · rw [mem_ofSequence_append] at ht ⊢
    exact ht.imp (h.first t) fun ht => ⟨h.empty ht.1, h'.first t ht.2⟩
  · rw [ofSequence_append_empty] at he ⊢
    exact ⟨h.empty he.1, h'.empty he.2⟩

end Leading.Covers

section
variable (hheads : ∀ p ∈ ps, p.head ∈ nonterminals) (hclosed : l.Closed nonterminals ps)
include hheads hclosed

theorem Leading.Closed.covers_body {p : Production} (hp : p ∈ ps) :
    l.Covers nonterminals [p.head] p.body := by
  refine ⟨fun t ht => ?_, fun he => ?_⟩
  · rw [Leading.ofSequence_singleton (hheads p hp)]
    exact hclosed.first p hp t ht
  · rw [Leading.ofSequence_empty_iff]
    simpa using And.intro (hheads p hp) (hclosed.nullable p hp he)

theorem Leading.Closed.covers_replace {p : Production} (hp : p ∈ ps) (pre post : List Symbol) :
    l.Covers nonterminals (pre ++ p.head :: post) (pre ++ p.body ++ post) := by
  have hfront := (Leading.Covers.refl pre).append (hclosed.covers_body hheads hp)
  have hcovers := hfront.append (.refl post)
  rwa [List.append_assoc, List.singleton_append] at hcovers

theorem Leading.Closed.covers (h : Produces ps α β) : l.Covers nonterminals α β := by
  induction h with
  | refl => exact .refl α
  | tail _ hstep ih =>
    obtain ⟨p, hp, pre, post, rfl, rfl⟩ := hstep
    exact ih.trans (hclosed.covers_replace hheads hp pre post)

variable (hsound : l.Sound nonterminals ps)
include hsound

theorem Leading.ofSequence_empty_iff_produces :
    (l.ofSequence nonterminals α).2 = true ↔ Produces ps α [] := by
  constructor
  · intro h
    refine produces_nil_iff.mpr fun s hs => ?_
    exact hsound.nullable s (Leading.ofSequence_empty_iff.mp h s hs).2
  · exact fun h => (hclosed.covers hheads h).empty rfl

theorem Leading.mem_ofSequence_iff_produces :
    t ∈ (l.ofSequence nonterminals α).1 ↔ t ∉ nonterminals ∧ ∃ γ, Produces ps α (t :: γ) := by
  constructor
  · intro h
    obtain ⟨pre, s, post, rfl, hpre, hs⟩ := Leading.mem_ofSequence h
    have hgone : Produces ps pre [] :=
      produces_nil_iff.mpr fun u hu => hsound.nullable u (hpre u hu)
    obtain ⟨hs, rfl⟩ | ⟨-, ht⟩ := hs
    · exact ⟨hs, post, hgone.append (.refl (s :: post))⟩
    · obtain ⟨ht, γ, hγ⟩ := (hsound.first s t ht).produces
      exact ⟨ht, γ ++ post, hgone.append (hγ.append (.refl post))⟩
  · rintro ⟨ht, γ, hγ⟩
    refine (hclosed.covers hheads hγ).first t ?_
    rw [Grammar.ofSequence_cons_terminal ht]
    exact List.mem_singleton.mpr rfl

/-- **FIRST of a sequence** holds the terminals that begin its terminal sequences, if every
nonterminal has one. -/
theorem Leading.mem_ofSequence_iff_first
    (hproductive : ∀ x ∈ nonterminals, ∃ u, Yields nonterminals ps [x] u) :
    t ∈ (l.ofSequence nonterminals α).1 ↔ First nonterminals ps α t := by
  rw [Leading.mem_ofSequence_iff_produces hheads hclosed hsound]
  constructor
  · rintro ⟨ht, γ, hγ⟩
    obtain ⟨u, hu, hterminal⟩ : ∃ u, Yields nonterminals ps γ u :=
      Produces.exists_of_forall fun s _ => exists_yields_of_mem (hproductive s)
    exact ⟨u, hγ.trans ((Produces.refl [t]).append hu), List.forall_mem_cons.mpr ⟨ht, hterminal⟩⟩
  · rintro ⟨u, hu, hterminal⟩
    exact ⟨hterminal t List.mem_cons_self, u, hu⟩

end

end

/-! ## Productive nonterminals -/

section
variable {nonterminals : List Symbol} {ps : List Production}

/-- **The productive nonterminals** are those from which terminals can be derived. -/
theorem mem_productive_iff {n : Nat} {productive : List Symbol}
    (h : settle (productivePass nonterminals ps) n [] = some productive) {x : Symbol}
    (hx : x ∈ nonterminals) :
    x ∈ productive ↔ ∃ u, Yields nonterminals ps [x] u := by
  constructor
  · refine settle_keeps (P := fun s => ∀ x ∈ s, ∃ u, Yields nonterminals ps [x] u)
      (fun _ => forall_mem_productivePass fun p hp hbody => ?_) h (by simp) x
    obtain ⟨u, hu, hterminal⟩ : ∃ u, Yields nonterminals ps p.body u :=
      Produces.exists_of_forall fun s hs => exists_yields_of_mem (hbody s hs)
    exact ⟨u, (Produces.of_mem hp).trans hu, hterminal⟩
  · rintro ⟨u, hu, hterminal⟩
    have hall := hu.forall_mem (Q := fun s => s ∈ nonterminals → s ∈ productive)
      (fun p hp hbody _ => head_mem_of_productivePass_eq (pass_eq_of_settle h) hp hbody)
      fun s hs hn => absurd hn (hterminal s hs)
    exact hall x List.mem_cons_self hx

end

/-! ## FOLLOW -/

section
variable {nonterminals wildcardable : List Symbol} {ps : List Production} {l : Leading}
  {follow : SymbolSets} {x t : Symbol}

/-- what the rest of a body begins with comes after the symbol in front of it -/
theorem Follow.of_rest {p : Production} (hp : p ∈ ps) {pre post γ : List Symbol}
    (hbody : p.body = pre ++ x :: post) (ht : t ∉ nonterminals) (h : Produces ps post (t :: γ)) :
    Follow nonterminals wildcardable ps x t :=
  .inl ⟨ht, p.head, pre, γ, .of_split hp hbody h⟩

theorem Follow.of_head {p : Production} (hp : p ∈ ps) {pre post : List Symbol}
    (hbody : p.body = pre ++ x :: post) (h : Produces ps post [])
    (hhead : Follow nonterminals wildcardable ps p.head t) :
    Follow nonterminals wildcardable ps x t := by
  have hlast : Produces ps [p.head] (pre ++ [x]) := .of_split hp hbody h
  rcases hhead with ⟨ht, y, α, β, hy⟩ | ⟨rfl, y, hy, α, hα⟩
  · refine .inl ⟨ht, y, α ++ pre, β, ?_⟩
    have hplaced := hy.replace hlast
    simpa using hplaced
  · refine .inr ⟨rfl, y, hy, α ++ pre, ?_⟩
    have hplaced := hα.replace hlast
    simpa using hplaced

/-- every member of FOLLOW has a reason -/
def SymbolSets.FollowSound (nonterminals wildcardable : List Symbol) (ps : List Production)
    (follow : SymbolSets) : Prop :=
  ∀ x t, t ∈ follow.get x → Follow nonterminals wildcardable ps x t

theorem SymbolSets.followSound_start :
    (followStart nonterminals wildcardable).FollowSound nonterminals wildcardable ps := by
  intro x t ht
  obtain ⟨-, hx, rfl⟩ := Grammar.mem_followStart.mp ht
  exact .inr ⟨rfl, x, hx, [], .refl [x]⟩

section
variable (hheads : ∀ p ∈ ps, p.head ∈ nonterminals) (hclosed : l.Closed nonterminals ps)
  (hsound : l.Sound nonterminals ps)
include hheads hclosed hsound

theorem SymbolSets.FollowSound.place (h : follow.FollowSound nonterminals wildcardable ps)
    {p : Production} (hp : p ∈ ps) {pre post : List Symbol} {s : Symbol}
    (hbody : p.body = pre ++ s :: post) :
    (followPlace nonterminals l p.head s post follow).FollowSound nonterminals wildcardable ps := by
  have hrest : (follow.add s (l.ofSequence nonterminals post).1).FollowSound nonterminals
      wildcardable ps := by
    intro x t ht
    rcases SymbolSets.mem_get_add.mp ht with hold | ⟨-, rfl, hnew⟩
    · exact h x t hold
    · obtain ⟨ht, γ, hγ⟩ := (Leading.mem_ofSequence_iff_produces hheads hclosed hsound).mp hnew
      exact .of_rest hp hbody ht hγ
  unfold followPlace
  split
  · split
    · next hempty =>
      intro x t ht
      rcases SymbolSets.mem_get_add.mp ht with hold | ⟨-, rfl, hnew⟩
      · exact hrest x t hold
      · exact .of_head hp hbody
          ((Leading.ofSequence_empty_iff_produces hheads hclosed hsound).mp hempty)
          (hrest _ t hnew)
    · exact hrest
  · exact h

theorem SymbolSets.FollowSound.body (h : follow.FollowSound nonterminals wildcardable ps)
    {p : Production} (hp : p ∈ ps) {pre rest : List Symbol} (hbody : p.body = pre ++ rest) :
    (followBody nonterminals l p.head rest follow).FollowSound nonterminals wildcardable ps := by
  induction rest generalizing pre follow with
  | nil => exact h
  | cons s rest ih =>
    rw [followBody_cons]
    exact ih (h.place hheads hclosed hsound hp hbody) (hbody.trans (List.append_cons pre s rest))

theorem SymbolSets.FollowSound.pass (h : follow.FollowSound nonterminals wildcardable ps) :
    (followPass nonterminals l ps follow).FollowSound nonterminals wildcardable ps :=
  List.foldlRecOn ps _ h fun _ h _ hp => h.body hheads hclosed hsound hp (List.nil_append _).symm

end

/-- where a nonterminal stands in a derived sequence, FOLLOW has what the rest begins with, and if
the rest may be empty all that may follow the whole -/
theorem SymbolSets.FollowClosed.covers (hheads : ∀ p ∈ ps, p.head ∈ nonterminals)
    (hclosed : l.Closed nonterminals ps) (hfollow : follow.FollowClosed nonterminals l ps)
    {y : Symbol} {δ : List Symbol} (h : Produces ps [y] δ) :
    ∀ {α x β}, δ = α ++ x :: β → x ∈ nonterminals →
      (∀ t ∈ (l.ofSequence nonterminals β).1, t ∈ follow.get x) ∧
        ((l.ofSequence nonterminals β).2 = true → ∀ t ∈ follow.get y, t ∈ follow.get x) := by
  induction h with
  | refl =>
    intro α x β hsplit _
    obtain ⟨rfl, rfl, rfl⟩ : α = [] ∧ x = y ∧ β = [] := by
      rcases List.cons_eq_append_iff.mp hsplit with ⟨rfl, h⟩ | ⟨_, rfl, h⟩
      · cases h
        exact ⟨rfl, rfl, rfl⟩
      · simp at h
    exact ⟨fun t ht => absurd ht List.not_mem_nil, fun _ t ht => ht⟩
  | tail _ hstep ih =>
    obtain ⟨p, hp, pre, post, rfl, rfl⟩ := hstep
    intro α x β hsplit hx
    rw [List.append_assoc] at hsplit
    rcases split_append hsplit with ⟨rest, rfl, rfl⟩ | ⟨front, rfl, hrest⟩
    · have hcovers := hclosed.covers_replace hheads hp rest post
      rw [List.append_assoc] at hcovers
      obtain ⟨hrest, hempty⟩ := ih (List.append_assoc ..) hx
      exact ⟨fun t ht => hrest t (hcovers.first t ht), fun he => hempty (hcovers.empty he)⟩
    rcases split_append hrest with ⟨rest, hbody, rfl⟩ | ⟨front, rfl, rfl⟩
    · obtain ⟨hrest, hempty⟩ := ih rfl (hheads p hp)
      have hinside := hfollow.head p hp front x rest hbody hx
      refine ⟨fun t ht => ?_, fun he t ht => ?_⟩
      · rcases Leading.mem_ofSequence_append.mp ht with ht | ⟨he, ht⟩
        · exact hfollow.rest p hp front x rest hbody hx t ht
        · exact hinside he t (hrest t ht)
      · obtain ⟨he, he'⟩ := Leading.ofSequence_append_empty.mp he
        exact hinside he t (hempty he' t ht)
    · exact ih (List.append_assoc pre (p.head :: front) (x :: β)).symm hx

/-- **FOLLOW of a nonterminal** holds what may come after it in what is derived. -/
theorem SymbolSets.mem_get_iff_follow (hheads : ∀ p ∈ ps, p.head ∈ nonterminals)
    (hclosed : l.Closed nonterminals ps) (hsound : l.Sound nonterminals ps)
    (hwild : ∀ y ∈ wildcardable, y ∈ nonterminals) {n : Nat}
    (h : settle (followPass nonterminals l ps) n (followStart nonterminals wildcardable) =
      some follow) (hx : x ∈ nonterminals) :
    t ∈ follow.get x ↔ Follow nonterminals wildcardable ps x t := by
  have hfollow := Grammar.followClosed_of_settle h
  constructor
  · exact settle_keeps (fun _ h => h.pass hheads hclosed hsound) h SymbolSets.followSound_start x t
  · rintro (⟨ht, y, α, β, hy⟩ | ⟨rfl, y, hy, α, hα⟩)
    · refine (hfollow.covers hheads hclosed hy rfl hx).1 t ?_
      rw [Grammar.ofSequence_cons_terminal ht]
      exact List.mem_singleton.mpr rfl
    · refine (hfollow.covers hheads hclosed hα rfl hx).2 rfl _ ?_
      exact Grammar.finish_mem_of_settle h (hwild y hy) hy

end

end Overloading
