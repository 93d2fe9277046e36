import Mathlib.Algebra.Ring.Nat
import Overloading.Grammar

/-!
# Sets that have stopped growing

The passes that compute FIRST and FOLLOW only add.  A pass is a chain of small steps, and a pass
that changes nothing is a chain in which no single step changes anything: so a fixed point of the
pass satisfies every closure condition that the steps stand for.

* `Grows`             a step that keeps all members, and gains one unless it changes nothing;
* `Grows.foldl_eq`    in a chain of such steps that comes back to its start no step does anything;
* `head_mem_of_productivePass_eq`   the productive symbols are closed under the productions;
* `Leading.Closed`    FIRST and the nullable symbols are closed under the productions;
* `SymbolSets.FollowClosed`   FOLLOW is closed under the productions.
-/

namespace Overloading

/-- a step keeps all members, and gains one unless it changes nothing -/
structure Grows {σ κ : Type} (In : σ → κ → Prop) (f : σ → σ) : Prop where
  keeps : ∀ s k, In s k → In (f s) k
  gains : ∀ s, f s = s ∨ ∃ k, In (f s) k ∧ ¬ In s k

namespace Grows

variable {σ κ ι : Type} {In : σ → κ → Prop}

theorem id : Grows In (fun s => s) := ⟨fun _ _ h => h, fun _ => .inl rfl⟩

theorem comp {f g : σ → σ} (hf : Grows In f) (hg : Grows In g) : Grows In (fun s => g (f s)) := by
  refine ⟨fun s k hk => hg.keeps _ k (hf.keeps s k hk), fun s => ?_⟩
  rcases hf.gains s with hsame | ⟨k, hk, hnew⟩
  · have hlater := hg.gains s
    rw [hsame]
    exact hlater
  · exact .inr ⟨k, hg.keeps _ k hk, hnew⟩

theorem foldl {f : σ → ι → σ} (h : ∀ i, Grows In (fun s => f s i)) (l : List ι) :
    Grows In (fun s => l.foldl f s) := by
  induction l with
  | nil => exact id
  | cons i l ih => exact (h i).comp ih

theorem left_eq {f g : σ → σ} (hf : Grows In f) (hg : Grows In g) {s : σ} (h : g (f s) = s) :
    f s = s := by
  rcases hf.gains s with hsame | ⟨k, hk, hnew⟩
  · exact hsame
  · have hlater := hg.keeps _ k hk
    rw [h] at hlater
    exact absurd hlater hnew

theorem foldl_eq {f : σ → ι → σ} (h : ∀ i, Grows In (fun s => f s i)) {l : List ι} {s : σ}
    (hl : l.foldl f s = s) : ∀ i ∈ l, f s i = s := by
  induction l with
  | nil => intro i hi; cases hi
  | cons i l ih =>
    have hi : f s i = s := (h i).left_eq (foldl h l) hl
    rw [List.foldl_cons, hi] at hl
    intro j hj
    rcases List.mem_cons.mp hj with rfl | hj
    · exact hi
    · exact ih hl j hj

end Grows

/-- what a pass keeps is kept by the fixed point it settles in -/
theorem settle_keeps {σ : Type} [DecidableEq σ] {pass : σ → σ} {P : σ → Prop}
    (hpass : ∀ s, P s → P (pass s)) {n : Nat} {s t : σ} (h : settle pass n s = some t)
    (hs : P s) : P t := by
  induction n generalizing s with
  | zero => simp [settle] at h
  | succ n ih =>
    rw [settle] at h
    split at h
    · cases h; exact hs
    · exact ih h (hpass s hs)

/-! ## Sets of symbols -/

theorem mem_include1 {s : List Symbol} {x y : Symbol} : y ∈ include1 s x ↔ y ∈ s ∨ y = x := by
  unfold include1
  by_cases h : x ∈ s
  · rw [if_pos (by simpa using h)]
    exact ⟨.inl, fun h' => h'.elim (fun a => a) fun e => e ▸ h⟩
  · rw [if_neg (by simpa using h), List.mem_append, List.mem_singleton]

theorem mem_includeAll {s xs : List Symbol} {y : Symbol} :
    y ∈ includeAll s xs ↔ y ∈ s ∨ y ∈ xs := by
  unfold includeAll
  induction xs generalizing s with
  | nil => simp
  | cons x xs ih => rw [List.foldl_cons, ih, mem_include1, List.mem_cons, or_assoc]

theorem grows_include1 (x : Symbol) :
    Grows (fun (s : List Symbol) y => y ∈ s) (fun s => include1 s x) := by
  refine ⟨fun s y hy => mem_include1.mpr (.inl hy), fun s => ?_⟩
  by_cases h : x ∈ s
  · exact .inl (if_pos (by simpa using h))
  · exact .inr ⟨x, mem_include1.mpr (.inr rfl), h⟩

theorem includeAll_eq_self {s xs : List Symbol} (h : ∀ x ∈ xs, x ∈ s) : includeAll s xs = s := by
  rcases (Grows.foldl grows_include1 xs).gains s with hsame | ⟨y, hy, hnew⟩
  · exact hsame
  · exact absurd ((mem_includeAll.mp hy).elim (fun hy => hy) (h y)) hnew

/-! ## Sets for each nonterminal -/

namespace SymbolSets

def keys (m : SymbolSets) : List Symbol := m.map Prod.fst

/-- a member of the set of a symbol, wherever that symbol has one -/
def Holds (m : SymbolSets) (e : Symbol × Symbol) : Prop := ∀ s, (e.1, s) ∈ m → e.2 ∈ s

theorem keys_add (m : SymbolSets) (x : Symbol) (ts : List Symbol) : (m.add x ts).keys = m.keys := by
  unfold keys add
  rw [List.map_map]
  refine List.map_congr_left fun e _ => ?_
  show (if e.1 == x then (e.1, includeAll e.2 ts) else e).1 = e.1
  split <;> rfl

theorem mem_add {m : SymbolSets} {x y : Symbol} {ts s : List Symbol} :
    (y, s) ∈ m.add x ts ↔ ∃ s', (y, s') ∈ m ∧ s = if y = x then includeAll s' ts else s' := by
  unfold add
  rw [List.mem_map]
  constructor
  · rintro ⟨⟨k, s'⟩, hmem, heq⟩
    by_cases hk : k = x
    · rw [if_pos (by simpa using hk)] at heq
      cases heq
      exact ⟨s', hmem, (if_pos hk).symm⟩
    · rw [if_neg (by simpa using hk)] at heq
      cases heq
      exact ⟨s, hmem, (if_neg hk).symm⟩
  · rintro ⟨s', hmem, rfl⟩
    refine ⟨(y, s'), hmem, ?_⟩
    by_cases hy : y = x
    · simp [hy]
    · simp [hy]

theorem grows_add (x : Symbol) (ts : List Symbol) : Grows Holds (fun m => m.add x ts) := by
  refine ⟨fun m e he s hs => ?_, fun m => ?_⟩
  · obtain ⟨s', hmem, rfl⟩ := mem_add.mp hs
    split
    · exact mem_includeAll.mpr (.inl (he s' hmem))
    · exact he s' hmem
  · by_cases hall : ∀ e ∈ m, e.1 = x → ∀ t ∈ ts, t ∈ e.2
    · refine .inl ((List.map_congr_left fun e he => ?_).trans (List.map_id m))
      split
      · next hx => exact Prod.ext rfl (includeAll_eq_self (hall e he (by simpa using hx)))
      · rfl
    · simp only [Classical.not_forall] at hall
      obtain ⟨⟨k, s⟩, he, rfl, t, ht, hnot⟩ := hall
      refine .inr ⟨(k, t), fun s' hs' => ?_, fun hheld => hnot (hheld s he)⟩
      obtain ⟨s'', -, rfl⟩ := mem_add.mp hs'
      rw [if_pos rfl]
      exact mem_includeAll.mpr (.inr ht)

theorem grows_addOf (x : Symbol) (ts : SymbolSets → List Symbol) :
    Grows Holds (fun m => m.add x (ts m)) :=
  ⟨fun m => (grows_add x (ts m)).keeps m, fun m => (grows_add x (ts m)).gains m⟩

theorem get_cons (k : Symbol) (s : List Symbol) (m : SymbolSets) (x : Symbol) :
    get ((k, s) :: m) x = if x = k then s else m.get x := by
  unfold get
  by_cases hk : x = k
  · rw [if_pos hk, hk, List.lookup_cons_self, Option.getD_some]
  · rw [if_neg hk, List.lookup_cons, beq_false_of_ne hk]

theorem add_cons (k : Symbol) (s : List Symbol) (m : SymbolSets) (z : Symbol) (ts : List Symbol) :
    add ((k, s) :: m) z ts = (k, if k = z then includeAll s ts else s) :: m.add z ts := by
  unfold add
  rw [List.map_cons]
  by_cases hk : k = z
  · rw [if_pos (beq_iff_eq.mpr hk), if_pos hk]
  · rw [if_neg (by simpa using hk), if_neg hk]

theorem get_mem {m : SymbolSets} {x : Symbol} (h : x ∈ m.keys) : (x, m.get x) ∈ m := by
  induction m with
  | nil => cases h
  | cons e m ih =>
    obtain ⟨k, s⟩ := e
    rw [get_cons]
    by_cases hk : x = k
    · rw [if_pos hk, hk]
      exact List.mem_cons_self
    · rw [if_neg hk]
      exact List.mem_cons_of_mem _ (ih ((List.mem_cons.mp h).resolve_left hk))

theorem mem_keys_of_mem_get {m : SymbolSets} {x t : Symbol} (h : t ∈ m.get x) : x ∈ m.keys := by
  induction m with
  | nil => cases h
  | cons e m ih =>
    obtain ⟨k, s⟩ := e
    rw [get_cons] at h
    by_cases hk : x = k
    · exact hk ▸ List.mem_cons_self
    · rw [if_neg hk] at h
      exact List.mem_cons_of_mem _ (ih h)

theorem mem_get_add {m : SymbolSets} {x z t : Symbol} {ts : List Symbol} :
    t ∈ (m.add z ts).get x ↔ t ∈ m.get x ∨ x ∈ m.keys ∧ x = z ∧ t ∈ ts := by
  induction m with
  | nil => simp [add, get, keys]
  | cons e m ih =>
    obtain ⟨k, s⟩ := e
    rw [add_cons, get_cons, get_cons]
    by_cases hk : x = k
    · subst hk
      rw [if_pos rfl, if_pos rfl]
      by_cases hz : x = z
      · simp [hz, mem_includeAll, keys]
      · simp [hz]
    · rw [if_neg hk, if_neg hk, ih]
      simp [keys, hk]

theorem subset_get_of_add_eq {m : SymbolSets} {x : Symbol} {ts : List Symbol} (hx : x ∈ m.keys)
    (h : m.add x ts = m) : ∀ t ∈ ts, t ∈ m.get x := by
  have hall : ∀ e ∈ m, (if e.1 == x then (e.1, includeAll e.2 ts) else e) = e :=
    List.map_inj_left.mp (h.trans (List.map_id m).symm)
  have he := hall _ (get_mem hx)
  rw [if_pos (beq_self_eq_true x)] at he
  intro t ht
  have e2 : includeAll (m.get x) ts = m.get x := congrArg Prod.snd he
  rw [← e2]
  exact mem_includeAll.mpr (.inr ht)

end SymbolSets

/-! ## Productive nonterminals -/

section
variable {nonterminals : List Symbol} {ps : List Production}

theorem bodyProductive_iff {body productive : List Symbol} :
    bodyProductive nonterminals productive body = true ↔
      ∀ s ∈ body, s ∈ nonterminals → s ∈ productive := by
  unfold bodyProductive
  simp [List.all_eq_true, or_iff_not_imp_left]

/-- what one production adds -/
def productiveStep (nonterminals productive : List Symbol) (p : Production) : List Symbol :=
  if bodyProductive nonterminals productive p.body then include1 productive p.head else productive

theorem productivePass_eq_foldl (productive : List Symbol) :
    productivePass nonterminals ps productive = ps.foldl (productiveStep nonterminals) productive :=
  rfl

theorem mem_productiveStep {productive : List Symbol} {p : Production} {x : Symbol} :
    x ∈ productiveStep nonterminals productive p ↔
      x ∈ productive ∨ (∀ s ∈ p.body, s ∈ nonterminals → s ∈ productive) ∧ x = p.head := by
  rw [← bodyProductive_iff]
  unfold productiveStep
  split
  · next h => rw [mem_include1, and_iff_right h]
  · next h => exact ⟨.inl, fun hx => hx.elim (fun hx => hx) fun hx => absurd hx.1 h⟩

theorem grows_productiveStep (p : Production) : Grows (fun (s : List Symbol) y => y ∈ s)
    (fun productive => productiveStep nonterminals productive p) := by
  refine ⟨fun s y hy => mem_productiveStep.mpr (.inl hy), fun s => ?_⟩
  unfold productiveStep
  split
  · exact (grows_include1 p.head).gains s
  · exact .inl rfl

theorem grows_productivePass :
    Grows (fun (s : List Symbol) y => y ∈ s) (productivePass nonterminals ps) :=
  Grows.foldl grows_productiveStep ps

/-- a body whose nonterminals have been found productive makes its head one -/
theorem head_mem_of_productivePass_eq {productive : List Symbol}
    (h : productivePass nonterminals ps productive = productive) {p : Production} (hp : p ∈ ps)
    (hbody : ∀ s ∈ p.body, s ∈ nonterminals → s ∈ productive) : p.head ∈ productive := by
  have hmem := mem_productiveStep.mpr (.inr ⟨hbody, rfl⟩)
  rwa [Grows.foldl_eq grows_productiveStep h p hp] at hmem

/-- what heads inherit from the nonterminals of their bodies all that is found has -/
theorem forall_mem_productivePass {Q : Symbol → Prop}
    (heads : ∀ p ∈ ps, (∀ s ∈ p.body, s ∈ nonterminals → Q s) → Q p.head)
    {productive : List Symbol} (h : ∀ x ∈ productive, Q x) :
    ∀ x ∈ productivePass nonterminals ps productive, Q x := by
  refine List.foldlRecOn (motive := fun productive => ∀ x ∈ productive, Q x) ps
    (productiveStep nonterminals) h fun found hfound p hp x hx => ?_
  rcases mem_productiveStep.mp hx with hx | ⟨hbody, rfl⟩
  · exact hfound x hx
  · exact heads p hp fun s hs hn => hfound s (hbody s hs hn)

end

/-! ## FIRST -/

/-- what a body may begin with, its head may begin with, and the same for the empty sequence -/
structure Leading.Closed (nonterminals : List Symbol) (ps : List Production) (l : Leading) :
    Prop where
  first : ∀ p ∈ ps, ∀ t ∈ (l.ofSequence nonterminals p.body).1, t ∈ l.first.get p.head
  nullable : ∀ p ∈ ps, (l.ofSequence nonterminals p.body).2 = true → p.head ∈ l.nullable

/-- a member of FIRST of a symbol, or a nullable symbol -/
def Leading.Holds (l : Leading) : (Symbol × Symbol) ⊕ Symbol → Prop
  | .inl e => l.first.Holds e
  | .inr x => x ∈ l.nullable

theorem Leading.first_absorb (nonterminals : List Symbol) (l : Leading) (p : Production) :
    (l.absorb nonterminals p).first = l.first.add p.head (l.ofSequence nonterminals p.body).1 :=
  rfl

theorem Leading.nullable_absorb (nonterminals : List Symbol) (l : Leading) (p : Production) :
    (l.absorb nonterminals p).nullable =
      if (l.ofSequence nonterminals p.body).2 then include1 l.nullable p.head else l.nullable :=
  rfl

theorem Leading.mem_nullable_absorb {nonterminals : List Symbol} {l : Leading} {p : Production}
    {x : Symbol} :
    x ∈ (l.absorb nonterminals p).nullable ↔
      x ∈ l.nullable ∨ (l.ofSequence nonterminals p.body).2 = true ∧ x = p.head := by
  rw [nullable_absorb]
  split
  · next h => rw [mem_include1, and_iff_right h]
  · next h => exact ⟨.inl, fun hx => hx.elim (fun hx => hx) fun hx => absurd hx.1 h⟩

theorem Leading.grows_absorb (nonterminals : List Symbol) (p : Production) :
    Grows Leading.Holds (fun l => l.absorb nonterminals p) := by
  have hfirst : ∀ l : Leading, _ := fun l =>
    (SymbolSets.grows_add p.head (l.ofSequence nonterminals p.body).1).gains l.first
  have hnullable : ∀ l : Leading, (l.absorb nonterminals p).nullable = l.nullable ∨
      ∃ x, x ∈ (l.absorb nonterminals p).nullable ∧ x ∉ l.nullable := by
    intro l
    rw [nullable_absorb]
    split
    · exact (grows_include1 p.head).gains l.nullable
    · exact .inl rfl
  refine ⟨fun l k hk => ?_, fun l => ?_⟩
  · cases k with
    | inl e => exact (SymbolSets.grows_add p.head _).keeps l.first e hk
    | inr x => exact mem_nullable_absorb.mpr (.inl hk)
  · rcases hfirst l with hfirst | ⟨e, he, hnew⟩
    · rcases hnullable l with hnullable | ⟨x, hx, hnew⟩
      · exact .inl (congr (congrArg Leading.mk hfirst) hnullable)
      · exact .inr ⟨.inr x, hx, hnew⟩
    · exact .inr ⟨.inl e, he, hnew⟩

theorem Leading.grows_pass (nonterminals : List Symbol) (ps : List Production) :
    Grows Leading.Holds (leadingPass nonterminals ps) :=
  Grows.foldl (grows_absorb nonterminals) ps

theorem Leading.closed_of_pass_eq {nonterminals : List Symbol} {ps : List Production} {l : Leading}
    (hkeys : ∀ p ∈ ps, p.head ∈ l.first.keys) (h : leadingPass nonterminals ps l = l) :
    l.Closed nonterminals ps := by
  have hstep := Grows.foldl_eq (Leading.grows_absorb nonterminals) h
  constructor
  · intro p hp
    exact SymbolSets.subset_get_of_add_eq (hkeys p hp) (congrArg Leading.first (hstep p hp))
  · intro p hp hempty
    have e : (l.absorb nonterminals p).nullable = l.nullable :=
      congrArg Leading.nullable (hstep p hp)
    rw [← e]
    exact Leading.mem_nullable_absorb.mpr (.inr ⟨hempty, rfl⟩)

theorem keys_leadingPass (nonterminals : List Symbol) (ps : List Production) (l : Leading) :
    (leadingPass nonterminals ps l).first.keys = l.first.keys := by
  unfold leadingPass
  induction ps generalizing l with
  | nil => rfl
  | cons p ps ih => rw [List.foldl_cons, ih, Leading.first_absorb, SymbolSets.keys_add]

/-! ## FOLLOW -/

/-- wherever a nonterminal stands in a body, it is followed by what the rest may begin with, and
where the rest may be empty by what follows the head -/
structure SymbolSets.FollowClosed (nonterminals : List Symbol) (l : Leading)
    (ps : List Production) (follow : SymbolSets) : Prop where
  rest : ∀ p ∈ ps, ∀ pre s post, p.body = pre ++ s :: post → s ∈ nonterminals →
    ∀ t ∈ (l.ofSequence nonterminals post).1, t ∈ follow.get s
  head : ∀ p ∈ ps, ∀ pre s post, p.body = pre ++ s :: post → s ∈ nonterminals →
    (l.ofSequence nonterminals post).2 = true → ∀ t ∈ follow.get p.head, t ∈ follow.get s

/-- what one place of a body adds to FOLLOW -/
def followPlace (nonterminals : List Symbol) (l : Leading) (head s : Symbol) (rest : List Symbol)
    (follow : SymbolSets) : SymbolSets :=
  if nonterminals.contains s then
    if (l.ofSequence nonterminals rest).2 then
      (follow.add s (l.ofSequence nonterminals rest).1).add s
        ((follow.add s (l.ofSequence nonterminals rest).1).get head)
    else follow.add s (l.ofSequence nonterminals rest).1
  else follow

theorem followBody_cons (nonterminals : List Symbol) (l : Leading) (head s : Symbol)
    (rest : List Symbol) (follow : SymbolSets) :
    followBody nonterminals l head (s :: rest) follow =
      followBody nonterminals l head rest (followPlace nonterminals l head s rest follow) := rfl

theorem keys_followPlace (nonterminals : List Symbol) (l : Leading) (head s : Symbol)
    (rest : List Symbol) (follow : SymbolSets) :
    (followPlace nonterminals l head s rest follow).keys = follow.keys := by
  unfold followPlace
  split
  · split
    · rw [SymbolSets.keys_add, SymbolSets.keys_add]
    · rw [SymbolSets.keys_add]
  · rfl

theorem mem_followPlace {nonterminals : List Symbol} {l : Leading} {head s : Symbol}
    {rest : List Symbol} {follow : SymbolSets} {x y : Symbol} (h : y ∈ follow.get x) :
    y ∈ (followPlace nonterminals l head s rest follow).get x := by
  unfold followPlace
  split
  · split
    · exact SymbolSets.mem_get_add.mpr (.inl (SymbolSets.mem_get_add.mpr (.inl h)))
    · exact SymbolSets.mem_get_add.mpr (.inl h)
  · exact h

theorem grows_followPlace (nonterminals : List Symbol) (l : Leading) (head s : Symbol)
    (rest : List Symbol) :
    Grows SymbolSets.Holds (fun follow => followPlace nonterminals l head s rest follow) := by
  have hadd := SymbolSets.grows_add s (l.ofSequence nonterminals rest).1
  unfold followPlace
  split
  · split
    · exact hadd.comp (SymbolSets.grows_addOf s fun follow => follow.get head)
    · exact hadd
  · exact Grows.id

theorem grows_followBody (nonterminals : List Symbol) (l : Leading) (head : Symbol)
    (body : List Symbol) :
    Grows SymbolSets.Holds (fun follow => followBody nonterminals l head body follow) := by
  induction body with
  | nil => exact Grows.id
  | cons s rest ih => exact (grows_followPlace nonterminals l head s rest).comp ih

/-- a body that adds nothing adds nothing in any of its places -/
theorem followPlace_eq {nonterminals : List Symbol} {l : Leading} {head : Symbol}
    {body : List Symbol} {follow : SymbolSets}
    (h : followBody nonterminals l head body follow = follow) (pre : List Symbol) (s : Symbol)
    (post : List Symbol) (hb : body = pre ++ s :: post) :
    followPlace nonterminals l head s post follow = follow := by
  induction pre generalizing body with
  | nil =>
    subst hb
    exact (grows_followPlace nonterminals l head s post).left_eq
      (grows_followBody nonterminals l head post) h
  | cons a pre ih =>
    subst hb
    have ha := (grows_followPlace nonterminals l head a (pre ++ s :: post)).left_eq
      (grows_followBody nonterminals l head (pre ++ s :: post)) h
    rw [List.cons_append, followBody_cons, ha] at h
    exact ih h rfl

theorem followClosed_of_pass_eq {nonterminals : List Symbol} {l : Leading} {ps : List Production}
    {follow : SymbolSets} (hkeys : ∀ s ∈ nonterminals, s ∈ follow.keys)
    (h : followPass nonterminals l ps follow = follow) :
    follow.FollowClosed nonterminals l ps := by
  have hstep := Grows.foldl_eq
    (fun p : Production => grows_followBody nonterminals l p.head p.body) h
  have hplace : ∀ p ∈ ps, ∀ pre s post, p.body = pre ++ s :: post → s ∈ nonterminals →
      follow.add s (l.ofSequence nonterminals post).1 = follow ∧
        ((l.ofSequence nonterminals post).2 = true →
          follow.add s (follow.get p.head) = follow) := by
    intro p hp pre s post hb hs
    have e := followPlace_eq (hstep p hp) pre s post hb
    unfold followPlace at e
    rw [if_pos (by simpa using hs)] at e
    by_cases he : (l.ofSequence nonterminals post).2 = true
    · rw [if_pos he] at e
      have e1 : follow.add s (l.ofSequence nonterminals post).1 = follow :=
        (SymbolSets.grows_add s _).left_eq
          (SymbolSets.grows_addOf s fun follow => follow.get p.head) e
      rw [e1] at e
      exact ⟨e1, fun _ => e⟩
    · rw [if_neg he] at e
      exact ⟨e, fun h => absurd h he⟩
  constructor
  · intro p hp pre s post hb hs
    exact SymbolSets.subset_get_of_add_eq (hkeys s hs) (hplace p hp pre s post hb hs).1
  · intro p hp pre s post hb hs he
    exact SymbolSets.subset_get_of_add_eq (hkeys s hs) ((hplace p hp pre s post hb hs).2 he)

theorem keys_followBody (nonterminals : List Symbol) (l : Leading) (head : Symbol)
    (body : List Symbol) (follow : SymbolSets) :
    (followBody nonterminals l head body follow).keys = follow.keys := by
  induction body generalizing follow with
  | nil => rfl
  | cons s rest ih => rw [followBody_cons, ih, keys_followPlace]

theorem mem_followBody {nonterminals : List Symbol} {l : Leading} {head : Symbol}
    {body : List Symbol} {follow : SymbolSets} {x y : Symbol} (h : y ∈ follow.get x) :
    y ∈ (followBody nonterminals l head body follow).get x := by
  induction body generalizing follow with
  | nil => exact h
  | cons s rest ih =>
    rw [followBody_cons]
    exact ih (mem_followPlace h)

theorem keys_followPass (nonterminals : List Symbol) (l : Leading) (ps : List Production)
    (follow : SymbolSets) : (followPass nonterminals l ps follow).keys = follow.keys := by
  unfold followPass
  induction ps generalizing follow with
  | nil => rfl
  | cons p ps ih => rw [List.foldl_cons, ih, keys_followBody]

theorem mem_followPass {nonterminals : List Symbol} {l : Leading} {ps : List Production}
    {follow : SymbolSets} {x y : Symbol} (h : y ∈ follow.get x) :
    y ∈ (followPass nonterminals l ps follow).get x := by
  unfold followPass
  induction ps generalizing follow with
  | nil => exact h
  | cons p ps ih =>
    rw [List.foldl_cons]
    exact ih (mem_followBody h)

end Overloading
