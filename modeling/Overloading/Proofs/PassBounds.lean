import Mathlib.Data.Finset.Card
import Mathlib.Order.Monotone.Basic
import Overloading.Proofs.LeastSets

/-!
# How many passes a grammar needs

A pass is refused only if it has to be repeated too often.  How often that is depends on the order
of the productions, but not how often it can be at most.  What a pass makes of a set of
nonterminals is determined by that set, so once it has stayed the same it does so for good, and
until then every pass gives it a new member (`chain_stops`, `view_stops`).

* the productive nonterminals are such a set (`settle_productive`);
* the nullable nonterminals are another one.  Once they stay the same, the nonterminals that begin
  with a given terminal are a set of this kind, each terminal on its own: FIRST takes at most twice
  as many passes as there are nonterminals (`settle_leading`);
* the nonterminals that are followed by a given terminal are one as well (`settle_follow`).
-/

namespace Overloading

/-! ## Chains of sets -/

/-- a growing chain of subsets of a list, each of which from some point on determines the next,
stops growing within as many steps as the list is long -/
theorem chain_stops {α : Type} {U : List α} {A : Nat → α → Prop} (start : Nat)
    (grows : ∀ i x, A i x → A (i + 1) x) (within : ∀ i x, A i x → x ∈ U)
    (determined : ∀ i, start ≤ i → (∀ x, A (i + 1) x → A i x) → ∀ x, A (i + 2) x → A (i + 1) x)
    {i : Nat} (hi : start + U.length ≤ i) : ∀ x, A (i + 1) x → A i x := by
  classical
  let S : Nat → Finset α := fun m => U.toFinset.filter (A (start + m))
  have hmem : ∀ m x, x ∈ S m ↔ A (start + m) x := fun m x => by
    simpa [S] using within (start + m) x
  have hsub : ∀ m, S m ⊆ S (m + 1) := fun m x hx =>
    (hmem _ x).mpr (grows _ x ((hmem m x).mp hx))
  have hsame : ∀ m, (S m).card = (S (m + 1)).card ↔ ∀ x, A (start + m + 1) x → A (start + m) x := by
    intro m
    constructor
    · intro hcard x hx
      have heq := Finset.eq_of_subset_of_card_le (hsub m) hcard.ge
      exact (hmem m x).mp (heq ▸ (hmem (m + 1) x).mpr hx)
    · intro hback
      exact congrArg Finset.card (Finset.Subset.antisymm (hsub m) fun x hx =>
        (hmem m x).mpr (hback x ((hmem (m + 1) x).mp hx)))
  have hbound : ∀ m, (S m).card ≤ U.length := fun m =>
    (Finset.card_le_card (Finset.filter_subset _ _)).trans U.toFinset_card_le
  have hfinal : ∀ m, U.length ≤ m → (S m).card = (S U.length).card := fun m hm =>
    Nat.stabilises_of_monotone (monotone_nat_of_le_succ fun m => Finset.card_le_card (hsub m))
      hbound (fun m hm => (hsame (m + 1)).mpr
        (determined (start + m) (Nat.le_add_right _ _) ((hsame m).mp hm))) hm
  obtain ⟨m, rfl⟩ : ∃ m, i = start + m := ⟨i - start, by omega⟩
  exact (hsame m).mp ((hfinal m (by omega)).trans (hfinal (m + 1) (by omega)).symm)

/-! ## Passes -/

section Passes

variable {σ κ α : Type} {pass : σ → σ} {s : σ}

/-- a set that is seen in each state stays the same after as many passes as it can have members,
counted from where on each pass is determined by what it finds of the set -/
theorem view_stops {P : σ → Prop} {A : σ → α → Prop} {U : List α} (start : Nat)
    (kept : ∀ s, P s → P (pass s)) (grows : ∀ s, P s → ∀ x, A s x → A (pass s) x)
    (within : ∀ s, P s → ∀ x, A s x → x ∈ U) (hs : P s)
    (determined : ∀ i, start ≤ i → (∀ x, A (pass^[i] s) x ↔ A (pass (pass^[i] s)) x) →
      ∀ x, A (pass (pass^[i] s)) x ↔ A (pass (pass (pass^[i] s))) x)
    {i : Nat} (hi : start + U.length ≤ i) : ∀ x, A (pass^[i] s) x ↔ A (pass (pass^[i] s)) x := by
  have hkept : ∀ i, P (pass^[i] s) := Function.Iterate.rec P hs kept
  have hsucc : ∀ i, pass^[i + 1] s = pass (pass^[i] s) := fun i =>
    Function.iterate_succ_apply' pass i s
  refine fun x => ⟨grows _ (hkept i) x, ?_⟩
  rw [← hsucc]
  refine chain_stops start (A := fun i => A (pass^[i] s)) ?_
    (fun i => within _ (hkept i)) (fun i hi hback y => ?_) hi x
  · intro i y hy
    rw [hsucc]
    exact grows _ (hkept i) y hy
  · rw [hsucc (i + 1), hsucc i]
    rw [hsucc i] at hback
    exact (determined i hi (fun x => ⟨grows _ (hkept i) x, hback x⟩) y).mpr

theorem exists_settle [DecidableEq σ] {n i : Nat} (hi : i < n)
    (h : pass (pass^[i] s) = pass^[i] s) : ∃ t, settle pass n s = some t := by
  induction n generalizing s i with
  | zero => exact absurd hi (Nat.not_lt_zero i)
  | succ n ih =>
    rw [settle]
    split
    · exact ⟨s, rfl⟩
    · next hs =>
      cases i with
      | zero => exact absurd h hs
      | succ i => exact ih (Nat.lt_of_succ_lt_succ hi) h

theorem Grows.eq_of_forall {In : σ → κ → Prop} {f : σ → σ} (hf : Grows In f)
    (h : ∀ k, In (f s) k → In s k) : f s = s := by
  rcases hf.gains s with hsame | ⟨k, hk, hnew⟩
  · exact hsame
  · exact absurd (h k hk) hnew

end Passes

variable {nonterminals : List Symbol} {ps : List Production}

/-! ## Productive nonterminals -/

theorem mem_productivePass_congr {s s' : List Symbol} (h : ∀ x, x ∈ s ↔ x ∈ s') :
    ∀ x, x ∈ productivePass nonterminals ps s ↔ x ∈ productivePass nonterminals ps s' := by
  rw [productivePass_eq_foldl, productivePass_eq_foldl]
  refine List.foldl_rel (r := fun s s' => ∀ x, x ∈ s ↔ x ∈ s') h fun p _ s s' hs x => ?_
  rw [mem_productiveStep, mem_productiveStep]
  simp only [hs]

/-- **The productive nonterminals** take at most as many passes as there are nonterminals. -/
theorem settle_productive (hheads : ∀ p ∈ ps, p.head ∈ nonterminals) {n : Nat}
    (hn : nonterminals.length < n) :
    ∃ productive, settle (productivePass nonterminals ps) n [] = some productive := by
  refine exists_settle hn (grows_productivePass.eq_of_forall fun x => ?_)
  exact (view_stops 0 (P := fun s => ∀ x ∈ s, x ∈ nonterminals)
    (A := fun (s : List Symbol) x => x ∈ s)
    (fun _ => forall_mem_productivePass fun p hp _ => hheads p hp)
    (fun s _ => grows_productivePass.keeps s) (fun _ h => h) (by simp)
    (fun _ _ => mem_productivePass_congr) (Nat.zero_add _).le x).mpr

/-! ## FIRST -/

namespace SymbolSets

theorem get_eq_of_mem {m : SymbolSets} (hm : m.keys.Nodup) {x : Symbol} {s : List Symbol}
    (h : (x, s) ∈ m) : m.get x = s := by
  induction m with
  | nil => cases h
  | cons e m ih =>
    obtain ⟨k, s'⟩ := e
    obtain ⟨hk, hm⟩ := List.nodup_cons.mp hm
    rw [get_cons]
    rcases List.mem_cons.mp h with heq | hmem
    · cases heq
      rw [if_pos rfl]
    · have hkey : x ∈ m.map Prod.fst := List.mem_map_of_mem hmem
      rw [if_neg (by rintro rfl; exact hk hkey)]
      exact ih hm hmem

/-- where each symbol has one set, its set says what it holds -/
theorem mem_get_iff {m : SymbolSets} (hm : m.keys.Nodup) {x t : Symbol} :
    t ∈ m.get x ↔ x ∈ m.keys ∧ m.Holds (x, t) := by
  constructor
  · exact fun h => ⟨mem_keys_of_mem_get h, fun s hs => get_eq_of_mem hm hs ▸ h⟩
  · exact fun ⟨hx, hholds⟩ => hholds _ (get_mem hx)

/-- two families have the same symbols, and the same of these hold a given terminal -/
structure Agree (t : Symbol) (m m' : SymbolSets) : Prop where
  keys_eq : m.keys = m'.keys
  mem_iff : ∀ x, t ∈ m.get x ↔ t ∈ m'.get x

theorem Agree.add {t z : Symbol} {m m' : SymbolSets} (h : Agree t m m') {ts ts' : List Symbol}
    (hts : t ∈ ts ↔ t ∈ ts') : Agree t (m.add z ts) (m'.add z ts') := by
  refine ⟨by rw [keys_add, keys_add, h.keys_eq], fun x => ?_⟩
  rw [mem_get_add, mem_get_add, h.keys_eq, h.mem_iff, hts]

theorem holds_of_forall {m m' : SymbolSets} {xs : List Symbol} (hxs : xs.Nodup)
    (hm : m.keys = xs) (hm' : m'.keys = xs) (h : ∀ x t, t ∈ m'.get x → t ∈ m.get x)
    (e : Symbol × Symbol) (he : m'.Holds e) : m.Holds e := by
  subst hm
  intro s hs
  have hkey : e.1 ∈ m'.keys := hm' ▸ List.mem_map_of_mem (f := Prod.fst) hs
  have hmem := h e.1 e.2 ((mem_get_iff (hm' ▸ hxs)).mpr ⟨hkey, he⟩)
  exact ((mem_get_iff hxs).mp hmem).2 s hs

end SymbolSets

namespace Leading

variable {l l' : Leading} {t : Symbol}

theorem ofSequence_snd_congr (hnullable : ∀ x, x ∈ l.nullable ↔ x ∈ l'.nullable)
    (body : List Symbol) :
    (l.ofSequence nonterminals body).2 = (l'.ofSequence nonterminals body).2 := by
  rw [Bool.eq_iff_iff, ofSequence_empty_iff, ofSequence_empty_iff]
  simp only [hnullable]

theorem mem_ofSequence_congr (hnullable : ∀ x, x ∈ l.nullable ↔ x ∈ l'.nullable)
    (hfirst : ∀ x, t ∈ l.first.get x ↔ t ∈ l'.first.get x) (body : List Symbol) :
    t ∈ (l.ofSequence nonterminals body).1 ↔ t ∈ (l'.ofSequence nonterminals body).1 := by
  induction body with
  | nil => exact Iff.rfl
  | cons s rest ih =>
    by_cases hs : s ∈ nonterminals
    · by_cases hn : s ∈ l.nullable
      · rw [Grammar.ofSequence_cons_nullable hs hn,
          Grammar.ofSequence_cons_nullable hs ((hnullable s).mp hn), mem_includeAll,
          mem_includeAll, hfirst, ih]
      · rw [Grammar.ofSequence_cons_nonempty hs hn,
          Grammar.ofSequence_cons_nonempty hs fun hn' => hn ((hnullable s).mpr hn')]
        exact hfirst s
    · rw [Grammar.ofSequence_cons_terminal hs, Grammar.ofSequence_cons_terminal hs]

theorem mem_nullable_pass_congr (h : ∀ x, x ∈ l.nullable ↔ x ∈ l'.nullable) :
    ∀ x, x ∈ (leadingPass nonterminals ps l).nullable ↔
      x ∈ (leadingPass nonterminals ps l').nullable := by
  refine List.foldl_rel (r := fun l l' : Leading => ∀ x, x ∈ l.nullable ↔ x ∈ l'.nullable) h
    fun p _ l l' h x => ?_
  rw [mem_nullable_absorb, mem_nullable_absorb, h, ofSequence_snd_congr h]

/-- what it makes of the symbols that begin with a terminal depends on them and the nullable ones -/
theorem agree_pass (hnullable : ∀ x, x ∈ l.nullable ↔ x ∈ l'.nullable)
    (hfirst : SymbolSets.Agree t l.first l'.first) :
    SymbolSets.Agree t (leadingPass nonterminals ps l).first
      (leadingPass nonterminals ps l').first := by
  refine (List.foldl_rel (r := fun l l' : Leading =>
    (∀ x, x ∈ l.nullable ↔ x ∈ l'.nullable) ∧ SymbolSets.Agree t l.first l'.first)
    ⟨hnullable, hfirst⟩ fun p _ l l' h => ⟨fun x => ?_, ?_⟩).2
  · rw [mem_nullable_absorb, mem_nullable_absorb, h.1, ofSequence_snd_congr h.1]
  · exact h.2.add (mem_ofSequence_congr h.1 h.2.mem_iff p.body)

theorem mem_of_mem_nullable_pass (hheads : ∀ p ∈ ps, p.head ∈ nonterminals)
    (h : ∀ x ∈ l.nullable, x ∈ nonterminals) :
    ∀ x ∈ (leadingPass nonterminals ps l).nullable, x ∈ nonterminals := by
  refine List.foldlRecOn (motive := fun l : Leading => ∀ x ∈ l.nullable, x ∈ nonterminals) ps
    (Leading.absorb nonterminals) h fun l hl p hp x hx => ?_
  rcases mem_nullable_absorb.mp hx with hx | ⟨-, rfl⟩
  · exact hl x hx
  · exact hheads p hp

/-- the sets are about the nonterminals -/
structure Within (nonterminals : List Symbol) (l : Leading) : Prop where
  keys_eq : l.first.keys = nonterminals
  nullable_mem : ∀ x ∈ l.nullable, x ∈ nonterminals

/-- **FIRST** takes at most twice as many passes as there are nonterminals. -/
theorem settle_leading (hnodup : nonterminals.Nodup) (hheads : ∀ p ∈ ps, p.head ∈ nonterminals)
    {n : Nat} (hn : 2 * nonterminals.length < n) :
    ∃ l, settle (leadingPass nonterminals ps) n ⟨SymbolSets.empty nonterminals, []⟩ = some l := by
  have hkept : ∀ l : Leading, l.Within nonterminals →
      (leadingPass nonterminals ps l).Within nonterminals := fun l hl =>
    ⟨(keys_leadingPass _ _ l).trans hl.keys_eq, mem_of_mem_nullable_pass hheads hl.nullable_mem⟩
  have hstart : Within nonterminals ⟨SymbolSets.empty nonterminals, []⟩ :=
    ⟨Grammar.keys_empty _, by simp⟩
  have hgrows := grows_pass nonterminals ps
  have hfirst : ∀ l : Leading, l.Within nonterminals → ∀ t x, t ∈ l.first.get x →
      t ∈ (leadingPass nonterminals ps l).first.get x := by
    intro l hl t x ht
    rw [SymbolSets.mem_get_iff (hl.keys_eq.symm ▸ hnodup)] at ht
    rw [SymbolSets.mem_get_iff ((hkept l hl).keys_eq.symm ▸ hnodup), keys_leadingPass]
    exact ⟨ht.1, hgrows.keeps l (.inl (x, t)) ht.2⟩
  let state : Nat → Leading := fun i =>
    (leadingPass nonterminals ps)^[i] ⟨SymbolSets.empty nonterminals, []⟩
  -- first the nullable symbols come to rest, then the symbols that begin with each terminal
  have hnullable : ∀ i, nonterminals.length ≤ i → ∀ x,
      x ∈ (state i).nullable ↔ x ∈ (leadingPass nonterminals ps (state i)).nullable := fun i hi =>
    view_stops 0 (A := fun (l : Leading) x => x ∈ l.nullable) hkept
      (fun l _ x => hgrows.keeps l (.inr x)) (fun l hl => hl.nullable_mem) hstart
      (fun i _ => mem_nullable_pass_congr) ((Nat.zero_add _).trans_le hi)
  have hrest : ∀ t x, t ∈ (state (2 * nonterminals.length)).first.get x ↔
      t ∈ (leadingPass nonterminals ps (state (2 * nonterminals.length))).first.get x := fun t =>
    view_stops nonterminals.length (A := fun (l : Leading) x => t ∈ l.first.get x)
      hkept (fun l hl => hfirst l hl t)
      (fun l hl x hx => hl.keys_eq ▸ SymbolSets.mem_keys_of_mem_get hx) hstart
      (fun i hi hsame => (agree_pass (hnullable i hi)
        ⟨(keys_leadingPass _ _ _).symm, hsame⟩).mem_iff) (Nat.two_mul _).ge
  have hwithin : (state (2 * nonterminals.length)).Within nonterminals :=
    Function.Iterate.rec (Within nonterminals) hstart hkept _
  refine exists_settle hn (hgrows.eq_of_forall fun k => ?_)
  cases k with
  | inl e =>
    exact SymbolSets.holds_of_forall hnodup hwithin.keys_eq (hkept _ hwithin).keys_eq
      (fun x t => (hrest t x).mpr) e
  | inr x => exact (hnullable _ (by omega) x).mpr

end Leading

/-! ## FOLLOW -/

theorem agree_followPlace {l : Leading} {head s t : Symbol} {rest : List Symbol}
    {m m' : SymbolSets} (h : SymbolSets.Agree t m m') :
    SymbolSets.Agree t (followPlace nonterminals l head s rest m)
      (followPlace nonterminals l head s rest m') := by
  unfold followPlace
  split
  · have hrest := h.add (z := s) (Iff.refl (t ∈ (l.ofSequence nonterminals rest).1))
    split
    · exact hrest.add (hrest.mem_iff head)
    · exact hrest
  · exact h

theorem agree_followBody {l : Leading} {head t : Symbol} {body : List Symbol} {m m' : SymbolSets}
    (h : SymbolSets.Agree t m m') :
    SymbolSets.Agree t (followBody nonterminals l head body m)
      (followBody nonterminals l head body m') := by
  induction body generalizing m m' with
  | nil => exact h
  | cons s rest ih =>
    rw [followBody_cons, followBody_cons]
    exact ih (agree_followPlace h)

theorem agree_followPass (l : Leading) (ps : List Production) {t : Symbol} {m m' : SymbolSets}
    (h : SymbolSets.Agree t m m') :
    SymbolSets.Agree t (followPass nonterminals l ps m) (followPass nonterminals l ps m') :=
  List.foldl_rel h fun _ _ _ _ h => agree_followBody h

theorem grows_followPass (l : Leading) :
    Grows SymbolSets.Holds (followPass nonterminals l ps) :=
  Grows.foldl (fun p : Production => grows_followBody nonterminals l p.head p.body) ps

/-- **FOLLOW** takes at most as many passes as there are nonterminals. -/
theorem settle_follow (hnodup : nonterminals.Nodup) (l : Leading) (wildcardable : List Symbol)
    {n : Nat} (hn : nonterminals.length < n) :
    ∃ follow, settle (followPass nonterminals l ps) n (followStart nonterminals wildcardable) =
      some follow := by
  have hkept : ∀ m : SymbolSets, m.keys = nonterminals →
      (followPass nonterminals l ps m).keys = nonterminals := fun m hm =>
    (keys_followPass _ _ _ m).trans hm
  have hstart := Grammar.keys_followStart nonterminals wildcardable
  let state := (followPass nonterminals l ps)^[nonterminals.length]
    (followStart nonterminals wildcardable)
  have hrest : ∀ t x, t ∈ state.get x ↔ t ∈ (followPass nonterminals l ps state).get x := fun t =>
    view_stops 0 (A := fun (m : SymbolSets) x => t ∈ m.get x) hkept
      (fun m hm x => mem_followPass)
      (fun m hm x hx => hm ▸ SymbolSets.mem_keys_of_mem_get hx) hstart
      (fun i _ hsame => (agree_followPass l ps
        ⟨(keys_followPass _ _ _ _).symm, hsame⟩).mem_iff) (Nat.zero_add _).le
  have hkeys : state.keys = nonterminals :=
    Function.Iterate.rec (fun m : SymbolSets => m.keys = nonterminals) hstart hkept _
  exact exists_settle hn ((grows_followPass l).eq_of_forall
    (SymbolSets.holds_of_forall hnodup hkeys (hkept _ hkeys) fun x t => (hrest t x).mpr))

end Overloading
