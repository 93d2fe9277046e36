import Overloading.Proofs.Prediction

/-!
# FIRST and the nullable symbols hold nothing without a reason

A fixed point of the passes is closed under the productions (`Leading.Closed`).  The passes start
from nothing, so it is also the least one: every member has been put there by a chain of
productions.

* `Vanishes`     a nonterminal that derives the empty sequence;
* `Begins`       a terminal that stands first in something a nonterminal derives;
* `Leading.Sound`   every nullable symbol vanishes, every member of FIRST begins;
* `Leading.Closed.exact_`   closed and sound sets are exactly these two relations;
* `leading_sound_of_build`  the sets of a built grammar are sound.
-/

namespace Overloading

/-- a symbol derives the empty sequence -/
inductive Vanishes (ps : List Production) : Symbol → Prop
  | intro {p : Production} (mem : p ∈ ps) (body : ∀ s ∈ p.body, Vanishes ps s) :
      Vanishes ps p.head

/-- a terminal stands first in something a nonterminal derives: in one of its bodies, behind
symbols that vanish, stands the terminal or a nonterminal that begins with it -/
inductive Begins (nonterminals : List Symbol) (ps : List Production) (t : Symbol) : Symbol → Prop
  | here {p : Production} {pre post : List Symbol} (mem : p ∈ ps)
      (split : p.body = pre ++ t :: post) (gone : ∀ s ∈ pre, Vanishes ps s)
      (terminal : t ∉ nonterminals) : Begins nonterminals ps t p.head
  | inside {p : Production} {pre post : List Symbol} {s : Symbol} (mem : p ∈ ps)
      (split : p.body = pre ++ s :: post) (gone : ∀ u ∈ pre, Vanishes ps u)
      (inner : Begins nonterminals ps t s) : Begins nonterminals ps t p.head

theorem Vanishes.exists_production {ps : List Production} {x : Symbol} (h : Vanishes ps x) :
    ∃ p ∈ ps, p.head = x := by
  obtain ⟨mem, -⟩ := h
  exact ⟨_, mem, rfl⟩

theorem Begins.exists_production {nonterminals : List Symbol} {ps : List Production} {t x : Symbol}
    (h : Begins nonterminals ps t x) : ∃ p ∈ ps, p.head = x := by
  cases h with
  | here mem => exact ⟨_, mem, rfl⟩
  | inside mem => exact ⟨_, mem, rfl⟩

/-! ## The first terminals of a sequence -/

section
variable {nonterminals : List Symbol} {l : Leading}

/-- a first terminal of a sequence stands behind nullable symbols or begins what stands there -/
theorem Leading.mem_ofSequence {body : List Symbol} {t : Symbol}
    (h : t ∈ (l.ofSequence nonterminals body).1) :
    ∃ pre s post, body = pre ++ s :: post ∧ (∀ u ∈ pre, u ∈ l.nullable) ∧
      (s ∉ nonterminals ∧ s = t ∨ s ∈ nonterminals ∧ t ∈ l.first.get s) := by
  induction body with
  | nil => cases h
  | cons s rest ih =>
    by_cases hs : s ∈ nonterminals
    · by_cases hn : s ∈ l.nullable
      · rw [Grammar.ofSequence_cons_nullable hs hn, mem_includeAll] at h
        rcases h with h | h
        · exact ⟨[], s, rest, rfl, fun _ hu => (List.not_mem_nil hu).elim, .inr ⟨hs, h⟩⟩
        · obtain ⟨pre, u, post, rfl, hpre, hu⟩ := ih h
          exact ⟨s :: pre, u, post, rfl, List.forall_mem_cons.mpr ⟨hn, hpre⟩, hu⟩
      · rw [Grammar.ofSequence_cons_nonempty hs hn] at h
        exact ⟨[], s, rest, rfl, fun _ hu => (List.not_mem_nil hu).elim, .inr ⟨hs, h⟩⟩
    · rw [Grammar.ofSequence_cons_terminal hs] at h
      exact ⟨[], s, rest, rfl, fun _ hu => (List.not_mem_nil hu).elim,
        .inl ⟨hs, (List.mem_singleton.mp h).symm⟩⟩

theorem Leading.mem_ofSequence_of_split {pre post : List Symbol} {s t : Symbol}
    (hpre : ∀ u ∈ pre, u ∈ nonterminals ∧ u ∈ l.nullable)
    (hs : s ∉ nonterminals ∧ s = t ∨ s ∈ nonterminals ∧ t ∈ l.first.get s) :
    t ∈ (l.ofSequence nonterminals (pre ++ s :: post)).1 := by
  induction pre with
  | nil =>
    rw [List.nil_append]
    rcases hs with ⟨hs, rfl⟩ | ⟨hs, ht⟩
    · rw [Grammar.ofSequence_cons_terminal hs]
      exact List.mem_singleton.mpr rfl
    · by_cases hn : s ∈ l.nullable
      · rw [Grammar.ofSequence_cons_nullable hs hn]
        exact mem_includeAll.mpr (.inl ht)
      · rw [Grammar.ofSequence_cons_nonempty hs hn]
        exact ht
  | cons u pre ih =>
    obtain ⟨⟨hu, hn⟩, hpre⟩ := List.forall_mem_cons.mp hpre
    rw [List.cons_append, Grammar.ofSequence_cons_nullable hu hn]
    exact mem_includeAll.mpr (.inr (ih hpre))

theorem Leading.ofSequence_empty_iff {body : List Symbol} :
    (l.ofSequence nonterminals body).2 = true ↔ ∀ s ∈ body, s ∈ nonterminals ∧ s ∈ l.nullable := by
  induction body with
  | nil => simp [Leading.ofSequence]
  | cons s rest ih =>
    rw [List.forall_mem_cons]
    by_cases hs : s ∈ nonterminals
    · by_cases hn : s ∈ l.nullable
      · rw [Grammar.ofSequence_cons_nullable hs hn, ih]
        exact ⟨fun h => ⟨⟨hs, hn⟩, h⟩, And.right⟩
      · rw [Grammar.ofSequence_cons_nonempty hs hn]
        exact ⟨fun h => (Bool.false_ne_true h).elim, fun h => (hn h.1.2).elim⟩
    · rw [Grammar.ofSequence_cons_terminal hs]
      exact ⟨fun h => (Bool.false_ne_true h).elim, fun h => (hs h.1.1).elim⟩

end

/-! ## What the passes put into the sets -/

/-- every member of the sets has a reason -/
structure Leading.Sound (nonterminals : List Symbol) (ps : List Production) (l : Leading) :
    Prop where
  nullable : ∀ x ∈ l.nullable, Vanishes ps x
  first : ∀ x, ∀ t ∈ l.first.get x, Begins nonterminals ps t x

section
variable {nonterminals : List Symbol} {ps : List Production}

theorem Leading.Sound.absorb {l : Leading} (h : l.Sound nonterminals ps) {p : Production}
    (hp : p ∈ ps) : (l.absorb nonterminals p).Sound nonterminals ps := by
  constructor
  · intro x hx
    rcases Leading.mem_nullable_absorb.mp hx with hx | ⟨hempty, rfl⟩
    · exact h.nullable x hx
    · exact .intro hp fun s hs => h.nullable s (Leading.ofSequence_empty_iff.mp hempty s hs).2
  · intro x t ht
    rw [Leading.first_absorb] at ht
    rcases SymbolSets.mem_get_add.mp ht with ht | ⟨-, rfl, hbody⟩
    · exact h.first x t ht
    · obtain ⟨pre, s, post, hsplit, hpre, ⟨hs, rfl⟩ | ⟨hs, ht⟩⟩ :=
        Leading.mem_ofSequence hbody
      · exact .here hp hsplit (fun u hu => h.nullable u (hpre u hu)) hs
      · exact .inside hp hsplit (fun u hu => h.nullable u (hpre u hu)) (h.first s t ht)

theorem Leading.Sound.pass {l : Leading} (h : l.Sound nonterminals ps) :
    (leadingPass nonterminals ps l).Sound nonterminals ps :=
  List.foldlRecOn ps _ h fun _ h _ hp => h.absorb hp

theorem SymbolSets.get_empty (xs : List Symbol) (x : Symbol) :
    (SymbolSets.empty xs).get x = [] := by
  unfold empty
  induction xs with
  | nil => rfl
  | cons y ys ih => rw [List.map_cons, get_cons, ih, ite_self]

theorem Leading.sound_empty (nonterminals : List Symbol) (ps : List Production) :
    (⟨SymbolSets.empty nonterminals, []⟩ : Leading).Sound nonterminals ps := by
  refine ⟨fun x hx => (List.not_mem_nil hx).elim, fun x t ht => ?_⟩
  rw [SymbolSets.get_empty] at ht
  exact (List.not_mem_nil ht).elim

end

/-! ## The sets are the relations -/

/-- FIRST and the nullable symbols are what the productions say, no less and no more -/
structure Leading.Exact (nonterminals : List Symbol) (ps : List Production) (l : Leading) :
    Prop where
  nullable : ∀ x, x ∈ l.nullable ↔ Vanishes ps x
  first : ∀ x t, t ∈ l.first.get x ↔ Begins nonterminals ps t x

section
variable {nonterminals : List Symbol} {ps : List Production}
  (hheads : ∀ p ∈ ps, p.head ∈ nonterminals)
include hheads

theorem Vanishes.mem_nonterminals {x : Symbol} (h : Vanishes ps x) : x ∈ nonterminals := by
  obtain ⟨p, hp, rfl⟩ := h.exists_production
  exact hheads p hp

theorem Begins.mem_nonterminals {t x : Symbol} (h : Begins nonterminals ps t x) :
    x ∈ nonterminals := by
  obtain ⟨p, hp, rfl⟩ := h.exists_production
  exact hheads p hp

theorem Leading.Closed.exact_ {l : Leading} (hclosed : l.Closed nonterminals ps)
    (hsound : l.Sound nonterminals ps) : l.Exact nonterminals ps := by
  have hvanishes : ∀ {x}, Vanishes ps x → x ∈ l.nullable := by
    intro x h
    induction h with
    | @intro p mem hbody ih =>
      exact hclosed.nullable p mem (Leading.ofSequence_empty_iff.mpr fun s hs =>
        ⟨(hbody s hs).mem_nonterminals hheads, ih s hs⟩)
  have hgone : ∀ {pre : List Symbol}, (∀ u ∈ pre, Vanishes ps u) →
      ∀ u ∈ pre, u ∈ nonterminals ∧ u ∈ l.nullable := fun hpre u hu =>
    ⟨(hpre u hu).mem_nonterminals hheads, hvanishes (hpre u hu)⟩
  refine ⟨fun x => ⟨hsound.nullable x, hvanishes⟩, fun x t => ⟨hsound.first x t, fun h => ?_⟩⟩
  induction h with
  | @here p pre post mem split gone terminal =>
    refine hclosed.first p mem t ?_
    rw [split]
    exact Leading.mem_ofSequence_of_split (hgone gone) (.inl ⟨terminal, rfl⟩)
  | @inside p pre post s mem split gone inner ih =>
    refine hclosed.first p mem t ?_
    rw [split]
    exact Leading.mem_ofSequence_of_split (hgone gone) (.inr ⟨inner.mem_nonterminals hheads, ih⟩)

end

namespace Grammar

theorem sound_of_settle {nonterminals : List Symbol} {ps : List Production} {l : Leading} {n : Nat}
    (h : settle (leadingPass nonterminals ps) n ⟨SymbolSets.empty nonterminals, []⟩ = some l) :
    l.Sound nonterminals ps :=
  settle_keeps (fun _ => Leading.Sound.pass) h (Leading.sound_empty _ _)

theorem leading_sound_of_build {rules : List Rule} {wildcardable : List Symbol} {g : Grammar}
    (h : build rules wildcardable = .ok g) : g.leading.Sound g.nonterminals g.productions := by
  obtain ⟨-, -, -, leading, follow, table, -, -, hleading, -, -, rfl⟩ := build_eq_ok_iff.mp h
  exact sound_of_settle hleading

namespace Compiled

variable {rules : List Rule} {wildcardable : List Symbol} {g : Grammar}
  (hg : g.Compiled rules wildcardable)
include hg

theorem mem_nonterminals_of_vanishes {x : Symbol} (h : Vanishes g.productions x) :
    x ∈ g.nonterminals := h.mem_nonterminals fun _ => hg.head_mem

theorem mem_nonterminals_of_begins {t x : Symbol}
    (h : Begins g.nonterminals g.productions t x) : x ∈ g.nonterminals :=
  h.mem_nonterminals fun _ => hg.head_mem

theorem mem_nullable_iff (hsound : g.leading.Sound g.nonterminals g.productions) {x : Symbol} :
    x ∈ g.leading.nullable ↔ Vanishes g.productions x :=
  (hg.leading_closed.exact_ (fun _ => hg.head_mem) hsound).nullable x

theorem mem_first_iff (hsound : g.leading.Sound g.nonterminals g.productions) {t x : Symbol} :
    t ∈ g.leading.first.get x ↔ Begins g.nonterminals g.productions t x :=
  (hg.leading_closed.exact_ (fun _ => hg.head_mem) hsound).first x t

theorem mem_ofSequence (hsound : g.leading.Sound g.nonterminals g.productions)
    {pre post : List Symbol} {s t : Symbol} (hpre : ∀ u ∈ pre, Vanishes g.productions u)
    (hs : s ∉ g.nonterminals ∧ s = t ∨ s ∈ g.nonterminals ∧ t ∈ g.leading.first.get s) :
    t ∈ (g.leading.ofSequence g.nonterminals (pre ++ s :: post)).1 :=
  Leading.mem_ofSequence_of_split (fun u hu =>
    ⟨hg.mem_nonterminals_of_vanishes (hpre u hu), (hg.mem_nullable_iff hsound).mpr (hpre u hu)⟩) hs

end Compiled

end Grammar

end Overloading
