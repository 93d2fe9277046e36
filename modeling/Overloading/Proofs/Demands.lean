import Overloading.Proofs.Unification

/-!
# What a match asks of the bindings

A match walks through two trees and stops at the wildcards of the declared one.  Which wildcards it
comes to, and with which trees, does not depend on the bindings; they only decide whether each of
these trees may be had.

* `Demand`, `meetAll`   a wildcard that has to stand for a tree, and bindings that meet such demands
                        in order;
* `exists_demands`      a match is a list of demands, or fails whatever the bindings are;
* `meetAll_of_extends`  what larger bindings meet, smaller ones meet;
* `meetAll_join`        what has been met is met again if some of the later bindings are there from
                        the start, and the rest of them is found in the same way;
* `unify_join`          so a match that succeeds does so again.
-/

namespace Overloading

open Grammar

/-- a wildcard of a kind has to stand for a tree -/
structure Demand where
  kind : Symbol
  id : Nat
  tree : Tree

/-- lets the wildcard stand for the tree, if an earlier binding is the same -/
def Demand.meet (d : Demand) (b : Bindings) : Option Bindings :=
  match b.get? d.id with
  | some prev => if prev = d.tree.marks then some b else none
  | none => some (b.insert d.id d.tree.marks)

def meetAll : List Demand → Bindings → Option Bindings
  | [], b => some b
  | d :: ds, b => (d.meet b).bind (meetAll ds)

theorem meetAll_append (ds es : List Demand) (b : Bindings) :
    meetAll (ds ++ es) b = (meetAll ds b).bind (meetAll es) := by
  induction ds generalizing b with
  | nil => rfl
  | cons d ds ih =>
    rw [List.cons_append, meetAll, meetAll, Option.bind_assoc]
    exact congrArg _ (funext ih)

/-! ## The demands of a match -/

/-- a demand made where two trees are matched: for a wildcard of the declared tree, and a part of
the actual one that its kind derives -/
structure Demand.Between (actual formal : Tree) (d : Demand) : Prop where
  head : (d.kind, some d.id) ∈ formal.heads
  derives : signature.derives d.kind d.tree.unwrap.symbol = true
  formed : d.tree.Formed
  ordinary : Tree.Ordinary d.tree.symbol
  yield_mem : ∀ tok ∈ d.tree.yield, tok ∈ actual.yield

/-- what a match asks for: a list of demands, or something no bindings can give -/
structure Asks (actual formal : Tree) (o : Option (List Demand)) : Prop where
  between : ∀ ds, o = some ds → ∀ d ∈ ds, d.Between actual formal
  unify_eq : ∀ b, unify actual formal b = o.bind fun ds => meetAll ds b

theorem asks_none {actual formal : Tree} (h : ∀ b, unify actual formal b = none) :
    Asks actual formal none := ⟨by simp, h⟩

theorem exists_demands_bind {actual formal : Tree} (ha : actual.Formed)
    (hs : Tree.Ordinary actual.symbol) (s : Symbol) (id : Option Nat)
    (hhead : (s, id) ∈ formal.heads) (h : ∀ b, unify actual formal b = bind s id actual b) :
    ∃ o, Asks actual formal o := by
  by_cases hd : signature.derives s actual.unwrap.symbol = true
  · cases id with
    | none => exact ⟨none, asks_none fun b => by rw [h, bind.eq_def, if_pos hd]⟩
    | some n =>
      refine ⟨some [⟨s, n, actual⟩], ?_, fun b => ?_⟩
      · rintro _ ⟨⟩ d hd'
        cases List.mem_singleton.mp hd'
        exact ⟨hhead, hd, ha, hs, fun _ h => h⟩
      · rw [h, bind.eq_def, if_pos hd]
        show _ = (Demand.meet ⟨s, n, actual⟩ b).bind some
        rw [Option.bind_fun_some]
        rfl
  · exact ⟨none, asks_none fun b => by rw [h, bind.eq_def, if_neg hd]⟩

theorem exists_demands_all (s : Symbol) (i : Nat) {cs : List Tree} (fs : List Tree)
    (hcs : ∀ c ∈ cs, ∀ f, ∃ o, Asks c f o) :
    ∃ o : Option (List Demand),
      (∀ ds, o = some ds → ∀ d ∈ ds, d.Between (.branch s i cs) (.branch s i fs)) ∧
        ∀ b, unifyAll cs fs b = o.bind fun ds => meetAll ds b := by
  induction cs generalizing fs with
  | nil =>
    cases fs with
    | nil =>
      refine ⟨some [], ?_, fun b => by rw [unifyAll]; rfl⟩
      rintro _ ⟨⟩ d hd
      exact (List.not_mem_nil hd).elim
    | cons f fs => exact ⟨none, by simp, fun b => by simp [unifyAll]⟩
  | cons c cs ih =>
    cases fs with
    | nil => exact ⟨none, by simp, fun b => by simp [unifyAll]⟩
    | cons f fs =>
      obtain ⟨o, ho⟩ := hcs c List.mem_cons_self f
      obtain ⟨o', hbetween', heq'⟩ := ih fs fun d hd => hcs d (List.mem_cons_of_mem _ hd)
      refine ⟨o.bind fun ds => o'.map fun es => ds ++ es, fun all hall d hd => ?_, fun b => ?_⟩
      · obtain ⟨ds, hds, hmap⟩ := Option.bind_eq_some_iff.mp hall
        obtain ⟨es, hes, rfl⟩ := Option.map_eq_some_iff.mp hmap
        rcases List.mem_append.mp hd with hd | hd
        · obtain ⟨h1, h2, h3, h4, h5⟩ := ho.between ds hds d hd
          refine ⟨Tree.mem_heads_branch.mpr ⟨f, List.mem_cons_self, h1⟩, h2, h3, h4, ?_⟩
          exact fun tok htok => Tree.mem_yield_branch.mpr ⟨c, List.mem_cons_self, h5 tok htok⟩
        · obtain ⟨h1, h2, h3, h4, h5⟩ := hbetween' es hes d hd
          refine ⟨?_, h2, h3, h4, fun tok htok => ?_⟩
          · obtain ⟨f', hf', h1⟩ := Tree.mem_heads_branch.mp h1
            exact Tree.mem_heads_branch.mpr ⟨f', List.mem_cons_of_mem _ hf', h1⟩
          · obtain ⟨c', hc', h5⟩ := Tree.mem_yield_branch.mp (h5 tok htok)
            exact Tree.mem_yield_branch.mpr ⟨c', List.mem_cons_of_mem _ hc', h5⟩
      · rw [unifyAll, ho.unify_eq]
        cases o with
        | none => rfl
        | some ds =>
          cases hds : meetAll ds b with
          | none =>
            cases o' with
            | none => simp [hds]
            | some es => simp [hds, meetAll_append]
          | some b' =>
            cases o' with
            | none => simp [hds, heq']
            | some es => simp [hds, meetAll_append, heq']

theorem Demand.Between.looked_through {actual root formal : Tree} {d : Demand}
    (h : d.Between actual root) (hroot : root = formal ∨ root = formal.unwrap) :
    d.Between actual formal := by
  rcases hroot with rfl | rfl
  · exact h
  · exact ⟨Tree.heads_unwrap formal ▸ h.head, h.derives, h.formed, h.ordinary, h.yield_mem⟩

theorem unify_branch (s : Symbol) (i : Nat) (cs : List Tree) {formal : Tree} (b : Bindings)
    (hhead : formal.isHead = false) :
    unify (.branch s i cs) formal b =
      match (if formal.symbol = s then formal else formal.unwrap) with
      | .head fs _ t => bind fs t.wildcard (.branch s i cs) b
      | .leaf .. => none
      | .branch s' i' fs =>
        if s' = s then
          if i = i' then unifyAll cs fs b else none
        else match cs with
          | [c] => if c.isLeaf then none else unify c (.branch s' i' fs) b
          | _ => none := by
  cases formal with
  | head => cases hhead
  | leaf => exact unify.eq_def _ _ _
  | branch => exact unify.eq_def _ _ _

theorem exists_demands_head {actual : Tree} (ha : actual.Formed)
    (hs : Tree.Ordinary actual.symbol) (s : Symbol) (i : Nat) (tok : Token) :
    ∃ o, Asks actual (.head s i tok) o :=
  exists_demands_bind ha hs s tok.wildcard (by simp [Tree.heads]) fun b => unify_head _ _ _ _ b

/-- a branch asks for what its children do, if the declared tree is the same branch, perhaps inside
of wrappers -/
theorem exists_demands_branch {s : Symbol} {i : Nat} {cs : List Tree} {formal : Tree}
    (ha : (Tree.branch s i cs).Formed) (hs : Tree.Ordinary s) (hhead : formal.isHead = false)
    (hchild : ∀ c ∈ cs, ∀ f, ∃ o, Asks c f o) : ∃ o, Asks (.branch s i cs) formal o := by
  have hunify := fun b => unify_branch s i cs b hhead
  generalize hr : (if formal.symbol = s then formal else formal.unwrap) = root at hunify
  have hroot : root = formal ∨ root = formal.unwrap := by
    rw [← hr]
    split
    · exact .inl rfl
    · exact .inr rfl
  have hheads : root.heads = formal.heads := by
    rcases hroot with rfl | rfl
    · rfl
    · exact Tree.heads_unwrap formal
  cases root with
  | head fs _ tok =>
    exact exists_demands_bind ha hs fs tok.wildcard
      (by rw [← hheads]; simp [Tree.heads]) hunify
  | leaf => exact ⟨none, asks_none hunify⟩
  | branch s' i' fs =>
    by_cases hsym : s' = s
    · subst hsym
      by_cases hi : i = i'
      · subst hi
        obtain ⟨o, hbetween, heq⟩ := exists_demands_all s' i fs hchild
        refine ⟨o, fun ds hds d hd => (hbetween ds hds d hd).looked_through hroot, fun b => ?_⟩
        rw [hunify]
        simp only [if_true]
        exact heq b
      · refine ⟨none, asks_none fun b => ?_⟩
        rw [hunify]
        simp only [if_true, if_neg hi]
    · rcases cs with _ | ⟨c, _ | _⟩
      case cons.nil =>
        cases hleaf : c.isLeaf with
        | true =>
          refine ⟨none, asks_none fun b => ?_⟩
          rw [hunify]
          simp only [if_neg hsym, hleaf, if_true]
        | false =>
          obtain ⟨o, ho⟩ := hchild c List.mem_cons_self (.branch s' i' fs)
          refine ⟨o, fun ds hds d hd => ?_, fun b => ?_⟩
          · obtain ⟨h1, h2, h3, h4, h5⟩ := (ho.between ds hds d hd).looked_through hroot
            exact ⟨h1, h2, h3, h4, fun tok htok =>
              Tree.mem_yield_branch.mpr ⟨c, List.mem_cons_self, h5 tok htok⟩⟩
          · rw [hunify]
            simp only [if_neg hsym, hleaf, Bool.false_eq_true, if_false]
            exact ho.unify_eq b
      all_goals
        refine ⟨none, asks_none fun b => ?_⟩
        rw [hunify]
        simp only [if_neg hsym]

/-- **What a match asks for** does not depend on the bindings. -/
theorem exists_demands {actual : Tree} (ha : actual.Formed) (hs : Tree.Ordinary actual.symbol)
    (formal : Tree) : ∃ o, Asks actual formal o := by
  induction actual using Tree.induct generalizing formal with
  | leaf s tok =>
    cases formal with
    | head s' i tok' => exact exists_demands_head ha hs s' i tok'
    | branch s' i cs =>
      exact ⟨none, asks_none fun b => by rw [unify] <;> simp⟩
    | leaf s' tok' =>
      by_cases h : s = s' ∧ tok.text = tok'.text
      · refine ⟨some [], ?_, fun b => by rw [unify, if_pos h]; rfl⟩
        rintro _ ⟨⟩ d hd
        exact (List.not_mem_nil hd).elim
      · exact ⟨none, asks_none fun b => by rw [unify, if_neg h]⟩
  | head s i tok =>
    cases formal with
    | head s' i' tok' => exact exists_demands_head ha hs s' i' tok'
    | branch | leaf => exact ⟨none, asks_none fun b => by rw [unify]; simp⟩
  | branch s i cs ih =>
    have hchild : ∀ c ∈ cs, ∀ f, ∃ o, Asks c f o := fun c hc f =>
      ih c hc (Tree.formed_child ha hc).1 (Tree.formed_child ha hc).2 f
    cases formal with
    | head s' i' tok' => exact exists_demands_head ha hs s' i' tok'
    | branch | leaf => exact exists_demands_branch ha hs rfl hchild

/-! ## Starting from other bindings -/

theorem meet_spec {d : Demand} {b b' : Bindings} (h : d.meet b = some b') :
    b.Extends b' ∧ b'.get? d.id = some d.tree.marks := by
  unfold Demand.meet at h
  split at h
  · next prev hprev =>
    split at h
    · next e =>
      cases h
      exact ⟨Bindings.Extends.refl _, by rw [hprev, e]⟩
    · cases h
  · next hnone =>
    cases h
    exact ⟨Bindings.extends_insert _, Bindings.get?_insert_self hnone _⟩

theorem meetAll_spec {ds : List Demand} {b b' : Bindings} (h : meetAll ds b = some b') :
    b.Extends b' ∧ ∀ d ∈ ds, b'.get? d.id = some d.tree.marks := by
  induction ds generalizing b with
  | nil =>
    cases h
    exact ⟨Bindings.Extends.refl _, List.forall_mem_nil _⟩
  | cons d ds ih =>
    obtain ⟨b₁, hb₁, hrest⟩ := Option.bind_eq_some_iff.mp h
    obtain ⟨hext, hmet⟩ := meet_spec hb₁
    obtain ⟨hext', hall⟩ := ih hrest
    exact ⟨hext.trans hext', List.forall_mem_cons.mpr ⟨hext' _ _ hmet, hall⟩⟩

theorem meet_of_within {d : Demand} {b : Bindings} {V : Nat → Option Binding} (hb : b.Within V)
    (hd : V d.id = some d.tree.marks) :
    ∃ b', d.meet b = some b' ∧ ∀ id, b'.get? id = if id = d.id then V id else b.get? id := by
  unfold Demand.meet
  cases hget : b.get? d.id with
  | some prev =>
    have hprev : prev = d.tree.marks := Option.some.inj ((hb _ _ hget).symm.trans hd)
    refine ⟨b, if_pos hprev, fun id => ?_⟩
    split
    · next h => rw [h, hget, hd, hprev]
    · rfl
  | none =>
    refine ⟨_, rfl, fun id => ?_⟩
    rw [Bindings.get?_insert]
    split
    · next h => rw [h, hget, hd]; rfl
    · rw [Option.or_none]

/-- demands that agree with given values are met by bindings among these -/
theorem meetAll_of_within {ds : List Demand} {b : Bindings} {V : Nat → Option Binding}
    (hb : b.Within V) (hds : ∀ d ∈ ds, V d.id = some d.tree.marks) :
    ∃ b', meetAll ds b = some b' ∧
      ∀ id, b'.get? id = if id ∈ ds.map Demand.id then V id else b.get? id := by
  induction ds generalizing b with
  | nil => exact ⟨b, rfl, fun id => (if_neg List.not_mem_nil).symm⟩
  | cons d ds ih =>
    rw [List.forall_mem_cons] at hds
    obtain ⟨b₁, hb₁, hget₁⟩ := meet_of_within hb hds.1
    have hwithin : b₁.Within V := by
      intro id v hv
      rw [hget₁] at hv
      split at hv
      · exact hv
      · exact hb id v hv
    obtain ⟨b', hb', hget⟩ := ih hwithin hds.2
    refine ⟨b', by rw [meetAll, hb₁]; exact hb', fun id => ?_⟩
    rw [hget, hget₁]
    simp only [List.map_cons, List.mem_cons]
    split_ifs <;> tauto

theorem meetAll_of_extends {ds : List Demand} {b c c' : Bindings} (hbc : b.Extends c)
    (h : meetAll ds c = some c') : ∃ b', meetAll ds b = some b' := by
  obtain ⟨hext, hmet⟩ := meetAll_spec h
  obtain ⟨b', hb', -⟩ := meetAll_of_within (V := c'.get?) (hbc.trans hext) hmet
  exact ⟨b', hb'⟩

/-- bindings, and others where these have none -/
def Bindings.Joins (e b c : Bindings) : Prop := ∀ id, c.get? id = (b.get? id).or (e.get? id)

theorem Bindings.Joins.extends_ {e b c : Bindings} (h : Joins e b c) : b.Extends c := by
  intro id v hv
  rw [h, hv, Option.some_or]

theorem Bindings.Joins.within {e b c : Bindings} {V : Nat → Option Binding} (h : Joins e b c)
    (hb : b.Within V) (he : e.Within V) : c.Within V := by
  intro id v hv
  rw [h, Option.or_eq_some_iff] at hv
  rcases hv with hv | ⟨_, hv⟩
  · exact hb id v hv
  · exact he id v hv

theorem meetAll_join {ds : List Demand} {e b b' c : Bindings} {V : Nat → Option Binding}
    (h : meetAll ds b = some b') (hb' : b'.Within V) (he : e.Within V)
    (hc : Bindings.Joins e b c) : ∃ c', meetAll ds c = some c' ∧ Bindings.Joins e b' c' := by
  obtain ⟨hext, hmet⟩ := meetAll_spec h
  have hb : b.Within V := fun id v hv => hb' id v (hext id v hv)
  have hds : ∀ d ∈ ds, V d.id = some d.tree.marks := fun d hd => hb' _ _ (hmet d hd)
  obtain ⟨_, hmeet, hget⟩ := meetAll_of_within hb hds
  obtain ⟨c', hc', hget'⟩ := meetAll_of_within (hc.within hb he) hds
  cases h.symm.trans hmeet
  refine ⟨c', hc', fun id => ?_⟩
  rw [hget', hget]
  split
  · next hid =>
    obtain ⟨d, hd, rfl⟩ := List.mem_map.mp hid
    rw [hds d hd, Option.some_or]
  · exact hc id

section Unify

variable {actual formal : Tree} {b b' c : Bindings}

theorem unify_none_of_extends (ha : actual.Formed) (hs : Tree.Ordinary actual.symbol)
    (hbc : b.Extends c) (h : unify actual formal b = none) : unify actual formal c = none := by
  obtain ⟨o, ho⟩ := exists_demands ha hs formal
  rw [ho.unify_eq] at h ⊢
  rw [Option.bind_eq_none_iff] at h ⊢
  intro ds hds
  cases hc : meetAll ds c with
  | none => rfl
  | some c' =>
    obtain ⟨b', hb'⟩ := meetAll_of_extends hbc hc
    rw [h ds hds] at hb'
    cases hb'

/-- **A match that succeeds** does so again when some of what it comes to is bound before. -/
theorem unify_join {e : Bindings} {V : Nat → Option Binding} (ha : actual.Formed)
    (hs : Tree.Ordinary actual.symbol) (h : unify actual formal b = some b') (hb' : b'.Within V)
    (he : e.Within V) (hc : Bindings.Joins e b c) :
    ∃ c', unify actual formal c = some c' ∧ Bindings.Joins e b' c' := by
  obtain ⟨o, ho⟩ := exists_demands ha hs formal
  rw [ho.unify_eq] at h ⊢
  obtain ⟨ds, rfl, hmeet⟩ := Option.bind_eq_some_iff.mp h
  exact meetAll_join hmeet hb' he hc

end Unify

end Overloading
