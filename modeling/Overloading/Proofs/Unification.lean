import Overloading.Match.Admit
import Overloading.Proofs.TypeTrees

/-!
# Unification solves for the wildcards

Matching a tree against a declared one finds what the wildcards of the declared tree have to stand
for, and nothing else.

* `exists_formed_of_derives`, `derives_unwrap`   a kind derives a tree through wrappers exactly if
  there is a tree of that kind over the same tokens: what `bind` tests is what it should;
* `unify_solves`   a match is a solution: with its bindings the declared tree reads as the actual
  one, every wildcard is bound to a sentence of its kind, and no others are bound;
* `unify_graft`    and a solution is found: the declared tree matches each of its own grafts.

Because the grammar derives a sequence of tokens in one way only, a solution is a graft, so
matching is sound and complete (`admits_structural`).
-/

namespace Overloading

open Grammar

/-! ## Kinds -/

namespace Grammar

theorem mem_units_signature {x z : Symbol} :
    z ∈ signature.units x ↔
      z ∈ signatureRules.map Rule.head ∧ ∃ i : Nat, (alternatives x)[i]? = some [z] := by
  unfold units
  rw [List.mem_filterMap, compiled_signature.productions_eq]
  constructor
  · rintro ⟨p, hp, hz⟩
    split at hz
    · next y hy =>
      split at hz
      · next hcond =>
        cases hz
        obtain ⟨hhead, hnt⟩ := Bool.and_eq_true_iff.mp hcond
        have hz := compiled_signature.isNonterminal_iff.mp hnt
        obtain ⟨r, hr, ⟨body, halt, hpeq⟩ | ⟨_, hpeq⟩⟩ := mem_productionsOf.mp hp
        · have e1 : r.head = x := by rw [hpeq] at hhead; simpa using hhead
          have e2 : body = [z] := by rw [hpeq] at hy; exact hy
          refine ⟨hz, p.alt, ?_⟩
          rw [← e1, alternatives_head hr, halt, e2]
        · -- the body of a wildcard production is a terminal
          exfalso
          have e : Symbol.headOf r.head = z := by rw [hpeq] at hy; exact List.head_eq_of_cons_eq hy
          exact headOf_not_mem_heads r hr (e ▸ hz)
      · cases hz
    · cases hz
  · rintro ⟨hz, i, halt⟩
    obtain ⟨r, hr, rfl, hbody⟩ := exists_rule halt
    refine ⟨⟨r.head, [z], i, false⟩, mem_productionsOf.mpr ⟨r, hr, .inl ⟨_, hbody, rfl⟩⟩, ?_⟩
    show (if (r.head == r.head && signature.isNonterminal z) = true then some z else none) = some z
    have hnt := compiled_signature.isNonterminal_iff.mpr hz
    rw [if_pos (by rw [beq_self_eq_true, Bool.true_and]; exact hnt)]

/-- a tree of what a nonterminal derives through wrappers can be wrapped again -/
theorem exists_formed_of_derivesWithin {n : Nat} {x y : Symbol}
    (h : signature.derivesWithin n x y = true) {u : Tree} (hu : u.Formed) (hsym : u.symbol = y) :
    ∃ v : Tree, v.Formed ∧ v.symbol = x ∧ v.yield = u.yield := by
  induction n generalizing x with
  | zero =>
    rw [derivesWithin, beq_iff_eq] at h
    exact ⟨u, hu, hsym.trans h.symm, rfl⟩
  | succ n ih =>
    rw [derivesWithin, Bool.or_eq_true, beq_iff_eq] at h
    rcases h with h | h
    · exact ⟨u, hu, hsym.trans h.symm, rfl⟩
    obtain ⟨z, hz, hzy⟩ := List.any_eq_true.mp h
    obtain ⟨_, i, halt⟩ := mem_units_signature.mp hz
    obtain ⟨v, hv, hvsym, hyield⟩ := ih hzy
    refine ⟨.branch x i [v], formed_branch.mpr ⟨?_, ?_⟩, rfl, ?_⟩
    · rw [halt, List.map_cons, hvsym, List.map_nil]
    · intro c hc
      rw [List.mem_singleton.mp hc]
      exact hv
    · rw [Tree.yield, Tree.yieldAll_cons, Tree.yieldAll_nil, List.append_nil, hyield]

theorem exists_formed_of_derives {x : Symbol} {t : Tree} (ht : t.Formed)
    (h : signature.derives x t.unwrap.symbol = true) :
    ∃ v : Tree, v.Formed ∧ v.symbol = x ∧ v.yield = t.yield := by
  obtain ⟨_, hwithin⟩ := Bool.and_eq_true_iff.mp h
  obtain ⟨v, hv, hsym, hyield⟩ := exists_formed_of_derivesWithin hwithin (Tree.formed_unwrap ht) rfl
  exact ⟨v, hv, hsym, hyield.trans (Tree.yield_unwrap t)⟩

/-- how many wrappers may stand above one another from a nonterminal on -/
def wrapperRank (s : Symbol) : Nat :=
  if s = Symbol.return_ then 3
  else if s = Symbol.type ∨ s = Symbol.paramObject then 2
  else if s = Symbol.object then 1
  else 0

theorem wrapperRank_lt : ∀ r ∈ signatureRules, ∀ body ∈ r.alts, ∀ z ∈ body,
    body.length = 1 → z ∈ signatureRules.map Rule.head → wrapperRank z < wrapperRank r.head := by
  decide

theorem derivesWithin_unwrap {t : Tree} (ht : t.Formed) {n : Nat} (hn : wrapperRank t.symbol ≤ n) :
    signature.derivesWithin n t.symbol t.unwrap.symbol = true := by
  have hself : ∀ (n : Nat) (x : Symbol), signature.derivesWithin n x x = true := by
    intro n x
    cases n <;> simp [derivesWithin]
  refine Tree.unwrap_rec (P := fun t u => t.Formed → ∀ n, wrapperRank t.symbol ≤ n →
    signature.derivesWithin n t.symbol u.symbol = true) (fun t _ n _ => hself n _) ?_ t ht n hn
  intro s i c u hleaf ih hbranch n hn
  obtain ⟨halt, hcs⟩ := formed_branch.mp hbranch
  have hc := hcs c List.mem_cons_self
  have hmem := formed_symbol_mem hc hleaf
  have hlt : wrapperRank c.symbol < wrapperRank s := by
    obtain ⟨r, hr, rfl, hbody⟩ := exists_rule halt
    exact wrapperRank_lt r hr _ (List.mem_of_getElem? hbody) _ List.mem_cons_self rfl hmem
  obtain ⟨n, rfl⟩ : ∃ m, n = m + 1 := ⟨n - 1, by simp only [Tree.symbol] at hn; omega⟩
  rw [derivesWithin, Bool.or_eq_true]
  refine .inr (List.any_eq_true.mpr ⟨c.symbol, mem_units_signature.mpr ⟨hmem, i, halt⟩, ?_⟩)
  refine ih hc n ?_
  simp only [Tree.symbol] at hn
  omega

theorem derives_unwrap {t : Tree} (ht : t.Formed) (hmem : t.symbol ∈ signatureRules.map Rule.head) :
    signature.derives t.symbol t.unwrap.symbol = true := by
  have hrank : wrapperRank t.symbol ≤ signature.nonterminals.length := by
    have hlen : signature.nonterminals.length = 13 := by
      rw [compiled_signature.nonterminals_eq]; rfl
    rw [hlen]
    unfold wrapperRank
    split
    · omega
    split
    · omega
    split <;> omega
  exact Bool.and_eq_true_iff.mpr
    ⟨compiled_signature.isNonterminal_iff.mpr hmem, derivesWithin_unwrap ht hrank⟩

end Grammar

/-! ## Bindings -/

namespace Bindings

/-- the later bindings have all the earlier ones -/
def Extends (b b' : Bindings) : Prop := ∀ id v, b.get? id = some v → b'.get? id = some v

theorem Extends.refl (b : Bindings) : b.Extends b := fun _ _ h => h

theorem Extends.trans {b₁ b₂ b₃ : Bindings} (h : b₁.Extends b₂) (h' : b₂.Extends b₃) :
    b₁.Extends b₃ := fun id v hv => h' id v (h id v hv)

theorem get?_insert (b : Bindings) (id : Nat) (v : Binding) (j : Nat) :
    (b.insert id v).get? j = (b.get? j).or (if j = id then some v else none) := by
  unfold get? insert
  rw [List.lookup_append]
  by_cases h : j = id
  · rw [if_pos h, h]; simp
  · have hbeq : (j == id) = false := by simpa using h
    rw [if_neg h, List.lookup_cons, hbeq]
    rfl

theorem extends_insert {b : Bindings} {id : Nat} (v : Binding) (j : Nat) (w : Binding)
    (h : b.get? j = some w) : (b.insert id v).get? j = some w := by
  rw [get?_insert, h]
  rfl

theorem get?_insert_self {b : Bindings} {id : Nat} (h : b.get? id = none) (v : Binding) :
    (b.insert id v).get? id = some v := by
  rw [get?_insert, h, if_pos rfl]
  rfl

theorem texts?_of_get? {b : Bindings} {id : Nat} {v : Binding} (h : b.get? id = some v) :
    b.texts? id = some v.texts := by
  unfold texts?
  rw [h]
  rfl

theorem lookup_toTexts (b : Bindings) (id : Nat) : b.toTexts.lookup id = b.texts? id := by
  unfold toTexts texts? get?
  induction b with
  | nil => rfl
  | cons e b ih =>
    rw [List.map_cons, List.lookup_cons, List.lookup_cons]
    cases id == e.1 with
    | true => rfl
    | false => exact ih

end Bindings

theorem Tree.substitute_mono {b b' : Bindings} (hb : b.Extends b') {t : Tree} {ts : List String}
    (h : t.substitute b.texts? = some ts) : t.substitute b'.texts? = some ts := by
  induction t using Tree.induct generalizing ts with
  | leaf s tok => rw [substitute] at h ⊢; exact h
  | head s i tok =>
    rw [substitute] at h ⊢
    obtain ⟨id, hid, hts⟩ := Option.bind_eq_some_iff.mp h
    obtain ⟨v, hv, rfl⟩ := Option.map_eq_some_iff.mp hts
    rw [hid]
    exact Bindings.texts?_of_get? (hb id v hv)
  | branch s i cs ih =>
    rw [substitute] at h ⊢
    induction cs generalizing ts with
    | nil => rw [substituteAll_nil] at h ⊢; exact h
    | cons c cs ihcs =>
      rw [substituteAll_cons] at h ⊢
      obtain ⟨us, hus, hrest⟩ := Option.bind_eq_some_iff.mp h
      obtain ⟨ws, hws, rfl⟩ := Option.map_eq_some_iff.mp hrest
      rw [ih c List.mem_cons_self hus, ihcs (fun d hd => ih d (List.mem_cons_of_mem _ hd)) hws]
      rfl

/-! ## What a match has found -/

/-- what a wildcard may stand for: the reading of a tree of its kind -/
def Sentence (kind : Symbol) (ts : List String) : Prop :=
  ∃ u : Tree, u.Formed ∧ u.symbol = kind ∧ u.yield = Binding.ofTexts ts

/-- the bindings after a match solve for the wildcards of the declared tree -/
structure Solves (actual formal : Tree) (b b' : Bindings) : Prop where
  extends_ : b.Extends b'
  reads : formal.substitute b'.texts? = some actual.tokens
  bound : ∀ x ∈ formal.heads, ∃ id ts, x.2 = some id ∧
    b'.get? id = some (Binding.ofTexts ts) ∧ Sentence x.1 ts
  only : ∀ id v, b'.get? id = some v → b.get? id = some v ∨ ∃ kind, (kind, some id) ∈ formal.heads

theorem bind_cases {s : Symbol} {id : Option Nat} {actual : Tree} {b b' : Bindings}
    (h : bind s id actual b = some b') :
    signature.derives s actual.unwrap.symbol = true ∧ ∃ n, id = some n ∧
      ((b.get? n = some actual.marks ∧ b' = b) ∨
        (b.get? n = none ∧ b' = b.insert n actual.marks)) := by
  unfold bind at h
  split at h
  · next hd =>
    refine ⟨hd, ?_⟩
    split at h
    · cases h
    next n =>
    refine ⟨n, rfl, ?_⟩
    split at h
    · next prev hprev =>
      split at h
      · next e => cases h; exact .inl ⟨by rw [hprev, e], rfl⟩
      · cases h
    · next hnone => cases h; exact .inr ⟨hnone, rfl⟩
  · cases h

theorem solves_bind {s : Symbol} {i : Nat} {tok : Token} {actual : Tree} {b b' : Bindings}
    (ha : actual.Formed) (hplain : actual.Plain) (h : bind s tok.wildcard actual b = some b') :
    Solves actual (.head s i tok) b b' := by
  obtain ⟨hd, n, hn, hb⟩ := bind_cases h
  obtain ⟨u, hu, hsym, hyield⟩ := exists_formed_of_derives ha hd
  have hsent : Sentence s actual.tokens := ⟨u, hu, hsym, by rw [hyield, hplain.yield_eq]⟩
  have hmarks : actual.marks = Binding.ofTexts actual.tokens := by
    rw [hplain.marks_eq, hplain.yield_eq]
  have hheads : ∀ x, x ∈ (Tree.head s i tok).heads ↔ x = (s, some n) := by
    intro x
    rw [Tree.heads, hn, List.mem_singleton]
  have hget : b'.get? n = some actual.marks := by
    rcases hb with ⟨hget, rfl⟩ | ⟨hnone, rfl⟩
    · exact hget
    · exact Bindings.get?_insert_self hnone _
  refine ⟨?_, ?_, ?_, ?_⟩
  · rcases hb with ⟨_, rfl⟩ | ⟨_, rfl⟩
    · exact Bindings.Extends.refl _
    · exact Bindings.extends_insert _
  · rw [Tree.substitute, hn]
    show b'.texts? n = _
    rw [Bindings.texts?_of_get? hget, Tree.texts_marks]
  · intro x hx
    rw [(hheads x).mp hx]
    exact ⟨n, actual.tokens, rfl, hmarks ▸ hget, hsent⟩
  · intro id v hv
    rcases hb with ⟨_, rfl⟩ | ⟨_, rfl⟩
    · exact .inl hv
    · rw [Bindings.get?_insert] at hv
      by_cases hid : id = n
      · exact .inr ⟨s, (hheads _).mpr (by rw [hid])⟩
      · rw [if_neg hid, Option.or_none] at hv
        exact .inl hv

theorem Solves.looked_through {actual root formal : Tree} {b b' : Bindings}
    (h : Solves actual root b b') (hroot : formal = root ∨ formal.unwrap = root) :
    Solves actual formal b b' := by
  rcases hroot with rfl | rfl
  · exact h
  obtain ⟨h1, h2, h3, h4⟩ := h
  rw [Tree.heads_unwrap] at h3 h4
  rw [Tree.substitute_unwrap] at h2
  exact ⟨h1, h2, h3, h4⟩

theorem Solves.wrap_actual {c formal : Tree} {b b' : Bindings} (s : Symbol) (i : Nat)
    (h : Solves c formal b b') : Solves (.branch s i [c]) formal b b' := by
  refine ⟨h.extends_, ?_, h.bound, h.only⟩
  rw [Tree.tokens, Tree.tokensAll_cons, Tree.tokensAll_nil, List.append_nil]
  exact h.reads

theorem Solves.cons {c f : Tree} {cs fs : List Tree} {b b₁ b' : Bindings} (s : Symbol) (i : Nat)
    (h : Solves c f b b₁) (hs : Solves (.branch s i cs) (.branch s i fs) b₁ b') :
    Solves (.branch s i (c :: cs)) (.branch s i (f :: fs)) b b' := by
  refine ⟨h.extends_.trans hs.extends_, ?_, ?_, ?_⟩
  · have h1 := Tree.substitute_mono hs.extends_ h.reads
    have h2 := hs.reads
    rw [Tree.substitute, Tree.tokens] at h2
    rw [Tree.substitute, Tree.tokens, Tree.substituteAll_cons, h1, h2, Tree.tokensAll_cons]
    rfl
  · intro x hx
    rw [Tree.heads, Tree.headsAll_cons] at hx
    rcases List.mem_append.mp hx with hx | hx
    · obtain ⟨id, ts, hid, hts, hsent⟩ := h.bound x hx
      exact ⟨id, ts, hid, hs.extends_ id _ hts, hsent⟩
    · exact hs.bound x (by rw [Tree.heads]; exact hx)
  · intro id v hv
    rw [Tree.heads, Tree.headsAll_cons]
    rcases hs.only id v hv with hv | ⟨kind, hk⟩
    · rcases h.only id v hv with hv | ⟨kind, hk⟩
      · exact .inl hv
      · exact .inr ⟨kind, List.mem_append_left _ hk⟩
    · rw [Tree.heads] at hk
      exact .inr ⟨kind, List.mem_append_right _ hk⟩

/-! ## Matching -/

theorem unify_head (actual : Tree) (s : Symbol) (i : Nat) (tok : Token) (b : Bindings) :
    unify actual (.head s i tok) b = bind s tok.wildcard actual b := by
  cases actual <;> rw [unify]

/-- what a match has done at the root -/
theorem unify_cases {actual formal : Tree} {b b' : Bindings}
    (h : unify actual formal b = some b') :
    (∃ s i tok, (formal = .head s i tok ∨ formal.unwrap = .head s i tok) ∧
      bind s tok.wildcard actual b = some b') ∨
    (∃ s tok tok', actual = .leaf s tok ∧ formal = .leaf s tok' ∧ tok.text = tok'.text ∧ b' = b) ∨
    (∃ s i cs fs, actual = .branch s i cs ∧
      (formal = .branch s i fs ∨ formal.unwrap = .branch s i fs) ∧
      unifyAll cs fs b = some b') ∨
    (∃ s i c, actual = .branch s i [c] ∧ unify c formal.unwrap b = some b') := by
  by_cases hhead : ∃ s i tok, formal = .head s i tok
  · obtain ⟨s, i, tok, rfl⟩ := hhead
    rw [unify_head] at h
    exact .inl ⟨s, i, tok, .inl rfl, h⟩
  have hnot : ∀ s i tok, formal = .head s i tok → False := fun s i tok e => hhead ⟨s, i, tok, e⟩
  cases actual with
  | head s i tok => rw [unify] at h; cases h; exact hnot
  | leaf s tok =>
    cases formal with
    | head s' i tok' => exact (hnot _ _ _ rfl).elim
    | branch s' i cs => rw [unify] at h; cases h; all_goals exact nofun
    | leaf s' tok' =>
      rw [unify] at h
      split at h
      · next e =>
        cases h
        exact .inr (.inl ⟨s, tok, tok', rfl, by rw [e.1], e.2, rfl⟩)
      · cases h
  | branch s i cs =>
    rw [unify] at h
    rotate_left
    · exact hnot
    generalize hr : (if formal.symbol = s then formal else formal.unwrap) = root at h
    have hroot : (root = formal ∧ formal.symbol = s) ∨ root = formal.unwrap := by
      rw [← hr]
      by_cases e : formal.symbol = s
      · exact .inl ⟨if_pos e, e⟩
      · exact .inr (if_neg e)
    split at h
    · next fs i' tok =>
      refine .inl ⟨fs, i', tok, ?_, h⟩
      rcases hroot with ⟨e, _⟩ | e
      · exact .inl e.symm
      · exact .inr e.symm
    · cases h
    next s' i' fs =>
    split at h
    · next hs =>
      subst hs
      split at h
      · next hi =>
        subst hi
        refine .inr (.inr (.inl ⟨s', i, cs, fs, rfl, ?_, h⟩))
        rcases hroot with ⟨e, _⟩ | e
        · exact .inl e.symm
        · exact .inr e.symm
      · cases h
    · next hs =>
      split at h
      · next c =>
        split at h
        · cases h
        · refine .inr (.inr (.inr ⟨s, i, c, rfl, ?_⟩))
          -- a declared tree rooted like the actual one is not looked through
          rcases hroot with ⟨e, hsym⟩ | e
          · rw [← e] at hsym
            exact absurd hsym hs
          · rw [← e]
            exact h
      · cases h

theorem unifyAll_cons_cases {c : Tree} {cs fs : List Tree} {b b' : Bindings}
    (h : unifyAll (c :: cs) fs b = some b') :
    ∃ f fs' b₁, fs = f :: fs' ∧ unify c f b = some b₁ ∧ unifyAll cs fs' b₁ = some b' := by
  cases fs with
  | nil => rw [unifyAll] at h; cases h; all_goals exact nofun
  | cons f fs =>
    rw [unifyAll] at h
    split at h
    · next b₁ h₁ => exact ⟨f, fs, b₁, rfl, h₁, h⟩
    · cases h

theorem solves_unifyAll {s : Symbol} {i : Nat} {cs fs : List Tree} {b b' : Bindings}
    (hcs : ∀ c ∈ cs, ∀ f b b', unify c f b = some b' → Solves c f b b')
    (h : unifyAll cs fs b = some b') : Solves (.branch s i cs) (.branch s i fs) b b' := by
  induction cs generalizing fs b with
  | nil =>
    cases fs with
    | nil =>
      rw [unifyAll] at h
      cases h
      refine ⟨Bindings.Extends.refl _, ?_, fun x hx => ?_, fun id v hv => .inl hv⟩
      · rw [Tree.substitute, Tree.substituteAll_nil, Tree.tokens, Tree.tokensAll_nil]
      · rw [Tree.heads, Tree.headsAll_nil] at hx
        exact (List.not_mem_nil hx).elim
    | cons f fs => simp [unifyAll] at h
  | cons c cs ih =>
    obtain ⟨f, fs', b₁, rfl, h₁, h₂⟩ := unifyAll_cons_cases h
    have hc := hcs c List.mem_cons_self f b b₁ h₁
    exact hc.cons s i (ih (fun d hd => hcs d (List.mem_cons_of_mem _ hd)) h₂)

theorem unify_solves_of_children {actual formal : Tree} {b b' : Bindings} (ha : actual.Formed)
    (hplain : actual.Plain)
    (hcs : ∀ c ∈ actual.children, ∀ f b b', unify c f b = some b' → Solves c f b b')
    (h : unify actual formal b = some b') : Solves actual formal b b' := by
  obtain ⟨s, i, tok, hf, hbind⟩ | ⟨s, tok, tok', rfl, rfl, htext, rfl⟩ |
    ⟨s, i, cs, fs, rfl, hf, hall⟩ | ⟨s, i, c, rfl, hone⟩ := unify_cases h
  · exact (solves_bind ha hplain hbind).looked_through hf
  · refine ⟨Bindings.Extends.refl _, ?_, fun x hx => ?_, fun id v hv => .inl hv⟩
    · rw [Tree.substitute, Tree.tokens, htext]
    · rw [Tree.heads] at hx
      exact (List.not_mem_nil hx).elim
  · exact (solves_unifyAll hcs hall).looked_through hf
  · have hsolve := hcs c List.mem_cons_self _ _ _ hone
    exact (hsolve.looked_through (.inr rfl)).wrap_actual s i

/-- **A match is a solution**: the declared tree reads as the actual one, and just its wildcards
are bound, each to a sentence of its kind. -/
theorem unify_solves {actual formal : Tree} {b b' : Bindings} (ha : actual.Formed)
    (hplain : actual.Plain) (h : unify actual formal b = some b') : Solves actual formal b b' := by
  induction actual using Tree.induct generalizing formal b b' with
  | leaf s tok => exact unify_solves_of_children ha hplain nofun h
  | head s i tok => exact unify_solves_of_children ha hplain nofun h
  | branch s i cs ih =>
    refine unify_solves_of_children ha hplain (fun c hc f b b' h => ?_) h
    exact ih c hc ((formed_branch.mp ha).2 c hc) (hplain.child hc) h

/-! ## A solution is found -/

theorem unify_branch_self (s : Symbol) (i : Nat) (cs fs : List Tree) (b : Bindings) :
    unify (.branch s i cs) (.branch s i fs) b = unifyAll cs fs b := by
  rw [unify]
  · have e : (if (Tree.branch s i fs).symbol = s then Tree.branch s i fs
        else (Tree.branch s i fs).unwrap) = Tree.branch s i fs := if_pos rfl
    rw [e]
    simp only [if_true]
  · exact nofun

theorem bind_of_agrees {s : Symbol} {actual : Tree} {b : Bindings} (id : Nat)
    (hd : signature.derives s actual.unwrap.symbol = true)
    (hb : ∀ v, b.get? id = some v → v = actual.marks) :
    ∃ b', bind s (some id) actual b = some b' ∧
      ∀ j v, b'.get? j = some v → b.get? j = some v ∨ (j = id ∧ v = actual.marks) := by
  unfold bind
  rw [if_pos hd]
  cases hget : b.get? id with
  | some prev =>
    refine ⟨b, ?_, fun j v hv => .inl hv⟩
    simp only [hget, hb prev hget, if_true]
  | none =>
    refine ⟨b.insert id actual.marks, by simp only [hget], fun j v hv => ?_⟩
    rw [Bindings.get?_insert] at hv
    by_cases hj : j = id
    · rw [hj, hget, if_pos rfl] at hv
      cases hv
      exact .inr ⟨hj, rfl⟩
    · rw [if_neg hj, Option.or_none] at hv
      exact .inl hv

/-- the bindings are among given values -/
def Bindings.Within (b : Bindings) (V : Nat → Option Binding) : Prop :=
  ∀ id v, b.get? id = some v → V id = some v

/-- **A solution is found**: a declared tree matches each of its grafts, if the trees put in for
one wildcard read the same. -/
theorem unify_graft {σ : Symbol → Option Nat → Tree} {V : Nat → Option Binding} {formal : Tree}
    (hf : formal.Formed)
    (hσ : ∀ x ∈ formal.heads, (σ x.1 x.2).Formed ∧ (σ x.1 x.2).symbol = x.1 ∧
      ∃ id, x.2 = some id ∧ V id = some (σ x.1 x.2).marks)
    {b : Bindings} (hb : b.Within V) :
    ∃ b', unify (formal.graft σ) formal b = some b' ∧ b'.Within V := by
  induction formal using Tree.induct generalizing b with
  | leaf s tok =>
    refine ⟨b, ?_, hb⟩
    rw [Tree.graft, unify]
    simp only [and_self, if_true]
  | head s i tok =>
    obtain ⟨hform, hsym, id, hid, hV⟩ :=
      hσ (s, tok.wildcard) (by rw [Tree.heads]; exact List.mem_singleton.mpr rfl)
    dsimp only at hform hsym hid hV
    have hmem : s ∈ signatureRules.map Rule.head := wildcards_mem_heads s (formed_head.mp hf).1
    have hd := derives_unwrap hform (by rw [hsym]; exact hmem)
    rw [hsym] at hd
    obtain ⟨b', hbind, hwithin⟩ := bind_of_agrees (b := b) id hd fun v hv => by
      rw [hb id v hv] at hV
      exact Option.some.inj hV
    rw [← hid] at hbind
    refine ⟨b', by rw [Tree.graft, unify_head]; exact hbind, fun j v hv => ?_⟩
    rcases hwithin j v hv with hv | ⟨rfl, rfl⟩
    · exact hb j v hv
    · exact hV
  | branch s i cs ih =>
    rw [Tree.graft_branch, unify_branch_self]
    have hcs := (formed_branch.mp hf).2
    have hσ' : ∀ c ∈ cs, ∀ x ∈ c.heads, (σ x.1 x.2).Formed ∧ (σ x.1 x.2).symbol = x.1 ∧
        ∃ id, x.2 = some id ∧ V id = some (σ x.1 x.2).marks :=
      fun c hc x hx => hσ x (Tree.mem_heads_branch.mpr ⟨c, hc, hx⟩)
    clear hf hσ
    induction cs generalizing b with
    | nil => exact ⟨b, by rw [List.map_nil, unifyAll], hb⟩
    | cons c cs ihcs =>
      obtain ⟨b₁, h₁, hb₁⟩ := ih c List.mem_cons_self (hcs c List.mem_cons_self)
        (hσ' c List.mem_cons_self) hb
      obtain ⟨b', h₂, hb'⟩ := ihcs (fun d hd => ih d (List.mem_cons_of_mem _ hd)) hb₁
        (fun d hd => hcs d (List.mem_cons_of_mem _ hd))
        (fun d hd => hσ' d (List.mem_cons_of_mem _ hd))
      refine ⟨b', ?_, hb'⟩
      rw [List.map_cons, unifyAll, h₁]
      exact h₂

/-! ## Trees for the wildcards -/

theorem recognize_iff_sentence {kind : Symbol} (hk : kind ∈ signatureWildcards) {ts : List String} :
    signature.recognize ts kind = true ↔ Sentence kind ts :=
  recognize_eq_true_iff.trans (exists_congr fun _ => parsePlain_eq_some_iff hk)

/-- a tree for every head, over the tokens its wildcard stands for -/
def Tree.Supplied (t : Tree) (B : Nat → Option (List String)) (σ : Symbol → Option Nat → Tree) :
    Prop :=
  ∀ x ∈ t.heads, ∃ id ts, x.2 = some id ∧ B id = some ts ∧
    (σ x.1 x.2).Formed ∧ (σ x.1 x.2).symbol = x.1 ∧ (σ x.1 x.2).yield = Binding.ofTexts ts

/-- the tree of the tokens a wildcard of a kind stands for -/
def fillTree (B : Nat → Option (List String)) (kind : Symbol) (id : Option Nat) : Tree :=
  ((id.bind B).bind fun ts => signature.parsePlain ts kind).getD (.leaf "" ⟨"", none⟩)

theorem fillTree_eq {B : Nat → Option (List String)} {kind : Symbol} {id : Nat} {ts : List String}
    {u : Tree} (hts : B id = some ts) (hu : signature.parsePlain ts kind = some u) :
    fillTree B kind (some id) = u := by
  unfold fillTree
  rw [Option.bind_some, hts, Option.bind_some, hu, Option.getD_some]

theorem supplied_of_sentences {t : Tree} {B : Nat → Option (List String)} (ht : t.Formed)
    (h : ∀ x ∈ t.heads, ∃ id ts, x.2 = some id ∧ B id = some ts ∧ Sentence x.1 ts) :
    t.Supplied B (fillTree B) := by
  rintro ⟨kind, number⟩ hx
  obtain ⟨id, ts, hid, hts, u, hu⟩ := h _ hx
  have hid : number = some id := hid
  subst hid
  have hparse := (parsePlain_eq_some_iff (Tree.kind_mem_of_mem_heads ht hx)).mpr hu
  refine ⟨id, ts, rfl, hts, ?_⟩
  show (fillTree B kind (some id)).Formed ∧ _ ∧ _
  rw [fillTree_eq hts hparse]
  exact hu

theorem Tree.Supplied.plain {t : Tree} {B : Nat → Option (List String)}
    {σ : Symbol → Option Nat → Tree} (hσ : t.Supplied B σ) : ∀ x ∈ t.heads, (σ x.1 x.2).Plain := by
  intro x hx tok htok
  obtain ⟨id, ts, _, _, _, _, hyield⟩ := hσ x hx
  rw [hyield] at htok
  obtain ⟨text, _, rfl⟩ := List.mem_map.mp htok
  rfl

/-- the graft of such trees is formed like the declared tree and reads as its substitution -/
theorem Tree.Supplied.graft {t : Tree} {B : Nat → Option (List String)}
    {σ : Symbol → Option Nat → Tree} (hσ : t.Supplied B σ) (ht : t.Formed)
    (hs : Tree.Ordinary t.symbol) (hn : t.Numbered) :
    (t.graft σ).Formed ∧ (t.graft σ).symbol = t.symbol ∧
      t.substitute B = some (t.graft σ).tokens ∧ (t.graft σ).Plain := by
  refine ⟨Tree.formed_graft ht fun x hx => ?_, Tree.symbol_graft fun x hx => ?_,
    Tree.substitute_graft fun x hx => ?_, hn.plain_graft ht hs hσ.plain⟩
  · obtain ⟨_, _, _, _, h1, h2, _⟩ := hσ x hx
    exact ⟨h1, h2⟩
  · obtain ⟨_, _, _, _, _, h2, _⟩ := hσ x hx
    exact h2
  · obtain ⟨id, ts, hid, hts, _, _, hyield⟩ := hσ x hx
    rw [hid, Option.bind_some, hts, ← Tree.texts_yield, ← hid, hyield, Binding.texts_ofTexts]

/-! ## Admission outside calls -/

/-- token runs for the wildcards of a signature, each a sentence of its kind, with which the
signature reads as the given tokens -/
structure Signature.Fills (s : Signature) (B : Nat → Option (List String)) (tokens : List String) :
    Prop where
  domain : ∀ id, (B id).isSome ↔ ∃ kind, (kind, some id) ∈ s.root.heads
  sentence : ∀ kind id ts, (kind, some id) ∈ s.root.heads → B id = some ts →
    signature.recognize ts kind = true
  reads : s.root.substitute B = some tokens

section Structural

variable {start : Symbol} {sub sup : Signature}

theorem fills_of_unify (hstart : start ∈ signatureWildcards) (hsub : sub.CompiledFrom start)
    (hsup : sup.CompiledFrom start) (hfree : sub.root.heads = []) {b : Bindings}
    (h : unify sub.root sup.root [] = some b) :
    sup.Fills b.texts? (Binding.texts sub.tokens) := by
  have hord := Tree.ordinary_wildcard hstart
  have hplain := hsub.numbered.plain hsub.formed (hsub.symbol_eq ▸ hord) hfree
  obtain ⟨_, hreads, hbound, honly⟩ := unify_solves hsub.formed hplain h
  refine ⟨fun id => ⟨fun hid => ?_, ?_⟩, ?_, ?_⟩
  · obtain ⟨ts, hts⟩ := Option.isSome_iff_exists.mp hid
    obtain ⟨v, hv, _⟩ := Option.map_eq_some_iff.mp hts
    rcases honly id v hv with hnil | hhead
    · cases hnil
    · exact hhead
  · rintro ⟨kind, hk⟩
    obtain ⟨n, ts, hn, hget, _⟩ := hbound _ hk
    cases hn
    rw [Bindings.texts?_of_get? hget]
    rfl
  · intro kind id ts hk hts
    obtain ⟨n, us, hn, hget, hsent⟩ := hbound _ hk
    cases hn
    rw [Bindings.texts?_of_get? hget, Binding.texts_ofTexts] at hts
    cases hts
    exact (recognize_iff_sentence (Tree.kind_mem_of_mem_heads hsup.formed hk)).mpr hsent
  · rw [hreads, ← hsub.yield_eq, Tree.texts_yield]

theorem supplied_of_fills (hstart : start ∈ signatureWildcards) (hsup : sup.CompiledFrom start)
    {B : Nat → Option (List String)} {tokens : List String} (h : sup.Fills B tokens) :
    sup.root.Supplied B (fillTree B) := by
  refine supplied_of_sentences hsup.formed ?_
  rintro ⟨kind, number⟩ hx
  have hord := Tree.ordinary_wildcard hstart
  obtain ⟨id, rfl⟩ := hsup.numbered.head_number hsup.formed (hsup.symbol_eq ▸ hord) _ hx
  have hk := Tree.kind_mem_of_mem_heads hsup.formed hx
  obtain ⟨ts, hts⟩ := Option.isSome_iff_exists.mp ((h.domain id).mpr ⟨kind, hx⟩)
  exact ⟨id, ts, rfl, hts, (recognize_iff_sentence hk).mp (h.sentence kind id ts hx hts)⟩

/-- a graft that reads as the actual signature is its tree, since tokens have one tree only -/
theorem graft_eq_root (hstart : start ∈ signatureWildcards) (hsub : sub.CompiledFrom start)
    (hsup : sup.CompiledFrom start) (hfree : sub.root.heads = [])
    {B : Nat → Option (List String)} {σ : Symbol → Option Nat → Tree}
    (hσ : sup.root.Supplied B σ)
    (h : sup.root.substitute B = some (Binding.texts sub.tokens)) :
    sup.root.graft σ = sub.root := by
  have hord := Tree.ordinary_wildcard hstart
  have hplain := hsub.numbered.plain hsub.formed (hsub.symbol_eq ▸ hord) hfree
  obtain ⟨hformed, hsym, hread, hplain'⟩ :=
    hσ.graft hsup.formed (hsup.symbol_eq ▸ hord) hsup.numbered
  have htokens : (sup.root.graft σ).tokens = sub.root.tokens := by
    rw [hread, ← hsub.yield_eq, Tree.texts_yield] at h
    exact Option.some.inj h
  refine derives_unique compiled_signature hstart ⟨hformed, hsym.trans hsup.symbol_eq, ?_⟩
    ⟨hsub.formed, hsub.symbol_eq, hplain.yield_eq⟩
  rw [hplain'.yield_eq, htokens]

theorem unify_of_fills (hstart : start ∈ signatureWildcards) (hsub : sub.CompiledFrom start)
    (hsup : sup.CompiledFrom start) (hfree : sub.root.heads = [])
    {B : Nat → Option (List String)} (h : sup.Fills B (Binding.texts sub.tokens)) :
    ∃ b, unify sub.root sup.root [] = some b ∧ b.texts? = B := by
  have hσ := supplied_of_fills hstart hsup h
  have hgraft := graft_eq_root hstart hsub hsup hfree hσ h.reads
  obtain ⟨b, hb, hwithin⟩ := unify_graft (b := []) (V := fun id => (B id).map Binding.ofTexts)
    hsup.formed (fun x hx => by
      obtain ⟨id, ts, hid, hts, h1, h2, h3⟩ := hσ x hx
      refine ⟨h1, h2, id, hid, ?_⟩
      rw [(hσ.plain x hx).marks_eq, h3, hts]
      rfl) nofun
  rw [hgraft] at hb
  refine ⟨b, hb, funext fun id => ?_⟩
  have hfill := fills_of_unify hstart hsub hsup hfree hb
  cases hid : b.texts? id with
  | none =>
    cases hB : B id with
    | none => rfl
    | some ts =>
      have hsome := (hfill.domain id).mpr ((h.domain id).mp (by rw [hB]; rfl))
      rw [hid] at hsome
      cases hsome
  | some ts =>
    obtain ⟨v, hv, rfl⟩ := Option.map_eq_some_iff.mp hid
    obtain ⟨us, hus, rfl⟩ := Option.map_eq_some_iff.mp (hwithin id v hv)
    rw [hus, Binding.texts_ofTexts]

theorem admits_of_not_call (m : CastRules) (hform : (sub.isFunction && sup.isFunction) = false) :
    m.admits sub sup [] =
      .ok ((unify sub.root sup.root []).map fun b => ⟨[], b.toTexts, none⟩) := by
  unfold CastRules.admits admitsWith
  rw [bindExplicit]
  simp only [hform, Bool.false_eq_true, if_false]

end Structural

/-- **Structural matching is sound and complete**: outside calls and without explicit arguments, a
declaration admits a signature without wildcards exactly if its own wildcards can be filled with
sentences of their kinds so that it reads as that signature; the bindings of the match are what
fills it, and nothing else does. -/
theorem admits_structural (m : CastRules) {start : Symbol} (hstart : start ∈ signatureWildcards)
    {src src' : List String} {strict strict' : Bool} {sub sup : Signature}
    (hsub : signature.compile src start strict = .ok sub)
    (hsup : signature.compile src' start strict' = .ok sup) (hfree : sub.root.heads = [])
    (hform : (sub.isFunction && sup.isFunction) = false) :
    ((∃ r, m.admits sub sup [] = .ok (some r)) ↔
      ∃ B, sup.Fills B (sub.tokens.map fun t => t.text)) ∧
    ((¬ ∃ r, m.admits sub sup [] = .ok (some r)) → m.admits sub sup [] = .ok none) ∧
    (∀ r, m.admits sub sup [] = .ok (some r) →
      sup.Fills (fun id => r.bindings.lookup id) (sub.tokens.map fun t => t.text)) ∧
    (∀ B B', sup.Fills B (sub.tokens.map fun t => t.text) →
      sup.Fills B' (sub.tokens.map fun t => t.text) → B = B') := by
  have hsub := compiledFrom_of_compile hstart hsub
  have hsup := compiledFrom_of_compile hstart hsup
  rw [admits_of_not_call m hform]
  have hsound : ∀ r, (Except.ok ((unify sub.root sup.root []).map fun b =>
      (⟨[], b.toTexts, none⟩ : Match)) : Planned Match) = .ok (some r) →
      sup.Fills (fun id => r.bindings.lookup id) (sub.tokens.map fun t => t.text) := by
    intro r hr
    obtain ⟨b, hb, rfl⟩ := Option.map_eq_some_iff.mp (Except.ok.inj hr)
    have hlookup : (fun id => b.toTexts.lookup id) = b.texts? := funext b.lookup_toTexts
    rw [hlookup]
    exact fills_of_unify hstart hsub hsup hfree hb
  have hcomplete := fun B => unify_of_fills (B := B) hstart hsub hsup hfree
  refine ⟨⟨fun ⟨r, hr⟩ => ⟨_, hsound r hr⟩, fun ⟨B, hB⟩ => ?_⟩, fun hnone => ?_, hsound,
    fun B B' hB hB' => ?_⟩
  · obtain ⟨b, hb, _⟩ := hcomplete B hB
    exact ⟨_, by rw [hb]; rfl⟩
  · cases hu : unify sub.root sup.root [] with
    | none => rfl
    | some b => exact absurd ⟨_, by rw [hu]; rfl⟩ hnone
  · obtain ⟨b, hb, rfl⟩ := hcomplete B hB
    obtain ⟨b', hb', rfl⟩ := hcomplete B' hB'
    rw [hb] at hb'
    cases hb'
    rfl

/-- `PTR Object` admits `PTR I32`, with `I32` for its wildcard -/
theorem admits_structural_pointer :
    ∃ sub sup r, signature.compile ["PTR", "I32"] Symbol.object false = .ok sub ∧
      signature.compile ["PTR", "Object"] Symbol.object false = .ok sup ∧
      CastRules.admits ⟨none, []⟩ sub sup [] = .ok (some r) ∧
        r.bindings.lookup 0 = some ["I32"] := by
  have hstart : Symbol.object ∈ signatureWildcards := by decide
  obtain ⟨o, ho⟩ := (hasTrees (.pointer (.arith .i32)) (by trivial)).1 rfl
  obtain ⟨u, hu⟩ := (hasTrees (.arith .i32) (by trivial)).1 rfl
  have hptr := (spells_keyword (k := Keyword.ptr) (by decide)).formed
  have hhead : (Tree.head Symbol.object 5 ⟨"Object", some 0⟩).Formed :=
    formed_head.mpr ⟨by decide, by decide, rfl⟩
  have htype : (Tree.branch Symbol.type 0 [.head Symbol.object 5 ⟨"Object", some 0⟩]).Formed :=
    formed_branch.mpr ⟨by decide, by simpa using hhead⟩
  have hpointer : (Tree.branch Symbol.pointer 0 [.leaf Keyword.ptr ⟨Keyword.ptr, none⟩,
      .branch Symbol.type 0 [.head Symbol.object 5 ⟨"Object", some 0⟩]]).Formed :=
    formed_branch.mpr ⟨by decide, by simpa using ⟨hptr, htype⟩⟩
  have hobject : (Tree.branch Symbol.object 1 [.branch Symbol.pointer 0
      [.leaf Keyword.ptr ⟨Keyword.ptr, none⟩,
        .branch Symbol.type 0 [.head Symbol.object 5 ⟨"Object", some 0⟩]]]).Formed :=
    formed_branch.mpr ⟨by decide, by simpa using hpointer⟩
  have hsub := compile_of_formed ["PTR", "I32"] false ⟨[], [⟨"PTR", none⟩, ⟨"I32", none⟩]⟩ hstart
    (prepareBody_signature (by rintro ⟨_, _, _, _, _, _, _⟩ rfl; rfl)) ho.formed ho.symbol_eq
    ho.yield_eq
  have hsup := compile_of_formed ["PTR", "Object"] false
    ⟨[], [⟨"PTR", none⟩, ⟨"Object", some 0⟩]⟩ hstart
    (prepareBody_signature (by rintro ⟨_, _, _, _, _, _, _⟩ rfl; rfl)) hobject rfl rfl
  generalize hsubeq : Signature.mk _ _ _ _ o = sub at hsub
  generalize hsupeq : Signature.mk _ _ _ _ (Tree.branch _ _ _) = sup at hsup
  have hheads : sup.root.heads = [(Symbol.object, some 0)] := by rw [← hsupeq]; rfl
  have hfills : sup.Fills (fun id => if id = 0 then some ["I32"] else none)
      (sub.tokens.map fun t => t.text) := by
    refine ⟨fun id => ?_, fun kind id ts hk hts => ?_, ?_⟩
    · rw [hheads]
      by_cases hid : id = 0 <;> simp [hid]
    · rw [hheads, List.mem_singleton] at hk
      cases hk
      cases hts
      exact (recognize_iff_sentence hstart).mpr ⟨u, hu.formed, hu.symbol_eq, hu.yield_eq⟩
    · rw [← hsubeq, ← hsupeq]
      rfl
  obtain ⟨hiff, -, hbindings, hunique⟩ := admits_structural ⟨none, []⟩ hstart hsub hsup
    (by rw [← hsubeq]; exact ho.heads_eq) (by rw [← hsupeq, Bool.and_eq_false_iff]; exact .inr rfl)
  obtain ⟨r, hr⟩ := hiff.mpr ⟨_, hfills⟩
  refine ⟨sub, sup, r, hsub, hsup, hr, ?_⟩
  have hlookup := congrFun (hunique _ _ (hbindings r hr) hfills) 0
  rw [if_pos rfl] at hlookup
  exact hlookup

end Overloading
