import Overloading.Grammar.Tree

/-!
# Derivation trees

What a grammar derives is said by its trees alone, without any table:

* `Tree.yield`     the tokens at the leaves of a tree, left to right;
* `Tree.Derived`   a tree that follows the rules: a leaf is a terminal and the class of its token,
                   a branch has the number of an alternative and is over its symbols, and a head
                   stands for a wildcardable nonterminal;
* `Tree.Derives`   a derived tree of a given symbol over given tokens.

A parser builds trees from productions, which are the alternatives of the rules together with the
heads `X → @X` (`productionsOf`).  `Tree.Derived.node` and `Tree.Derived.induct` say the same of
derived trees, for all that does not ask how the tree of a production is drawn.  `Tree.depth` counts
the nested calls a reader of the tree needs.
-/

namespace Overloading

namespace Tree

mutual
theorem induct {P : Tree → Prop} (leaf : ∀ s t, P (.leaf s t))
    (branch : ∀ s i cs, (∀ c ∈ cs, P c) → P (.branch s i cs)) (head : ∀ s i t, P (.head s i t)) :
    ∀ t, P t
  | .leaf s t => leaf s t
  | .branch s i cs => branch s i cs (inductAll leaf branch head cs)
  | .head s i t => head s i t

theorem inductAll {P : Tree → Prop} (leaf : ∀ s t, P (.leaf s t))
    (branch : ∀ s i cs, (∀ c ∈ cs, P c) → P (.branch s i cs)) (head : ∀ s i t, P (.head s i t)) :
    ∀ cs : List Tree, ∀ c ∈ cs, P c
  | [], _, h => (List.not_mem_nil h).elim
  | d :: ds, c, h => (List.mem_cons.mp h).elim (fun e => e ▸ induct leaf branch head d)
      (inductAll leaf branch head ds c)
end

mutual
/-- the tokens of a tree with their wildcard numbers, left to right -/
def yield : Tree → List Token
  | leaf _ t => [t]
  | branch _ _ cs => yieldAll cs
  | head _ _ t => [t]

def yieldAll : List Tree → List Token
  | [] => []
  | c :: cs => c.yield ++ yieldAll cs
end

mutual
/-- how deep a tree is; a head stands above the terminal of its token -/
def depth : Tree → Nat
  | leaf _ _ => 1
  | branch _ _ cs => depthAll cs + 1
  | head _ _ _ => 2

def depthAll : List Tree → Nat
  | [] => 0
  | c :: cs => max c.depth (depthAll cs)
end

@[simp] theorem yieldAll_nil : yieldAll [] = [] := by rw [yieldAll]

@[simp] theorem yieldAll_cons (c : Tree) (cs : List Tree) :
    yieldAll (c :: cs) = c.yield ++ yieldAll cs := by rw [yieldAll]

theorem yieldAll_eq_flatMap (cs : List Tree) : yieldAll cs = cs.flatMap yield := by
  induction cs with
  | nil => rfl
  | cons c cs ih => rw [yieldAll_cons, ih, List.flatMap_cons]

theorem yieldAll_append (cs ds : List Tree) :
    yieldAll (cs ++ ds) = yieldAll cs ++ yieldAll ds := by
  induction cs with
  | nil => rfl
  | cons c cs ih => rw [List.cons_append, yieldAll_cons, yieldAll_cons, ih, List.append_assoc]

@[simp] theorem depthAll_nil : depthAll [] = 0 := by rw [depthAll]

@[simp] theorem depthAll_cons (c : Tree) (cs : List Tree) :
    depthAll (c :: cs) = max c.depth (depthAll cs) := by rw [depthAll]

theorem depth_le_depthAll {c : Tree} {cs : List Tree} (h : c ∈ cs) : c.depth ≤ depthAll cs := by
  induction cs with
  | nil => cases h
  | cons d ds ih =>
    rw [depthAll_cons]
    rcases List.mem_cons.mp h with rfl | h
    · exact Nat.le_max_left _ _
    · exact Nat.le_trans (ih h) (Nat.le_max_right _ _)

theorem depthAll_le {cs : List Tree} {n : Nat} (h : ∀ c ∈ cs, c.depth ≤ n) : depthAll cs ≤ n := by
  induction cs with
  | nil => exact Nat.zero_le n
  | cons d ds ih =>
    rw [depthAll_cons]
    exact Nat.max_le.mpr ⟨h d List.mem_cons_self, ih fun c hc => h c (List.mem_cons_of_mem _ hc)⟩

end Tree

/-! ## The tree of a production -/

namespace Grammar

/-- over a single leaf the tree of a wildcard production is a head, any other tree is a branch -/
theorem plant_cases (p : Production) (cs : List Tree) :
    (∃ s t, cs = [.leaf s t] ∧ plant p cs = .head p.head p.alt t) ∨
      plant p cs = .branch p.head p.alt cs := by
  unfold plant
  split
  · exact .inl ⟨_, _, rfl, rfl⟩
  · exact .inr rfl

theorem symbol_plant (p : Production) (cs : List Tree) : (plant p cs).symbol = p.head := by
  rcases plant_cases p cs with ⟨s, t, -, h⟩ | h <;> rw [h] <;> rfl

theorem yield_plant (p : Production) (cs : List Tree) :
    (plant p cs).yield = Tree.yieldAll cs := by
  rcases plant_cases p cs with ⟨s, t, rfl, h⟩ | h <;> rw [h] <;> simp [Tree.yield]

theorem depth_plant (p : Production) (cs : List Tree) :
    (plant p cs).depth = Tree.depthAll cs + 1 := by
  rcases plant_cases p cs with ⟨s, t, rfl, h⟩ | h <;> rw [h] <;> simp [Tree.depth]

theorem plant_of_not_leaf (p : Production) {c : Tree} (h : c.isLeaf = false) :
    plant p [c] = .branch p.head p.alt [c] := by
  rcases plant_cases p [c] with ⟨s, t, hcs, -⟩ | hbranch
  · cases hcs
    cases h
  · exact hbranch

end Grammar

/-! ## Derivations -/

namespace Tree

/-- a tree that follows the rules, by what stands at its root -/
inductive Derived (rules : List Rule) (wildcardable : List Symbol) (classOf : String → Symbol) :
    Tree → Prop
  /-- a terminal over a token of its class -/
  | leaf {s : Symbol} {t : Token} (terminal : s ∉ rules.map Rule.head)
      (class_eq : classOf t.text = s) : Derived rules wildcardable classOf (.leaf s t)
  /-- a nonterminal over the symbols of one of its alternatives, and the number of that -/
  | branch {r : Rule} {i : Nat} {cs : List Tree} (mem : r ∈ rules)
      (symbols : r.alts[i]? = some (cs.map symbol))
      (children : ∀ c ∈ cs, Derived rules wildcardable classOf c) :
      Derived rules wildcardable classOf (.branch r.head i cs)
  /-- a wildcardable nonterminal over a token of the class `@X`; the number of `X → @X` comes after
  those of the alternatives -/
  | head {r : Rule} {t : Token} (mem : r ∈ rules) (wild : r.head ∈ wildcardable)
      (terminal : Symbol.headOf r.head ∉ rules.map Rule.head)
      (class_eq : classOf t.text = Symbol.headOf r.head) :
      Derived rules wildcardable classOf (.head r.head r.alts.length t)
  /-- rules may define `@X` as well: then `X → @X` is over what is derived from that -/
  | defined {r : Rule} {c : Tree} (mem : r ∈ rules) (wild : r.head ∈ wildcardable)
      (nonterminal : Symbol.headOf r.head ∈ rules.map Rule.head)
      (symbol_eq : c.symbol = Symbol.headOf r.head)
      (child : Derived rules wildcardable classOf c) :
      Derived rules wildcardable classOf (.branch r.head r.alts.length [c])

/-- a tree derives a sequence of tokens from a symbol -/
structure Derives (rules : List Rule) (wildcardable : List Symbol) (classOf : String → Symbol)
    (start : Symbol) (tokens : List Token) (t : Tree) : Prop where
  derived : t.Derived rules wildcardable classOf
  symbol_eq : t.symbol = start
  yield_eq : t.yield = tokens

end Tree

/-! ## Derivations by productions -/

theorem mem_productionsOf {w : List Symbol} {rules : List Rule} {p : Production} :
    p ∈ productionsOf w rules ↔ ∃ r ∈ rules,
      (∃ body, r.alts[p.alt]? = some body ∧ p = ⟨r.head, body, p.alt, false⟩) ∨
        (r.head ∈ w ∧ p = r.wildcard) := by
  unfold productionsOf
  rw [List.mem_flatMap]
  refine exists_congr fun r => and_congr_right fun _ => ?_
  have hord : p ∈ r.ordinary ↔
      ∃ body, r.alts[p.alt]? = some body ∧ p = ⟨r.head, body, p.alt, false⟩ := by
    unfold Rule.ordinary
    rw [List.mem_map]
    constructor
    · rintro ⟨⟨body, i⟩, hi, rfl⟩
      exact ⟨body, List.mem_zipIdx_iff_getElem?.mp hi, rfl⟩
    · rintro ⟨body, hbody, hp⟩
      exact ⟨(body, p.alt), List.mem_zipIdx_iff_getElem?.mpr hbody, hp.symm⟩
  unfold Rule.productions
  by_cases hw : r.head ∈ w
  · rw [if_pos (by simpa using hw), List.mem_append, List.mem_singleton, hord]
    simp only [hw, true_and]
  · rw [if_neg (by simpa using hw), hord]
    simp only [hw, false_and, or_false]

theorem head_mem_of_mem_productionsOf {w : List Symbol} {rules : List Rule} {p : Production}
    (h : p ∈ productionsOf w rules) : p.head ∈ rules.map Rule.head := by
  obtain ⟨r, hr, hp⟩ := mem_productionsOf.mp h
  have e : p.head = r.head := by
    rcases hp with ⟨body, _, e⟩ | ⟨_, e⟩ <;> rw [e]
    rfl
  rw [e]
  exact List.mem_map_of_mem hr

namespace Tree.Derived

variable {rules : List Rule} {w : List Symbol} {classOf : String → Symbol}

theorem isLeaf_eq_false {t : Tree} (h : t.Derived rules w classOf)
    (hs : t.symbol ∈ rules.map Rule.head) : t.isLeaf = false := by
  cases h with
  | leaf hterminal => exact absurd hs hterminal
  | branch | head | defined => rfl

theorem exists_leaf {t : Tree} (h : t.Derived rules w classOf) {s : Symbol} (hsym : t.symbol = s)
    (hs : s ∉ rules.map Rule.head) : ∃ tok, t = .leaf s tok ∧ classOf tok.text = s := by
  subst hsym
  cases h with
  | leaf _ hclass => exact ⟨_, rfl, hclass⟩
  | branch hr | head hr | defined hr => exact absurd (List.mem_map_of_mem hr) hs

/-- the tree of a production over derived trees is derived -/
theorem node {p : Production} {cs : List Tree} (hp : p ∈ productionsOf w rules)
    (hbody : cs.map symbol = p.body) (hcs : ∀ c ∈ cs, c.Derived rules w classOf) :
    (Grammar.plant p cs).Derived rules w classOf := by
  obtain ⟨x, body, i, wild⟩ := p
  obtain ⟨r, hr, ⟨body, halt, hp⟩ | ⟨hw, hp⟩⟩ := mem_productionsOf.mp hp
  · cases hp
    exact .branch hr (halt.trans (congrArg some hbody.symm)) hcs
  · cases hp
    obtain ⟨c, rfl, hc⟩ := List.map_eq_singleton_iff.mp hbody
    have hcd := hcs c List.mem_cons_self
    by_cases hn : Symbol.headOf r.head ∈ rules.map Rule.head
    · have hleaf := hcd.isLeaf_eq_false (hc ▸ hn)
      rw [Grammar.plant_of_not_leaf _ hleaf]
      exact .defined hr hw hn hc hcd
    · obtain ⟨tok, rfl, hclass⟩ := hcd.exists_leaf hc hn
      exact .head hr hw hn hclass

/-- induction along productions, for what does not depend on how the tree of one is drawn -/
@[elab_as_elim]
theorem induct {motive : (t : Tree) → t.Derived rules w classOf → Prop}
    (leaf : ∀ {s : Symbol} {t : Token} (hs : s ∉ rules.map Rule.head) (hc : classOf t.text = s),
      motive (.leaf s t) (.leaf hs hc))
    (node : ∀ {p : Production} {cs : List Tree} (hp : p ∈ productionsOf w rules)
      (hbody : cs.map symbol = p.body) (hcs : ∀ c ∈ cs, c.Derived rules w classOf),
      (∀ c (hc : c ∈ cs), motive c (hcs c hc)) → motive (Grammar.plant p cs) (.node hp hbody hcs))
    {t : Tree} (h : t.Derived rules w classOf) : motive t h := by
  induction h with
  | leaf hs hc => exact leaf hs hc
  | @branch r i cs hr halt hcs ih =>
    exact node (p := ⟨r.head, cs.map symbol, i, false⟩)
      (mem_productionsOf.mpr ⟨r, hr, .inl ⟨_, halt, rfl⟩⟩) rfl hcs ih
  | @head r t hr hw hterminal hc =>
    have hleaf : (Tree.leaf (Symbol.headOf r.head) t).Derived rules w classOf :=
      .leaf hterminal hc
    refine @node r.wildcard [.leaf (Symbol.headOf r.head) t]
      (mem_productionsOf.mpr ⟨r, hr, .inr ⟨hw, rfl⟩⟩) rfl ?_ ?_
    · exact List.forall_mem_singleton.mpr hleaf
    · intro c hc'
      cases List.mem_singleton.mp hc'
      exact leaf hterminal hc
  | @defined r c hr hw hn hc hcd ih =>
    have hplant := Grammar.plant_of_not_leaf r.wildcard (hcd.isLeaf_eq_false (hc ▸ hn))
    have hmotive := @node r.wildcard [c]
      (mem_productionsOf.mpr ⟨r, hr, .inr ⟨hw, rfl⟩⟩) (congrArg (fun s => [s]) hc)
      (List.forall_mem_singleton.mpr hcd) (by
        intro d hd
        cases List.mem_singleton.mp hd
        exact ih)
    simp only [hplant] at hmotive
    exact hmotive

end Tree.Derived

end Overloading
