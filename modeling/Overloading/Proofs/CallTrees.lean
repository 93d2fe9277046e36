import Overloading.Match.Admit
import Overloading.Proofs.Substitution
import Overloading.Proofs.TypeTrees

/-!
# The tree of a call

A call is written as a function form whose parameters are the tokens of its arguments.  Once it
compiles, the parameters of its tree are the arguments, one for one.

* `Arg.ShownBy`      a parameter tree shows an argument: its tokens, its marker and its type;
* `exists_shownBy`   each argument but nothing at all has such a tree;
* `Tree.unvoid`      a tree with an arithmetic type for every `VOID`.  It is formed again, so the
                     tree of the call, unvoided, is the tree built from unvoided arguments; both
                     are cut at the same places, hence so is the tree of the call;
* `params_shownBy`   the parameters of a compiled call show its arguments.  In particular no
                     argument is `VOID`.
-/

namespace Overloading

open Grammar

/-! ## Arguments -/

/-- how an argument is marked: functions are passed without a marker -/
def Arg.marker (a : Arg) : Ref := if a.type.isFunction then .none else a.ref

/-- a parameter tree that shows an argument -/
structure Arg.ShownBy (a : Arg) (p : Tree) : Prop where
  spells : p.Spells Symbol.paramObject a.tokens
  marker_eq : p.splitRef.1 = a.marker
  denotes : ∃ s, (s = Symbol.object ∨ s = Symbol.paramObject) ∧ p.splitRef.2.Denotes s a.type

theorem splitRef_single (s : Symbol) (i : Nat) (c : Tree) :
    (Tree.branch s i [c]).splitRef = (.none, .branch s i [c]) := by
  rw [Tree.splitRef]
  intro _ _ _ _ _ h
  cases h

theorem shownBy_unmarked {a : Arg} {p : Tree} (hd : p.Denotes Symbol.paramObject a.type)
    (htokens : a.tokens = a.type.tokens) (hmarker : a.marker = .none)
    (hp : ∃ s i c, p = .branch s i [c]) : a.ShownBy p := by
  obtain ⟨s, i, c, rfl⟩ := hp
  refine ⟨by rw [htokens]; exact hd.toSpells, ?_, Symbol.paramObject, .inr rfl, ?_⟩
  · rw [splitRef_single, hmarker]
  · rw [splitRef_single]
    exact hd

theorem spells_marked {k : String} {i : Nat} {ty : Ty} {o : Tree} (hk : k ∈ signatureKeywords)
    (halt : (alternatives Symbol.paramObject)[i]? = some [k, Symbol.object])
    (ho : o.Denotes Symbol.object ty) :
    (Tree.branch Symbol.paramObject i [.leaf k ⟨k, none⟩, o]).Spells Symbol.paramObject
      (k :: ty.tokens) := by
  have := spells_branch (l := [(k, [k]), (Symbol.object, ty.tokens)]) halt
    (.cons (spells_keyword hk) (.cons ho.toSpells .nil))
  simpa using this

theorem shownBy_object {a : Arg} {o : Tree} (ho : o.Denotes Symbol.object a.type)
    (hf : a.type.isFunction = false) :
    (a.ref = .none → a.ShownBy (.branch Symbol.paramObject 0 [o])) ∧
    (a.ref = .mutable → a.ShownBy (.branch Symbol.paramObject 2
      [.leaf Keyword.lref ⟨Keyword.lref, none⟩, o])) ∧
    (a.ref = .constant → a.ShownBy (.branch Symbol.paramObject 3
      [.leaf Keyword.clref ⟨Keyword.clref, none⟩, o])) := by
  have hmarker : a.marker = a.ref := by unfold Arg.marker; rw [hf]; rfl
  refine ⟨fun hr => ?_, fun hr => ?_, fun hr => ?_⟩
  · have htokens : a.tokens = a.type.tokens := by rw [Arg.tokens, hf, hr]; rfl
    exact shownBy_unmarked (ho.wrap (by decide) (by decide) (by decide)) htokens
      (hmarker.trans hr) ⟨_, _, _, rfl⟩
  · have htokens : a.tokens = Keyword.lref :: a.type.tokens := by rw [Arg.tokens, hf, hr]; rfl
    refine ⟨?_, ?_, Symbol.object, .inl rfl, ?_⟩
    · rw [htokens]
      exact spells_marked (by decide) (by decide) ho
    · rw [hmarker, hr]
      rfl
    · exact ho
  · have htokens : a.tokens = Keyword.clref :: a.type.tokens := by rw [Arg.tokens, hf, hr]; rfl
    refine ⟨?_, ?_, Symbol.object, .inl rfl, ?_⟩
    · rw [htokens]
      exact spells_marked (by decide) (by decide) ho
    · rw [hmarker, hr]
      rfl
    · exact ho

theorem Ty.object_or_function_or_void (ty : Ty) :
    (ty.isObject = true ∧ ty.isFunction = false) ∨ (∃ ts, ty = .function ts) ∨ ty = .void := by
  cases ty with
  | function ts => exact .inr (.inl ⟨ts, rfl⟩)
  | void => exact .inr (.inr rfl)
  | arith | pointer | array | cls | list => exact .inl ⟨rfl, rfl⟩

theorem exists_shownBy {a : Arg} (h : a.type.WellFormed) (hv : a.type ≠ .void) :
    ∃ p, a.ShownBy p := by
  obtain ⟨hobj, hf⟩ | ⟨ts, hts⟩ | hvoid := a.type.object_or_function_or_void
  · obtain ⟨o, ho⟩ := (hasTrees a.type h).1 hobj
    obtain ⟨h1, h2, h3⟩ := shownBy_object ho hf
    cases hr : a.ref with
    | none => exact ⟨_, h1 hr⟩
    | mutable => exact ⟨_, h2 hr⟩
    | constant => exact ⟨_, h3 hr⟩
  · have hf : a.type.isFunction = true := by rw [hts]; rfl
    rw [hts, Ty.WellFormed] at h
    obtain ⟨t, ht⟩ := denotes_function h.1 h.2
    rw [← hts] at ht
    refine ⟨_, shownBy_unmarked (ht.wrap (i := 1) (by decide) (by decide) (by decide)) ?_ ?_
      ⟨_, _, _, rfl⟩⟩
    · unfold Arg.tokens; rw [hf]; rfl
    · unfold Arg.marker; rw [hf]; rfl
  · exact absurd hvoid hv

/-! ## Parameter lists -/

def paramsTree : List Tree → Tree
  | [] => .branch Symbol.paramList 1 []
  | p :: ps => .branch Symbol.paramList 0 [p, paramsTree ps]

theorem formed_paramsTree {l : List Tree}
    (h : ∀ p ∈ l, p.Formed ∧ p.symbol = Symbol.paramObject) :
    (paramsTree l).Formed ∧ (paramsTree l).symbol = Symbol.paramList := by
  induction l with
  | nil => exact ⟨formed_branch.mpr ⟨by decide, nofun⟩, rfl⟩
  | cons p ps ih =>
    obtain ⟨hp, hps⟩ := h p List.mem_cons_self
    obtain ⟨h1, h2⟩ := ih fun q hq => h q (List.mem_cons_of_mem _ hq)
    refine ⟨formed_branch.mpr ⟨?_, by simpa using ⟨hp, h1⟩⟩, rfl⟩
    rw [List.map_cons, List.map_singleton, hps, h2]
    decide

theorem elements_paramsTree (ps : List Tree) : (paramsTree ps).elements = ps := by
  induction ps with
  | nil =>
    rw [paramsTree, Tree.elements]
    intro _ _ _ _ h
    cases h
  | cons p ps ih => rw [paramsTree, Tree.elements, ih]

theorem graft_paramsTree (σ : Symbol → Option Nat → Tree) (ps : List Tree) :
    (paramsTree ps).graft σ = paramsTree (ps.map (Tree.graft σ)) := by
  induction ps with
  | nil => rw [paramsTree, Tree.graft_branch]; rfl
  | cons p ps ih =>
    rw [paramsTree, Tree.graft_branch, List.map_cons, List.map_singleton, ih, List.map_cons,
      paramsTree]

/-- a formed parameter list is the tree of its elements, each a parameter -/
theorem eq_paramsTree {t : Tree} (ht : t.Formed) (hs : t.symbol = Symbol.paramList) :
    t = paramsTree t.elements ∧
      ∀ p ∈ t.elements, p.Formed ∧ p.symbol = Symbol.paramObject := by
  induction t using Tree.induct with
  | leaf s tok =>
    have hs : s = Symbol.paramList := hs
    exact absurd (by rw [hs]; decide) (formed_leaf.mp ht).1
  | head s i tok =>
    have hs : s = Symbol.paramList := hs
    have := (formed_head.mp ht).1
    rw [hs] at this
    exact absurd this (by decide)
  | branch s i cs ih =>
    have hs : s = Symbol.paramList := hs
    subst hs
    obtain ⟨halt, hcs⟩ := formed_branch.mp ht
    have hshape : (i = 0 ∧ cs.map Tree.symbol = [Symbol.paramObject, Symbol.paramList]) ∨
        (i = 1 ∧ cs.map Tree.symbol = []) := by
      have halts : alternatives Symbol.paramList =
          [[Symbol.paramObject, Symbol.paramList], []] := by decide
      rw [halts] at halt
      rcases i with _ | _ | i
      · exact .inl ⟨rfl, (Option.some.inj halt).symm⟩
      · exact .inr ⟨rfl, (Option.some.inj halt).symm⟩
      · cases halt
    rcases hshape with ⟨rfl, hbody⟩ | ⟨rfl, hbody⟩
    · obtain ⟨p, rest, rfl⟩ : ∃ p rest, cs = [p, rest] := List.length_eq_two.mp (by
        simpa using congrArg List.length hbody)
      obtain ⟨hp, hrest⟩ : p.symbol = Symbol.paramObject ∧ rest.symbol = Symbol.paramList := by
        simpa using hbody
      have hmem : rest ∈ [p, rest] := List.mem_cons_of_mem _ List.mem_cons_self
      obtain ⟨h1, h2⟩ := ih rest hmem (hcs rest hmem) hrest
      rw [Tree.elements]
      refine ⟨by rw [paramsTree, ← h1], fun q hq => ?_⟩
      rcases List.mem_cons.mp hq with rfl | hq
      · exact ⟨hcs q List.mem_cons_self, hp⟩
      · exact h2 q hq
    · rw [List.map_eq_nil_iff.mp hbody]
      have hnil : (Tree.branch Symbol.paramList 1 []).elements = [] := elements_paramsTree []
      rw [hnil]
      exact ⟨rfl, fun _ hq => (List.not_mem_nil hq).elim⟩

theorem yield_paramsTree (ps : List Tree) :
    (paramsTree ps).yield = (ps.map Tree.yield).flatten := by
  induction ps with
  | nil => rw [paramsTree, Tree.yield, Tree.yieldAll_nil]; rfl
  | cons p ps ih =>
    rw [paramsTree, Tree.yield, Tree.yieldAll_cons, Tree.yieldAll_cons, Tree.yieldAll_nil, ih,
      List.append_nil, List.map_cons, List.flatten_cons]

/-! ## Unvoiding -/

/-- a token with an arithmetic type for `VOID` -/
def unvoidToken (t : Token) : Token :=
  if t.text = Keyword.void then ⟨Kind.bool.token, none⟩ else t

def unvoidTree : Tree :=
  .branch Symbol.type 0 [.branch Symbol.object 0
    [.branch Symbol.arithmetic 0 [.leaf Kind.bool.token ⟨Kind.bool.token, none⟩]]]

mutual
/-- a tree with an arithmetic type for every `VOID` -/
def Tree.unvoid : Tree → Tree
  | .leaf s t => .leaf s t
  | .branch s i cs =>
    if s = Symbol.type ∧ i = 2 then unvoidTree else .branch s i (Tree.unvoidAll cs)
  | .head s i t => .head s i t

def Tree.unvoidAll : List Tree → List Tree
  | [] => []
  | c :: cs => c.unvoid :: Tree.unvoidAll cs
end

theorem Tree.unvoidAll_eq_map (cs : List Tree) : Tree.unvoidAll cs = cs.map Tree.unvoid := by
  induction cs with
  | nil => rw [unvoidAll]; rfl
  | cons c cs ih => rw [unvoidAll, ih, List.map_cons]

theorem formed_unvoidTree : unvoidTree.Formed := by
  have hleaf := (spells_keyword (k := Kind.bool.token) (by decide)).formed
  have harith : (Tree.branch Symbol.arithmetic 0
      [.leaf Kind.bool.token ⟨Kind.bool.token, none⟩]).Formed :=
    formed_single (by decide) hleaf
  have hobject : (Tree.branch Symbol.object 0 [.branch Symbol.arithmetic 0
      [.leaf Kind.bool.token ⟨Kind.bool.token, none⟩]]).Formed :=
    formed_single (by decide) harith
  exact formed_single (by decide) hobject

theorem symbol_unvoid (t : Tree) : t.unvoid.symbol = t.symbol := by
  cases t with
  | leaf s tok => rw [Tree.unvoid]
  | head s i tok => rw [Tree.unvoid]
  | branch s i cs =>
    rw [Tree.unvoid]
    split
    · next h => rw [h.1]; rfl
    · rfl

theorem formed_unvoid {t : Tree} (ht : t.Formed) : t.unvoid.Formed := by
  induction t using Tree.induct with
  | leaf s tok => rw [Tree.unvoid]; exact ht
  | head s i tok => rw [Tree.unvoid]; exact ht
  | branch s i cs ih =>
    rw [Tree.unvoid]
    split
    · exact formed_unvoidTree
    · obtain ⟨halt, hcs⟩ := formed_branch.mp ht
      rw [Tree.unvoidAll_eq_map, formed_branch, List.map_map]
      refine ⟨?_, fun d hd => ?_⟩
      · rw [halt]
        exact congrArg some (List.map_congr_left fun c _ => (symbol_unvoid c).symm)
      · obtain ⟨c, hc, rfl⟩ := List.mem_map.mp hd
        exact ih c hc (hcs c hc)

/-- `VOID` stands in one alternative only -/
theorem void_not_mem : ∀ r ∈ signatureRules, ∀ x ∈ r.alts.zipIdx,
    ¬ (r.head = Symbol.type ∧ x.2 = 2) → Keyword.void ∉ x.1 := by
  decide

theorem yield_unvoid {t : Tree} (ht : t.Formed) (hs : t.symbol ≠ Keyword.void) :
    t.unvoid.yield = t.yield.map unvoidToken := by
  induction t using Tree.induct with
  | leaf s tok =>
    have htext : tok.text ≠ Keyword.void := by
      intro h
      have hc := (formed_leaf.mp ht).2
      rw [h, classify_keyword (by decide)] at hc
      exact hs hc.symm
    rw [Tree.unvoid, Tree.yield, List.map_singleton, unvoidToken, if_neg htext]
  | head s i tok =>
    obtain ⟨hw, _, htext⟩ := formed_head.mp ht
    have hne : tok.text ≠ Keyword.void := by
      intro h
      rw [← htext, h] at hw
      exact absurd hw (by decide)
    rw [Tree.unvoid, Tree.yield, List.map_singleton, unvoidToken, if_neg hne]
  | branch s i cs ih =>
    obtain ⟨halt, hcs⟩ := formed_branch.mp ht
    rw [Tree.unvoid]
    split
    · next h =>
      obtain ⟨rfl, rfl⟩ := h
      have hbody : cs.map Tree.symbol = [Keyword.void] := by
        have : (alternatives Symbol.type)[2]? = some [Keyword.void] := by decide
        rw [this] at halt
        exact (Option.some.inj halt).symm
      obtain ⟨c, rfl⟩ : ∃ c, cs = [c] := List.length_eq_one_iff.mp (by
        simpa using congrArg List.length hbody)
      have hsym : c.symbol = Keyword.void := by simpa using hbody
      have hc := hcs c List.mem_cons_self
      cases c with
      | leaf s' tok =>
        have hsym : s' = Keyword.void := hsym
        subst hsym
        have htext := (formed_keyword (by decide)).mp hc
        rw [Tree.yield, Tree.yieldAll_cons, Tree.yieldAll_nil, Tree.yield, List.append_nil,
          List.map_singleton, unvoidToken, if_pos htext]
        rfl
      | branch s' i' cs' =>
        have hmem := formed_symbol_mem hc rfl
        rw [hsym] at hmem
        exact absurd hmem (by decide)
      | head s' i' tok =>
        have hmem := formed_symbol_mem hc rfl
        rw [hsym] at hmem
        exact absurd hmem (by decide)
    · next h =>
      rw [Tree.unvoidAll_eq_map, Tree.yield, Tree.yield, Tree.yieldAll_eq_flatMap,
        Tree.yieldAll_eq_flatMap, List.flatMap_map, List.map_flatMap]
      refine List.flatMap_congr fun c hc => ih c hc (hcs c hc) fun hsym => ?_
      obtain ⟨r, hr, rfl, hbody⟩ := exists_rule halt
      refine void_not_mem r hr (cs.map Tree.symbol, i) (List.mem_zipIdx_iff_getElem?.mpr hbody) h ?_
      rw [← hsym]
      exact List.mem_map_of_mem hc

theorem unvoid_eq_leaf {t : Tree} {s : Symbol} {tok : Token} (h : t.unvoid = .leaf s tok) :
    t = .leaf s tok := by
  cases t with
  | leaf s' tok' => rw [Tree.unvoid] at h; exact h
  | head s' i tok' => rw [Tree.unvoid] at h; cases h
  | branch s' i cs =>
    rw [Tree.unvoid] at h
    split at h <;> cases h

theorem unvoid_eq_branch {t : Tree} {s : Symbol} {i : Nat} {cs : List Tree}
    (hs : s ≠ Symbol.type) (h : t.unvoid = .branch s i cs) :
    ∃ ds, t = .branch s i ds ∧ ds.map Tree.unvoid = cs := by
  cases t with
  | leaf s' tok' => rw [Tree.unvoid] at h; cases h
  | head s' i' tok' => rw [Tree.unvoid] at h; cases h
  | branch s' i' ds =>
    have hsym := symbol_unvoid (.branch s' i' ds)
    rw [h] at hsym
    have hne : ¬ (s' = Symbol.type ∧ i' = 2) := fun e => hs (hsym.trans e.1)
    rw [Tree.unvoid, if_neg hne, Tree.unvoidAll_eq_map] at h
    cases h
    exact ⟨ds, rfl, rfl⟩

theorem unvoid_paramsTree (ps : List Tree) :
    (paramsTree ps).unvoid = paramsTree (ps.map Tree.unvoid) := by
  induction ps with
  | nil => rw [paramsTree, Tree.unvoid, if_neg (by decide), Tree.unvoidAll]; rfl
  | cons p ps ih =>
    rw [paramsTree, Tree.unvoid, if_neg (by decide), Tree.unvoidAll_eq_map, List.map_cons,
      List.map_singleton, ih, List.map_cons, paramsTree]

/-! ## The tree of a call -/

def formTokens (ret : List Token) (tss : List Binding) : List Token :=
  ⟨Keyword.function, none⟩ :: (ret ++ ⟨Keyword.lparen, none⟩ ::
    (tss.flatten ++ [⟨Keyword.rparen, none⟩]))

def formTree (ret params : Tree) : Tree :=
  .branch Symbol.function 0 [.leaf Keyword.function ⟨Keyword.function, none⟩, ret,
    .leaf Keyword.lparen ⟨Keyword.lparen, none⟩, params,
    .leaf Keyword.rparen ⟨Keyword.rparen, none⟩]

/-- the return of a call that leaves it open -/
def openReturn : Tree := .head Symbol.return_ 3 ⟨Symbol.return_, some 0⟩

/-- the tokens of a call without a given return, prepared for parsing -/
def callTokens (tss : List Binding) : List Token := formTokens [⟨Symbol.return_, some 0⟩] tss

def callTree (params : Tree) : Tree := formTree openReturn params

theorem formed_formTree {ret params : Tree} : (formTree ret params).Formed ↔
    (ret.Formed ∧ ret.symbol = Symbol.return_) ∧
      params.Formed ∧ params.symbol = Symbol.paramList := by
  have h1 := (spells_keyword (k := Keyword.function) (by decide)).formed
  have h3 := (spells_keyword (k := Keyword.lparen) (by decide)).formed
  have h5 := (spells_keyword (k := Keyword.rparen) (by decide)).formed
  have halt : (alternatives Symbol.function)[0]? = some [Keyword.function, Symbol.return_,
    Keyword.lparen, Symbol.paramList, Keyword.rparen] := by decide
  unfold formTree
  rw [formed_branch, halt]
  constructor
  · rintro ⟨hbody, hcs⟩
    have hbody : [Keyword.function, Symbol.return_, Keyword.lparen, Symbol.paramList,
        Keyword.rparen] = [Keyword.function, ret.symbol, Keyword.lparen, params.symbol,
          Keyword.rparen] := Option.some.inj hbody
    simp only [List.cons.injEq, true_and, and_true] at hbody
    exact ⟨⟨hcs ret (by simp), hbody.1.symm⟩, hcs params (by simp), hbody.2.symm⟩
  · rintro ⟨⟨hr, hrs⟩, hp, hps⟩
    refine ⟨?_, by simpa using ⟨h1, hr, h3, hp, h5⟩⟩
    rw [List.map_cons, List.map_cons, List.map_cons, List.map_cons, hrs, hps]
    rfl

theorem formed_openReturn : openReturn.Formed ∧ openReturn.symbol = Symbol.return_ :=
  ⟨formed_head.mpr ⟨by decide, by decide, rfl⟩, rfl⟩

theorem formed_callTree {params : Tree} (h : params.Formed)
    (hs : params.symbol = Symbol.paramList) : (callTree params).Formed :=
  formed_formTree.mpr ⟨formed_openReturn, h, hs⟩

theorem yield_formTree (ret : Tree) (ps : List Tree) :
    (formTree ret (paramsTree ps)).yield = formTokens ret.yield (ps.map Tree.yield) := by
  unfold formTree formTokens
  rw [Tree.yield]
  simp only [Tree.yieldAll_cons, Tree.yieldAll_nil, Tree.yield, yield_paramsTree]
  rfl

theorem formTokens_inj {ret ret' : List Token} {tss uss : List Binding}
    (hlen : ret.length = ret'.length) (h : formTokens ret tss = formTokens ret' uss) :
    ret = ret' ∧ tss.flatten = uss.flatten := by
  unfold formTokens at h
  obtain ⟨hret, hrest⟩ := List.append_inj (List.cons.inj h).2 hlen
  exact ⟨hret, by simpa using hrest⟩

theorem unvoid_eq_formTree {t ret params : Tree} (h : t.unvoid = formTree ret params) :
    ∃ ret' params', t = formTree ret' params' ∧ ret'.unvoid = ret ∧ params'.unvoid = params := by
  obtain ⟨cs, rfl, hcs⟩ := unvoid_eq_branch (by decide) h
  obtain ⟨f, _, rfl, hf, hcs⟩ := List.map_eq_cons_iff.mp hcs
  obtain ⟨ret', _, rfl, hr, hcs⟩ := List.map_eq_cons_iff.mp hcs
  obtain ⟨l, _, rfl, hl, hcs⟩ := List.map_eq_cons_iff.mp hcs
  obtain ⟨params', _, rfl, hp, hcs⟩ := List.map_eq_cons_iff.mp hcs
  obtain ⟨e, _, rfl, he, hcs⟩ := List.map_eq_cons_iff.mp hcs
  rw [List.map_eq_nil_iff.mp hcs, unvoid_eq_leaf hf, unvoid_eq_leaf hl, unvoid_eq_leaf he]
  exact ⟨ret', params', rfl, hr, hp⟩

def markerAlt : Ref → Nat
  | .none => 0
  | .mutable => 2
  | .constant => 3

/-- a parameter over the tokens of an argument, unvoided -/
structure Arg.StandIn (a : Arg) (q : Tree) : Prop where
  formed : q.Formed
  symbol_eq : q.symbol = Symbol.paramObject
  yield_eq : q.yield = (Binding.ofTexts a.tokens).map unvoidToken
  void_alt : a.type = .void → ∃ cs, q = .branch Symbol.paramObject (markerAlt a.ref) cs

theorem exists_standIn {a : Arg} (ha : a.type.WellFormed) : ∃ q, a.StandIn q := by
  by_cases hv : a.type = .void
  · -- an arithmetic argument with the same marker
    obtain ⟨t, ht⟩ := denotes_arith .bool
    have ho := ht.wrap (s := Symbol.object) (i := 0) (by decide) (by decide) (by decide)
    obtain ⟨h1, h2, h3⟩ := shownBy_object (a := ⟨.arith .bool, a.ref⟩) ho rfl
    obtain ⟨ty, ref⟩ := a
    cases hv
    cases ref with
    | none =>
      have h := (h1 rfl).spells
      exact ⟨_, h.formed, h.symbol_eq, h.yield_eq.trans (by decide), fun _ => ⟨_, rfl⟩⟩
    | mutable =>
      have h := (h2 rfl).spells
      exact ⟨_, h.formed, h.symbol_eq, h.yield_eq.trans (by decide), fun _ => ⟨_, rfl⟩⟩
    | constant =>
      have h := (h3 rfl).spells
      exact ⟨_, h.formed, h.symbol_eq, h.yield_eq.trans (by decide), fun _ => ⟨_, rfl⟩⟩
  · obtain ⟨p, hp⟩ := exists_shownBy ha hv
    have hs := hp.spells
    refine ⟨p.unvoid, formed_unvoid hs.formed, (symbol_unvoid p).trans hs.symbol_eq, ?_,
      fun h => absurd h hv⟩
    rw [yield_unvoid hs.formed (by rw [hs.symbol_eq]; decide), hs.yield_eq]

theorem exists_standIns {args : List Arg} (h : ∀ a ∈ args, a.type.WellFormed) :
    ∃ qs, List.Forall₂ Arg.StandIn args qs := by
  induction args with
  | nil => exact ⟨[], .nil⟩
  | cons a args ih =>
    obtain ⟨q, hq⟩ := exists_standIn (h a List.mem_cons_self)
    obtain ⟨qs, hqs⟩ := ih fun b hb => h b (List.mem_cons_of_mem _ hb)
    exact ⟨q :: qs, .cons hq hqs⟩

theorem standIns_spec {args : List Arg} {qs : List Tree} (h : List.Forall₂ Arg.StandIn args qs) :
    (∀ q ∈ qs, q.Formed ∧ q.symbol = Symbol.paramObject) ∧
      qs.map Tree.yield = args.map fun a => (Binding.ofTexts a.tokens).map unvoidToken := by
  induction h with
  | nil => exact ⟨nofun, rfl⟩
  | @cons a q args qs hq _ ih =>
    refine ⟨fun x hx => ?_, by rw [List.map_cons, List.map_cons, hq.yield_eq, ih.2]⟩
    rcases List.mem_cons.mp hx with rfl | hx
    · exact ⟨hq.formed, hq.symbol_eq⟩
    · exact ih.1 x hx

theorem map_unvoid_formTokens (ret : List Token) (tss : List Binding) :
    (formTokens ret tss).map unvoidToken =
      formTokens (ret.map unvoidToken) (tss.map (List.map unvoidToken)) := by
  unfold formTokens
  rw [List.map_cons, List.map_append, List.map_cons, List.map_append, List.map_flatten]
  rfl

/-- a formed tree over the tokens of a call is a form of its return and of parameters over the
tokens of its arguments -/
theorem formTree_of_yield {args : List Arg} (hargs : ∀ a ∈ args, a.type.WellFormed)
    {ret root : Tree} (hret : ret.Formed ∧ ret.symbol = Symbol.return_) (hroot : root.Formed)
    (hs : root.symbol = Symbol.function)
    (hyield : root.yield = formTokens ret.yield (args.map fun a => Binding.ofTexts a.tokens)) :
    ∃ ps, root = formTree ret (paramsTree ps) ∧
      (∀ p ∈ ps, p.Formed ∧ p.symbol = Symbol.paramObject) ∧
      ps.map Tree.yield = (args.map fun a => Binding.ofTexts a.tokens) ∧
      List.Forall₂ Arg.StandIn args (ps.map Tree.unvoid) := by
  obtain ⟨qs, hqs⟩ := exists_standIns hargs
  obtain ⟨hformed, hyields⟩ := standIns_spec hqs
  have hvoid : ∀ {t : Tree}, t.symbol = Symbol.return_ → t.symbol ≠ Keyword.void := by
    intro t ht
    rw [ht]
    decide
  have heq : root.unvoid = formTree ret.unvoid (paramsTree qs) := by
    have hform := formed_formTree.mpr
      ⟨⟨formed_unvoid hret.1, (symbol_unvoid ret).trans hret.2⟩, formed_paramsTree hformed⟩
    refine derives_unique compiled_signature (show Symbol.function ∈ signatureWildcards by decide)
      ⟨formed_unvoid hroot, (symbol_unvoid root).trans hs, rfl⟩ ⟨hform, rfl, ?_⟩
    rw [yield_unvoid hroot (by rw [hs]; decide), hyield, map_unvoid_formTokens, yield_formTree,
      yield_unvoid hret.1 (hvoid hret.2), hyields, List.map_map]
    rfl
  obtain ⟨ret', params, rfl, hret', hparams⟩ := unvoid_eq_formTree heq
  obtain ⟨⟨hrf, hrs⟩, hp, hpsym⟩ := formed_formTree.mp hroot
  obtain ⟨hps, hmem⟩ := eq_paramsTree hp hpsym
  have hunvoid : params.elements.map Tree.unvoid = qs := by
    rw [hps, unvoid_paramsTree] at hparams
    rw [← elements_paramsTree qs, ← hparams, elements_paramsTree]
  rw [hps, yield_formTree] at hyield
  have hretlen : ret'.yield.length = ret.yield.length := by
    have := congrArg (fun t => t.yield.length) hret'
    rwa [yield_unvoid hrf (hvoid hrs), yield_unvoid hret.1 (hvoid hret.2), List.length_map,
      List.length_map] at this
  obtain ⟨hretyield, hflatten⟩ := formTokens_inj hretlen hyield
  have hrets : ret' = ret := by
    have hwild : Symbol.return_ ∈ signatureWildcards := by decide
    exact derives_unique compiled_signature hwild ⟨hrf, hrs, hretyield⟩ ⟨hret.1, hret.2, rfl⟩
  refine ⟨params.elements, by rw [← hps, hrets], hmem, ?_, by rw [hunvoid]; exact hqs⟩
  refine List.eq_iff_flatten_eq.mpr ⟨hflatten, ?_⟩
  have hlen : (params.elements.map Tree.yield).map List.length =
      (qs.map Tree.yield).map List.length := by
    rw [← hunvoid, List.map_map, List.map_map, List.map_map]
    refine List.map_congr_left fun p hp => ?_
    obtain ⟨h1, h2⟩ := hmem p hp
    show p.yield.length = p.unvoid.yield.length
    rw [yield_unvoid h1 (by rw [h2]; decide), List.length_map]
  rw [hlen, hyields, List.map_map, List.map_map]
  exact List.map_congr_left fun a _ => List.length_map _

/-! ## No argument is nothing -/

/-- `VOID` is no object: it has a tree as a type already -/
theorem object_not_void {o : Tree} (ho : o.Formed) (hs : o.symbol = Symbol.object)
    (hy : o.yield = Binding.ofTexts [Keyword.void]) : False := by
  have hleaf := (spells_keyword (k := Keyword.void) (by decide)).formed
  have htype : (Tree.branch Symbol.type 0 [o]).Formed := by
    refine formed_branch.mpr ⟨?_, by simpa using ho⟩
    rw [List.map_singleton, hs]
    decide
  have hvoid : (Tree.branch Symbol.type 2 [.leaf Keyword.void ⟨Keyword.void, none⟩]).Formed :=
    formed_single (by decide) hleaf
  have heq := derives_unique compiled_signature (show Symbol.type ∈ signatureWildcards by decide)
    ⟨htype, rfl, rfl⟩ ⟨hvoid, rfl, by
      rw [Tree.yield, Tree.yield, Tree.yieldAll_cons, Tree.yieldAll_cons, Tree.yieldAll_nil, hy]
      rfl⟩
  cases heq

theorem marked_children {k : String} {i : Nat} {cs : List Tree} (hk : k ∈ signatureKeywords)
    (hnot : k ∉ signatureRules.map Rule.head)
    (halt : (alternatives Symbol.paramObject)[i]? = some [k, Symbol.object])
    (h : (Tree.branch Symbol.paramObject i cs).Formed) :
    ∃ tok o, cs = [.leaf k tok, o] ∧ tok.text = k ∧ o.Formed ∧ o.symbol = Symbol.object := by
  obtain ⟨hbody, hcs⟩ := formed_branch.mp h
  rw [halt] at hbody
  have hbody := (Option.some.inj hbody).symm
  obtain ⟨m, o, rfl⟩ := List.length_eq_two.mp (by simpa using congrArg List.length hbody)
  obtain ⟨hm, ho⟩ : m.symbol = k ∧ o.symbol = Symbol.object := by simpa using hbody
  have hmf := hcs m List.mem_cons_self
  have hof := hcs o (List.mem_cons_of_mem _ List.mem_cons_self)
  cases m with
  | leaf s tok =>
    have hm : s = k := hm
    subst hm
    exact ⟨tok, o, rfl, (formed_keyword hk).mp hmf, hof, ho⟩
  | branch s i' cs' => exact absurd (hm ▸ formed_symbol_mem hmf rfl) hnot
  | head s i' tok => exact absurd (hm ▸ formed_symbol_mem hmf rfl) hnot

theorem marked_not_void {k : String} {i : Nat} {cs : List Tree} (hk : k ∈ signatureKeywords)
    (hnot : k ∉ signatureRules.map Rule.head)
    (halt : (alternatives Symbol.paramObject)[i]? = some [k, Symbol.object])
    (h : (Tree.branch Symbol.paramObject i cs).Formed)
    (hy : (Tree.branch Symbol.paramObject i cs).yield = Binding.ofTexts [k, Keyword.void]) :
    False := by
  obtain ⟨tok, o, rfl, _, ho, hs⟩ := marked_children hk hnot halt h
  rw [Tree.yield, Tree.yieldAll_cons, Tree.yieldAll_cons, Tree.yieldAll_nil, Tree.yield,
    List.append_nil] at hy
  exact object_not_void ho hs (List.cons.inj hy).2

theorem not_void_of_standIn {a : Arg} {p : Tree} (hp : p.Formed)
    (hy : p.yield = Binding.ofTexts a.tokens) (hq : a.StandIn p.unvoid) : a.type ≠ .void := by
  intro hv
  obtain ⟨cs', hcs'⟩ := hq.void_alt hv
  obtain ⟨cs, rfl, -⟩ := unvoid_eq_branch (by decide) hcs'
  obtain ⟨ty, ref⟩ := a
  cases hv
  cases ref with
  | none =>
    obtain ⟨hbody, hcs⟩ := formed_branch.mp hp
    have halt : (alternatives Symbol.paramObject)[markerAlt .none]? = some [Symbol.object] := by
      decide
    rw [halt] at hbody
    have hbody := (Option.some.inj hbody).symm
    obtain ⟨o, rfl⟩ := List.length_eq_one_iff.mp (by simpa using congrArg List.length hbody)
    rw [Tree.yield, Tree.yieldAll_cons, Tree.yieldAll_nil, List.append_nil] at hy
    exact object_not_void (hcs o List.mem_cons_self) (by simpa using hbody) hy
  | mutable =>
    exact marked_not_void (k := Keyword.lref) (by decide) (by decide) (by decide) hp hy
  | constant =>
    exact marked_not_void (k := Keyword.clref) (by decide) (by decide) (by decide) hp hy

/-- the parameters of a tree over the tokens of a call show its arguments, none of them nothing -/
theorem shownBy_of_yield {args : List Arg} (hargs : ∀ a ∈ args, a.type.WellFormed)
    {ret root : Tree} (hret : ret.Formed ∧ ret.symbol = Symbol.return_) (hroot : root.Formed)
    (hs : root.symbol = Symbol.function)
    (hyield : root.yield = formTokens ret.yield (args.map fun a => Binding.ofTexts a.tokens)) :
    ∃ ps, root = formTree ret (paramsTree ps) ∧
      List.Forall₂ (fun a p => a.ShownBy p ∧ a.type ≠ .void) args ps := by
  obtain ⟨ps, hps, hmem, hyields, hstand⟩ := formTree_of_yield hargs hret hroot hs hyield
  refine ⟨ps, hps, ?_⟩
  clear hps hyield hs hroot
  rw [List.forall₂_map_right_iff] at hstand
  induction hstand with
  | nil => exact .nil
  | @cons a p args ps hq _ ih =>
    rw [List.map_cons, List.map_cons] at hyields
    obtain ⟨hy, hrest⟩ := List.cons.inj hyields
    obtain ⟨hp, hsym⟩ := hmem p List.mem_cons_self
    refine .cons ?_ (ih (fun b hb => hargs b (List.mem_cons_of_mem _ hb))
      (fun q hq => hmem q (List.mem_cons_of_mem _ hq)) hrest)
    have hv := not_void_of_standIn hp hy hq
    obtain ⟨p', hp'⟩ := exists_shownBy (hargs a List.mem_cons_self) hv
    have hwild : Symbol.paramObject ∈ signatureWildcards := by decide
    have := derives_unique compiled_signature hwild
      ⟨hp, hsym, hy⟩ ⟨hp'.spells.formed, hp'.spells.symbol_eq, hp'.spells.yield_eq⟩
    rw [this]
    exact ⟨hp', hv⟩

/-! ## Compiled calls -/

theorem Tree.Spells.free {s : Symbol} {ts : List String} {t : Tree} (h : t.Spells s ts)
    (hs : s ∈ signatureRules.map Rule.head) : ∀ x ∈ ts, x ∉ signatureWildcards := by
  intro x hx
  have hord : Tree.Ordinary t.symbol := by
    rw [h.symbol_eq]
    exact Tree.ordinary_of_mem_heads hs
  have hall := (Tree.heads_eq_nil_iff h.formed hord).mp h.heads_eq
  rw [h.yield_eq] at hall
  exact hall ⟨x, none⟩ (List.mem_map_of_mem hx)

theorem Arg.free {a : Arg} (h : a.type.WellFormed) : ∀ x ∈ a.tokens, x ∉ signatureWildcards := by
  obtain ⟨_, t, ht⟩ := hasTrees a.type h
  have hfree := ht.toSpells.free (by decide)
  have hmarked : ∀ k, k ∉ signatureWildcards →
      ∀ x ∈ k :: a.type.tokens, x ∉ signatureWildcards := by
    intro k hk x hx
    rcases List.mem_cons.mp hx with rfl | hx
    · exact hk
    · exact hfree x hx
  unfold Arg.tokens
  split
  · exact hfree
  split
  · exact hfree
  · exact hmarked _ (by decide)
  · exact hmarked _ (by decide)

namespace Grammar

theorem resolveReference_nil (t number : String) (x : Nat × Symbol) :
    resolveReference [] t number ≠ .ok x := by
  unfold resolveReference
  split
  · split
    · next h => rw [List.getElem?_nil] at h; cases h
    · exact nofun
  · exact nofun

/-- without declarations a body is read token by token, a wildcardable name as the next wildcard -/
theorem readBody_nil_cons {strict : Bool} {r : References} {t : String} {rest : List String}
    {tokens : List Token} (h : signature.readBody [] strict r (t :: rest) = .ok tokens) :
    (t ∈ signatureWildcards ∧ ∃ tail,
      signature.readBody [] strict { r with next := r.next + 1 } rest = .ok tail ∧
        tokens = ⟨t, some r.next⟩ :: tail) ∨
    (t ∉ signatureWildcards ∧ ∃ tail, signature.readBody [] strict r rest = .ok tail ∧
        tokens = ⟨t, none⟩ :: tail) := by
  rw [readBody] at h
  split at h
  · cases h
  split at h
  · obtain ⟨x, hx, _⟩ := bind_eq_ok.mp h
    exact absurd hx (resolveReference_nil _ _ x)
  split at h
  · next hw =>
    obtain ⟨tail, htail, h⟩ := bind_eq_ok.mp h
    exact .inl ⟨mayBeWildcard_signature.mp hw, tail, htail, (Except.ok.inj h).symm⟩
  · next hw =>
    obtain ⟨tail, htail, h⟩ := bind_eq_ok.mp h
    exact .inr ⟨fun hmem => hw (mayBeWildcard_signature.mpr hmem), tail, htail,
      (Except.ok.inj h).symm⟩

theorem readBody_nil_free {strict : Bool} {r : References} {src : List String}
    {tokens : List Token} (hfree : ∀ t ∈ src, t ∉ signatureWildcards)
    (h : signature.readBody [] strict r src = .ok tokens) : tokens = Binding.ofTexts src := by
  induction src generalizing tokens with
  | nil => rw [readBody] at h; cases h; rfl
  | cons t rest ih =>
    rcases readBody_nil_cons h with ⟨hw, _⟩ | ⟨_, tail, htail, rfl⟩
    · exact absurd hw (hfree t List.mem_cons_self)
    · rw [ih (fun u hu => hfree u (List.mem_cons_of_mem _ hu)) htail]
      rfl

theorem callTokens_of_compile {args : List Arg} {strict : Bool} {call : Signature}
    (hargs : ∀ a ∈ args, a.type.WellFormed)
    (h : signature.compile (openCallForm args) Symbol.function strict = .ok call) :
    call.tokens = callTokens (args.map fun a => Binding.ofTexts a.tokens) := by
  unfold compile at h
  obtain ⟨pre, hpre, h⟩ := bind_eq_ok.mp h
  have htokens : call.tokens = pre.tokens := by
    split at h <;> cases h
    rfl
  rw [htokens]
  unfold prepareBody at hpre
  obtain ⟨⟨declared, body⟩, hdecl, hpre⟩ := bind_eq_ok.mp hpre
  obtain ⟨tokens, hbody, hpre⟩ := bind_eq_ok.mp hpre
  cases hpre
  obtain ⟨rfl, rfl⟩ : declared = [] ∧ body = openCallForm args := by
    have hnone : declarator? Keyword.function = none := by decide
    unfold openCallForm callForm at hdecl ⊢
    rw [readDeclarators, hnone] at hdecl
    cases hdecl
    exact ⟨rfl, rfl⟩
  rcases readBody_nil_cons hbody with ⟨hw, _⟩ | ⟨_, rest, hrest, rfl⟩
  · exact absurd hw (by decide)
  rcases readBody_nil_cons hrest with ⟨_, rest', hrest', rfl⟩ | ⟨hw, _⟩
  rotate_left
  · exact absurd (by decide) hw
  have hfree : ∀ t ∈ Keyword.lparen :: (args.flatMap Arg.tokens ++ [Keyword.rparen]),
      t ∉ signatureWildcards := by
    intro t ht
    rcases List.mem_cons.mp ht with rfl | ht
    · decide
    rcases List.mem_append.mp ht with ht | ht
    · obtain ⟨a, ha, ht⟩ := List.mem_flatMap.mp ht
      exact a.free (hargs a ha) t ht
    · rw [List.mem_singleton.mp ht]
      decide
  rw [readBody_nil_free hfree hrest']
  unfold callTokens formTokens Binding.ofTexts
  rw [List.map_cons, List.map_append, List.map_flatMap, List.flatMap_def]
  rfl

end Grammar

/-- **The parameters of a compiled call are its arguments**, and its return is left open. -/
theorem params_shownBy {args : List Arg} {strict : Bool} {call : Signature}
    (hargs : ∀ a ∈ args, a.type.WellFormed)
    (h : signature.compile (openCallForm args) Symbol.function strict = .ok call) :
    call.isFunction = true ∧
      call.returnTree? = some (.head Symbol.return_ 3 ⟨Symbol.return_, some 0⟩) ∧
      List.Forall₂ Arg.ShownBy args call.params := by
  have hc := compiledFrom_of_compile (by decide) h
  obtain ⟨ps, hps, hshown⟩ := shownBy_of_yield hargs formed_openReturn hc.formed hc.symbol_eq
    (hc.yield_eq.trans (callTokens_of_compile hargs h))
  have hunwrap : call.root.unwrap = callTree (paramsTree ps) := by
    rw [hps]
    rfl
  have hfun : call.isFunction = true := by
    unfold Signature.isFunction
    rw [hunwrap]
    rfl
  refine ⟨hfun, ?_, ?_⟩
  · unfold Signature.returnTree?
    rw [if_pos hfun, hunwrap]
    rfl
  · have hparams : call.params = ps := by
      unfold Signature.params
      rw [if_pos hfun, hunwrap]
      exact elements_paramsTree ps
    rw [hparams]
    exact hshown.imp fun _ _ h => h.1

end Overloading
