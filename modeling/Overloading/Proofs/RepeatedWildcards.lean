import Overloading.Proofs.AdmissionFaults
import Overloading.Proofs.Instantiation
import Overloading.Proofs.PlainDeclarations

/-!
# Wildcards that are a whole parameter

A wildcard may be all there is to a parameter, and be so at several places of one declaration.  The
first argument that matches it settles what it stands for.  A later argument with the same tokens
is passed as it is; one with other tokens does not match, and is converted to the type the wildcard
stands for, if there is a conversion.  So two such arguments are written alike unless one of them
is converted, and are not if just one of them is.

* `unify_whole`          what a wildcard may stand for matches it, with a marker or without;
* `Tree.IsActual`        a parameter of a call, which has no wildcards of its own;
* `draft_whole`          an argument of such a parameter is settled by its tokens or is put aside
                         as it does not match;
* `draftAll_at`          the bindings at one place of the first pass;
* `Tree.Stands`          how an argument comes to a parameter that is a wildcard;
* `repeated_wildcards`   the arguments of one wildcard, at any two places.
-/

namespace Overloading

open Grammar

/-! ## Trees that are a wildcard -/

/-- a parameter that is a wildcard and nothing else, behind a reference marker or not -/
def Tree.IsWildcard (kind : Symbol) (id : Nat) (p : Tree) : Prop :=
  ∃ i tok, p.splitRef.2.unwrap = .head kind i tok ∧ tok.wildcard = some id

namespace Tree

theorem unwrap_graft {σ : Symbol → Option Nat → Tree} {t : Tree}
    (hσ : ∀ x ∈ t.heads, (σ x.1 x.2).isLeaf = false) :
    (t.graft σ).unwrap = (t.unwrap.graft σ).unwrap := by
  refine unwrap_rec (P := fun t u => (∀ x ∈ t.heads, (σ x.1 x.2).isLeaf = false) →
    (t.graft σ).unwrap = (u.graft σ).unwrap) (fun _ _ => rfl) ?_ t hσ
  intro s i c u hleaf ih hσ
  have hc : ∀ x ∈ c.heads, (σ x.1 x.2).isLeaf = false := fun x hx =>
    hσ x (mem_heads_branch.mpr ⟨c, List.mem_singleton.mpr rfl, hx⟩)
  have hgraft : (c.graft σ).isLeaf = false := by
    cases c with
    | leaf s tok => cases hleaf
    | head s i tok => exact hc (s, tok.wildcard) (by rw [heads]; exact List.mem_singleton.mpr rfl)
    | branch s i cs => rw [graft_branch]; rfl
  rw [graft_branch, List.map_singleton, unwrap_wrapper hgraft]
  exact ih hc

variable {kind : Symbol} {i : Nat} {tok : Token} {id : Nat} {p : Tree}

theorem heads_whole (h : p.unwrap = .head kind i tok) : p.heads = [(kind, tok.wildcard)] := by
  rw [← heads_unwrap, h, heads]

theorem substitute_whole {B : Nat → Option (List String)} (h : p.unwrap = .head kind i tok)
    (hid : tok.wildcard = some id) : p.substitute B = B id := by
  rw [← substitute_unwrap, h, substitute, hid]
  rfl

theorem IsWildcard.mem_heads (h : p.IsWildcard kind id) : (kind, some id) ∈ p.heads := by
  obtain ⟨i, tok, hwhole, hid⟩ := h
  refine p.mem_splitRef.1 _ ?_
  rw [heads_whole hwhole, hid]
  exact List.mem_singleton.mpr rfl

theorem unwrap_symbol_ne {c : Tree} (hc : c.Formed)
    (hs : c.symbol = Symbol.object ∨ c.symbol = Symbol.function) :
    c.unwrap.symbol ≠ Symbol.paramObject := by
  rcases hs with hs | hs
  · rcases unwrap_object_cases hc hs with h | ⟨hw, -⟩
    · rw [h]
      decide
    · intro h
      rw [h] at hw
      exact absurd hw (by decide)
  · rw [unwrap_of_not_wrapper hc (by rw [hs]; decide), hs]
    decide

theorem symbol_splitRef (hp : p.Formed) (href : p.splitRef.1 ≠ .none) :
    p.splitRef.2.symbol = Symbol.object := by
  have hobject : ∀ {i : Nat} {m o : Tree}, (branch Symbol.paramObject i [m, o]).Formed →
      o.symbol = Symbol.object := by
    intro i m o hform
    obtain ⟨body, hbody, hcs⟩ := children_of_formed hform
    obtain ⟨x, _, rfl⟩ | ⟨k, _, rfl⟩ := param_alternatives body hbody
    · obtain _ | ⟨_, _ | _⟩ := hcs
    · obtain _ | ⟨_, _ | ⟨ho, _⟩⟩ := hcs
      exact ho.2
  revert href
  unfold splitRef
  split
  · next s i m t o =>
    split
    · next hs =>
      obtain rfl : s = Symbol.paramObject := by simpa using (Bool.and_eq_true_iff.mp hs).1
      exact fun _ => hobject hp
    split
    · next hs =>
      obtain rfl : s = Symbol.paramObject := by simpa using (Bool.and_eq_true_iff.mp hs).1
      exact fun _ => hobject hp
    · exact fun h => absurd rfl h
  · exact fun h => absurd rfl h

theorem isHead_of_whole (hp : p.IsFormal)
    (h : p.splitRef.2.unwrap = .head Symbol.paramObject i tok) : p.isHead = true := by
  have hne : ∀ {c : Tree}, c.Formed →
      (c.symbol = Symbol.object ∨ c.symbol = Symbol.function) →
        c.unwrap ≠ .head Symbol.paramObject i tok := by
    intro c hc hs e
    have hsymbol := unwrap_symbol_ne hc hs
    rw [e] at hsymbol
    exact hsymbol rfl
  obtain ⟨i, tok, rfl⟩ | ⟨c, rfl, hc, hs⟩ | ⟨c, rfl, hc, hs⟩ | ⟨_, ref, o, hsplit, hne', ho⟩ :=
    hp.forms
  · rfl
  · rw [splitRef_single, unwrap_wrapper (isLeaf_of_formed hc (by rw [hs]; decide))] at h
    exact absurd h (hne hc (.inl hs))
  · rw [splitRef_single, unwrap_wrapper (isLeaf_of_formed hc (by rw [hs]; decide))] at h
    exact absurd h (hne hc (.inr hs))
  · have href : p.splitRef.1 ≠ .none := by rw [hsplit]; exact hne'
    have hs := symbol_splitRef hp.formed href
    rw [hsplit] at h hs
    exact absurd h (hne ho.formed (.inl hs))

theorem IsFormal.splitRef_forms {q : Tree} (hq : q.IsFormal) (hhead : q.isHead = false) :
    q.splitRef.2.symbol = Symbol.object ∨
      ∃ k c, q.splitRef.2 = .branch Symbol.paramObject k [c] := by
  obtain ⟨_, _, rfl⟩ | ⟨c, rfl, _⟩ | ⟨c, rfl, _⟩ | ⟨_, ref, o, hsplit, hne, _⟩ := hq.forms
  · cases hhead
  · exact .inr ⟨0, c, by rw [splitRef_single]⟩
  · exact .inr ⟨1, c, by rw [splitRef_single]⟩
  · exact .inl (symbol_splitRef hq.formed (by rw [hsplit]; exact hne))

end Tree

/-! ## What a wildcard matches -/

section Whole

variable {actual formal u : Tree} {s kind : Symbol} {i id : Nat} {tok : Token} {ts : List String}
  {b : Bindings}

/-- a tree that is a wildcard, with the tree of a sentence of its kind in its place -/
theorem graft_whole (hf : formal.IsUnmarked) (hwhole : formal.unwrap = .head kind i tok)
    (hid : tok.wildcard = some id) (hu : u.Formed) (hs : u.symbol = kind)
    (hy : u.yield = Binding.ofTexts ts) :
    (formal.graft fun _ _ => u).Formed ∧ (formal.graft fun _ _ => u).symbol = formal.symbol ∧
      (formal.graft fun _ _ => u).yield = Binding.ofTexts ts ∧
      (formal.graft fun _ _ => u).unwrap = u.unwrap := by
  have hσ : formal.Supplied (fun _ => some ts) fun _ _ => u := by
    intro x hx
    rw [Tree.heads_whole hwhole, List.mem_singleton] at hx
    subst hx
    exact ⟨id, ts, hid, rfl, hu, hs, hy⟩
  obtain ⟨hg, hgs, hread, hplain⟩ := hσ.graft hf.formed hf.ordinary hf.numbered
  rw [Tree.substitute_whole hwhole hid] at hread
  refine ⟨hg, hgs, ?_, ?_⟩
  · rw [hplain.yield_eq, ← Option.some.inj hread]
  · have hform := Tree.formed_unwrap hf.formed
    rw [hwhole] at hform
    have hleaf := isLeaf_of_formed hu (by
      rw [hs]
      exact wildcards_mem_heads kind (formed_head.mp hform).1)
    rw [Tree.unwrap_graft fun _ _ => hleaf, hwhole]
    rfl

theorem unify_through (ha : actual.Spells s ts) (hs : s ∈ signatureWildcards)
    (hne : formal.symbol ≠ s) (hwhole : formal.unwrap = .head kind i tok) (b : Bindings) :
    unify actual formal b = bind kind tok.wildcard actual b := by
  cases actual with
  | leaf s' tok' =>
    obtain rfl : s' = s := ha.symbol_eq
    exact absurd (wildcards_mem_heads s' hs) (formed_leaf.mp ha.formed).1
  | head s' i' tok' =>
    have hheads := ha.heads_eq
    rw [Tree.heads] at hheads
    cases hheads
  | branch s' i' cs =>
    obtain rfl : s' = s := ha.symbol_eq
    cases hhead : formal.isHead with
    | false => rw [unify_branch s' i' cs b hhead, if_neg hne, hwhole]
    | true =>
      cases formal with
      | leaf | branch => cases hhead
      | head =>
        rw [unwrap_head] at hwhole
        rw [hwhole, unify_head]

/-- **What a wildcard may stand for matches it**: a sentence of its kind, if the wildcard stands for
no other tokens yet. -/
theorem unify_whole (hf : formal.IsUnmarked) (hwhole : formal.unwrap = .head kind i tok)
    (hid : tok.wildcard = some id) (ha : actual.Spells s ts)
    (hs : s = Symbol.object ∨ s = Symbol.paramObject) (hsent : Sentence kind ts)
    (hagrees : ∀ v, b.get? id = some v → v = Binding.ofTexts ts) :
    ∃ b', unify actual formal b = some b' := by
  obtain ⟨u, hu, husym, huy⟩ := hsent
  obtain ⟨hg, hgs, hgy, hgu⟩ := graft_whole hf hwhole hid hu husym huy
  have hwild : s ∈ signatureWildcards := by rcases hs with rfl | rfl <;> decide
  have hmarks : u.marks = Binding.ofTexts ts := by
    have hplain : u.Plain := by
      intro t ht
      rw [huy] at ht
      obtain ⟨x, _, rfl⟩ := List.mem_map.mp ht
      rfl
    rw [hplain.marks_eq, huy]
  by_cases hsym : formal.symbol = s
  · -- below the same root the two trees are one
    have heq : (formal.graft fun _ _ => u) = actual := derives_unique compiled_signature hwild
      ⟨hg, hgs.trans hsym, hgy⟩ ⟨ha.formed, ha.symbol_eq, ha.yield_eq⟩
    have hwithin : b.Within fun j => if j = id then some (Binding.ofTexts ts) else b.get? j := by
      intro j v hv
      dsimp only
      by_cases hj : j = id
      · rw [if_pos hj, hagrees v (hj ▸ hv)]
      · rw [if_neg hj, hv]
    obtain ⟨b', hb', -⟩ := unify_graft (σ := fun _ _ => u) hf.formed (fun x hx => by
      rw [Tree.heads_whole hwhole, List.mem_singleton] at hx
      subst hx
      exact ⟨hu, husym, id, hid, by rw [if_pos rfl, hmarks]⟩) hwithin
    rw [heq] at hb'
    exact ⟨b', hb'⟩
  · -- otherwise one of them is the other behind the wrapper of a parameter
    have hunwrap : actual.unwrap = u.unwrap := by
      have hy : (formal.graft fun _ _ => u).yield = actual.yield := hgy.trans ha.yield_eq.symm
      rw [← hgu]
      rcases hs with rfl | rfl
      · rw [param_eq_wrapper hg (hgs.trans (hf.symbol_eq.resolve_left hsym)) ha.formed
          ha.symbol_eq hy,
          unwrap_wrapper (isLeaf_of_formed ha.formed (by rw [ha.symbol_eq]; decide))]
      · have hobject := hgs.trans (hf.symbol_eq.resolve_right hsym)
        rw [param_eq_wrapper ha.formed ha.symbol_eq hg hobject hy.symm,
          unwrap_wrapper (isLeaf_of_formed hg (by rw [hobject]; decide))]
    have hd := derives_unwrap hu (by
      have hform := Tree.formed_unwrap hf.formed
      rw [hwhole] at hform
      rw [husym]
      exact wildcards_mem_heads kind (formed_head.mp hform).1)
    rw [husym, ← hunwrap] at hd
    obtain ⟨b', hb', -⟩ := bind_of_agrees (b := b) id hd fun v hv => by
      rw [hagrees v hv, ha.plain.marks_eq, ha.yield_eq]
    exact ⟨b', by rw [unify_through ha hwild hsym hwhole, hid, hb']⟩

theorem differs_of_unify_none (hf : formal.IsUnmarked)
    (hwhole : formal.unwrap = .head kind i tok) (hid : tok.wildcard = some id)
    (ha : actual.Spells s ts) (hs : s = Symbol.object ∨ s = Symbol.paramObject)
    (h : unify actual formal b = none) (hsent : Sentence kind ts) :
    ∃ v, b.get? id = some v ∧ v ≠ Binding.ofTexts ts := by
  by_contra hnot
  push Not at hnot
  obtain ⟨b', hb'⟩ := unify_whole hf hwhole hid ha hs hsent hnot
  rw [h] at hb'
  cases hb'

theorem readType_wrapped {c : Tree} (hc : c.Formed)
    (hs : c.symbol = Symbol.object ∨ c.symbol = Symbol.function)
    (hy : c.yield = Binding.ofTexts ts) : signature.readType ts = Ty.ofTree c := by
  have halts : ∀ x : Symbol, x = Symbol.object ∨ x = Symbol.function →
      ∃ k : Nat, (alternatives Symbol.type)[k]? = some [x] := by
    rintro x (rfl | rfl)
    · exact ⟨0, by decide⟩
    · exact ⟨1, by decide⟩
  obtain ⟨k, halt⟩ := halts c.symbol hs
  have hleaf := isLeaf_of_formed hc (by rcases hs with hs | hs <;> rw [hs] <;> decide)
  have hparse : signature.parsePlain ts Symbol.type = some (.branch Symbol.type k [c]) :=
    (parsePlain_eq_some_iff (by decide)).mpr ⟨formed_branch.mpr ⟨halt, by simpa using hc⟩, rfl, by
      rw [Tree.yield, Tree.yieldAll_cons, Tree.yieldAll_nil, List.append_nil, hy]⟩
  have hwrap : Ty.ofTree (.branch Symbol.type k [c]) = Ty.ofTree c :=
    ofTree_wrap (by decide) hleaf
  rw [readType, hparse]
  exact hwrap

theorem readType_unmarked {t : Tree} (ht : t.Formed)
    (hs : t.symbol = Symbol.object ∨ ∃ k c, t = .branch Symbol.paramObject k [c])
    (hy : t.yield = Binding.ofTexts ts) : signature.readType ts = Ty.ofTree t := by
  rcases hs with hs | ⟨k, c, rfl⟩
  · exact readType_wrapped ht (.inl hs) hy
  rw [Tree.yield, Tree.yieldAll_cons, Tree.yieldAll_nil, List.append_nil] at hy
  obtain ⟨body, hbody, hcs⟩ := children_of_formed ht
  obtain ⟨x, hx, rfl⟩ | ⟨k, _, rfl⟩ := param_alternatives body hbody
  · obtain _ | ⟨⟨hc, hcs⟩, _⟩ := hcs
    have hform : c.symbol = Symbol.object ∨ c.symbol = Symbol.function := by
      rw [hcs]
      exact List.mem_pair.mp hx
    have hleaf := isLeaf_of_formed hc (by rcases hform with e | e <;> rw [e] <;> decide)
    rw [readType_wrapped hc hform hy]
    exact (ofTree_wrap (by decide) hleaf).symm
  · -- a marker is not alone
    obtain _ | ⟨_, _ | _⟩ := hcs

/-- a conversion to a parameter that is a wildcard is one to the type the wildcard stands for -/
theorem readType_of_concretize {q : Tree} {dst : Ty} (hq : q.IsFormal) (hhead : q.isHead = false)
    (hwhole : q.splitRef.2.unwrap = .head kind i tok) (hid : tok.wildcard = some id)
    (hts : b.texts? id = some ts) (hsent : Sentence kind ts)
    (h : concretize q.splitRef.2 b = .ok (some dst)) : signature.readType ts = .ok dst := by
  obtain ⟨u, hu, husym, huy⟩ := hsent
  have hf := hq.unmarked hhead
  obtain ⟨hg, hgs, hgy, -⟩ := graft_whole hf hwhole hid hu husym huy
  have hread : Ty.ofTree (q.splitRef.2.graft fun _ _ => u) = .ok dst := by
    have hparse := (parsePlain_eq_some_iff hf.wildcard).mpr ⟨hg, hgs, hgy⟩
    unfold concretize at h
    rw [Tree.substitute_whole hwhole hid, hts] at h
    dsimp only at h
    split at h
    · cases h
    rw [hparse] at h
    dsimp only at h
    cases hty : Ty.ofTree (q.splitRef.2.graft fun _ _ => u) with
    | error e => rw [hty] at h; cases h
    | ok ty => rw [hty] at h; cases h; rfl
  rw [readType_unmarked hg ?_ hgy, hread]
  rcases hq.splitRef_forms hhead with hs | ⟨k, c, hc⟩
  · exact .inl (hgs.trans hs)
  · exact .inr ⟨k, _, by rw [hc, Tree.graft_branch, List.map_singleton]⟩

end Whole

/-! ## Parameters of a call -/

/-- a parameter of a call, which has no wildcards -/
structure Tree.IsActual (p : Tree) : Prop extends Tree.IsFormal p where
  heads_eq : p.heads = []

namespace Tree.IsActual

variable {p : Tree}

theorem ordinary (h : p.IsActual) : Tree.Ordinary p.symbol := by
  rw [h.symbol_eq]
  exact ordinary_wildcard (by decide)

theorem plain (h : p.IsActual) : p.Plain := h.numbered.plain h.formed h.ordinary h.heads_eq

theorem isHead_eq (h : p.IsActual) : p.isHead = false := by
  cases p with
  | leaf | branch => rfl
  | head s i tok =>
    have hheads := h.heads_eq
    rw [heads] at hheads
    cases hheads

theorem argument (h : p.IsActual) :
    ∃ s, (s = Symbol.object ∨ s = Symbol.paramObject) ∧
      p.splitRef.2.Spells s p.splitRef.2.tokens := by
  have hun := h.unmarked h.isHead_eq
  have hheads : p.splitRef.2.heads = [] := by
    refine List.eq_nil_iff_forall_not_mem.mpr fun x hx => ?_
    have hx := p.mem_splitRef.1 x hx
    rw [h.heads_eq] at hx
    cases hx
  have hplain := hun.numbered.plain hun.formed hun.ordinary hheads
  exact ⟨_, hun.symbol_eq, ⟨hun.formed, rfl, hplain.yield_eq⟩, hheads⟩

theorem closedRun (h : p.IsActual) : ClosedRun True p.tokens := by
  refine ⟨fun x hx => ?_, fun _ => trivial⟩
  rw [← texts_yield] at hx
  obtain ⟨tok, htok, rfl⟩ := List.mem_map.mp hx
  exact (heads_eq_nil_iff h.formed h.ordinary).mp h.heads_eq tok htok

theorem readType_eq (h : p.IsActual) :
    signature.readType p.splitRef.2.tokens = Ty.ofTree p.splitRef.2 := by
  obtain ⟨_, _, harg⟩ := h.argument
  exact readType_unmarked harg.formed (h.splitRef_forms h.isHead_eq) harg.yield_eq

end Tree.IsActual

/-! ## One place of the first pass -/

section Places

variable {p q : Tree} {kind : Symbol} {id : Nat} {b b' : Bindings} {d : Draft}

/-- an argument of a parameter that is a wildcard is settled by its tokens, or it does not match -/
theorem draft_whole (hp : p.IsActual) (hhead : q.isHead = false)
    (hwild : q.IsWildcard kind id) (hkind : kind ≠ Symbol.arithmetic)
    (h : draft p q b = some (d, b')) :
    (∃ tr, d = .settled tr ∧ tr.isCast = false ∧
      b'.get? id = some (Binding.ofTexts p.splitRef.2.tokens)) ∨
    (d = .convert p.splitRef.1 p.splitRef.2 q.splitRef.2 ∧ b' = b ∧
      unify p.splitRef.2 q.splitRef.2 b = none) := by
  obtain ⟨i, tok, hwhole, hid⟩ := hwild
  obtain ⟨s, _, harg⟩ := hp.argument
  have hbare : q.splitRef.2.bareArithmetic? = none := by
    unfold Tree.bareArithmetic?
    rw [hwhole]
    dsimp only
    rw [if_neg (by simpa using hkind)]
  have hget : ∀ {b₁}, unify p.splitRef.2 q.splitRef.2 b = some b₁ →
      b₁.get? id = some (Binding.ofTexts p.splitRef.2.tokens) := by
    intro b₁ hu
    obtain ⟨_, hreads, hbound, _⟩ := unify_solves harg.formed harg.plain hu
    obtain ⟨n, ts, hn, hts, _⟩ := hbound _ (by
      rw [Tree.heads_whole hwhole]
      exact List.mem_singleton.mpr rfl)
    obtain rfl : id = n := Option.some.inj (hid.symm.trans hn)
    rw [Tree.substitute_whole hwhole hid, Bindings.texts?_of_get? hts,
      Binding.texts_ofTexts] at hreads
    rw [hts, Option.some.inj hreads]
  rw [draft_eq hhead, hbare] at h
  split at h
  · split at h
    · obtain ⟨b₁, hu, he⟩ := Option.map_eq_some_iff.mp h
      cases he
      exact .inl ⟨.borrow, rfl, rfl, hget hu⟩
    · cases h
  · dsimp only at h
    split at h
    · next b₁ hu =>
      cases h
      refine .inl ⟨_, rfl, ?_, hget hu⟩
      unfold passAsIs
      split <;> rfl
    · next hu =>
      cases h
      exact .inr ⟨rfl, rfl, hu⟩

theorem draft_binds (hp : p.IsActual) (h : draft p q b = some (d, b')) :
    b.Extends b' ∧ (b.Closed True → b'.Closed True) ∧
      ∀ id v, b'.get? id = some v → b.get? id = some v ∨ ∃ kind, (kind, some id) ∈ q.heads := by
  have hsplit : unify p.splitRef.2 q.splitRef.2 b = some b' → b.Extends b' ∧
      (b.Closed True → b'.Closed True) ∧
        ∀ id v, b'.get? id = some v → b.get? id = some v ∨ ∃ kind, (kind, some id) ∈ q.heads := by
    intro hu
    obtain ⟨s, _, harg⟩ := hp.argument
    have hsolve := unify_solves harg.formed harg.plain hu
    exact ⟨hsolve.extends_, fun hb => hsolve.closed hb (hp.closedRun.mono (tokens_splitRef p)),
      fun id v hv => (hsolve.only id v hv).imp_right fun ⟨kind, hk⟩ =>
        ⟨kind, q.mem_splitRef.1 _ hk⟩⟩
  have hsame : b.Extends b ∧ (b.Closed True → b.Closed True) ∧
      ∀ id v, b.get? id = some v → b.get? id = some v ∨ ∃ kind, (kind, some id) ∈ q.heads :=
    ⟨Bindings.Extends.refl b, fun hb => hb, fun _ _ hv => .inl hv⟩
  cases hhead : q.isHead with
  | true =>
    cases q with
    | leaf | branch => cases hhead
    | head s i tok =>
      rw [draft] at h
      obtain ⟨b₁, hb₁, he⟩ := Option.map_eq_some_iff.mp h
      cases he
      have hsolve := solves_bind (i := i) hp.formed hp.plain hb₁
      exact ⟨hsolve.extends_, fun hb => hsolve.closed hb hp.closedRun, hsolve.only⟩
  | false =>
    rcases draft_cases hhead h with ⟨_, _, _, hu⟩ | ⟨_, ⟨_, _, _, _, _, rfl⟩ | ⟨_, hu⟩ |
      ⟨_, rfl⟩⟩
    · exact hsplit hu
    · exact hsame
    · exact hsplit hu
    · exact hsame

variable {actuals formals : List Tree} {ds : List Draft}

theorem draftAll_binds (hps : ∀ p ∈ actuals, p.IsActual) (hlen : actuals.length = formals.length)
    (h : draftAll actuals formals b = some (ds, b')) :
    b.Extends b' ∧ (b.Closed True → b'.Closed True) := by
  induction actuals generalizing formals b ds with
  | nil =>
    obtain rfl : formals = [] := List.length_eq_zero_iff.mp hlen.symm
    cases h
    exact ⟨Bindings.Extends.refl _, fun hb => hb⟩
  | cons p actuals ih =>
    obtain ⟨q, formals, rfl⟩ := List.exists_cons_of_length_pos (l := formals) (by
      rw [← hlen]; exact Nat.succ_pos _)
    obtain ⟨hp, hps⟩ := List.forall_mem_cons.mp hps
    rw [draftAll] at h
    split at h
    · cases h
    next d b₁ hd =>
    obtain ⟨⟨ds', b₂⟩, hdrafts, he⟩ := Option.map_eq_some_iff.mp h
    cases he
    obtain ⟨hext, hclosed, -⟩ := draft_binds hp hd
    obtain ⟨hext', hclosed'⟩ := ih hps (by simpa using hlen) hdrafts
    exact ⟨hext.trans hext', fun hb => hclosed' (hclosed hb)⟩

/-- **One place of the first pass**: an argument is drafted under bindings which only the parameters
before it have made, and what it binds is kept. -/
theorem draftAll_at (hps : ∀ p ∈ actuals, p.IsActual) (hlen : actuals.length = formals.length)
    (h : draftAll actuals formals b = some (ds, b')) {i : Nat} (hp : actuals[i]? = some p)
    (hq : formals[i]? = some q) :
    ∃ c d c', draft p q c = some (d, c') ∧ ds[i]? = some d ∧ c.Extends c' ∧ c'.Extends b' ∧
      ∀ id v, c.get? id = some v → b.get? id = some v ∨
        ∃ n g kind, n < i ∧ formals[n]? = some g ∧ (kind, some id) ∈ g.heads := by
  induction actuals generalizing formals b ds i with
  | nil => cases hp
  | cons actual actuals ih =>
    obtain ⟨formal, formals, rfl⟩ := List.exists_cons_of_length_pos (l := formals) (by
      rw [← hlen]; exact Nat.succ_pos _)
    obtain ⟨hactual, hrest⟩ := List.forall_mem_cons.mp hps
    rw [draftAll] at h
    split at h
    · cases h
    next d b₁ hd =>
    obtain ⟨⟨ds', b₂⟩, hdrafts, he⟩ := Option.map_eq_some_iff.mp h
    cases he
    obtain ⟨hext, -, honly⟩ := draft_binds hactual hd
    have hlen' : actuals.length = formals.length := by simpa using hlen
    cases i with
    | zero =>
      cases hp
      cases hq
      exact ⟨b, d, b₁, hd, rfl, hext, (draftAll_binds hrest hlen' hdrafts).1,
        fun id v hv => .inl hv⟩
    | succ i =>
      obtain ⟨c, d', c', hdraft, hget, hext₁, hext₂, hbefore⟩ := ih hrest hlen' hdrafts hp hq
      refine ⟨c, d', c', hdraft, hget, hext₁, hext₂, fun id v hv => ?_⟩
      rcases hbefore id v hv with hv | ⟨n, g, kind, hn, hg, hk⟩
      · rcases honly id v hv with hv | ⟨kind, hk⟩
        · exact .inl hv
        · exact .inr ⟨0, formal, kind, Nat.succ_pos i, rfl, hk⟩
      · exact .inr ⟨n + 1, g, kind, Nat.succ_lt_succ hn, hg, hk⟩

theorem finish_of_finishAll {cast : Ty → Ref → Ty → Planned Transfer} {ds : List Draft}
    {trs : List Transfer} (h : finishAll cast b ds = .ok (some trs)) :
    List.Forall₂ (fun d tr => finish cast b d = .ok (some tr)) ds trs := by
  induction ds generalizing trs with
  | nil => rw [finishAll] at h; cases h; exact .nil
  | cons d ds ih =>
    rw [finishAll] at h
    split at h
    · cases h
    · cases h
    next tr htr =>
    obtain ⟨trs', hrest, rfl⟩ := planned_map_eq h
    exact .cons htr (ih hrest)

end Places

/-! ## Arguments of one wildcard -/

/-- how an argument comes to a parameter that is a wildcard of a kind, where the wildcard stands for
some tokens: as it is if these are its own tokens, and otherwise by a cast to the type they are read
as; a wildcard for any parameter borrows the argument and stands for it with its marker -/
structure Tree.Stands (m : CastRules) (kind : Symbol) (run : List String) (p : Tree)
    (tr : Transfer) : Prop where
  whole : kind = Symbol.paramObject → tr = .borrow ∧ run = p.tokens
  same : kind ≠ Symbol.paramObject → (tr.isCast = false ↔ run = p.splitRef.2.tokens)
  cast : tr.isCast = true → ∃ src dst, Ty.ofTree p.splitRef.2 = .ok src ∧
    signature.readType run = .ok dst ∧ m.cast src p.splitRef.1 dst = .ok (some tr)

theorem isCast_of_cast {m : CastRules} {src dst : Ty} {ref : Ref} {tr : Transfer}
    (h : m.cast src ref dst = .ok (some tr)) : tr.isCast = true := by
  unfold Transfer.isCast
  rw [target_of_cast m _ _ _ _ h]
  rfl

/-- what planning a call does at one place: the argument is drafted under bindings that the
parameters before it have made, and its draft is finished under those the call comes to, in which
every wildcard of the parameter stands for a sentence of its kind -/
structure Placed (cast : Ty → Ref → Ty → Planned Transfer) (formals : List Tree) (b : Bindings)
    (i : Nat) (p f : Tree) (tr : Transfer) (c : Bindings) (d : Draft) (c' : Bindings) : Prop where
  actual : p.IsActual
  formal : f.IsFormal
  drafted : draft p f c = some (d, c')
  finished : finish cast b d = .ok (some tr)
  before : c.Extends b
  after : c'.Extends b
  only : ∀ id v, c.get? id = some v →
    ∃ n g kind, n < i ∧ formals[n]? = some g ∧ (kind, some id) ∈ g.heads
  sentence : ∀ kind id ts, (kind, some id) ∈ f.heads → b.texts? id = some ts →
    b.get? id = some (Binding.ofTexts ts) ∧ Sentence kind ts

/-- a call whose arguments have no wildcards, and whose return is left open -/
structure Signature.IsOpenCall (call : Signature) : Prop where
  open_return : ∃ ret, call.returnTree? = some ret ∧ ret.isOpenReturn = true
  free : ∀ p ∈ call.params, p.heads = []

section Stands

variable {m : CastRules} {call sup : Signature} {r : Match} {i : Nat} {p f : Tree} {tr : Transfer}

theorem exists_placed {src src' : List String} {start start' : Symbol} {strict strict' : Bool}
    (hcall : signature.compile src start strict = .ok call) (hopen : call.IsOpenCall)
    (hsup : signature.compile src' start' strict' = .ok sup)
    (h : m.admits call sup [] = .ok (some r)) (hp : call.params[i]? = some p)
    (hf : sup.params[i]? = some f) (htr : r.transfers[i]? = some tr) :
    ∃ b c d c', r.bindings = b.toTexts ∧ Placed m.cast sup.params b i p f tr c d c' := by
  obtain ⟨-, hcall, -⟩ := exists_kinded hcall
  obtain ⟨hstart, hsup, kindOf, hk⟩ := exists_kinded hsup
  have hord : Tree.Ordinary sup.root.symbol :=
    hsup.symbol_eq ▸ Tree.ordinary_of_mem_heads hstart
  have hmem := List.mem_of_getElem? hf
  have hpmem := List.mem_of_getElem? hp
  rw [admits_call (isFunction_of_mem_params hpmem) (isFunction_of_mem_params hmem)] at h
  obtain ⟨hlen, subRet, supRet, b₁, ds, b₂, b, hcallRet, hsupRet, hunify, hdraft, hpromote,
    hfinish, hbindings, -⟩ := planCall_stages h
  obtain rfl : [] = b₁ := by
    obtain ⟨ret, hret, hopen⟩ := hopen.open_return
    obtain rfl := Option.some.inj (hcallRet.symm.trans hret)
    rw [unifyReturn, if_pos hopen] at hunify
    exact Option.some.inj hunify
  have hactual : ∀ p ∈ call.params, p.IsActual := fun p hp =>
    ⟨isFormal_of_mem_params hcall hp, hopen.free p hp⟩
  have hclosed : b.Closed True := by
    have hfinds : Finds (Excused True True) (Bindings.Closed True)
        (promoteAll ds (Draft.groups ds) b₂) :=
      finds_promoteAll ((draftAll_binds hactual hlen hdraft).2 Bindings.closed_nil)
    rw [hpromote] at hfinds
    exact hfinds
  have hworded : b.Worded kindOf := worded_of_passes hcall hsup hord hk (by
    intro id v hv
    cases hv) hcallRet hsupRet hunify hdraft hpromote
  obtain ⟨c, d, c', hd, hget, hext, hext', honly⟩ := draftAll_at hactual hlen hdraft hp hf
  have hext₃ := hext'.trans (extends_of_promoteAll hpromote)
  refine ⟨b, c, d, c', hbindings, hactual p hpmem, isFormal_of_mem_params hsup hmem, hd,
    forall₂_getElem? (finish_of_finishAll hfinish) hget htr, hext.trans hext₃, hext₃,
    fun id v hv => (honly id v hv).resolve_left nofun, fun kind id ts hhead hts => ?_⟩
  obtain ⟨v, hv, rfl⟩ := Option.map_eq_some_iff.mp hts
  obtain ⟨us, rfl, -⟩ := hclosed id v hv
  obtain ⟨hff, hfs, hfy⟩ := mem_params hsup hmem
  have hkindOf := hk.heads kind id (Tree.mem_heads_of_yield hff
    (hfs ▸ Tree.ordinary_wildcard (by decide)) hsup.formed hord hfy _ hhead)
  exact ⟨by rw [hv, Binding.texts_ofTexts],
    hkindOf ▸ hworded id _ hv (Binding.isOpen_ofTexts us)⟩

variable {formals : List Tree} {b c c' : Bindings} {d : Draft} {kind : Symbol} {id : Nat}

theorem Placed.stands_of_head {k : Nat} {tok : Token}
    (h : Placed m.cast formals b i p (.head kind k tok) tr c d c')
    (hid : tok.wildcard = some id) : b.texts? id = some p.tokens ∧ tr = .borrow := by
  have hdraft := h.drafted
  rw [draft] at hdraft
  obtain ⟨b₁, hb₁, he⟩ := Option.map_eq_some_iff.mp hdraft
  cases he
  have hreads := (solves_bind (i := k) h.actual.formed h.actual.plain hb₁).reads
  rw [Tree.substitute, hid, Option.bind_some] at hreads
  obtain ⟨v, hv, htexts⟩ := Option.map_eq_some_iff.mp hreads
  have hfinished := h.finished
  rw [finish] at hfinished
  cases hfinished
  exact ⟨by rw [Bindings.texts?_of_get? (h.after _ _ hv), htexts], rfl⟩

theorem Placed.exists_target
    (h : Placed m.cast formals b i p f tr c (.convert p.splitRef.1 p.splitRef.2 f.splitRef.2) c')
    (hhead : f.isHead = false) (hwild : f.IsWildcard kind id) :
    ∃ run src dst, b.texts? id = some run ∧ Ty.ofTree p.splitRef.2 = .ok src ∧
      signature.readType run = .ok dst ∧ m.cast src p.splitRef.1 dst = .ok (some tr) := by
  have hmem := hwild.mem_heads
  obtain ⟨src, dst, hsrc, hdst, hmade⟩ := cast_of_finish h.finished
  obtain ⟨k, tok, hwhole, hid⟩ := hwild
  cases hrun : b.texts? id with
  | none =>
    unfold concretize at hdst
    rw [Tree.substitute_whole hwhole hid, hrun] at hdst
    cases hdst
  | some run =>
    have hsent := (h.sentence kind id run hmem hrun).2
    have hread := readType_of_concretize h.formal hhead hwhole hid hrun hsent hdst
    exact ⟨run, src, dst, rfl, hsrc, hread, hmade⟩

theorem Placed.stands_of_whole (h : Placed m.cast formals b i p f tr c d c')
    (hhead : f.isHead = false) (hwild : f.IsWildcard kind id) (hkind : kind ≠ Symbol.arithmetic) :
    ∃ run, b.texts? id = some run ∧ (tr.isCast = false ↔ run = p.splitRef.2.tokens) ∧
      (tr.isCast = true → ∃ src dst, Ty.ofTree p.splitRef.2 = .ok src ∧
        signature.readType run = .ok dst ∧ m.cast src p.splitRef.1 dst = .ok (some tr)) ∧
      ((∀ n g kind', n < i → formals[n]? = some g → (kind', some id) ∉ g.heads) →
        Sentence kind p.splitRef.2.tokens → tr.isCast = false) := by
  obtain ⟨s, hs, harg⟩ := h.actual.argument
  rcases draft_whole h.actual hhead hwild hkind h.drafted with ⟨tr', rfl, hplain, hget⟩ |
    ⟨rfl, rfl, hnone⟩
  · have hfinish := h.finished
    rw [finish] at hfinish
    cases hfinish
    refine ⟨p.splitRef.2.tokens, ?_, ⟨fun _ => rfl, fun _ => hplain⟩, fun hcast => ?_,
      fun _ _ => hplain⟩
    · rw [Bindings.texts?_of_get? (h.after _ _ hget), Binding.texts_ofTexts]
    · rw [hplain] at hcast
      cases hcast
  · obtain ⟨run, src, dst, hrun, hsrc, hread, hmade⟩ := h.exists_target hhead hwild
    have hcast := isCast_of_cast hmade
    have hun := h.formal.unmarked hhead
    have hmem := hwild.mem_heads
    obtain ⟨k, tok, hwhole, hid⟩ := hwild
    refine ⟨run, hrun, ⟨fun hplain => ?_, ?_⟩, fun _ => ⟨src, dst, hsrc, hread, hmade⟩,
      fun hfirst hsent => ?_⟩
    · rw [hplain] at hcast
      cases hcast
    · -- it does not match in the end either
      rintro rfl
      obtain ⟨hget, hsent⟩ := h.sentence kind id _ hmem hrun
      have hord : Tree.Ordinary p.splitRef.2.symbol := by
        rw [harg.symbol_eq]
        rcases hs with rfl | rfl <;> exact Tree.ordinary_wildcard (by decide)
      obtain ⟨v, hv, hne⟩ := differs_of_unify_none hun hwhole hid harg hs
        (unify_none_of_extends harg.formed hord h.before hnone) hsent
      exact absurd (Option.some.inj (hv.symm.trans hget)) hne
    · -- what the wildcard stands for by then, a parameter before has made it
      obtain ⟨v, hv, -⟩ := differs_of_unify_none hun hwhole hid harg hs hnone hsent
      obtain ⟨n, g, kind', hn, hg, hk⟩ := h.only id v hv
      exact absurd hk (hfirst n g kind' hn hg)

theorem Placed.stands (h : Placed m.cast formals b i p f tr c d c')
    (hwild : f.IsWildcard kind id) (hkind : kind ≠ Symbol.arithmetic) :
    ∃ run, b.texts? id = some run ∧ p.Stands m kind run tr ∧
      ((∀ n g kind', n < i → formals[n]? = some g → (kind', some id) ∉ g.heads) →
        signature.recognize p.splitRef.2.tokens kind = true → tr.isCast = false) := by
  cases hhead : f.isHead with
  | true =>
    cases f with
    | leaf | branch => cases hhead
    | head s k tok =>
      obtain ⟨_, _, hwhole, hid⟩ := hwild
      rw [splitRef_head, unwrap_head] at hwhole
      cases hwhole
      obtain ⟨htexts, rfl⟩ := h.stands_of_head hid
      have hparam : kind = Symbol.paramObject := h.formal.symbol_eq
      exact ⟨p.tokens, htexts, ⟨fun _ => ⟨rfl, rfl⟩, fun hne => absurd hparam hne,
        fun hcast => absurd hcast Bool.false_ne_true⟩, fun _ _ => rfl⟩
  | false =>
    obtain ⟨run, hrun, hsame, hcast, hfirst⟩ := h.stands_of_whole hhead hwild hkind
    obtain ⟨k, tok, hwhole, hid⟩ := hwild
    refine ⟨run, hrun, ⟨fun hparam => ?_, fun _ => hsame, hcast⟩, fun hnone hrec => ?_⟩
    · rw [hparam] at hwhole
      rw [Tree.isHead_of_whole h.formal hwhole] at hhead
      cases hhead
    · have hform := Tree.formed_unwrap (h.formal.unmarked hhead).formed
      rw [hwhole] at hform
      exact hfirst hnone ((recognize_iff_sentence (formed_head.mp hform).1).mp hrec)

end Stands

section Agreement

variable {m : CastRules} {kind : Symbol} {run : List String} {p p' : Tree} {tr tr' : Transfer}

/-- what has settled a wildcard as it is, any other argument of it is like, or is cast to -/
theorem Tree.Stands.agrees (hp : p.IsActual) (hp' : p'.IsActual) (h : p.Stands m kind run tr)
    (h' : p'.Stands m kind run tr') (hplain : tr.isCast = false) :
    (tr'.isCast = false ∧ p'.splitRef.2.tokens = p.splitRef.2.tokens) ∨
      (tr'.isCast = true ∧ p'.splitRef.2.tokens ≠ p.splitRef.2.tokens ∧
        ∃ src dst, Ty.ofTree p'.splitRef.2 = .ok src ∧ Ty.ofTree p.splitRef.2 = .ok dst ∧
          m.cast src p'.splitRef.1 dst = .ok (some tr')) := by
  by_cases hparam : kind = Symbol.paramObject
  · obtain ⟨-, hrun⟩ := h.whole hparam
    obtain ⟨rfl, hrun'⟩ := h'.whole hparam
    have hyield : p'.yield = p.yield := by
      rw [hp'.plain.yield_eq, hp.plain.yield_eq, ← hrun', ← hrun]
    have heq : p' = p := derives_unique compiled_signature (by decide)
      ⟨hp'.formed, hp'.symbol_eq, hyield⟩ ⟨hp.formed, hp.symbol_eq, rfl⟩
    exact .inl ⟨rfl, by rw [heq]⟩
  have hrun : run = p.splitRef.2.tokens := (h.same hparam).mp hplain
  cases hcast : tr'.isCast with
  | false => exact .inl ⟨rfl, ((h'.same hparam).mp hcast).symm.trans hrun⟩
  | true =>
    obtain ⟨src, dst, hsrc, hread, hmade⟩ := h'.cast hcast
    rw [hrun, hp.readType_eq] at hread
    refine .inr ⟨rfl, fun htokens => ?_, src, dst, hsrc, hread, hmade⟩
    rw [(h'.same hparam).mpr (hrun.trans htokens.symm)] at hcast
    cases hcast

end Agreement

/-- **Arguments of one wildcard**: where a wildcard that is not arithmetic is the whole of two
parameters of a call that is admitted, it stands for some tokens, and each of the two arguments is
passed as it is or is cast to what these tokens are read as.  So if one of them is passed as it is,
the other is passed as it is if it is written like the first, and is cast to the type of the first
otherwise.  That is the case of the first argument of the wildcard, if it is of its kind.  For calls
made of arguments, to be written alike is to be of one type. -/
theorem repeated_wildcards (m : CastRules) {src src' : List String} {start start' kind : Symbol}
    {strict strict' : Bool} {call sup : Signature} {r : Match} {id i j : Nat} {p p' f f' : Tree}
    {tr tr' : Transfer} (hcall : signature.compile src start strict = .ok call)
    (hopen : call.IsOpenCall) (hsup : signature.compile src' start' strict' = .ok sup)
    (h : m.admits call sup [] = .ok (some r)) (hkind : kind ≠ Symbol.arithmetic)
    (hp : call.params[i]? = some p) (hf : sup.params[i]? = some f)
    (htr : r.transfers[i]? = some tr) (hwild : f.IsWildcard kind id)
    (hp' : call.params[j]? = some p') (hf' : sup.params[j]? = some f')
    (htr' : r.transfers[j]? = some tr') (hwild' : f'.IsWildcard kind id) :
    ∃ run, r.bindings.lookup id = some run ∧ p.Stands m kind run tr ∧ p'.Stands m kind run tr' ∧
      (tr.isCast = false →
        (tr'.isCast = false ∧ p'.splitRef.2.tokens = p.splitRef.2.tokens) ∨
        (tr'.isCast = true ∧ p'.splitRef.2.tokens ≠ p.splitRef.2.tokens ∧
          ∃ source target, Ty.ofTree p'.splitRef.2 = .ok source ∧
            Ty.ofTree p.splitRef.2 = .ok target ∧
            m.cast source p'.splitRef.1 target = .ok (some tr'))) ∧
      ((∀ n g kind', n < i → sup.params[n]? = some g → (kind', some id) ∉ g.heads) →
        signature.recognize p.splitRef.2.tokens kind = true → tr.isCast = false) ∧
      ∀ (args : List Arg) (a a' : Arg), (∀ a ∈ args, a.type.WellFormed) →
        signature.compile (openCallForm args) Symbol.function strict = .ok call →
        args[i]? = some a → args[j]? = some a' → tr.isCast = false →
          (tr'.isCast = false ∧ a'.type = a.type) ∨
          (tr'.isCast = true ∧ a'.type ≠ a.type ∧
            m.cast a'.type a'.ref a.type = .ok (some tr')) := by
  obtain ⟨b, c, d, c', hbindings, hplaced⟩ := exists_placed hcall hopen hsup h hp hf htr
  obtain ⟨e, _, _, _, hbindings', hplaced'⟩ := exists_placed hcall hopen hsup h hp' hf' htr'
  obtain ⟨run, hrun, hstands, hfirst⟩ := hplaced.stands hwild hkind
  obtain ⟨run', hrun', hstands', -⟩ := hplaced'.stands hwild' hkind
  rw [← Bindings.lookup_toTexts, ← hbindings] at hrun
  rw [← Bindings.lookup_toTexts, ← hbindings'] at hrun'
  obtain rfl : run = run' := Option.some.inj (hrun.symm.trans hrun')
  have hagrees := hstands.agrees hplaced.actual hplaced'.actual hstands'
  refine ⟨run, hrun, hstands, hstands', hagrees, hfirst,
    fun args a a' hargs hmade ha ha' hplain => ?_⟩
  obtain ⟨-, -, hshown⟩ := params_shownBy hargs hmade
  have hap := forall₂_getElem? hshown ha hp
  have hap' := forall₂_getElem? hshown ha' hp'
  obtain ⟨_, _, hden⟩ := hap.denotes
  obtain ⟨_, _, hden'⟩ := hap'.denotes
  have hagrees := hagrees hplain
  rw [hden.tokens_eq, hden'.tokens_eq, hden.type_eq, hden'.type_eq, hap'.marker_eq] at hagrees
  rcases hagrees with ⟨hplain', htokens⟩ | ⟨hcast, htokens, source, target, hsource, htarget, hmade⟩
  · exact .inl ⟨hplain', tokens_injective (hargs a' (List.mem_of_getElem? ha'))
      (hargs a (List.mem_of_getElem? ha)) htokens⟩
  · cases hsource
    cases htarget
    rw [cast_marker] at hmade
    exact .inr ⟨hcast, fun htype => htokens (by rw [htype]), hmade⟩

/-- the parameter `?0` of `!Object FUNCTION VOID ( ?0 ?0 )` -/
def objectParam : Tree :=
  .branch Symbol.paramObject 0 [.head Symbol.object 5 ⟨Symbol.object, some 0⟩]

theorem formed_objectParam : objectParam.Formed := by
  have hhead : (Tree.head Symbol.object 5 ⟨Symbol.object, some 0⟩).Formed :=
    formed_head.mpr ⟨by decide, by decide, rfl⟩
  exact formed_single (by decide) hhead

theorem unify_single (s : Symbol) (i : Nat) (actual : Tree) (kind : Symbol) (k : Nat) (tok : Token)
    (b : Bindings) : unify (.branch s i [actual]) (.branch s i [.head kind k tok]) b =
      bind kind tok.wildcard actual b := by
  rw [unify_branch_self, unifyAll, unify_head]
  cases bind kind tok.wildcard actual b with
  | none => rfl
  | some b => simp only [unifyAll]

theorem bind_of_derives {kind : Symbol} {actual : Tree} (id : Nat)
    (hd : signature.derives kind actual.unwrap.symbol = true) (b : Bindings) :
    bind kind (some id) actual b = match b.get? id with
      | some prev => if prev = actual.marks then some b else none
      | none => some (b.insert id actual.marks) := by
  unfold bind
  exact if_pos hd

/-- an arithmetic argument matches it if it is the first, or is written like the first -/
theorem unify_objectParam {t : Tree} (ht : t.Formed) (hs : t.symbol = Symbol.arithmetic)
    (b : Bindings) : unify (valueParam t) objectParam b =
      match b.get? 0 with
      | some prev => if prev = t.marks then some b else none
      | none => some (b.insert 0 t.marks) := by
  have hobject : (Tree.branch Symbol.object 0 [t]).Formed := by
    refine formed_branch.mpr ⟨?_, by simpa using ht⟩
    rw [List.map_singleton, hs]
    decide
  have hhead : Symbol.object ∈ signatureRules.map Rule.head := by decide
  have hd := derives_unwrap hobject hhead
  have hmarks : (Tree.branch Symbol.object 0 [t]).marks = t.marks := by
    rw [Tree.marks, Tree.marksAll, Tree.marksAll, List.append_nil]
  rw [← hmarks]
  exact (unify_single _ _ _ _ _ _ b).trans (bind_of_derives 0 hd b)

theorem draft_objectParam (t : Tree) (b : Bindings) : draft (valueParam t) objectParam b =
    match unify (valueParam t) objectParam b with
    | some b => some (.settled .clone, b)
    | none => some (.convert .none (valueParam t) objectParam, b) := by
  have hformal : objectParam.splitRef = (.none, objectParam) := splitRef_single _ _ _
  have hactual : (valueParam t).splitRef = (.none, valueParam t) := splitRef_single _ _ _
  have hbare : objectParam.bareArithmetic? = none := rfl
  rw [draft_eq rfl, hformal, hactual, if_neg (by decide), hbare]
  cases unify (valueParam t) objectParam b with
  | none => rfl
  | some b => rfl

theorem concretize_objectParam :
    concretize objectParam [(0, Binding.ofTexts ["I32"])] = .ok (some (.arith .i32)) := by
  obtain ⟨t, ht⟩ := exists_unmarked_arith .i32 (.inr rfl)
  have hparse : signature.parsePlain ["I32"] Symbol.paramObject = some t :=
    (parsePlain_eq_some_iff (by decide)).mpr ⟨ht.formed, ht.symbol_eq, ht.yield_eq⟩
  have hsub : objectParam.substitute (Bindings.texts? [(0, Binding.ofTexts ["I32"])]) =
      some ["I32"] := rfl
  unfold concretize
  rw [hsub]
  dsimp only
  rw [if_neg (by decide), show objectParam.symbol = Symbol.paramObject from rfl, hparse]
  dsimp only
  rw [ht.type_eq]
  rfl

/-- `!Object FUNCTION VOID ( ?0 ?0 )` -/
def objectPair : Signature :=
  ⟨["!Object", "FUNCTION", "VOID", "(", "?0", "?0", ")"], [Symbol.object],
    formTokens [⟨Keyword.void, none⟩] [[⟨Symbol.object, some 0⟩], [⟨Symbol.object, some 0⟩]],
    Symbol.function, procedureTree (paramsTree [objectParam, objectParam])⟩

def doubleTree : Tree :=
  .branch Symbol.arithmetic 10 [.leaf Kind.f64.token ⟨Kind.f64.token, none⟩]

/-- the call of an `I32` and an `F64` -/
def mixedCall : Signature :=
  ⟨openCallForm [⟨.arith .i32, .none⟩, ⟨.arith .f64, .none⟩], [],
    callTokens [[⟨"I32", none⟩], [⟨"F64", none⟩]], Symbol.function,
    callTree (paramsTree [valueParam wordTree, valueParam doubleTree])⟩

theorem compile_objectPair :
    signature.compile ["!Object", "FUNCTION", "VOID", "(", "?0", "?0", ")"] Symbol.function true =
      .ok objectPair := by
  have hparams := formed_paramsTree (l := [objectParam, objectParam])
    (by simpa using ⟨formed_objectParam, rfl⟩)
  have hstart : Symbol.function ∈ signatureWildcards := by decide
  exact compile_of_formed _ true ⟨[Symbol.object], objectPair.tokens⟩ hstart
    (prepareBody_signature (by rintro ⟨_, _, _, _, _, _, _⟩ rfl; rfl))
    (formed_procedureTree hparams.1 hparams.2) rfl rfl

theorem formed_doubleTree : doubleTree.Formed := by
  have hleaf := (spells_keyword (k := Kind.f64.token) (by decide)).formed
  exact formed_single (by decide) hleaf

theorem compile_mixedCall :
    signature.compile (openCallForm [⟨.arith .i32, .none⟩, ⟨.arith .f64, .none⟩]) Symbol.function
      false = .ok mixedCall := by
  have hparams := formed_paramsTree (l := [valueParam wordTree, valueParam doubleTree])
    (by simpa using ⟨formed_valueParam formed_wordTree rfl,
      formed_valueParam formed_doubleTree rfl⟩)
  have hstart : Symbol.function ∈ signatureWildcards := by decide
  exact compile_of_formed _ false ⟨[], mixedCall.tokens⟩ hstart
    (prepareBody_signature (by rintro ⟨_, _, _, _, _, _, _⟩ rfl; rfl))
    (formed_callTree hparams.1 hparams.2) rfl rfl

theorem admits_objectPair : CastRules.admits ⟨none, Strategy.all⟩ mixedCall objectPair [] =
    .ok (some ⟨[.clone, .numeric (.arith .i32)], [(0, ["I32"])], some ["VOID"]⟩) := by
  have hfirst : draft (valueParam wordTree) objectParam [] =
      some (.settled .clone, [(0, Binding.ofTexts ["I32"])]) := by
    rw [draft_objectParam, unify_objectParam formed_wordTree rfl]
    rfl
  have hsecond : draft (valueParam doubleTree) objectParam [(0, Binding.ofTexts ["I32"])] =
      some (.convert .none (valueParam doubleTree) objectParam,
        [(0, Binding.ofTexts ["I32"])]) := by
    rw [draft_objectParam, unify_objectParam formed_doubleTree rfl]
    rfl
  have hdraft : draftAll mixedCall.params objectPair.params [] =
      some ([.settled .clone, .convert .none (valueParam doubleTree) objectParam],
        [(0, Binding.ofTexts ["I32"])]) := by
    show draftAll [valueParam wordTree, valueParam doubleTree] [objectParam, objectParam] [] = _
    rw [draftAll, hfirst]
    dsimp only
    rw [draftAll, hsecond]
    rfl
  have hcast : CastRules.cast ⟨none, Strategy.all⟩ (.arith .f64) .none (.arith .i32) =
      .ok (some (.numeric (.arith .i32))) := by
    rw [CastRules.cast, castWith]
    · rfl
    · intros; contradiction
  have hfinish : finishAll (CastRules.cast ⟨none, Strategy.all⟩) [(0, Binding.ofTexts ["I32"])]
      [.settled .clone, .convert .none (valueParam doubleTree) objectParam] =
        .ok (some [.clone, .numeric (.arith .i32)]) := by
    have hsource : Ty.ofTree (valueParam doubleTree) = .ok (.arith .f64) := rfl
    have hclosed : (valueParam doubleTree).heads.isEmpty = true := rfl
    rw [finishAll, finish]
    dsimp only
    rw [finishAll, finish, concretize_objectParam]
    dsimp only
    rw [if_pos hclosed, hsource]
    dsimp only
    rw [hcast]
    rfl
  have hlen : mixedCall.params.length = objectPair.params.length := rfl
  rw [admits_call rfl rfl]
  exact planCall_eq hlen rfl rfl rfl hdraft rfl hfinish

/-- `!Object FUNCTION VOID ( ?0 ?0 )` called with an `I32` and an `F64`: the second argument does
not match, and is converted to the type of the first -/
theorem repeated_wildcards_cast : ∃ call sup r tr',
    signature.compile (openCallForm [⟨.arith .i32, .none⟩, ⟨.arith .f64, .none⟩]) Symbol.function
      false = .ok call ∧
    signature.compile ["!Object", "FUNCTION", "VOID", "(", "?0", "?0", ")"] Symbol.function true =
      .ok sup ∧
    CastRules.admits ⟨none, Strategy.all⟩ call sup [] = .ok (some r) ∧
    r.transfers = [.clone, tr'] ∧ tr'.isCast = true ∧
    CastRules.cast ⟨none, Strategy.all⟩ (.arith .f64) .none (.arith .i32) = .ok (some tr') := by
  have hwell : ∀ a ∈ [(⟨.arith .i32, .none⟩ : Arg), ⟨.arith .f64, .none⟩], a.type.WellFormed := by
    intro a ha
    rcases List.mem_pair.mp ha with rfl | rfl <;> trivial
  have hwild : objectParam.IsWildcard Symbol.object 0 := ⟨5, ⟨Symbol.object, some 0⟩, rfl, rfl⟩
  have hkind : Symbol.object ≠ Symbol.arithmetic := by decide
  have hopen : mixedCall.IsOpenCall := by
    refine ⟨⟨_, rfl, rfl⟩, fun p hp => ?_⟩
    rcases List.mem_pair.mp hp with rfl | rfl <;> rfl
  obtain ⟨run, -, -, -, -, -, hother⟩ := repeated_wildcards ⟨none, Strategy.all⟩ compile_mixedCall
    hopen compile_objectPair admits_objectPair hkind (i := 0) rfl rfl rfl hwild (j := 1) rfl rfl
    rfl hwild
  refine ⟨_, _, _, _, compile_mixedCall, compile_objectPair, admits_objectPair, rfl, ?_⟩
  rcases hother _ _ _ hwell compile_mixedCall rfl rfl rfl with ⟨hplain, -⟩ | ⟨hcast, -, hmade⟩
  · cases hplain
  · exact ⟨hcast, hmade⟩

end Overloading
