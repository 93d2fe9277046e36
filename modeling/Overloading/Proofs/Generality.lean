import Overloading.Proofs.Instantiation

/-!
# Matching is a preorder

Outside calls a match says that one tree is an instance of another: trees can be put in for the
wildcards of the declared tree so that it becomes the actual one.  The wildcards of the actual tree
are not touched by this, so that they may occur in what is put in.

* `Tree.IsInstance`            the actual tree is the declared one with formed trees of their kinds
                               for its heads; instances compose (`isInstance_refl`,
                               `Tree.IsInstance.trans`);
* `isInstance_of_unify`        a match of trees with one root symbol never looks through a wrapper,
                               and what it has bound are the tokens of such trees;
* `exists_unify_iff_instance`  so two signatures compiled from one start match exactly if one is an
                               instance of the other;
* `admits_preorder`            admission outside calls is reflexive and transitive.
-/

namespace Overloading

open Grammar

/-! ## Putting trees in one after the other -/

namespace Tree

variable {σ τ : Symbol → Option Nat → Tree}

def keep (s : Symbol) (id : Option Nat) : Tree := .head s (alternatives s).length ⟨s, id⟩

theorem formed_keep {s : Symbol} (hs : s ∈ signatureWildcards) (id : Option Nat) :
    (keep s id).Formed := formed_head.mpr ⟨hs, rfl, rfl⟩

theorem graft_keep {t : Tree} (ht : t.Formed) : t.graft keep = t := by
  induction t using induct with
  | leaf s tok => rw [graft]
  | head s i tok =>
    obtain ⟨_, rfl, htext⟩ := formed_head.mp ht
    rw [graft]
    show Tree.head s _ ⟨s, tok.wildcard⟩ = _
    rw [← htext]
  | branch s i cs ih =>
    have hcs := (formed_branch.mp ht).2
    rw [graft_branch]
    exact congrArg _ ((List.map_congr_left fun c hc => ih c hc (hcs c hc)).trans (List.map_id cs))

theorem graft_graft (t : Tree) :
    (t.graft τ).graft σ = t.graft fun s id => (τ s id).graft σ := by
  induction t using induct with
  | leaf s tok => rw [graft, graft, graft]
  | head s i tok => rw [graft, graft]
  | branch s i cs ih =>
    rw [graft_branch, graft_branch, graft_branch, List.map_map]
    exact congrArg _ (List.map_congr_left ih)

theorem mem_heads_graft {t : Tree} {y : Symbol × Option Nat} :
    y ∈ (t.graft σ).heads ↔ ∃ x ∈ t.heads, y ∈ (σ x.1 x.2).heads := by
  induction t using induct with
  | leaf s tok => rw [graft, heads]; simp
  | head s i tok => rw [graft, heads]; simp
  | branch s i cs ih =>
    rw [graft_branch, mem_heads_branch]
    constructor
    · rintro ⟨d, hd, hy⟩
      obtain ⟨c, hc, rfl⟩ := List.mem_map.mp hd
      obtain ⟨x, hx, hy⟩ := (ih c hc).mp hy
      exact ⟨x, mem_heads_branch.mpr ⟨c, hc, hx⟩, hy⟩
    · rintro ⟨x, hx, hy⟩
      obtain ⟨c, hc, hx⟩ := mem_heads_branch.mp hx
      exact ⟨c.graft σ, List.mem_map_of_mem hc, (ih c hc).mpr ⟨x, hx, hy⟩⟩

/-- the actual tree is the declared one with formed trees of their kinds for its heads -/
structure IsInstance (actual formal : Tree) (σ : Symbol → Option Nat → Tree) : Prop where
  eq_graft : actual = formal.graft σ
  fits : ∀ x ∈ formal.heads, (σ x.1 x.2).Formed ∧ (σ x.1 x.2).symbol = x.1

theorem isInstance_refl {t : Tree} (ht : t.Formed) : t.IsInstance t keep :=
  ⟨(graft_keep ht).symm, fun _ hx => ⟨formed_keep (kind_mem_of_mem_heads ht hx) _, rfl⟩⟩

theorem IsInstance.trans {t u v : Tree} (h : t.IsInstance u σ) (h' : u.IsInstance v τ) :
    t.IsInstance v fun s id => (τ s id).graft σ := by
  refine ⟨?_, fun x hx => ?_⟩
  · calc t = u.graft σ := h.eq_graft
      _ = (v.graft τ).graft σ := by rw [← h'.eq_graft]
      _ = v.graft fun s id => (τ s id).graft σ := graft_graft v
  · obtain ⟨hf, hs⟩ := h'.fits x hx
    have hσ : ∀ y ∈ (τ x.1 x.2).heads, (σ y.1 y.2).Formed ∧ (σ y.1 y.2).symbol = y.1 :=
      fun y hy => h.fits y (by
        rw [h'.eq_graft]
        exact mem_heads_graft.mpr ⟨x, hx, hy⟩)
    exact ⟨formed_graft hf hσ, (symbol_graft fun y hy => (hσ y hy).2).trans hs⟩

/-! ## Trees are told apart by their marks -/

/-- a part of the tree of a signature: formed, and just its wildcardable names have a number -/
structure IsPart (t : Tree) : Prop where
  formed : t.Formed
  ordinary : Ordinary t.symbol
  numbered : t.Numbered

theorem IsPart.child {s : Symbol} {i : Nat} {cs : List Tree} (h : (branch s i cs).IsPart) {c : Tree}
    (hc : c ∈ cs) : c.IsPart :=
  ⟨(formed_child h.formed hc).1, (formed_child h.formed hc).2, h.numbered.child hc⟩

theorem IsPart.unnumbered {s : Symbol} {tok : Token} (h : (leaf s tok).IsPart) :
    tok.wildcard = none :=
  h.numbered.plain h.formed h.ordinary (by rw [heads]) tok
    (by rw [yield]; exact List.mem_singleton.mpr rfl)

theorem IsPart.marks_eq {t : Tree} (h : t.IsPart) : t.marks = t.yield := by
  induction t using induct with
  | leaf s tok =>
    have hnone := h.unnumbered
    cases tok
    cases hnone
    rw [marks, yield]
  | head s i tok => rw [marks, yield]
  | branch s i cs ih =>
    rw [marks, yield, marksAll_eq_flatMap, yieldAll_eq_flatMap]
    exact List.flatMap_congr fun c hc => ih c hc (h.child hc)

end Tree

/-- the tree over the tokens a wildcard of a kind is bound to -/
def boundTree (V : Nat → Option Binding) (kind : Symbol) (id : Option Nat) : Tree :=
  ((id.bind V).bind fun v => signature.parse v kind).getD (.leaf "" ⟨"", none⟩)

theorem boundTree_marks {V : Nat → Option Binding} {id : Nat} {u : Tree} (hu : u.IsPart)
    (hs : u.symbol ∈ signatureWildcards) (hV : V id = some u.marks) :
    boundTree V u.symbol (some id) = u := by
  have hparse := (parse_eq_some_iff compiled_signature hs).mpr ⟨hu.formed, rfl, hu.marks_eq.symm⟩
  unfold boundTree
  rw [Option.bind_some, hV, Option.bind_some, hparse, Option.getD_some]

/-! ## A match is an instance -/

/-- what a match has bound for the heads of a declared tree: the marks of formed trees of their
kinds, which make it the actual one -/
structure Binds (actual formal : Tree) (b' : Bindings) : Prop where
  graft_eq : ∀ V : Nat → Option Binding, b'.Within V → formal.graft (boundTree V) = actual
  bound : ∀ x ∈ formal.heads, ∃ (id : Nat) (u : Tree), x.2 = some id ∧ b'.get? id = some u.marks ∧
    u.IsPart ∧ u.symbol = x.1

theorem Binds.mono {actual formal : Tree} {b b' : Bindings} (hb : b.Extends b')
    (h : Binds actual formal b) : Binds actual formal b' := by
  refine ⟨fun V hV => h.graft_eq V fun id v hv => hV id v (hb id v hv), fun x hx => ?_⟩
  obtain ⟨id, u, hid, hget, hu⟩ := h.bound x hx
  exact ⟨id, u, hid, hb id _ hget, hu⟩

theorem binds_bind {actual : Tree} {i : Nat} {tok : Token} {b b' : Bindings}
    (ha : actual.IsPart) (hs : actual.symbol ∈ signatureWildcards)
    (h : bind actual.symbol tok.wildcard actual b = some b') :
    b.Extends b' ∧ Binds actual (.head actual.symbol i tok) b' := by
  obtain ⟨_, id, hid, hb⟩ := bind_cases h
  have hget : b'.get? id = some actual.marks := by
    rcases hb with ⟨hget, rfl⟩ | ⟨hnone, rfl⟩
    · exact hget
    · exact Bindings.get?_insert_self hnone _
  refine ⟨?_, fun V hV => ?_, fun x hx => ?_⟩
  · rcases hb with ⟨_, rfl⟩ | ⟨_, rfl⟩
    · exact Bindings.Extends.refl _
    · exact Bindings.extends_insert _
  · rw [Tree.graft, hid]
    exact boundTree_marks ha hs (hV id _ hget)
  · rw [Tree.heads, List.mem_singleton] at hx
    exact ⟨id, actual, by rw [hx, hid], hget, ha, by rw [hx]⟩

theorem binds_unifyAll {s : Symbol} {i : Nat} {cs fs : List Tree} {b b' : Bindings}
    (hfs : ∀ f ∈ fs, ∀ c ∈ cs, c.symbol = f.symbol → ∀ b b', unify c f b = some b' →
      b.Extends b' ∧ Binds c f b')
    (hsym : cs.map Tree.symbol = fs.map Tree.symbol) (h : unifyAll cs fs b = some b') :
    b.Extends b' ∧ Binds (.branch s i cs) (.branch s i fs) b' := by
  induction cs generalizing fs b with
  | nil =>
    cases fs with
    | cons f fs => cases hsym
    | nil =>
      rw [unifyAll] at h
      cases h
      refine ⟨Bindings.Extends.refl _, fun V _ => by rw [Tree.graft_branch]; rfl, fun x hx => ?_⟩
      rw [Tree.heads, Tree.headsAll_nil] at hx
      exact (List.not_mem_nil hx).elim
  | cons c cs ih =>
    obtain ⟨f, fs, b₁, rfl, h₁, h₂⟩ := unifyAll_cons_cases h
    rw [List.map_cons, List.map_cons, List.cons_eq_cons] at hsym
    obtain ⟨hext₁, hc⟩ := hfs f List.mem_cons_self c List.mem_cons_self hsym.1 _ _ h₁
    obtain ⟨hext₂, hcs⟩ := ih (fun f hf c hc => hfs f (List.mem_cons_of_mem _ hf) c
      (List.mem_cons_of_mem _ hc)) hsym.2 h₂
    have hc := hc.mono hext₂
    refine ⟨hext₁.trans hext₂, fun V hV => ?_, fun x hx => ?_⟩
    · have htail := hcs.graft_eq V hV
      rw [Tree.graft_branch] at htail ⊢
      rw [List.map_cons, hc.graft_eq V hV, (Tree.branch.inj htail).2.2]
    · rw [Tree.heads, Tree.headsAll_cons, List.mem_append] at hx
      rcases hx with hx | hx
      · exact hc.bound x hx
      · exact hcs.bound x (by rw [Tree.heads]; exact hx)

/-- **A match of trees with one root symbol** goes down in both at once. -/
theorem isInstance_of_unify {actual formal : Tree} {b b' : Bindings} (ha : actual.IsPart)
    (hf : formal.IsPart) (hsym : actual.symbol = formal.symbol)
    (h : unify actual formal b = some b') : b.Extends b' ∧ Binds actual formal b' := by
  induction formal using Tree.induct generalizing actual b b' with
  | head s i tok =>
    cases hsym
    rw [unify_head] at h
    exact binds_bind ha (formed_head.mp hf.formed).1 h
  | leaf s tok =>
    cases actual with
    | head s' i' tok' =>
      rw [unify] at h
      · cases h
      · intros; contradiction
    | branch s' i' cs =>
      rw [unify_branch _ _ _ _ rfl, if_pos (show (Tree.leaf s tok).symbol = s' from hsym.symm)] at h
      cases h
    | leaf s' tok' =>
      rw [unify] at h
      split at h
      · next heq =>
        cases h
        refine ⟨Bindings.Extends.refl _, fun V _ => ?_, fun x hx => ?_⟩
        · rw [Tree.graft]
          have h1 := ha.unnumbered
          have h2 := hf.unnumbered
          cases tok
          cases tok'
          cases h1
          cases h2
          cases heq.1
          cases heq.2
          rfl
        · rw [Tree.heads] at hx
          exact (List.not_mem_nil hx).elim
      · cases h
  | branch s i fs ih =>
    cases actual with
    | head s' i' tok' =>
      rw [unify] at h
      · cases h
      · intros; contradiction
    | leaf s' tok' =>
      rw [unify] at h
      · cases h
      · intros; contradiction
      · intros; contradiction
    | branch s' i' cs =>
      cases hsym
      rw [unify_branch _ _ _ _ rfl, if_pos (show (Tree.branch s i fs).symbol = s from rfl)] at h
      simp only [if_true] at h
      split at h
      rotate_left
      · cases h
      next hi =>
      cases hi
      have hsyms : cs.map Tree.symbol = fs.map Tree.symbol :=
        Option.some.inj ((formed_branch.mp ha.formed).1.symm.trans (formed_branch.mp hf.formed).1)
      exact binds_unifyAll (fun f hf' c hc hcf _ _ hu =>
        ih f hf' (ha.child hc) (hf.child hf') hcf hu) hsyms h

/-! ## Signatures -/

section Signatures

variable {start : Symbol} {sub sup : Signature}

theorem Signature.CompiledFrom.isPart (h : sub.CompiledFrom start)
    (hs : start ∈ signatureWildcards) : sub.root.IsPart :=
  ⟨h.formed, h.symbol_eq ▸ Tree.ordinary_wildcard hs, h.numbered⟩

/-- **Two signatures compiled from one start match** exactly if one is an instance of the other. -/
theorem exists_unify_iff_instance (hstart : start ∈ signatureWildcards)
    (hsub : sub.CompiledFrom start) (hsup : sup.CompiledFrom start) {kindOf : Nat → Symbol}
    (hk : sup.Kinded kindOf) :
    (∃ b, unify sub.root sup.root [] = some b) ↔ ∃ σ, sub.root.IsInstance sup.root σ := by
  constructor
  · rintro ⟨b, hb⟩
    obtain ⟨_, hbinds⟩ := isInstance_of_unify (hsub.isPart hstart) (hsup.isPart hstart)
      (hsub.symbol_eq.trans hsup.symbol_eq.symm) hb
    refine ⟨boundTree b.get?, (hbinds.graft_eq _ fun _ _ h => h).symm, fun ⟨kind, n⟩ hx => ?_⟩
    obtain ⟨id, u, hid, hget, hu, hs⟩ := hbinds.bound _ hx
    dsimp only at hid hs
    subst hid hs
    show (boundTree b.get? u.symbol (some id)).Formed ∧ _
    rw [boundTree_marks hu (Tree.kind_mem_of_mem_heads hsup.formed hx) hget]
    exact ⟨hu.formed, rfl⟩
  · rintro ⟨σ, heq, hfits⟩
    -- a number has one kind, so one tree is put in for it
    obtain ⟨b, hb, _⟩ := unify_graft (σ := σ) (b := [])
      (V := fun id => some (σ (kindOf id) (some id)).marks) hsup.formed (fun ⟨kind, n⟩ hx => by
        obtain ⟨id, hid⟩ := hsup.numbered.head_number hsup.formed
          (hsup.isPart hstart).ordinary _ hx
        dsimp only at hid
        subst hid
        obtain ⟨h1, h2⟩ := hfits _ hx
        exact ⟨h1, h2, id, rfl, by rw [← hk.heads kind id hx]⟩) nofun
    exact ⟨b, heq ▸ hb⟩

theorem exists_admits_iff_instance (m : CastRules) (hstart : start ∈ signatureWildcards)
    {src src' : List String} {strict strict' : Bool}
    (hsub : signature.compile src start strict = .ok sub)
    (hsup : signature.compile src' start strict' = .ok sup)
    (hform : (sub.isFunction && sup.isFunction) = false) :
    (∃ r, m.admits sub sup [] = .ok (some r)) ↔ ∃ σ, sub.root.IsInstance sup.root σ := by
  obtain ⟨_, hsup, kindOf, hk⟩ := exists_kinded hsup
  rw [← exists_unify_iff_instance hstart (compiledFrom_of_compile hstart hsub) hsup hk,
    admits_of_not_call m hform]
  constructor
  · rintro ⟨r, hr⟩
    obtain ⟨b, hb, _⟩ := Option.map_eq_some_iff.mp (Except.ok.inj hr)
    exact ⟨b, hb⟩
  · rintro ⟨b, hb⟩
    exact ⟨_, by rw [hb]; rfl⟩

end Signatures

/-- **Matching is a preorder**: over the signatures compiled from one wildcardable start that are
no function forms, with their wildcards, each admits itself, and what is admitted by a signature is
admitted by every signature that admits that one. -/
theorem admits_preorder (m : CastRules) {start : Symbol} (hstart : start ∈ signatureWildcards) :
    (∀ (src : List String) (strict : Bool) (s : Signature),
      signature.compile src start strict = .ok s → s.isFunction = false →
        ∃ r, m.admits s s [] = .ok (some r)) ∧
    ∀ (src₁ src₂ src₃ : List String) (strict₁ strict₂ strict₃ : Bool) (a b c : Signature),
      signature.compile src₁ start strict₁ = .ok a →
      signature.compile src₂ start strict₂ = .ok b →
      signature.compile src₃ start strict₃ = .ok c →
      b.isFunction = false → c.isFunction = false →
      (∃ r, m.admits a b [] = .ok (some r)) → (∃ r, m.admits b c [] = .ok (some r)) →
        ∃ r, m.admits a c [] = .ok (some r) := by
  constructor
  · intro src strict s hs hfun
    have hform : (s.isFunction && s.isFunction) = false := by rw [hfun]; rfl
    exact (exists_admits_iff_instance m hstart hs hs hform).mpr
      ⟨Tree.keep, Tree.isInstance_refl (compiledFrom_of_compile hstart hs).formed⟩
  · intro src₁ src₂ src₃ strict₁ strict₂ strict₃ a b c ha hb hc hbfun hcfun hab hbc
    have hform : ∀ s t : Signature, t.isFunction = false →
        (s.isFunction && t.isFunction) = false := fun s t ht => by rw [ht, Bool.and_false]
    obtain ⟨σ, hσ⟩ := (exists_admits_iff_instance m hstart ha hb (hform a b hbfun)).mp hab
    obtain ⟨τ, hτ⟩ := (exists_admits_iff_instance m hstart hb hc (hform b c hcfun)).mp hbc
    exact (exists_admits_iff_instance m hstart ha hc (hform a c hcfun)).mpr ⟨_, hσ.trans hτ⟩

/-- `Type` admits `Arithmetic`, itself among others, and so the `I32` that this admits -/
theorem admits_preorder_units :
    ∃ a b c : Signature, signature.compile ["I32"] Symbol.type false = .ok a ∧
      signature.compile ["Arithmetic"] Symbol.type false = .ok b ∧
      signature.compile ["Type"] Symbol.type false = .ok c ∧
      (∃ r, CastRules.admits ⟨none, []⟩ b b [] = .ok (some r)) ∧
      ∃ r, CastRules.admits ⟨none, []⟩ a c [] = .ok (some r) := by
  have hstart : Symbol.type ∈ signatureWildcards := by decide
  have hhead : ∀ s ∈ signatureWildcards, (Tree.keep s (some 0)).Formed := fun s hs =>
    Tree.formed_keep hs (some 0)
  obtain ⟨i, hi⟩ := denotes_arith .i32
  have hword := (hi.wrap (s := Symbol.object) (i := 0) (by decide) (by decide) (by decide)).wrap
    (s := Symbol.type) (i := 0) (by decide) (by decide) (by decide)
  have hobject : (Tree.branch Symbol.object 0 [.keep Symbol.arithmetic (some 0)]).Formed :=
    formed_branch.mpr ⟨by decide, by simpa using hhead Symbol.arithmetic (by decide)⟩
  have htype : (Tree.branch Symbol.type 0 [.branch Symbol.object 0
      [.keep Symbol.arithmetic (some 0)]]).Formed :=
    formed_branch.mpr ⟨by decide, by simpa using hobject⟩
  have ha := compile_of_formed ["I32"] false ⟨[], [⟨"I32", none⟩]⟩ hstart
    (prepareBody_signature (by rintro ⟨_, _, _, _, _, _, _⟩ rfl; rfl)) hword.formed rfl rfl
  have hb := compile_of_formed ["Arithmetic"] false ⟨[], [⟨"Arithmetic", some 0⟩]⟩ hstart
    (prepareBody_signature (by rintro ⟨_, _, _, _, _, _, _⟩ rfl; rfl)) htype rfl rfl
  have hc := compile_of_formed ["Type"] false ⟨[], [⟨"Type", some 0⟩]⟩ hstart
    (prepareBody_signature (by rintro ⟨_, _, _, _, _, _, _⟩ rfl; rfl)) (hhead _ hstart) rfl rfl
  obtain ⟨hrefl, htrans⟩ := admits_preorder ⟨none, []⟩ hstart
  have hab := (exists_admits_iff_instance ⟨none, []⟩ hstart ha hb rfl).mpr
    ⟨fun _ _ => .branch Symbol.arithmetic i [.leaf "I32" ⟨"I32", none⟩], by rfl, by
      intro x hx
      have hx : x ∈ [(Symbol.arithmetic, some 0)] := hx
      rw [List.mem_singleton.mp hx]
      exact ⟨hi.formed, rfl⟩⟩
  have hbc := (exists_admits_iff_instance ⟨none, []⟩ hstart hb hc rfl).mpr
    ⟨fun _ _ => .branch Symbol.type 0 [.branch Symbol.object 0 [.keep Symbol.arithmetic (some 0)]],
      by rfl, by
      intro x hx
      have hx : x ∈ [(Symbol.type, some 0)] := hx
      rw [List.mem_singleton.mp hx]
      exact ⟨htype, rfl⟩⟩
  exact ⟨_, _, _, ha, hb, hc, hrefl _ _ _ hb rfl,
    htrans _ _ _ _ _ _ _ _ _ ha hb hc rfl rfl hab hbc⟩

end Overloading
