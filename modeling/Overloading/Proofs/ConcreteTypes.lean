import Overloading.Proofs.CallTrees
import Overloading.Proofs.TypeReading

/-!
# Types are concrete outside function forms

A type is read from a tree only if every leaf and head of the tree allows it: a head is a wildcard
and denotes no type, and the size of an array has to fit a word.  A function form is kept as it is
written, so nothing is asked of what stands in it.

* `Tree.exposed`      the leaves and heads of a tree that stand in no function form;
* `Tree.Concrete`, `Tree.Blames`   what reading asks of them, and the fault if one of them fails;
* `Tree.built`        every tree is read just if all that it exposes is concrete;
* `outsideForms`      the same tokens, found in the text;
* `types_are_concrete`   what this says of trees and of texts.
-/

namespace Overloading

open Grammar Overloading.Text

/-! ## Outside function forms -/

mutual
/-- the leaves and heads of a tree that stand in no function form, left to right -/
def Tree.exposed : Tree → List Tree
  | .leaf s t => [.leaf s t]
  | .branch s _ cs => if s = Symbol.function then [] else Tree.exposedAll cs
  | .head s i t => [.head s i t]

def Tree.exposedAll : List Tree → List Tree
  | [] => []
  | c :: cs => c.exposed ++ Tree.exposedAll cs
end

theorem Tree.exposedAll_eq_flatMap (cs : List Tree) : exposedAll cs = cs.flatMap exposed := by
  induction cs with
  | nil => rw [exposedAll]; rfl
  | cons c cs ih => rw [exposedAll, ih, List.flatMap_cons]

theorem Tree.exposed_branch {s : Symbol} (hs : s ≠ Symbol.function) (i : Nat) (cs : List Tree) :
    (branch s i cs).exposed = cs.flatMap exposed := by
  rw [exposed, if_neg hs, exposedAll_eq_flatMap]

theorem Tree.exposed_function (i : Nat) (cs : List Tree) :
    (branch Symbol.function i cs).exposed = [] := by
  rw [exposed, if_pos rfl]

/-- the tokens of a text that stand in no function form -/
def outsideForms : (depth : Nat) → List String → List String
  | _, [] => []
  | d, t :: ts =>
    if d = 0 ∧ t ≠ Keyword.function then t :: outsideForms (depthAfter d t) ts
    else outsideForms (depthAfter d t) ts

/-! ## Concrete trees -/

/-- a leaf or head that denotes something: it is no wildcard, and no number too large -/
structure Tree.Concrete (u : Tree) : Prop where
  not_head : u.isHead = false
  fits : ¬ Oversize u.tokenText

/-- a leaf or head for which reading stops with a fault -/
def Tree.Blames (u : Tree) (e : Fault) : Prop :=
  (u.isHead = true ∧ e.code = some .unresolvedWildcard) ∨
    (Oversize u.tokenText ∧ e = .arraySize u.tokenText)

theorem Tree.Blames.not_concrete {u : Tree} {e : Fault} (h : u.Blames e) : ¬ u.Concrete := by
  rintro ⟨hhead, hfits⟩
  rcases h with ⟨h, -⟩ | ⟨h, -⟩
  · rw [hhead] at h
    cases h
  · exact hfits h

/-- reading succeeds and all of some leaves and heads are concrete, or it fails for one of them -/
def BuildsFrom {α : Type} (us : List Tree) : Except Fault α → Prop
  | .ok _ => ∀ u ∈ us, u.Concrete
  | .error e => ∃ u ∈ us, u.Blames e

section

variable {α β : Type} {us vs : List Tree}

theorem buildsFrom_map {f : α → β} {r : Except Fault α} :
    BuildsFrom us (r.map f) ↔ BuildsFrom us r := by
  cases r <;> rfl

theorem BuildsFrom.extend {r : Except Fault α} (h : BuildsFrom us r) (hsub : ∀ u ∈ us, u ∈ vs)
    (hrest : ∀ u ∈ vs, u ∈ us ∨ u.Concrete) : BuildsFrom vs r := by
  cases r with
  | ok a => exact fun u hu => (hrest u hu).elim (h u) id
  | error e =>
    obtain ⟨u, hu, hblames⟩ := h
    exact ⟨u, hsub u hu, hblames⟩

theorem BuildsFrom.behind {r : Except Fault α} (h : BuildsFrom us r)
    (hfront : ∀ u ∈ vs, u.Concrete) : BuildsFrom (vs ++ us) r :=
  h.extend (fun _ hu => List.mem_append_right _ hu) fun u hu =>
    (List.mem_append.mp hu).elim (fun hu => .inr (hfront u hu)) .inl

theorem BuildsFrom.before {r : Except Fault α} (h : BuildsFrom us r)
    (hback : ∀ u ∈ vs, u.Concrete) : BuildsFrom (us ++ vs) r :=
  h.extend (fun _ hu => List.mem_append_left _ hu) fun u hu =>
    (List.mem_append.mp hu).elim .inl fun hu => .inr (hback u hu)

/-- one reading after another: the second is not begun if the first fails -/
theorem BuildsFrom.andThen {r : Except Fault α} {f : α → Except Fault β} {q : Except Fault β}
    (h : BuildsFrom us r) (hf : ∀ a, BuildsFrom vs (f a))
    (herror : ∀ e, r = .error e → q = .error e) (hok : ∀ a, r = .ok a → q = f a) :
    BuildsFrom (us ++ vs) q := by
  cases r with
  | error e =>
    obtain ⟨u, hu, hblames⟩ := h
    rw [herror e rfl]
    exact ⟨u, List.mem_append_left _ hu, hblames⟩
  | ok a =>
    rw [hok a rfl]
    exact (hf a).behind h

theorem BuildsFrom.isOk_iff {r : Except Fault α} (h : BuildsFrom us r) :
    (∃ a, r = .ok a) ↔ ∀ u ∈ us, u.Concrete := by
  cases r with
  | ok a => exact ⟨fun _ => h, fun _ => ⟨a, rfl⟩⟩
  | error e =>
    obtain ⟨u, hu, hblames⟩ := h
    exact ⟨nofun, fun hall => absurd (hall u hu) hblames.not_concrete⟩

end

theorem concrete_leaf {s : Symbol} {tok : Token} (h : isNumber tok.text = false) :
    (Tree.leaf s tok).Concrete := by
  refine ⟨rfl, fun hover => ?_⟩
  rw [show (Tree.leaf s tok).tokenText = tok.text from rfl] at hover
  rw [hover.1] at h
  cases h

theorem concrete_keyword {k : String} (hk : k ∈ signatureKeywords) {t : Tree}
    (h : t.Formed ∧ t.symbol = k) : ∀ u ∈ t.exposed, u.Concrete := by
  obtain ⟨tok, rfl, htokens⟩ := keyword_of_formed hk h
  have htext : tok.text = k := by simpa [Tree.tokens] using htokens
  intro u hu
  rw [Tree.exposed] at hu
  rw [List.mem_singleton.mp hu]
  exact concrete_leaf (by rw [htext]; exact (keyword_ne k hk).2.2.2.2)

/-! ## Reading every tree -/

/-- the symbols whose trees may denote a type -/
def builtSymbols : List Symbol := Symbol.return_ :: Symbol.paramObject :: typeSymbols

/-- the symbols that only wrap a type, with or without a marker in front of it -/
def wrapperSymbols : List Symbol :=
  [Symbol.type, Symbol.object, Symbol.return_, Symbol.paramObject]

theorem wrapperSymbols_spec : ∀ s ∈ wrapperSymbols,
    s ∈ builtSymbols ∧ s ≠ Symbol.function ∧ s.isWrapper = true := by
  decide

theorem wrapper_bodies : ∀ s ∈ wrapperSymbols, ∀ body ∈ alternatives s,
    (∃ x ∈ builtSymbols, body = [x]) ∨
      (∃ k ∈ signatureKeywords, ∃ x ∈ builtSymbols, body = [k, x]) ∨ body = [Keyword.void] := by
  decide

/-- what reading a tree comes to, by the symbol of the tree -/
structure Tree.Built (t : Tree) : Prop where
  type_built : t.symbol ∈ builtSymbols → BuildsFrom t.exposed (Ty.ofTree t)
  list_built : t.symbol = Symbol.typeList → BuildsFrom t.exposed (Ty.ofTypeList t)
  outer_built : t.symbol = Symbol.enclosing →
    ∀ name, BuildsFrom t.exposed (ClassTy.ofEnclosing name t)

namespace Tree.Built

variable {s : Symbol} {i : Nat} {cs : List Tree} {t : Tree}

theorem of_type (hs : t.symbol ∈ builtSymbols) (h : BuildsFrom t.exposed (Ty.ofTree t)) :
    t.Built := by
  have hnot : Symbol.typeList ∉ builtSymbols ∧ Symbol.enclosing ∉ builtSymbols := by decide
  exact ⟨fun _ => h, fun e => absurd (e ▸ hs) hnot.1, fun e => absurd (e ▸ hs) hnot.2⟩

theorem of_list (hs : t.symbol = Symbol.typeList) (h : BuildsFrom t.exposed (Ty.ofTypeList t)) :
    t.Built :=
  ⟨fun e => absurd (hs ▸ e) (by decide), fun _ => h, fun e => absurd (hs.symm.trans e) (by decide)⟩

theorem of_enclosing (hs : t.symbol = Symbol.enclosing)
    (h : ∀ name, BuildsFrom t.exposed (ClassTy.ofEnclosing name t)) : t.Built :=
  ⟨fun e => absurd (hs ▸ e) (by decide), fun e => absurd (hs.symm.trans e) (by decide), fun _ => h⟩

theorem wrap (hs : s ∈ wrapperSymbols) (h : (Tree.branch s i cs).Formed)
    (ih : ∀ c ∈ cs, c.Built) : (Tree.branch s i cs).Built := by
  obtain ⟨hbuilt, hne, hwrapper⟩ := wrapperSymbols_spec s hs
  have hheads : ∀ x ∈ builtSymbols, x ∈ signatureRules.map Rule.head := by decide
  refine of_type hbuilt ?_
  rw [Tree.exposed_branch hne]
  obtain ⟨body, hbody, hcs⟩ := children_of_formed h
  obtain ⟨x, hx, rfl⟩ | ⟨k, hk, x, hx, rfl⟩ | rfl := wrapper_bodies s hs body hbody
  · obtain _ | ⟨hc, _ | _⟩ := hcs
    rename_i c
    have hleaf := isLeaf_of_formed hc.1 (by rw [hc.2]; exact hheads x hx)
    rw [ofTree_wrap hwrapper hleaf, List.flatMap_singleton]
    exact (ih c (by simp)).type_built (by rw [hc.2]; exact hx)
  · obtain _ | ⟨hm, _ | ⟨hc, _ | _⟩⟩ := hcs
    rename_i m c
    have hleaf := isLeaf_of_formed hc.1 (by rw [hc.2]; exact hheads x hx)
    have hread := (ih c (by simp)).type_built (by rw [hc.2]; exact hx)
    rw [Ty.ofTree, if_pos hwrapper, List.flatMap_cons, List.flatMap_singleton]
    simp only [hleaf, Bool.false_eq_true, if_false]
    exact hread.behind (concrete_keyword hk hm)
  · obtain _ | ⟨hc, _ | _⟩ := hcs
    have hvoid : Keyword.void ∈ signatureKeywords := by decide
    obtain ⟨tok, rfl, -⟩ := keyword_of_formed hvoid hc
    rw [Ty.ofTree, if_pos hwrapper, List.flatMap_singleton]
    exact concrete_keyword hvoid hc

theorem arithmetic (h : (Tree.branch Symbol.arithmetic i cs).Formed) :
    (Tree.branch Symbol.arithmetic i cs).Built := by
  obtain ⟨body, hbody, hcs⟩ := children_of_formed h
  obtain ⟨k, _, rfl⟩ := List.mem_map.mp (show body ∈ Kind.all.map fun k => [k.token] from hbody)
  obtain _ | ⟨hc, _ | _⟩ := hcs
  have hk : k.token ∈ signatureKeywords := by cases k <;> decide
  obtain ⟨tok, rfl, htokens⟩ := keyword_of_formed hk hc
  have htext : tok.text = k.token := by simpa [Tree.tokens] using htokens
  refine of_type (show Symbol.arithmetic ∈ builtSymbols by decide) ?_
  rw [ofTree_arithmetic, htext, Kind.ofToken?_token, Tree.exposed_branch (by decide),
    List.flatMap_singleton]
  exact concrete_keyword hk hc

theorem pointer (h : (Tree.branch Symbol.pointer i cs).Formed) (ih : ∀ c ∈ cs, c.Built) :
    (Tree.branch Symbol.pointer i cs).Built := by
  obtain ⟨body, hbody, hcs⟩ := children_of_formed h
  cases List.mem_singleton.mp hbody
  obtain _ | ⟨hk, _ | ⟨hc, _ | _⟩⟩ := hcs
  rename_i k c
  have hread := (ih c (by simp)).type_built (by rw [hc.2]; decide)
  refine of_type (show Symbol.pointer ∈ builtSymbols by decide) ?_
  rw [ofTree_pointer, buildsFrom_map, Tree.exposed_branch (by decide), List.flatMap_cons,
    List.flatMap_singleton]
  exact hread.behind (concrete_keyword (by decide) hk)

theorem array (h : (Tree.branch Symbol.array i cs).Formed) (ih : ∀ c ∈ cs, c.Built) :
    (Tree.branch Symbol.array i cs).Built := by
  obtain ⟨body, hbody, hcs⟩ := children_of_formed h
  cases List.mem_singleton.mp hbody
  obtain _ | ⟨hk, _ | ⟨hn, _ | ⟨hc, _ | _⟩⟩⟩ := hcs
  rename_i k n c
  obtain ⟨tok, hleaf, hclass⟩ := leaf_of_formed hn.1 (by rw [hn.2]; decide)
  rw [hn.2] at hleaf hclass
  subst hleaf
  have hread := (ih c (by simp)).type_built (by rw [hc.2]; decide)
  refine of_type (show Symbol.array ∈ builtSymbols by decide) ?_
  rw [ofTree_array, Tree.exposed_branch (by decide), List.flatMap_cons, List.flatMap_cons,
    List.flatMap_singleton, Tree.exposed]
  refine BuildsFrom.behind ?_ (concrete_keyword (by decide) hk)
  cases hword : word? tok.text with
  | none =>
    have hover : Oversize tok.text := ⟨isNumber_of_classify hclass, hword⟩
    exact ⟨_, List.mem_append_left _ (List.mem_singleton.mpr rfl), .inr ⟨hover, rfl⟩⟩
  | some z =>
    refine (buildsFrom_map.mpr hread).behind fun u hu => ?_
    rw [List.mem_singleton.mp hu]
    refine ⟨rfl, fun hover => ?_⟩
    cases hword.symm.trans hover.2

theorem list (h : (Tree.branch Symbol.list i cs).Formed) (ih : ∀ c ∈ cs, c.Built) :
    (Tree.branch Symbol.list i cs).Built := by
  obtain ⟨body, hbody, hcs⟩ := children_of_formed h
  cases List.mem_singleton.mp hbody
  obtain _ | ⟨hk, _ | ⟨ho, _ | ⟨hl, _ | ⟨hr, _ | _⟩⟩⟩⟩ := hcs
  rename_i k o l r
  have hread := (ih l (by simp)).list_built hl.2
  refine of_type (show Symbol.list ∈ builtSymbols by decide) ?_
  rw [ofTree_list, buildsFrom_map, Tree.exposed_branch (by decide), List.flatMap_cons,
    List.flatMap_cons, List.flatMap_cons, List.flatMap_singleton]
  have hclosed := hread.before (concrete_keyword (by decide) hr)
  exact (hclosed.behind (concrete_keyword (by decide) ho)).behind (concrete_keyword (by decide) hk)

theorem function : (Tree.branch Symbol.function i cs).Built := by
  refine of_type (show Symbol.function ∈ builtSymbols by decide) ?_
  rw [ofTree_function, Tree.exposed_function]
  exact List.forall_mem_nil _

theorem typeList (h : (Tree.branch Symbol.typeList i cs).Formed) (ih : ∀ c ∈ cs, c.Built) :
    (Tree.branch Symbol.typeList i cs).Built := by
  refine of_list rfl ?_
  obtain ⟨body, hbody, hcs⟩ := children_of_formed h
  rw [Tree.exposed_branch (by decide)]
  obtain rfl | hbody := List.mem_cons.mp hbody
  · obtain _ | ⟨hc, _ | ⟨hl, _ | _⟩⟩ := hcs
    rename_i c l
    have hread := (ih c (by simp)).type_built (by rw [hc.2]; decide)
    have hrest := (ih l (by simp)).list_built hl.2
    rw [Ty.ofTypeList, List.flatMap_cons, List.flatMap_singleton]
    refine hread.andThen (f := fun ty => (Ty.ofTypeList l).map fun tys => ty :: tys)
      (fun _ => buildsFrom_map.mpr hrest) ?_ ?_
    · intro e he
      rw [he]
    · intro ty hty
      rw [hty]
  · cases List.mem_singleton.mp hbody
    cases hcs
    rw [Ty.ofTypeList]
    · exact List.forall_mem_nil _
    · intro _ _ _ _ e
      cases e

theorem ofParts_built {name : String} {l e : Tree} {us vs : List Tree}
    (hl : BuildsFrom us (Ty.ofTypeList l)) (he : BuildsFrom vs (ClassTy.ofEnclosing name e)) :
    BuildsFrom (us ++ vs) (ClassTy.ofParts name l e) := by
  unfold ClassTy.ofParts
  refine hl.andThen (f := fun args => (ClassTy.ofEnclosing name e).map fun o => .mk name args o)
    (fun _ => buildsFrom_map.mpr he) ?_ ?_
  · intro f hf
    rw [hf]
  · intro args hargs
    rw [hargs]

theorem class_ (h : (Tree.branch Symbol.class_ i cs).Formed) (ih : ∀ c ∈ cs, c.Built) :
    (Tree.branch Symbol.class_ i cs).Built := by
  obtain ⟨body, hbody, hcs⟩ := children_of_formed h
  cases List.mem_singleton.mp hbody
  obtain _ | ⟨hk, _ | ⟨hn, _ | ⟨ho, _ | ⟨hl, _ | ⟨hr, _ | ⟨he, _ | _⟩⟩⟩⟩⟩⟩ := hcs
  rename_i k n o l r e
  obtain ⟨tok, hleaf, hclass⟩ := leaf_of_formed hn.1 (by rw [hn.2]; decide)
  rw [hn.2] at hleaf hclass
  subst hleaf
  have hname : ∀ u ∈ (Tree.leaf Symbol.ident tok).exposed, u.Concrete := by
    rw [Tree.exposed]
    exact List.forall_mem_singleton.mpr (concrete_leaf (name_of_classify hclass).2)
  have hargs := (ih l (by simp)).list_built hl.2
  have houter := (ih e (by simp)).outer_built he.2 tok.text
  have hparts := ofParts_built hargs (houter.behind (concrete_keyword (by decide) hr))
  refine of_type (show Symbol.class_ ∈ builtSymbols by decide) ?_
  rw [ofTree_class, buildsFrom_map, Tree.exposed_branch (by decide)]
  simp only [List.flatMap_cons, List.flatMap_nil, List.append_nil]
  exact ((hparts.behind (concrete_keyword (by decide) ho)).behind hname).behind
    (concrete_keyword (by decide) hk)

theorem enclosing (h : (Tree.branch Symbol.enclosing i cs).Formed) (ih : ∀ c ∈ cs, c.Built) :
    (Tree.branch Symbol.enclosing i cs).Built := by
  refine of_enclosing rfl fun name => ?_
  obtain ⟨body, hbody, hcs⟩ := children_of_formed h
  rw [Tree.exposed_branch (by decide)]
  obtain rfl | hbody := List.mem_cons.mp hbody
  · obtain _ | ⟨hk, _ | ⟨hc, _ | _⟩⟩ := hcs
    rename_i k c
    rw [List.flatMap_cons, List.flatMap_singleton]
    refine BuildsFrom.behind ?_ (concrete_keyword (by decide) hk)
    cases hhead : c.isHead with
    | false =>
      obtain ⟨r, htype, houter⟩ := class_shape hc.1 hc.2 hhead
      have hread := (ih c (by simp)).type_built (by rw [hc.2]; decide)
      rw [htype, buildsFrom_map] at hread
      rw [houter, buildsFrom_map]
      exact hread
    | true =>
      -- a class that is a wildcard may not stand around another one
      cases c with
      | leaf | branch => cases hhead
      | head s i tok =>
        rw [ClassTy.ofEnclosing, Tree.exposed]
        exact ⟨_, List.mem_singleton.mpr rfl, .inl ⟨rfl, rfl⟩⟩
  · cases List.mem_singleton.mp hbody
    cases hcs
    rw [ClassTy.ofEnclosing]
    · exact List.forall_mem_nil _
    · intro _ _ _ _ e
      cases e

end Tree.Built

theorem built_symbol_cases : ∀ s ∈ signatureRules.map Rule.head,
    s ∈ wrapperSymbols ∨ s = Symbol.arithmetic ∨ s = Symbol.pointer ∨ s = Symbol.array ∨
      s = Symbol.class_ ∨ s = Symbol.list ∨ s = Symbol.function ∨ s = Symbol.typeList ∨
      s = Symbol.enclosing ∨
      s ∉ builtSymbols ∧ s ≠ Symbol.typeList ∧ s ≠ Symbol.enclosing := by
  decide

/-- what reading comes to for every tree, whatever symbol it derives -/
theorem Tree.built {t : Tree} (ht : t.Formed) : t.Built := by
  induction t using Tree.induct with
  | leaf s tok =>
    have hs := (formed_leaf.mp ht).1
    have hmem : ∀ x ∈ Symbol.typeList :: Symbol.enclosing :: builtSymbols,
        x ∈ signatureRules.map Rule.head := by decide
    exact ⟨fun e => absurd (hmem s (by simp [show s ∈ builtSymbols from e])) hs,
      fun e => absurd (hmem s (by simp [show s = _ from e])) hs,
      fun e => absurd (hmem s (by simp [show s = _ from e])) hs⟩
  | head s i tok =>
    have hwild : ∀ w ∈ signatureWildcards, w ∈ builtSymbols := by decide
    refine .of_type (hwild s (formed_head.mp ht).1) ?_
    rw [Tree.exposed, Ty.ofTree]
    exact ⟨_, List.mem_singleton.mpr rfl, .inl ⟨rfl, rfl⟩⟩
  | branch s i cs ih =>
    have ih : ∀ c ∈ cs, c.Built := fun c hc => ih c hc ((formed_branch.mp ht).2 c hc)
    obtain hs | rfl | rfl | rfl | rfl | rfl | rfl | rfl | rfl | ⟨h1, h2, h3⟩ :=
      built_symbol_cases s (formed_symbol_mem ht rfl)
    · exact .wrap hs ht ih
    · exact .arithmetic ht
    · exact .pointer ht ih
    · exact .array ht ih
    · exact .class_ ht ih
    · exact .list ht ih
    · exact .function
    · exact .typeList ht ih
    · exact .enclosing ht ih
    · exact ⟨fun e => absurd e h1, fun e => absurd e h2, fun e => absurd e h3⟩

theorem builtSymbol_of_ofTree {t : Tree} (ht : t.Formed) {ty : Ty} (h : Ty.ofTree t = .ok ty) :
    t.symbol ∈ builtSymbols := by
  cases t with
  | leaf s tok => rw [Ty.ofTree] at h; cases h
  | head s i tok => rw [Ty.ofTree] at h; cases h
  | branch s i cs =>
    have hcases : ∀ x ∈ signatureRules.map Rule.head, x ∈ builtSymbols ∨
        x.isWrapper = false ∧ x ≠ Symbol.arithmetic ∧ x ≠ Symbol.pointer ∧ x ≠ Symbol.array ∧
          x ≠ Symbol.class_ ∧ x ≠ Symbol.list ∧ x ≠ Symbol.function := by decide
    refine (hcases s (formed_symbol_mem ht rfl)).elim id fun hother => ?_
    obtain ⟨hwrapper, h1, h2, h3, h4, h5, h6⟩ := hother
    rw [Ty.ofTree.eq_def] at h
    simp only [hwrapper, beq_iff_eq, h1, h2, h3, h4, h5, h6, Bool.false_eq_true, if_false] at h
    cases h

/-! ## Texts -/

theorem outsideForms_append (d : Nat) (ts us : List String) :
    outsideForms d (ts ++ us) = outsideForms d ts ++ outsideForms (ts.foldl depthAfter d) us := by
  induction ts generalizing d with
  | nil => rfl
  | cons t ts ih =>
    rw [List.cons_append, outsideForms, outsideForms, ih, List.foldl_cons]
    split <;> rfl

theorem outsideForms_inside (d : Nat) (t : String) (ts : List String) :
    outsideForms (d + 1) (t :: ts) = outsideForms (depthAfter (d + 1) t) ts := by
  rw [outsideForms, if_neg (by omega)]

theorem outsideForms_eq {ts : List String} (h : Keyword.function ∉ ts) :
    outsideForms 0 ts = ts := by
  induction ts with
  | nil => rfl
  | cons t ts ih =>
    obtain ⟨ht, hts⟩ := not_or.mp (mt List.mem_cons.mpr h)
    have hdepth : depthAfter 0 t = 0 := by
      unfold depthAfter
      rw [if_neg fun e => ht e.symm]
      split <;> rfl
    rw [outsideForms, if_pos ⟨rfl, fun e => ht e.symm⟩, hdepth, ih hts]

/-- tokens that stand for some trees: none of them is found inside a function form, and outside
just those that the trees expose -/
structure Exposes (us : List Tree) (ts : List String) : Prop where
  balanced : Balanced ts
  inside : ∀ d, outsideForms (d + 1) ts = []
  outside : outsideForms 0 ts = us.map Tree.tokenText

namespace Exposes

variable {us vs : List Tree} {ts : List String}

theorem nil : Exposes [] [] := ⟨balanced_nil, fun _ => rfl, rfl⟩

theorem append {ts' : List String} (h : Exposes us ts) (h' : Exposes vs ts') :
    Exposes (us ++ vs) (ts ++ ts') where
  balanced := h.balanced.append h'.balanced
  inside d := by rw [outsideForms_append, (h.balanced (d + 1)).1, h.inside, h'.inside]; rfl
  outside := by rw [outsideForms_append, (h.balanced 0).1, h.outside, h'.outside, List.map_append]

theorem flatMap {cs : List Tree} (h : ∀ c ∈ cs, Exposes c.exposed c.tokens) :
    Exposes (cs.flatMap Tree.exposed) (Tree.tokensAll cs) := by
  induction cs with
  | nil => exact .nil
  | cons c cs ih =>
    rw [List.flatMap_cons, Tree.tokensAll_cons]
    exact (h c List.mem_cons_self).append (ih fun d hd => h d (List.mem_cons_of_mem _ hd))

theorem singleton {u : Tree} (h : Balanced [u.tokenText]) (hne : u.tokenText ≠ Keyword.function) :
    Exposes [u] [u.tokenText] where
  balanced := h
  inside d := by rw [outsideForms_inside, outsideForms]
  outside := by rw [outsideForms, if_pos ⟨rfl, hne⟩, outsideForms]; rfl

theorem function (h : Exposes us ts) :
    Exposes [] (Keyword.function :: (ts ++ [Keyword.rparen])) := by
  have hopen : ∀ d, depthAfter d Keyword.function = d + 1 := fun d => rfl
  have hbody : ∀ d, outsideForms (d + 1) (ts ++ [Keyword.rparen]) = [] := by
    intro d
    rw [outsideForms_append, (h.balanced (d + 1)).1, h.inside, outsideForms_inside, outsideForms]
    rfl
  refine ⟨(balanced_function h.balanced).1, fun d => ?_, ?_⟩
  · rw [outsideForms_inside, hopen, hbody]
  · rw [outsideForms, if_neg fun hne => hne.2 rfl, hopen, hbody]
    rfl

end Exposes

/-- the tokens outside the function forms of a text are those that its tree exposes -/
theorem exposes_tree {t : Tree} (ht : t.Formed) (hs : t.symbol ∉ formMarks) :
    Exposes t.exposed t.tokens := by
  have hfunction : ∀ {x : String}, x ∉ formMarks → x ≠ Keyword.function := by
    rintro _ hx rfl
    exact hx (by decide)
  have hopen : Exposes [.leaf Keyword.lparen ⟨Keyword.lparen, none⟩] [Keyword.lparen] :=
    .singleton (u := .leaf Keyword.lparen ⟨Keyword.lparen, none⟩)
      (balanced_of_not_mem (by decide)) (by decide)
  refine Tree.forms_induct (motive := fun t => Exposes t.exposed t.tokens) (by decide) (by decide)
    (fun s tok htext => ?_) (fun s i tok htext => ?_) (fun i cs r l htokens hr hl => ?_)
    (fun s i cs hf ih => ?_) ht hs
  · rw [Tree.tokens, Tree.exposed]
    exact .singleton (u := .leaf s tok) (balanced_of_not_mem htext) (hfunction htext)
  · rw [Tree.tokens, Tree.exposed]
    exact .singleton (u := .head s i tok) (balanced_of_not_mem htext) (hfunction htext)
  · rw [Tree.tokens, htokens, Tree.exposed_function]
    exact (hr.append (hopen.append hl)).function
  · rw [Tree.tokens, Tree.exposed_branch hf]
    exact .flatMap ih

theorem isHead_iff_of_exposed {t : Tree} (ht : t.Formed) (hs : Tree.Ordinary t.symbol) :
    ∀ u ∈ t.exposed, u.isHead = true ↔ u.tokenText ∈ signatureWildcards := by
  induction t using Tree.induct with
  | leaf s tok =>
    rw [Tree.exposed]
    refine List.forall_mem_singleton.mpr ⟨nofun, fun hw => ?_⟩
    exact absurd hw (text_not_mem_wildcards hs ht)
  | head s i tok =>
    obtain ⟨hw, _, htext⟩ := formed_head.mp ht
    rw [Tree.exposed]
    exact List.forall_mem_singleton.mpr ⟨fun _ => htext ▸ hw, fun _ => rfl⟩
  | branch s i cs ih =>
    intro u hu
    by_cases hf : s = Symbol.function
    · rw [hf, Tree.exposed_function] at hu
      exact (List.not_mem_nil hu).elim
    · rw [Tree.exposed_branch hf] at hu
      obtain ⟨c, hc, hu⟩ := List.mem_flatMap.mp hu
      exact ih c hc (Tree.formed_child ht hc).1 (Tree.formed_child ht hc).2 u hu

theorem concrete_iff_of_exposed {t u : Tree} (ht : t.Formed) (hs : Tree.Ordinary t.symbol)
    (hu : u ∈ t.exposed) :
    u.Concrete ↔ u.tokenText ∉ signatureWildcards ∧ ¬ Oversize u.tokenText := by
  rw [← isHead_iff_of_exposed ht hs u hu, Bool.not_eq_true]
  exact ⟨fun h => ⟨h.not_head, h.fits⟩, fun h => ⟨h.1, h.2⟩⟩

/-! ## The theorem -/

/-- the tree of a sentence denotes a type just if every token outside the function forms of the
sentence is concrete -/
theorem isOk_iff_of_parsePlain {ts : List String} {t : Tree}
    (h : signature.parsePlain ts Symbol.type = some t) :
    (∃ ty, Ty.ofTree t = .ok ty) ↔
      ∀ x ∈ outsideForms 0 ts, x ∉ signatureWildcards ∧ ¬ Oversize x := by
  have htype : Symbol.type ∈ signatureWildcards := by decide
  have hmark : Symbol.type ∉ formMarks := by decide
  have hbuiltSymbol : Symbol.type ∈ builtSymbols := by decide
  obtain ⟨hformed, hsymbol, hyield⟩ := (parsePlain_eq_some_iff htype).mp h
  rw [← hsymbol] at htype hmark hbuiltSymbol
  have htokens : t.tokens = ts := by
    rw [← Tree.texts_yield, hyield, Binding.texts_ofTexts]
  have hord := Tree.ordinary_wildcard htype
  have houtside := (exposes_tree hformed hmark).outside
  rw [htokens] at houtside
  rw [houtside, List.forall_mem_map]
  refine ((Tree.built hformed).type_built hbuiltSymbol).isOk_iff.trans ?_
  exact forall_congr' fun u => forall_congr' fun hu => concrete_iff_of_exposed hformed hord hu

theorem readType_isOk_iff {ts : List String} :
    (∃ ty, signature.readType ts = .ok ty) ↔ signature.recognize ts Symbol.type = true ∧
      ∀ x ∈ outsideForms 0 ts, x ∉ signatureWildcards ∧ ¬ Oversize x := by
  constructor
  · rintro ⟨ty, hty⟩
    obtain ⟨t, hparse, hty⟩ := readType_eq_ok.mp hty
    exact ⟨Option.isSome_iff_exists.mpr ⟨t, hparse⟩,
      (isOk_iff_of_parsePlain hparse).mp ⟨ty, hty⟩⟩
  · rintro ⟨hsentence, hall⟩
    obtain ⟨t, hparse⟩ := Option.isSome_iff_exists.mp hsentence
    obtain ⟨ty, hty⟩ := (isOk_iff_of_parsePlain hparse).mpr hall
    exact ⟨ty, readType_eq_ok.mpr ⟨t, hparse, hty⟩⟩

/-- **A tree denotes a type just if what it exposes is concrete**: outside its function forms it
has no head at any depth and no number too large for a word.  If it fails, the error is that of
such a head or number.  A text is read just if it is a sentence whose tokens outside function forms
are no wildcardable names and no such numbers; in a text without function forms these are all its
tokens.  The tokens inside a function form are kept as they are, heads and large numbers too. -/
theorem types_are_concrete {t : Tree} (ht : t.Formed) (ts : List String) :
    ((∃ ty, Ty.ofTree t = .ok ty) ↔ t.symbol ∈ builtSymbols ∧ ∀ u ∈ t.exposed, u.Concrete) ∧
    (t.symbol ∈ builtSymbols → ∀ e, Ty.ofTree t = .error e → ∃ u ∈ t.exposed, u.Blames e) ∧
    ((∃ ty, signature.readType ts = .ok ty) ↔ signature.recognize ts Symbol.type = true ∧
      ∀ x ∈ outsideForms 0 ts, x ∉ signatureWildcards ∧ ¬ Oversize x) ∧
    (Keyword.function ∉ ts → ∀ ty, signature.readType ts = .ok ty →
      ∀ x ∈ ts, x ∉ signatureWildcards ∧ ¬ Oversize x) := by
  refine ⟨⟨fun ⟨ty, hty⟩ => ?_, fun ⟨hs, h⟩ => ?_⟩, fun hs e he => ?_, readType_isOk_iff,
    fun hts ty hty => ?_⟩
  · have hs := builtSymbol_of_ofTree ht hty
    exact ⟨hs, ((Tree.built ht).type_built hs).isOk_iff.mp ⟨ty, hty⟩⟩
  · exact ((Tree.built ht).type_built hs).isOk_iff.mpr h
  · have hread := (Tree.built ht).type_built hs
    rwa [he] at hread
  · have h := (readType_isOk_iff.mp ⟨ty, hty⟩).2
    rwa [outsideForms_eq hts] at h

/-- a function type is read over a parameter that is a head, a pointer to the same head is not -/
theorem types_are_concrete_hidden :
    (∃ ty, signature.readType
      [Keyword.function, Keyword.void, Keyword.lparen, Symbol.object, Keyword.rparen] = .ok ty) ∧
    Symbol.object ∈ signatureWildcards ∧
    (∀ ty, Ty.ofTree (.branch Symbol.pointer 0 [.leaf Keyword.ptr ⟨Keyword.ptr, none⟩,
      .branch Symbol.type 0 [.head Symbol.object 5 ⟨Symbol.object, none⟩]]) ≠ .ok ty) ∧
    signature.readType [Keyword.void] = .ok .void ∧ Keyword.void ∉ signatureWildcards := by
  have hobject : (Tree.head Symbol.object 5 ⟨Symbol.object, none⟩).Formed :=
    formed_head.mpr ⟨by decide, by decide, rfl⟩
  have hvoid : (Tree.leaf Keyword.void ⟨Keyword.void, none⟩).Formed :=
    (formed_keyword (by decide)).mpr rfl
  have hptr : (Tree.leaf Keyword.ptr ⟨Keyword.ptr, none⟩).Formed :=
    (formed_keyword (by decide)).mpr rfl
  have hnothing := formed_single (s := Symbol.type) (i := 2) (by decide) hvoid
  refine ⟨?_, by decide, ?_, ?_⟩
  · have hparam := formed_single (s := Symbol.paramObject) (i := 0) (by decide) hobject
    have hparams := formed_paramsTree (List.forall_mem_singleton.mpr ⟨hparam, rfl⟩)
    have hreturn := formed_single (s := Symbol.return_) (i := 0) (by decide) hnothing
    have hform := formed_formTree.mpr ⟨⟨hreturn, rfl⟩, hparams⟩
    have htype := formed_single (s := Symbol.type) (i := 1) (by decide) hform
    have hparse : signature.parsePlain [Keyword.function, Keyword.void, Keyword.lparen,
        Symbol.object, Keyword.rparen] Symbol.type = some _ :=
      (parsePlain_eq_some_iff (by decide)).mpr ⟨htype, rfl, rfl⟩
    refine (types_are_concrete htype _).2.2.1.mpr ⟨?_, fun x hx => ?_⟩
    · unfold Grammar.recognize
      rw [hparse]
      rfl
    · rw [show outsideForms 0 _ = [] by decide] at hx
      exact (List.not_mem_nil hx).elim
  · have htarget := formed_single (s := Symbol.type) (i := 0) (by decide) hobject
    have hpointer := (formed_branch (s := Symbol.pointer) (i := 0)).mpr
      ⟨by decide, List.forall_mem_cons.mpr ⟨hptr, List.forall_mem_singleton.mpr htarget⟩⟩
    intro ty hty
    have hall := ((types_are_concrete hpointer []).1.mp ⟨ty, hty⟩).2
    have hmem : Tree.head Symbol.object 5 ⟨Symbol.object, none⟩ ∈
        (Tree.branch Symbol.pointer 0 [.leaf Keyword.ptr ⟨Keyword.ptr, none⟩,
          .branch Symbol.type 0 [.head Symbol.object 5 ⟨Symbol.object, none⟩]]).exposed := by
      rw [Tree.exposed_branch (by decide), List.flatMap_cons, List.flatMap_singleton,
        Tree.exposed_branch (by decide), List.flatMap_singleton, Tree.exposed, Tree.exposed]
      exact List.mem_append_right _ (List.mem_singleton.mpr rfl)
    exact nomatch (hall _ hmem).not_head
  · have hread : signature.readType [Keyword.void] = .ok .void := by
      have hparse : signature.parsePlain [Keyword.void] Symbol.type = some _ :=
        (parsePlain_eq_some_iff (by decide)).mpr ⟨hnothing, rfl, rfl⟩
      refine readType_eq_ok.mpr ⟨_, hparse, ?_⟩
      rw [Ty.ofTree, if_pos (by decide)]
      rfl
    obtain ⟨-, -, -, hconcrete⟩ := types_are_concrete hnothing [Keyword.void]
    exact ⟨hread, (hconcrete (by decide) _ hread _ (List.mem_singleton.mpr rfl)).1⟩

end Overloading
