import Overloading.Proofs.CallEncoding
import Overloading.Proofs.RepeatedWildcards

/-!
# The argument of a constructor call

A constructor is looked for by a call that brings one argument and asks for a class.  The class is
whatever a conversion is to make, even one that cannot be written: then its tokens do not say where
the return of the call ends.  The end of the call does, because parentheses are nested in the text
of every tree.

* `Nested`              a text in which parentheses are nested, as in the text of a tree
                        (`nested_tree`);
* `eq_of_nested`        where a parenthesis is left open, what follows it is the only such text;
* `bareHead`            a tree is freed of wildcard numbers by grafting heads without one;
* `argument_of_call`    so a parameter without wildcards denotes the type of the argument.
-/

namespace Overloading

open Grammar

/-! ## Nested parentheses -/

/-- a text whose parentheses are nested: as many close as open, and from any place on no more open
than close -/
structure Nested (ts : List String) : Prop where
  settled : ts.count Keyword.lparen = ts.count Keyword.rparen
  closed : ∀ us, us <:+ ts → us.count Keyword.lparen ≤ us.count Keyword.rparen

section Nested

variable {ts us : List String}

theorem nested_nil : Nested [] :=
  ⟨rfl, fun us h => by rw [List.suffix_nil.mp h]; exact Nat.le_refl _⟩

theorem Nested.append (ht : Nested ts) (hu : Nested us) : Nested (ts ++ us) := by
  refine ⟨by rw [List.count_append, List.count_append, ht.settled, hu.settled], fun vs hvs => ?_⟩
  rcases List.suffix_or_suffix_of_suffix hvs (List.suffix_append ts us) with h | ⟨ws, rfl⟩
  · exact hu.closed vs h
  · have hws := ht.closed ws (List.suffix_append_self_iff.mp hvs)
    have hus := hu.settled
    rw [List.count_append, List.count_append]
    omega

theorem nested_singleton {t : String} (hopen : t ≠ Keyword.lparen) (hclose : t ≠ Keyword.rparen) :
    Nested [t] := by
  have hnone : ∀ us : List String, us <:+ [t] → us.count Keyword.lparen = 0 := fun us hus =>
    List.count_eq_zero.mpr fun hmem => hopen (List.mem_singleton.mp (hus.subset hmem)).symm
  refine ⟨?_, fun us hus => by rw [hnone us hus]; exact Nat.zero_le _⟩
  rw [hnone _ List.suffix_rfl, List.count_singleton, if_neg (by simpa using hclose)]

theorem Nested.parenthesized (h : Nested ts) :
    Nested (Keyword.lparen :: (ts ++ [Keyword.rparen])) := by
  have hclose : [Keyword.rparen].count Keyword.lparen = 0 ∧
      [Keyword.rparen].count Keyword.rparen = 1 := by decide
  have hsettled : (Keyword.lparen :: (ts ++ [Keyword.rparen])).count Keyword.lparen =
      (Keyword.lparen :: (ts ++ [Keyword.rparen])).count Keyword.rparen := by
    rw [List.count_cons_self, List.count_cons_of_ne (by decide), List.count_append,
      List.count_append, hclose.1, hclose.2, h.settled]
  refine ⟨hsettled, fun us hus => ?_⟩
  rcases List.suffix_cons_iff.mp hus with rfl | hus
  · exact Nat.le_of_eq hsettled
  rcases List.suffix_concat_iff.mp hus with rfl | ⟨vs, rfl, hvs⟩
  · exact Nat.le_refl _
  · rw [List.count_append, List.count_append, hclose.1, hclose.2]
    exact Nat.le_succ_of_le (h.closed vs hvs)

/-- **What follows a parenthesis that is left open** is the only nested text at the end. -/
theorem eq_of_nested {xs ys : List String} (ht : Nested ts) (hu : Nested us)
    (h : xs ++ Keyword.lparen :: ts = ys ++ Keyword.lparen :: us) : ts = us := by
  -- neither text reaches beyond the parenthesis in front of the other, for nothing closes it
  have hnot : ∀ {vs ws : List String}, Nested vs → Nested ws →
      Keyword.lparen :: vs <:+ Keyword.lparen :: ws → vs = ws := by
    intro vs ws hvs hws hsuffix
    rcases List.suffix_cons_iff.mp hsuffix with e | hinside
    · exact (List.cons.inj e).2
    · have hle := hws.closed _ hinside
      rw [List.count_cons_self, List.count_cons_of_ne (by decide), hvs.settled] at hle
      omega
  have hts : Keyword.lparen :: ts <:+ xs ++ Keyword.lparen :: ts := List.suffix_append _ _
  have hus : Keyword.lparen :: us <:+ xs ++ Keyword.lparen :: ts := by
    rw [h]
    exact List.suffix_append _ _
  rcases List.suffix_or_suffix_of_suffix hts hus with hsuffix | hsuffix
  · exact hnot ht hu hsuffix
  · exact (hnot hu ht hsuffix).symm

end Nested

/-! ## The texts of trees -/

/-- only function forms have parentheses, and these are about their parameters -/
theorem nested_tree {t : Tree} (ht : t.Formed)
    (hs : t.symbol ∉ [Keyword.lparen, Keyword.rparen]) : Nested t.tokens := by
  have htoken : ∀ {x : String}, x ∉ [Keyword.lparen, Keyword.rparen] → Nested [x] := fun hx =>
    nested_singleton (fun e => hx (by simp [e])) fun e => hx (by simp [e])
  have hfunction : Nested [Keyword.function] := htoken (by decide)
  refine Tree.forms_induct (motive := fun t => Nested t.tokens) (by decide) (by decide)
    (fun s tok htext => ?_) (fun s i tok htext => ?_) (fun i cs r l htokens hr hl => ?_)
    (fun s i cs _ ih => ?_) ht hs
  · rw [Tree.tokens]
    exact htoken htext
  · rw [Tree.tokens]
    exact htoken htext
  · rw [Tree.tokens, htokens, List.append_assoc, List.cons_append]
    exact hfunction.append (hr.append hl.parenthesized)
  · rw [Tree.tokens]
    exact tokensAll_closed nested_nil Nested.append ih

/-! ## Trees without numbers -/

/-- the head of a nonterminal, from a wildcard without a number -/
def bareHead (s : Symbol) (_ : Option Nat) : Tree := .head s (alternatives s).length ⟨s, none⟩

theorem bareHead_spec {s : Symbol} (hs : s ∈ signatureWildcards) (n : Option Nat) :
    (bareHead s n).Formed ∧ (bareHead s n).symbol = s ∧ (bareHead s n).Plain := by
  refine ⟨formed_head.mpr ⟨hs, rfl, rfl⟩, rfl, fun tok htok => ?_⟩
  rw [bareHead, Tree.yield] at htok
  rw [List.mem_singleton.mp htok]

theorem tokens_graft_bareHead {t : Tree} (ht : t.Formed) :
    (t.graft bareHead).tokens = t.tokens := by
  induction t using Tree.induct with
  | leaf s tok => rw [Tree.graft]
  | head s i tok =>
    obtain ⟨-, -, htext⟩ := formed_head.mp ht
    rw [Tree.graft, bareHead, Tree.tokens, Tree.tokens, htext]
  | branch s i cs ih =>
    rw [Tree.graft_branch, Tree.tokens, Tree.tokens, Tree.tokensAll_eq_flatMap,
      Tree.tokensAll_eq_flatMap, List.flatMap_map]
    exact List.flatMap_congr fun c hc => ih c hc (Tree.formed_child ht hc).1

theorem graft_bareHead_spec {t : Tree} (ht : t.Formed) (hs : Tree.Ordinary t.symbol)
    (hn : t.Numbered) : (t.graft bareHead).Formed ∧ (t.graft bareHead).symbol = t.symbol ∧
      (t.graft bareHead).yield = Binding.ofTexts t.tokens := by
  have hheads : ∀ x ∈ t.heads, x.1 ∈ signatureWildcards :=
    fun x hx => Tree.kind_mem_of_mem_heads ht hx
  have hplain : (t.graft bareHead).Plain :=
    hn.plain_graft ht hs fun x hx => (bareHead_spec (hheads x hx) x.2).2.2
  refine ⟨Tree.formed_graft ht fun x hx => ?_, Tree.symbol_graft fun _ _ => rfl, ?_⟩
  · exact ⟨(bareHead_spec (hheads x hx) x.2).1, rfl⟩
  · rw [hplain.yield_eq, tokens_graft_bareHead ht]

/-! ## The tree of an argument -/

section Argument

variable {a : Arg}

/-- a tree over the tokens of an argument that denotes its type -/
structure Arg.WrittenBy (a : Arg) (q : Tree) : Prop where
  shows : q.Shows Symbol.paramObject a.tokens
  type_eq : Ty.ofTree q = .ok a.type

theorem writtenBy_unmarked {x : Symbol} {i : Nat} {c : Tree} (hc : c.Renders x a.type)
    (halt : (alternatives Symbol.paramObject)[i]? = some [x])
    (hx : x ∈ signatureRules.map Rule.head) (htokens : a.tokens = a.type.tokens) :
    a.WrittenBy (.branch Symbol.paramObject i [c]) := by
  have hwrap := hc.wrap halt hx (by decide)
  exact ⟨by rw [htokens]; exact hwrap.toShows, hwrap.type_eq⟩

theorem writtenBy_marked {k : String} {i : Nat} {c : Tree} (hc : c.Renders Symbol.object a.type)
    (hk : k ∈ signatureKeywords)
    (halt : (alternatives Symbol.paramObject)[i]? = some [k, Symbol.object])
    (htokens : a.tokens = k :: a.type.tokens) :
    a.WrittenBy (.branch Symbol.paramObject i [.leaf k ⟨k, none⟩, c]) := by
  have hleaf := isLeaf_of_formed hc.formed (by rw [hc.symbol_eq]; decide)
  have hshows := shows_branch (l := [(k, [k]), (Symbol.object, a.type.tokens)]) halt
    (.cons (shows_keyword hk) (.cons hc.toShows .nil))
  refine ⟨?_, ?_⟩
  · rw [htokens]
    simpa using hshows
  · rw [Ty.ofTree, if_pos (by decide)]
    simp only [hleaf, Bool.false_eq_true, if_false, hc.type_eq]

/-- what is read as a type from its tokens is an object, a function or nothing at all -/
theorem cases_of_readType {ty : Ty} (h : signature.readType ty.tokens = .ok ty) :
    ty = .void ∨ ∃ x ∈ [Symbol.object, Symbol.function], ty.HasTree x := by
  obtain ⟨t, hparse, hty⟩ := readType_eq_ok.mp h
  obtain ⟨hf, hs, hy⟩ := (parsePlain_eq_some_iff (by decide)).mp hparse
  cases t with
  | leaf => rw [Ty.ofTree] at hty; cases hty
  | head => rw [Ty.ofTree] at hty; cases hty
  | branch s i cs =>
    cases show s = Symbol.type from hs
    have halts : alternatives Symbol.type =
        [Symbol.object, Symbol.function, Keyword.void].map fun x => [x] := by decide
    obtain ⟨body, hbody, hcs⟩ := children_of_formed hf
    rw [halts] at hbody
    obtain ⟨x, hx, rfl⟩ := List.mem_map.mp hbody
    obtain _ | ⟨hc, _ | _⟩ := hcs
    rename_i c
    rw [Tree.yield, Tree.yieldAll_cons, Tree.yieldAll_nil, List.append_nil] at hy
    obtain hx | rfl : x ∈ [Symbol.object, Symbol.function] ∨ x = Keyword.void := by
      simpa [or_assoc] using hx
    · have hheads : ∀ x ∈ [Symbol.object, Symbol.function],
          x ∈ signatureRules.map Rule.head := by decide
      rw [ofTree_wrap (by decide)
        (isLeaf_of_formed hc.1 (by rw [hc.2]; exact hheads x hx))] at hty
      exact .inr ⟨x, hx, c, ⟨hc.1, hc.2, hy⟩, hty⟩
    · obtain ⟨tok, rfl, -⟩ := keyword_of_formed (by decide) hc
      rw [Ty.ofTree, if_pos (by decide)] at hty
      exact .inl (Except.ok.inj hty).symm

theorem exists_writtenBy (hread : signature.readType a.type.tokens = .ok a.type)
    (hvoid : a.type ≠ .void) : ∃ q, a.WrittenBy q := by
  obtain ⟨x, hx, c, hc⟩ := (cases_of_readType hread).resolve_left hvoid
  have hfun := isFunction_of_ofTree hc.formed hc.type_eq
  simp only [List.mem_cons, List.not_mem_nil, or_false] at hx
  obtain rfl | rfl := hx
  · -- an object may have a marker
    have hfun := hfun.1 hc.symbol_eq
    cases href : a.ref with
    | none => exact ⟨_, writtenBy_unmarked (i := 0) hc (by decide) (by decide)
        (by rw [Arg.tokens, hfun, href]; rfl)⟩
    | mutable => exact ⟨_, writtenBy_marked (k := Keyword.lref) (i := 2) hc (by decide) (by decide)
        (by rw [Arg.tokens, hfun, href]; rfl)⟩
    | constant => exact ⟨_, writtenBy_marked (k := Keyword.clref) (i := 3) hc (by decide)
        (by decide) (by rw [Arg.tokens, hfun, href]; rfl)⟩
  · exact ⟨_, writtenBy_unmarked (i := 1) hc (by decide) (by decide)
      (by rw [Arg.tokens, hfun.2 hc.symbol_eq]; rfl)⟩

theorem Arg.nested (hread : signature.readType a.type.tokens = .ok a.type) : Nested a.tokens := by
  obtain ⟨t, hparse, -⟩ := readType_eq_ok.mp hread
  obtain ⟨hf, hs, hy⟩ := (parsePlain_eq_some_iff (by decide)).mp hparse
  have htype : Nested a.type.tokens := by
    rw [← Binding.texts_ofTexts a.type.tokens, ← hy, Tree.texts_yield]
    exact nested_tree hf (by rw [hs]; decide)
  have hmarked : ∀ k ∈ [Keyword.lref, Keyword.clref], Nested (k :: a.type.tokens) := by
    intro k hk
    have hne : ∀ k ∈ [Keyword.lref, Keyword.clref], k ≠ Keyword.lparen ∧ k ≠ Keyword.rparen := by
      decide
    exact (nested_singleton (hne k hk).1 (hne k hk).2).append htype
  unfold Arg.tokens
  split
  · exact htype
  split
  · exact htype
  · exact hmarked _ (by decide)
  · exact hmarked _ (by decide)

end Argument

/-! ## Calls -/

theorem texts_of_readBody {strict : Bool} {r : References} {src : List String}
    {tokens : List Token} (h : signature.readBody [] strict r src = .ok tokens) :
    Binding.texts tokens = src := by
  induction src generalizing r tokens with
  | nil => rw [readBody] at h; cases h; rfl
  | cons t rest ih =>
    rcases readBody_nil_cons h with ⟨-, tail, htail, rfl⟩ | ⟨-, tail, htail, rfl⟩
    · exact congrArg (t :: ·) (ih htail)
    · exact congrArg (t :: ·) (ih htail)

theorem tokens_of_callForm {ret : List String} {args : List Arg} {strict : Bool} {call : Signature}
    (h : signature.compile (callForm ret args) Symbol.function strict = .ok call) :
    call.root.tokens = callForm ret args := by
  rw [tokens_of_compile h]
  obtain ⟨pre, root, hpre, -, rfl⟩ := compile_eq_ok.mp h
  unfold prepareBody at hpre
  obtain ⟨⟨declared, body⟩, hdecl, hpre⟩ := bind_eq_ok.mp hpre
  obtain ⟨tokens, hbody, hpre⟩ := bind_eq_ok.mp hpre
  cases hpre
  obtain ⟨rfl, rfl⟩ : declared = [] ∧ body = callForm ret args := by
    have hnone : declarator? Keyword.function = none := by decide
    unfold callForm at hdecl ⊢
    rw [readDeclarators, hnone] at hdecl
    cases hdecl
    exact ⟨rfl, rfl⟩
  exact texts_of_readBody hbody

theorem form_of_params {start : Symbol} {call : Signature} (h : call.CompiledFrom start) {p : Tree}
    (hp : p ∈ call.params) :
    ∃ r l : Tree, l.Formed ∧ l.symbol = Symbol.paramList ∧ l.Numbered ∧ l.elements = call.params ∧
      call.root.tokens =
        Keyword.function :: ((r.tokens ++ Keyword.lparen :: l.tokens) ++ [Keyword.rparen]) := by
  have hfun := isFunction_of_mem_params hp
  unfold Signature.params
  rw [if_pos hfun]
  unfold Signature.isFunction Tree.isFunctionForm at hfun
  split at hfun
  · next s i cs heq =>
    cases show s = Symbol.function by simpa using hfun
    have hformed := Tree.formed_unwrap h.formed
    rw [heq] at hformed ⊢
    have hnumbered : (Tree.branch Symbol.function i cs).Numbered := by
      unfold Tree.Numbered
      rw [← heq, Tree.yield_unwrap]
      exact h.numbered
    have htokens : call.root.tokens = Tree.tokensAll cs := by
      rw [← Tree.texts_yield, ← Tree.yield_unwrap, heq, Tree.texts_yield, Tree.tokens]
    obtain ⟨body, hbody, hcs⟩ := children_of_formed hformed
    cases List.mem_singleton.mp hbody
    obtain _ | ⟨h1, _ | ⟨-, _ | ⟨h3, _ | ⟨h4, _ | ⟨h5, _ | _⟩⟩⟩⟩⟩ := hcs
    rename_i f r o l e
    obtain ⟨_, _, hfunction⟩ := keyword_of_formed (by decide) h1
    obtain ⟨_, _, hopen⟩ := keyword_of_formed (by decide) h3
    obtain ⟨_, _, hclose⟩ := keyword_of_formed (by decide) h5
    refine ⟨r, l, h4.1, h4.2, hnumbered.child (by simp), rfl, ?_⟩
    rw [htokens]
    simp [hfunction, hopen, hclose]
  · cases hfun

/-- **The parameters of a call of one argument** are over the tokens of the argument, whatever type
the call asks for. -/
theorem tokens_of_params {src ret : Ty} {ref : Ref} {strict : Bool} {call : Signature}
    (hread : signature.readType src.tokens = .ok src)
    (hcall : signature.compile (typedCallForm ret [⟨src, ref⟩]) Symbol.function strict = .ok call)
    {p : Tree} (hp : p ∈ call.params) :
    ∃ l : Tree, l.Formed ∧ l.symbol = Symbol.paramList ∧ l.Numbered ∧ l.elements = call.params ∧
      l.tokens = (⟨src, ref⟩ : Arg).tokens := by
  obtain ⟨r, l, hl, hls, hnumbered, helements, htokens⟩ :=
    form_of_params (compiledFrom_of_compile (by decide) hcall) hp
  refine ⟨l, hl, hls, hnumbered, helements, ?_⟩
  have hform : (r.tokens ++ Keyword.lparen :: l.tokens) ++ [Keyword.rparen] =
      (ret.tokens ++ Keyword.lparen :: (⟨src, ref⟩ : Arg).tokens) ++ [Keyword.rparen] := by
    have := htokens.symm.trans (tokens_of_callForm hcall)
    unfold callForm at this
    rw [(List.cons.inj this).2, List.flatMap_singleton]
    simp
  exact eq_of_nested (nested_tree hl (by rw [hls]; decide)) (Arg.nested (a := ⟨src, ref⟩) hread)
    (List.append_cancel_right hform)

theorem params_of_argument {a : Arg} (hread : signature.readType a.type.tokens = .ok a.type)
    {ps : List Tree} (hf : (paramsTree ps).Formed) (hs : (paramsTree ps).symbol = Symbol.paramList)
    (hy : (paramsTree ps).yield = Binding.ofTexts a.tokens) :
    ∃ q, ps = [q] ∧ Ty.ofTree q = .ok a.type := by
  have hcall := formed_callTree hf hs
  have hyield : (callTree (paramsTree ps)).yield =
      formTokens openReturn.yield [Binding.ofTexts a.tokens] := by
    unfold callTree
    rw [yield_formTree, formTokens, formTokens, ← yield_paramsTree, hy, List.flatten_singleton]
  by_cases hvoid : a.type = .void
  · have hwell : ∀ b ∈ [a], b.type.WellFormed := by
      intro b hb
      rw [List.mem_singleton.mp hb, hvoid]
      trivial
    obtain ⟨_, -, hshown⟩ := shownBy_of_yield hwell formed_openReturn hcall rfl hyield
    obtain _ | ⟨⟨-, hnot⟩, -⟩ := hshown
    exact absurd hvoid hnot
  · obtain ⟨q, hq⟩ := exists_writtenBy hread hvoid
    obtain ⟨hqf, hqs⟩ := formed_paramsTree (l := [q]) fun p hp => by
      rw [List.mem_singleton.mp hp]
      exact ⟨hq.shows.formed, hq.shows.symbol_eq⟩
    have hqyield : (callTree (paramsTree [q])).yield =
        formTokens openReturn.yield [Binding.ofTexts a.tokens] := by
      unfold callTree
      rw [yield_formTree, List.map_singleton, hq.shows.yield_eq]
    have hsame := derives_unique compiled_signature (show Symbol.function ∈ signatureWildcards by
      decide) ⟨hcall, rfl, hyield⟩ ⟨formed_callTree hqf hqs, rfl, hqyield⟩
    have hchild : ∀ l, (callTree l).children[3]? = some l := fun _ => rfl
    have hlist := congrArg (fun t : Tree => t.children[3]?) hsame
    rw [hchild, hchild] at hlist
    have helements := congrArg Tree.elements (Option.some.inj hlist)
    rw [elements_paramsTree, elements_paramsTree] at helements
    exact ⟨q, helements, hq.type_eq⟩

theorem Tree.heads_splitRef (p : Tree) : p.splitRef.2.heads = p.heads := by
  unfold splitRef
  split
  · next s i k t obj =>
    have hheads : obj.heads = (Tree.branch s i [.leaf k t, obj]).heads := by
      rw [heads, headsAll_cons, headsAll_cons, headsAll_nil, heads, List.append_nil,
        List.nil_append]
    split
    · exact hheads
    split
    · exact hheads
    · rfl
  · rfl

/-- **A constructor is given its argument**: a parameter without wildcards of a call of one argument
denotes the type of the argument, whatever type the call asks for. -/
theorem argument_of_call {src ret : Ty} {ref : Ref} {strict : Bool} {call : Signature}
    (hread : signature.readType src.tokens = .ok src)
    (hcall : signature.compile (typedCallForm ret [⟨src, ref⟩]) Symbol.function strict = .ok call)
    {p : Tree} (hp : p ∈ call.params) (hclosed : p.heads = []) : Ty.ofTree p = .ok src := by
  obtain ⟨l, hl, hls, hnumbered, helements, htokens⟩ := tokens_of_params hread hcall hp
  have hord : Tree.Ordinary l.symbol := by
    rw [hls]
    exact Tree.ordinary_of_mem_heads (by decide)
  obtain ⟨hf, hs, hy⟩ := graft_bareHead_spec hl hord hnumbered
  have hbare : l.graft bareHead = paramsTree (call.params.map (Tree.graft bareHead)) := by
    rw [(eq_paramsTree hl hls).1, helements, graft_paramsTree]
  rw [htokens] at hy
  rw [hbare] at hf hs hy
  obtain ⟨q, hq, hty⟩ := params_of_argument (a := ⟨src, ref⟩) hread hf (hs.trans hls) hy
  obtain ⟨p', hparams, rfl⟩ := List.map_eq_singleton_iff.mp hq
  rw [hparams, List.mem_singleton] at hp
  rw [hp] at hclosed ⊢
  rw [graft_plain hclosed] at hty
  exact hty

end Overloading
