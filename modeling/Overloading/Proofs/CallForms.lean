import Overloading.Proofs.CallTrees

/-!
# Compiling calls

A call compiles just if none of its arguments is `VOID`.

* `Spoken`           a token the grammar has a class for; such a token is neither a declarator nor
                     a reference, so a body of such tokens is prepared as it stands;
* `compile_typed`    a call that asks for a class compiles, and its parameters show its arguments;
* `compile_typed_void`   unless its argument is nothing at all, which is no sentence.
-/

namespace Overloading

open Grammar Overloading.Text

/-! ## Tokens of sentences -/

/-- a token that the signature grammar has a class for -/
def Spoken (x : String) : Prop := signature.classify x ≠ ""

theorem isName_of_classify {x : String} (h : signature.classify x = Symbol.ident) :
    isName x = true := by
  rcases classify_cases x with ⟨hw, e⟩ | ⟨_, hk, e⟩ | ⟨_, _, _, e⟩ | ⟨hw, hk, hn, _⟩ | ⟨_, _, _, e⟩
  · exact absurd (e.symm.trans h) (headOf_ne x hw).2.2.1
  · exact absurd (e.symm.trans h) (keyword_ne x hk).2.2.1
  · exact absurd (e.symm.trans h) (by decide)
  · unfold classify at h
    rw [if_neg fun e => hw (mayBeWildcard_signature.mp e),
      if_neg fun e => hk (isKeyword_signature.mp e), hn] at h
    split at h
    · next e => cases e
    split at h
    · next e => exact (Bool.and_eq_true_iff.mp e).1
    · exact absurd h (by decide)
  · exact absurd (e.symm.trans h) (by decide)

/-- the characters that mark declarators and references -/
def isMark (c : Char) : Bool := c == '!' || c == '?'

theorem isMark_cases {c : Char} (h : ¬ isMark c = false) : c = '!' ∨ c = '?' := by
  unfold isMark at h
  rw [Bool.not_eq_false, Bool.or_eq_true, beq_iff_eq, beq_iff_eq] at h
  exact h

theorem not_mark_of_spoken {x : String} {c : Char} {cs : List Char} (hx : x.toList = c :: cs)
    (h : Spoken x) : isMark c = false := by
  have hwords : ∀ w ∈ signatureWildcards ++ signatureKeywords,
      w.toList.head?.any isMark = false := by decide
  have hword : x ∈ signatureWildcards ++ signatureKeywords → isMark c = false := by
    intro hmem
    have hany := hwords x hmem
    rw [hx] at hany
    exact hany
  rcases classify_cases x with ⟨hw, _⟩ | ⟨_, hk, _⟩ | ⟨_, _, hn, _⟩ | ⟨_, _, _, e⟩ | ⟨_, _, _, e⟩
  · exact hword (List.mem_append_left _ hw)
  · exact hword (List.mem_append_right _ hk)
  · have hdigit : isAsciiDigit c = true := by
      unfold isNumber at hn
      rw [hx] at hn
      exact List.all_eq_true.mp hn c List.mem_cons_self
    by_contra hmark
    rcases isMark_cases hmark with rfl | rfl <;> exact absurd hdigit (by decide)
  · have hbegins : beginsName c = true := by
      have := isName_of_classify e
      unfold isName at this
      rw [hx] at this
      exact (Bool.and_eq_true_iff.mp this).1
    by_contra hmark
    rcases isMark_cases hmark with rfl | rfl <;> exact absurd hbegins (by decide)
  · exact absurd e h

theorem declarator_of_spoken {x : String} (h : Spoken x) :
    declarator? x = none ∧ reference? x = none := by
  constructor
  · unfold declarator?
    split
    · next hx => exact absurd (not_mark_of_spoken hx h) (by decide)
    · rfl
  · unfold reference?
    split
    · next hx => exact absurd (not_mark_of_spoken hx h) (by decide)
    · rfl

theorem spoken_alternatives : ∀ r ∈ signatureRules, ∀ body ∈ r.alts, ∀ s ∈ body, s ≠ "" := by
  decide

theorem spoken_of_formed {t : Tree} (ht : t.Formed) (hs : t.symbol ≠ "") :
    ∀ tok ∈ t.yield, Spoken tok.text := by
  induction t using Tree.induct with
  | leaf s tok =>
    intro tok' htok
    rw [Tree.yield] at htok
    rw [List.mem_singleton.mp htok]
    unfold Spoken
    rw [(formed_leaf.mp ht).2]
    exact hs
  | head s i tok =>
    intro tok' htok
    rw [Tree.yield] at htok
    rw [List.mem_singleton.mp htok]
    obtain ⟨hw, _, htext⟩ := formed_head.mp ht
    unfold Spoken
    rw [htext, classify_wildcard hw]
    exact (headOf_ne s hw).2.2.2
  | branch s i cs ih =>
    intro tok htok
    obtain ⟨halt, hcs⟩ := formed_branch.mp ht
    obtain ⟨r, hr, rfl, hbody⟩ := exists_rule halt
    obtain ⟨c, hc, htok⟩ := Tree.mem_yield_branch.mp htok
    refine ih c hc (hcs c hc) ?_ tok htok
    exact spoken_alternatives r hr _ (List.mem_of_getElem? hbody) _ (List.mem_map_of_mem hc)

theorem Tree.Spells.spoken {s : Symbol} {ts : List String} {t : Tree} (h : t.Spells s ts)
    (hs : s ≠ "") : ∀ x ∈ ts, Spoken x := by
  intro x hx
  refine spoken_of_formed h.formed (by rw [h.symbol_eq]; exact hs) ⟨x, none⟩ ?_
  rw [h.yield_eq]
  exact List.mem_map_of_mem hx

/-! ## Bodies without declarations -/

theorem readBody_closed {declared : List Symbol} {strict : Bool} {r : References}
    {src : List String} (hspoken : ∀ x ∈ src, Spoken x)
    (hfree : ∀ x ∈ src, x ∉ signatureWildcards) :
    signature.readBody declared strict r src = .ok (Binding.ofTexts src) := by
  induction src with
  | nil => rw [readBody]; rfl
  | cons x src ih =>
    obtain ⟨hdecl, href⟩ := declarator_of_spoken (hspoken x List.mem_cons_self)
    have hwild : ¬ signature.mayBeWildcard x = true := fun h =>
      hfree x List.mem_cons_self (mayBeWildcard_signature.mp h)
    have htail := ih (fun y hy => hspoken y (List.mem_cons_of_mem _ hy))
      fun y hy => hfree y (List.mem_cons_of_mem _ hy)
    rw [readBody, hdecl, href]
    simp only [Option.isSome_none, Bool.false_eq_true, if_false, hwild, htail]
    rfl

theorem prepareBody_closed {k : String} {src : List String} {strict : Bool}
    (hspoken : ∀ x ∈ k :: src, Spoken x) (hfree : ∀ x ∈ k :: src, x ∉ signatureWildcards) :
    signature.prepareBody (k :: src) strict = .ok ⟨[], Binding.ofTexts (k :: src)⟩ := by
  have hdecl := (declarator_of_spoken (hspoken k List.mem_cons_self)).1
  unfold prepareBody
  rw [readDeclarators, hdecl]
  refine bind_eq_ok.mpr ⟨_, rfl, ?_⟩
  exact bind_eq_ok.mpr ⟨_, readBody_closed hspoken hfree, rfl⟩

/-! ## Calls that ask for a type -/

theorem Ty.tokens_closed {ty : Ty} (h : ty.WellFormed) :
    ∀ x ∈ ty.tokens, Spoken x ∧ x ∉ signatureWildcards := by
  obtain ⟨_, t, ht⟩ := hasTrees ty h
  intro x hx
  exact ⟨ht.toSpells.spoken (by decide) x hx, ht.toSpells.free (by decide) x hx⟩

theorem keyword_closed {k : String} (h : k ∈ signatureKeywords) :
    Spoken k ∧ k ∉ signatureWildcards := by
  unfold Spoken
  rw [classify_keyword h]
  exact ⟨(keyword_ne k h).2.2.2.1, (keyword_ne k h).1⟩

theorem Arg.tokens_closed {a : Arg} (h : a.type.WellFormed) :
    ∀ x ∈ a.tokens, Spoken x ∧ x ∉ signatureWildcards := by
  intro x hx
  refine ⟨?_, a.free h x hx⟩
  have hmarked : ∀ k ∈ signatureKeywords, ∀ x ∈ k :: a.type.tokens, Spoken x := by
    intro k hk x hx
    rcases List.mem_cons.mp hx with rfl | hx
    · exact (keyword_closed hk).1
    · exact (Ty.tokens_closed h x hx).1
  unfold Arg.tokens at hx
  split at hx
  · exact (Ty.tokens_closed h x hx).1
  split at hx
  · exact (Ty.tokens_closed h x hx).1
  · exact hmarked _ (by decide) x hx
  · exact hmarked _ (by decide) x hx

section Typed

variable {ret : Ty} {args : List Arg} {strict : Bool}

theorem arguments_closed (hargs : ∀ a ∈ args, a.type.WellFormed) :
    ∀ x ∈ Keyword.lparen :: (args.flatMap Arg.tokens ++ [Keyword.rparen]),
      Spoken x ∧ x ∉ signatureWildcards := by
  intro x hx
  rcases List.mem_cons.mp hx with rfl | hx
  · exact keyword_closed (by decide)
  rcases List.mem_append.mp hx with hx | hx
  · obtain ⟨a, ha, hx⟩ := List.mem_flatMap.mp hx
    exact Arg.tokens_closed (hargs a ha) x hx
  · rw [List.mem_singleton.mp hx]
    exact keyword_closed (by decide)

theorem prepareBody_typed (hret : ret.WellFormed) (hargs : ∀ a ∈ args, a.type.WellFormed) :
    signature.prepareBody (typedCallForm ret args) strict =
      .ok ⟨[], Binding.ofTexts (typedCallForm ret args)⟩ := by
  have hclosed : ∀ x ∈ typedCallForm ret args, Spoken x ∧ x ∉ signatureWildcards := by
    intro x hx
    unfold typedCallForm callForm at hx
    rcases List.mem_cons.mp hx with rfl | hx
    · exact keyword_closed (by decide)
    rcases List.mem_append.mp hx with hx | hx
    · exact Ty.tokens_closed hret x hx
    · exact arguments_closed hargs x hx
  exact prepareBody_closed (fun x hx => (hclosed x hx).1) fun x hx => (hclosed x hx).2

theorem exists_returnTree (hret : ret.WellFormed) :
    ∃ t : Tree, t.Spells Symbol.return_ ret.tokens := by
  obtain ⟨_, t, ht⟩ := hasTrees ret hret
  exact ⟨_, (ht.wrap (s := Symbol.return_) (i := 0) (by decide) (by decide) (by decide)).toSpells⟩

theorem ofTexts_typed {r : Tree} (hr : r.Spells Symbol.return_ ret.tokens) :
    Binding.ofTexts (typedCallForm ret args) =
      formTokens r.yield (args.map fun a => Binding.ofTexts a.tokens) := by
  unfold typedCallForm callForm formTokens
  rw [hr.yield_eq]
  unfold Binding.ofTexts
  rw [List.map_cons, List.map_append, List.map_cons, List.map_append, List.map_flatMap,
    List.flatMap_def]
  rfl

/-- what a compiled call that asks for a type is: its return and its parameters -/
structure Signature.Calls (call : Signature) (ret : Ty) (args : List Arg) : Prop where
  isFunction : call.isFunction = true
  returns : ∃ r : Tree, call.returnTree? = some r ∧ r.Spells Symbol.return_ ret.tokens
  params : List.Forall₂ Arg.ShownBy args call.params

theorem calls_of_formTree {call : Signature} {r : Tree} {ps : List Tree}
    (hroot : call.root = formTree r (paramsTree ps)) (hr : r.Spells Symbol.return_ ret.tokens)
    (hps : List.Forall₂ Arg.ShownBy args ps) : call.Calls ret args := by
  have hunwrap : call.root.unwrap = formTree r (paramsTree ps) := by
    rw [hroot]
    rfl
  have hfun : call.isFunction = true := by
    unfold Signature.isFunction
    rw [hunwrap]
    rfl
  refine ⟨hfun, ⟨r, ?_, hr⟩, ?_⟩
  · unfold Signature.returnTree?
    rw [if_pos hfun, hunwrap]
    rfl
  · have hparams : call.params = ps := by
      unfold Signature.params
      rw [if_pos hfun, hunwrap]
      exact elements_paramsTree ps
    rw [hparams]
    exact hps

theorem exists_shownByAll (hargs : ∀ a ∈ args, a.type.WellFormed)
    (hvoid : ∀ a ∈ args, a.type ≠ .void) : ∃ ps, List.Forall₂ Arg.ShownBy args ps := by
  induction args with
  | nil => exact ⟨[], .nil⟩
  | cons a args ih =>
    obtain ⟨p, hp⟩ := exists_shownBy (hargs a List.mem_cons_self) (hvoid a List.mem_cons_self)
    obtain ⟨ps, hps⟩ := ih (fun b hb => hargs b (List.mem_cons_of_mem _ hb))
      fun b hb => hvoid b (List.mem_cons_of_mem _ hb)
    exact ⟨p :: ps, .cons hp hps⟩

theorem shownByAll_spec {ps : List Tree} (h : List.Forall₂ Arg.ShownBy args ps) :
    (∀ p ∈ ps, p.Formed ∧ p.symbol = Symbol.paramObject) ∧
      ps.map Tree.yield = args.map fun a => Binding.ofTexts a.tokens := by
  induction h with
  | nil => exact ⟨List.forall_mem_nil _, rfl⟩
  | @cons a p args ps hp _ ih =>
    refine ⟨fun q hq => ?_, by rw [List.map_cons, List.map_cons, hp.spells.yield_eq, ih.2]⟩
    rcases List.mem_cons.mp hq with rfl | hq
    · exact ⟨hp.spells.formed, hp.spells.symbol_eq⟩
    · exact ih.1 q hq

theorem compile_typed (strict : Bool) (hret : ret.WellFormed) (hargs : ∀ a ∈ args, a.type.WellFormed)
    (hvoid : ∀ a ∈ args, a.type ≠ .void) :
    ∃ call, signature.compile (typedCallForm ret args) Symbol.function strict = .ok call ∧
      call.Calls ret args := by
  obtain ⟨r, hr⟩ := exists_returnTree hret
  obtain ⟨ps, hps⟩ := exists_shownByAll hargs hvoid
  obtain ⟨hformed, hyields⟩ := shownByAll_spec hps
  have htree := formed_formTree.mpr ⟨⟨hr.formed, hr.symbol_eq⟩, formed_paramsTree hformed⟩
  have hyield : (formTree r (paramsTree ps)).yield =
      Binding.ofTexts (typedCallForm ret args) := by
    rw [yield_formTree, hyields, ofTexts_typed hr]
  have hstart : Symbol.function ∈ signatureWildcards := by decide
  have hcall := compile_of_formed (typedCallForm ret args) strict _ hstart
    (prepareBody_typed hret hargs) htree rfl hyield
  exact ⟨_, hcall, calls_of_formTree rfl hr hps⟩

theorem Grammar.compile_eq_error {g : Grammar} {src : List String} {start : Symbol} {pre : Body}
    (hpre : g.prepareBody src strict = .ok pre) (hparse : g.parse pre.tokens start = none) :
    g.compile src start strict = .error (.notASentence (" ".intercalate src) start) := by
  unfold compile
  rw [hpre]
  simp only [Bind.bind, Except.bind, hparse]
  rfl

theorem compile_typed_void (hret : ret.WellFormed) (hargs : ∀ a ∈ args, a.type.WellFormed)
    (hvoid : ∃ a ∈ args, a.type = .void) :
    signature.compile (typedCallForm ret args) Symbol.function strict =
      .error (.notASentence (" ".intercalate (typedCallForm ret args)) Symbol.function) := by
  obtain ⟨r, hr⟩ := exists_returnTree hret
  refine compile_eq_error (prepareBody_typed hret hargs) ?_
  cases hparse : signature.parse (Binding.ofTexts (typedCallForm ret args)) Symbol.function with
  | none => rfl
  | some root =>
    have hroot := (parse_eq_some_iff compiled_signature (by decide)).mp hparse
    obtain ⟨ps, -, hps⟩ := shownBy_of_yield hargs ⟨hr.formed, hr.symbol_eq⟩ hroot.derived
      hroot.symbol_eq (hroot.yield_eq.trans (ofTexts_typed hr))
    obtain ⟨a, ha, hav⟩ := hvoid
    clear hparse hroot
    induction hps with
    | nil => cases ha
    | cons hp _ ih =>
      rcases List.mem_cons.mp ha with rfl | ha
      · exact absurd hav hp.2
      · exact ih (fun b hb => hargs b (List.mem_cons_of_mem _ hb)) ha

theorem calls_of_compile (hret : ret.WellFormed) (hargs : ∀ a ∈ args, a.type.WellFormed)
    {call : Signature}
    (h : signature.compile (typedCallForm ret args) Symbol.function strict = .ok call) :
    call.Calls ret args ∧ call.root.Plain := by
  constructor
  · by_cases hvoid : ∃ a ∈ args, a.type = .void
    · rw [compile_typed_void hret hargs hvoid] at h
      cases h
    · obtain ⟨call', hcall', hcalls⟩ := compile_typed strict hret hargs fun a ha hv =>
        hvoid ⟨a, ha, hv⟩
      cases hcall'.symm.trans h
      exact hcalls
  · obtain ⟨pre, root, hpre, hroot, rfl⟩ := compile_eq_ok.mp h
    rw [prepareBody_typed hret hargs] at hpre
    cases hpre
    intro tok htok
    rw [(derives_of_parse compiled_signature hroot).2.yield_eq] at htok
    obtain ⟨x, _, rfl⟩ := List.mem_map.mp htok
    rfl

end Typed

/-! ## Calls that leave their result open -/

section Open

variable {args : List Arg} {strict : Bool}

theorem prepareBody_open (hargs : ∀ a ∈ args, a.type.WellFormed) :
    signature.prepareBody (openCallForm args) strict =
      .ok ⟨[], callTokens (args.map fun a => Binding.ofTexts a.tokens)⟩ := by
  have htail := arguments_closed hargs
  have hrest : signature.readBody [] strict ⟨1, []⟩
      (Keyword.lparen :: (args.flatMap Arg.tokens ++ [Keyword.rparen])) = .ok _ :=
    readBody_closed (fun x hx => (htail x hx).1) fun x hx => (htail x hx).2
  have hreturn : signature.readBody [] strict ⟨0, []⟩ (Symbol.return_ :: Keyword.lparen ::
      (args.flatMap Arg.tokens ++ [Keyword.rparen])) =
        .ok (⟨Symbol.return_, some 0⟩ :: Binding.ofTexts (Keyword.lparen ::
          (args.flatMap Arg.tokens ++ [Keyword.rparen]))) := by
    have hdecl : declarator? Symbol.return_ = none := by decide
    have href : reference? Symbol.return_ = none := by decide
    have hwild : signature.mayBeWildcard Symbol.return_ = true :=
      mayBeWildcard_signature.mpr (by decide)
    rw [readBody, hdecl, href]
    simp only [Option.isSome_none, Bool.false_eq_true, if_false, hwild, if_true, hrest]
    rfl
  have hfunction : declarator? Keyword.function = none := by decide
  have href : reference? Keyword.function = none := by decide
  have hwild : ¬ signature.mayBeWildcard Keyword.function = true :=
    fun h => absurd (mayBeWildcard_signature.mp h) (by decide)
  have hbody : signature.readBody [] strict ⟨0, []⟩ (openCallForm args) =
      .ok (callTokens (args.map fun a => Binding.ofTexts a.tokens)) := by
    unfold openCallForm callForm
    rw [List.singleton_append, readBody, hfunction, href]
    simp only [Option.isSome_none, Bool.false_eq_true, if_false, hwild, hreturn]
    unfold callTokens formTokens Binding.ofTexts
    rw [List.map_cons, List.map_append, List.map_flatMap, List.flatMap_def]
    rfl
  unfold prepareBody
  unfold openCallForm callForm at hbody ⊢
  rw [readDeclarators, hfunction]
  refine bind_eq_ok.mpr ⟨_, rfl, ?_⟩
  exact bind_eq_ok.mpr ⟨_, hbody, rfl⟩

theorem compile_open (strict : Bool) (hargs : ∀ a ∈ args, a.type.WellFormed)
    (hvoid : ∀ a ∈ args, a.type ≠ .void) :
    ∃ call, signature.compile (openCallForm args) Symbol.function strict = .ok call := by
  obtain ⟨ps, hps⟩ := exists_shownByAll hargs hvoid
  obtain ⟨hformed, hyields⟩ := shownByAll_spec hps
  obtain ⟨hparams, hsymbol⟩ := formed_paramsTree hformed
  have hyield : (callTree (paramsTree ps)).yield =
      callTokens (args.map fun a => Binding.ofTexts a.tokens) := by
    unfold callTree callTokens
    rw [yield_formTree, hyields]
    rfl
  have hstart : Symbol.function ∈ signatureWildcards := by decide
  exact ⟨_, compile_of_formed (openCallForm args) strict _ hstart (prepareBody_open hargs)
    (formed_callTree hparams hsymbol) rfl hyield⟩

end Open

end Overloading
