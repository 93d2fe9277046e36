import Overloading.Proofs.Delivery

/-!
# Calls encode their arguments

Arguments are written one after another with nothing between them, and a call is compiled from
that text.  Each argument can be read back from it.

* `Arg.ReadFrom`    a parameter tree has the tokens, the marker and the type of an argument;
* `Signature.Carries`   a compiled call keeps its text, and its parameters are its arguments;
* `carries_open`, `carries_typed`   both kinds of calls do so;
* `calls_encode_arguments`   so calls of different arguments are different calls.
-/

namespace Overloading

open Grammar

/-- what a call shows of an argument: its type and its marker -/
def Arg.passed (a : Arg) : Ty × Ref := (a.type, a.marker)

/-- an argument that can be written as a parameter: its type is one and not nothing -/
def Arg.Passable (a : Arg) : Prop := a.type.WellFormed ∧ a.type ≠ .void

/-- a parameter tree from which an argument can be read back -/
structure Arg.ReadFrom (a : Arg) (p : Tree) : Prop where
  tokens_eq : p.tokens = a.tokens
  marker_eq : p.splitRef.1 = a.marker
  type_eq : Ty.ofTree p = .ok a.type

theorem Arg.ShownBy.readFrom {a : Arg} {p : Tree} (h : a.ShownBy p) : a.ReadFrom p := by
  obtain ⟨s, -, hd⟩ := h.denotes
  refine ⟨h.spells.tokens_eq, h.marker_eq, ?_⟩
  rw [← ofTree_splitRef h.spells.formed h.spells.symbol_eq]
  exact hd.type_eq

/-- a parameter shows one argument only, as far as a call shows arguments at all -/
theorem Arg.ReadFrom.passed_eq {a b : Arg} {p : Tree} (ha : a.ReadFrom p) (hb : b.ReadFrom p) :
    a.passed = b.passed := by
  have htype : a.type = b.type := Except.ok.inj (ha.type_eq.symm.trans hb.type_eq)
  have hmarker : a.marker = b.marker := ha.marker_eq.symm.trans hb.marker_eq
  unfold Arg.passed
  rw [htype, hmarker]

theorem passed_eq_of_readFrom {args args' : List Arg} {ps : List Tree}
    (h : List.Forall₂ Arg.ReadFrom args ps) (h' : List.Forall₂ Arg.ReadFrom args' ps) :
    args.map Arg.passed = args'.map Arg.passed := by
  induction h generalizing args' with
  | nil => cases h'; rfl
  | cons ha _ ih =>
    cases h' with
    | cons hb hrest => rw [List.map_cons, List.map_cons, ha.passed_eq hb, ih hrest]

theorem tokens_of_passed {a b : Arg} (h : a.passed = b.passed) : a.tokens = b.tokens := by
  obtain ⟨ty, ref⟩ := a
  obtain ⟨ty', ref'⟩ := b
  obtain ⟨rfl, hmarker⟩ := Prod.mk.inj h
  unfold Arg.tokens
  cases hf : Ty.isFunction ty with
  | true => rfl
  | false =>
    unfold Arg.marker at hmarker
    simp only [hf, Bool.false_eq_true, if_false] at hmarker
    rw [hmarker]

theorem callForm_congr (ret : List String) {args args' : List Arg}
    (h : args.map Arg.passed = args'.map Arg.passed) : callForm ret args = callForm ret args' := by
  have htokens : args.flatMap Arg.tokens = args'.flatMap Arg.tokens := by
    induction args generalizing args' with
    | nil => rw [List.map_eq_nil_iff.mp h.symm]
    | cons a args ih =>
      obtain ⟨b, rest, rfl, hb, hrest⟩ := List.map_eq_cons_iff.mp h.symm
      rw [List.flatMap_cons, List.flatMap_cons, tokens_of_passed hb.symm, ih hrest.symm]
  unfold callForm
  rw [htokens]

/-! ## Compiled calls -/

/-- a compiled call with a given text whose parameters are some arguments, one for one -/
structure Signature.Carries (call : Signature) (text : List String) (args : List Arg) : Prop where
  isFunction : call.isFunction = true
  tokens_eq : call.root.tokens = text
  params : List.Forall₂ Arg.ReadFrom args call.params

section

variable {args : List Arg} {strict : Bool}

theorem tokens_of_compile {src : List String} {call : Signature}
    (h : signature.compile src Symbol.function strict = .ok call) :
    call.root.tokens = call.tokens.map Token.text := by
  rw [← (compiledFrom_of_compile (by decide) h).yield_eq]
  exact (Tree.texts_yield call.root).symm

/-- **A call that leaves its result open** compiles to its arguments under an open return, whose
number is one that no declared wildcard has. -/
theorem carries_open (strict : Bool) (hargs : ∀ a ∈ args, a.Passable) :
    ∃ call, signature.compile (openCallForm args) Symbol.function strict = .ok call ∧
      call.Carries (openCallForm args) args ∧
      ∃ i id, call.returnTree? = some (.head Symbol.return_ i ⟨Symbol.return_, some id⟩) ∧
        call.declared.length ≤ id := by
  have hwell : ∀ a ∈ args, a.type.WellFormed := fun a ha => (hargs a ha).1
  obtain ⟨call, hcall⟩ := compile_open strict hwell fun a ha => (hargs a ha).2
  obtain ⟨hfun, hret, hparams⟩ := params_shownBy hwell hcall
  obtain ⟨pre, root, hpre, -, heq⟩ := compile_eq_ok.mp hcall
  rw [prepareBody_open hwell] at hpre
  cases hpre
  have htokens : call.root.tokens = openCallForm args := by
    rw [tokens_of_compile hcall, callTokens_of_compile hwell hcall]
    simp [callTokens, formTokens, openCallForm, callForm, Binding.ofTexts, List.flatMap_def,
      List.map_flatten, Function.comp_def]
  refine ⟨call, hcall, ⟨hfun, htokens, hparams.imp fun _ _ h => h.readFrom⟩, _, _, hret, ?_⟩
  rw [heq]
  exact Nat.le_refl 0

/-- **A call that asks for a type** compiles to its arguments under a return of that type. -/
theorem carries_typed (strict : Bool) {ret : Ty} (hret : ret.WellFormed)
    (hargs : ∀ a ∈ args, a.Passable) :
    ∃ call, signature.compile (typedCallForm ret args) Symbol.function strict = .ok call ∧
      call.Carries (typedCallForm ret args) args ∧
      ∃ r, call.returnTree? = some r ∧ r.tokens = ret.tokens ∧ Ty.ofTree r = .ok ret := by
  have hwell : ∀ a ∈ args, a.type.WellFormed := fun a ha => (hargs a ha).1
  obtain ⟨call, hcall, hcalls⟩ := compile_typed strict hret hwell fun a ha => (hargs a ha).2
  obtain ⟨r, hr, hspells⟩ := hcalls.returns
  obtain ⟨pre, root, hpre, -, heq⟩ := compile_eq_ok.mp hcall
  rw [prepareBody_typed hret hwell] at hpre
  cases hpre
  have htokens : call.root.tokens = typedCallForm ret args := by
    rw [tokens_of_compile hcall, heq]
    exact Binding.texts_ofTexts _
  have htype : Ty.ofTree r = .ok ret := by
    obtain ⟨_, t, ht⟩ := hasTrees ret hret
    have hwrap := ht.wrap (s := Symbol.return_) (i := 0) (by decide) (by decide) (by decide)
    rw [derives_unique compiled_signature (by decide)
      ⟨hspells.formed, hspells.symbol_eq, hspells.yield_eq⟩
      ⟨hwrap.formed, hwrap.symbol_eq, hwrap.yield_eq⟩]
    exact hwrap.type_eq
  exact ⟨call, hcall,
    ⟨hcalls.isFunction, htokens, hcalls.params.imp fun _ _ h => h.readFrom⟩,
    r, hr, hspells.tokens_eq, htype⟩

theorem wellFormed_typedCallForm {ret : Ty} (hret : ret.WellFormed)
    (hargs : ∀ a ∈ args, a.Passable) : (Ty.function (typedCallForm ret args)).WellFormed := by
  have hwell : ∀ a ∈ args, a.type.WellFormed := fun a ha => (hargs a ha).1
  obtain ⟨call, hcall, -⟩ := compile_typed false hret hwell fun a ha => (hargs a ha).2
  obtain ⟨pre, root, hpre, hparse, -⟩ := compile_eq_ok.mp hcall
  rw [prepareBody_typed hret hwell] at hpre
  cases hpre
  rw [Ty.WellFormed]
  refine ⟨recognize_eq_true_iff.mpr ⟨root, hparse⟩, fun x hx => ?_⟩
  unfold typedCallForm callForm at hx
  rcases List.mem_cons.mp hx with rfl | hx
  · exact (keyword_closed (by decide)).2
  rcases List.mem_append.mp hx with hx | hx
  · exact (Ty.tokens_closed hret x hx).2
  · exact (arguments_closed hwell x hx).2

end

/-! ## Different arguments, different calls -/

/-- the signature a text is compiled to keeps the text, so two texts with one tree are one -/
theorem eq_of_carries {call call' : Signature} {src src' : List String} {args args' : List Arg}
    {strict : Bool} (hcall : signature.compile src Symbol.function strict = .ok call)
    (hcall' : signature.compile src' Symbol.function strict = .ok call')
    (h : call.Carries src args) (h' : call'.Carries src' args')
    (htokens : call.root.tokens = call'.root.tokens) :
    call = call' ∧ args.map Arg.passed = args'.map Arg.passed := by
  obtain rfl : src = src' := h.tokens_eq.symm.trans (htokens.trans h'.tokens_eq)
  obtain rfl : call = call' := Except.ok.inj (hcall.symm.trans hcall')
  exact ⟨rfl, passed_eq_of_readFrom h.params h'.params⟩

/-- **Calls encode their arguments.**  A call of arguments none of which is `VOID` compiles, whether
it leaves its result open or asks for a type.  It is a function form over the tokens it was given;
its parameters are as many as the arguments, each with the tokens, the marker and the type of its
argument, where functions have no marker; its return is an open one with a number of its own, or
denotes the type that is asked for.  So two calls are the same call just if they ask for the same
type and agree on the type and the marker of each argument. -/
theorem calls_encode_arguments (strict : Bool) {args : List Arg} (hargs : ∀ a ∈ args, a.Passable) :
    (∃ call, signature.compile (openCallForm args) Symbol.function strict = .ok call ∧
      call.Carries (openCallForm args) args ∧
      ∃ i id, call.returnTree? = some (.head Symbol.return_ i ⟨Symbol.return_, some id⟩) ∧
        call.declared.length ≤ id) ∧
    (∀ ret : Ty, ret.WellFormed →
      ∃ call, signature.compile (typedCallForm ret args) Symbol.function strict = .ok call ∧
        call.Carries (typedCallForm ret args) args ∧
        ∃ r, call.returnTree? = some r ∧ r.tokens = ret.tokens ∧ Ty.ofTree r = .ok ret) ∧
    ∀ args' : List Arg, (∀ a ∈ args', a.Passable) →
      (∀ call call',
        signature.compile (openCallForm args) Symbol.function strict = .ok call →
        signature.compile (openCallForm args') Symbol.function strict = .ok call' →
        (call.root.tokens = call'.root.tokens ↔ args.map Arg.passed = args'.map Arg.passed)) ∧
      ∀ ret ret' : Ty, ret.WellFormed → ret'.WellFormed → ∀ call call',
        signature.compile (typedCallForm ret args) Symbol.function strict = .ok call →
        signature.compile (typedCallForm ret' args') Symbol.function strict = .ok call' →
        (call.root.tokens = call'.root.tokens ↔
          ret = ret' ∧ args.map Arg.passed = args'.map Arg.passed) := by
  refine ⟨carries_open strict hargs, fun ret hret => carries_typed strict hret hargs,
    fun args' hargs' => ⟨?_, ?_⟩⟩
  · intro call call' hcall hcall'
    obtain ⟨_, h, hcarries, -⟩ := carries_open strict hargs
    obtain ⟨_, h', hcarries', -⟩ := carries_open strict hargs'
    cases hcall.symm.trans h
    cases hcall'.symm.trans h'
    refine ⟨fun htokens => (eq_of_carries hcall hcall' hcarries hcarries' htokens).2,
      fun hsame => ?_⟩
    rw [hcarries.tokens_eq, hcarries'.tokens_eq]
    exact callForm_congr _ hsame
  · intro ret ret' hret hret' call call' hcall hcall'
    obtain ⟨_, h, hcarries, r, hr, -, hread⟩ := carries_typed strict hret hargs
    obtain ⟨_, h', hcarries', r', hr', -, hread'⟩ := carries_typed strict hret' hargs'
    cases hcall.symm.trans h
    cases hcall'.symm.trans h'
    refine ⟨fun htokens => ?_, ?_⟩
    · obtain ⟨rfl, hsame⟩ := eq_of_carries hcall hcall' hcarries hcarries' htokens
      cases hr.symm.trans hr'
      exact ⟨Except.ok.inj (hread.symm.trans hread'), hsame⟩
    · rintro ⟨rfl, hsame⟩
      rw [hcarries.tokens_eq, hcarries'.tokens_eq]
      exact callForm_congr _ hsame

/-- the class of the iterators of a list of words, nested in the class of such lists -/
def iteratorClass : ClassTy := .mk "iterator" [] (some (.mk "vector" [.arith .i32] none))

/-- an iterator, a list of words and a procedure on iterators, one after another -/
def iteratorArgs : List Arg :=
  [⟨.cls iteratorClass, .mutable⟩, ⟨.cls (.mk "vector" [.arith .i32] none), .constant⟩,
    ⟨.function (typedCallForm .void [⟨.cls iteratorClass, .mutable⟩]), .constant⟩]

theorem passable_iteratorArgs : ∀ a ∈ iteratorArgs, a.Passable := by
  have hvector : (ClassTy.mk "vector" [.arith .i32] none).WellFormed := by
    rw [ClassTy.WellFormed]
    exact ⟨classify_name (by decide) (by decide) (by decide) (by decide) (by decide),
      ⟨trivial, trivial⟩, trivial⟩
  have hiterator : iteratorClass.WellFormed := by
    unfold iteratorClass
    rw [ClassTy.WellFormed]
    exact ⟨classify_name (by decide) (by decide) (by decide) (by decide) (by decide), trivial,
      hvector⟩
  have hone : ∀ a ∈ [(⟨.cls iteratorClass, .mutable⟩ : Arg)], a.Passable := by
    intro a ha
    rw [List.mem_singleton.mp ha]
    exact ⟨hiterator, by rintro ⟨⟩⟩
  unfold iteratorArgs
  simp only [List.forall_mem_cons]
  refine ⟨⟨hiterator, ?_⟩, ⟨hvector, ?_⟩, ⟨wellFormed_typedCallForm trivial hone, ?_⟩,
    List.forall_mem_nil _⟩
  all_goals rintro ⟨⟩

/-- An argument that ends in the class around its own is told from the class that follows it; a
function keeps no marker. -/
theorem calls_encode_arguments_nested :
    (∀ a ∈ iteratorArgs, a.Passable) ∧
    iteratorArgs.map Arg.marker = [.mutable, .constant, .none] ∧
    ∃ call, signature.compile (openCallForm iteratorArgs) Symbol.function false = .ok call ∧
      List.Forall₂ Arg.ReadFrom iteratorArgs call.params := by
  obtain ⟨call, hcall, hcarries, -⟩ := (calls_encode_arguments false passable_iteratorArgs).1
  exact ⟨passable_iteratorArgs, rfl, call, hcall, hcarries.params⟩

end Overloading
