import Mathlib.Algebra.Ring.Nat
import Mathlib.Data.List.Forall2
import Overloading.Proofs.Substitution

/-!
# The trees of types

A well-formed type is read back from the tokens it is written in: there is a tree over them that
denotes it.

* `Tree.Shows`       a formed tree of a symbol over plain tokens; trees are put together by one
                     lemma (`shows_branch`).  `Tree.Spells` asks for one without wildcards;
* `Ty.WellFormed`    class names are names, arrays hold objects and have a size that fits a word,
                     function types are sentences of the signature grammar without wildcards;
* `Ty.HasTree`       a type has a tree of a symbol over its tokens, with a lemma for each form of
                     type;
* `hasTrees`         so a well-formed type has one, by recursion on the type.

The other way round, what a formed tree denotes does not depend on its wrappers
(`ofTree_unwrap`), and tells objects from functions (`isFunction_of_ofTree`).
-/

namespace Overloading

open Grammar Overloading.Text

/-! ## Numbers -/

namespace Text

theorem isAsciiDigit_of_mem_toDigits {n : Nat} {c : Char} (h : c ∈ Nat.toDigits 10 n) :
    isAsciiDigit c = true := by
  have hd := Nat.isDigit_of_mem_toDigits (by omega) (by omega) h
  unfold Char.isDigit at hd
  unfold isAsciiDigit
  obtain ⟨h1, h2⟩ := Bool.and_eq_true_iff.mp hd
  have h1' := UInt32.le_iff_toNat_le.mp (of_decide_eq_true h1)
  have h2' := UInt32.le_iff_toNat_le.mp (of_decide_eq_true h2)
  exact Bool.and_eq_true_iff.mpr ⟨decide_eq_true h1', decide_eq_true h2'⟩

theorem toList_toString (n : Nat) : (toString n).toList = Nat.toDigits 10 n := by
  rw [Nat.toString_eq_ofList_toDigits, String.toList_ofList]

theorem isNumber_toString (n : Nat) : isNumber (toString n) = true := by
  unfold isNumber
  rw [toList_toString]
  split
  · next h => exact absurd h Nat.toDigits_ne_nil
  · exact List.all_eq_true.mpr fun c hc => isAsciiDigit_of_mem_toDigits hc

theorem natural?_toDigits (n : Nat) : natural? (Nat.toDigits 10 n) = some n := by
  have hall : (Nat.toDigits 10 n).all isAsciiDigit = true :=
    List.all_eq_true.mpr fun c hc => isAsciiDigit_of_mem_toDigits hc
  have hne : (Nat.toDigits 10 n).isEmpty = false := by
    simp
  unfold natural?
  rw [hne, hall]
  show some (digitsValue (Nat.toDigits 10 n)) = some n
  exact congrArg some Nat.ofDigitChars_ten_toDigits

theorem integer?_toString (n : Nat) : integer? (toString n) = some (n : Int) := by
  unfold integer?
  rw [toList_toString]
  split
  · next cs hcs =>
    have hdigit := isAsciiDigit_of_mem_toDigits (n := n) (by rw [hcs]; exact List.mem_cons_self)
    exact absurd hdigit (by decide)
  · next cs hcs =>
    have hdigit := isAsciiDigit_of_mem_toDigits (n := n) (by rw [hcs]; exact List.mem_cons_self)
    exact absurd hdigit (by decide)
  · rw [natural?_toDigits]
    rfl

theorem word?_toString {n : Nat} (h : n < 2 ^ 63) : word? (toString n) = some (n : Int) := by
  have hword : isWord (n : Int) = true := by
    unfold isWord
    rw [Bool.and_eq_true, decide_eq_true_iff, decide_eq_true_iff, Nat.pow_eq]
    omega
  unfold word?
  rw [integer?_toString, Option.filter_some, if_pos hword]

end Text

/-! ## Putting trees together -/

/-- a formed tree of a symbol over plain tokens -/
structure Tree.Shows (s : Symbol) (ts : List String) (t : Tree) : Prop where
  formed : t.Formed
  symbol_eq : t.symbol = s
  yield_eq : t.yield = Binding.ofTexts ts

/-- a formed tree of a symbol over plain tokens, without wildcards -/
structure Tree.Spells (s : Symbol) (ts : List String) (t : Tree) : Prop
    extends Tree.Shows s ts t where
  heads_eq : t.heads = []

theorem Tree.Shows.plain {s : Symbol} {ts : List String} {t : Tree} (h : t.Shows s ts) :
    t.Plain := by
  intro tok htok
  rw [h.yield_eq] at htok
  obtain ⟨x, _, rfl⟩ := List.mem_map.mp htok
  rfl

theorem Tree.Shows.spells {s : Symbol} {ts : List String} {t : Tree} (h : t.Shows s ts)
    (hs : s ∈ signatureRules.map Rule.head) (hfree : ∀ x ∈ ts, x ∉ signatureWildcards) :
    t.Spells s ts := by
  refine ⟨h, (Tree.heads_eq_nil_iff h.formed ?_).mpr fun tok htok => ?_⟩
  · rw [h.symbol_eq]
    exact Tree.ordinary_of_mem_heads hs
  · rw [h.yield_eq] at htok
    obtain ⟨x, hx, rfl⟩ := List.mem_map.mp htok
    exact hfree x hx

theorem Binding.ofTexts_append (ts us : List String) :
    Binding.ofTexts (ts ++ us) = Binding.ofTexts ts ++ Binding.ofTexts us := List.map_append

theorem spells_keyword {k : String} (hk : k ∈ signatureKeywords) :
    (Tree.leaf k ⟨k, none⟩).Spells k [k] :=
  ⟨⟨(formed_keyword hk).mpr rfl, rfl, rfl⟩, by rw [Tree.heads]⟩

theorem shows_keyword {k : String} (hk : k ∈ signatureKeywords) :
    (Tree.leaf k ⟨k, none⟩).Shows k [k] := (spells_keyword hk).toShows

theorem spells_class {s : Symbol} {t : String} (hs : s ∉ signatureRules.map Rule.head)
    (ht : signature.classify t = s) : (Tree.leaf s ⟨t, none⟩).Spells s [t] :=
  ⟨⟨formed_leaf.mpr ⟨hs, ht⟩, rfl, rfl⟩, by rw [Tree.heads]⟩

theorem shows_branch {s : Symbol} {i : Nat} {l : List (Symbol × List String)} {cs : List Tree}
    (halt : (alternatives s)[i]? = some (l.map Prod.fst))
    (h : List.Forall₂ (fun p c => Tree.Shows p.1 p.2 c) l cs) :
    (Tree.branch s i cs).Shows s (l.flatMap Prod.snd) := by
  have hall : cs.map Tree.symbol = l.map Prod.fst ∧ (∀ c ∈ cs, c.Formed) ∧
      Tree.yieldAll cs = Binding.ofTexts (l.flatMap Prod.snd) := by
    clear halt
    induction h with
    | nil => exact ⟨rfl, List.forall_mem_nil _, by rw [Tree.yieldAll]; rfl⟩
    | @cons p c ps cs hpc _ ih =>
      obtain ⟨h1, h2, h3⟩ := ih
      refine ⟨?_, List.forall_mem_cons.mpr ⟨hpc.formed, h2⟩, ?_⟩
      · rw [List.map_cons, List.map_cons, hpc.symbol_eq, h1]
      · rw [Tree.yieldAll_cons, hpc.yield_eq, h3, List.flatMap_cons, Binding.ofTexts_append]
  obtain ⟨h1, h2, h3⟩ := hall
  refine ⟨formed_branch.mpr ⟨halt.trans (congrArg some h1.symm), h2⟩, rfl, ?_⟩
  rw [Tree.yield, h3]

theorem spells_branch {s : Symbol} {i : Nat} {l : List (Symbol × List String)} {cs : List Tree}
    (halt : (alternatives s)[i]? = some (l.map Prod.fst))
    (h : List.Forall₂ (fun p c => Tree.Spells p.1 p.2 c) l cs) :
    (Tree.branch s i cs).Spells s (l.flatMap Prod.snd) := by
  refine ⟨shows_branch halt (h.imp fun _ _ hpc => hpc.toShows), ?_⟩
  clear halt
  rw [Tree.heads]
  induction h with
  | nil => rw [Tree.headsAll]
  | cons hpc _ ih =>
    rw [Tree.headsAll_cons, hpc.heads_eq, ih]
    rfl

/-! ## Well-formed types -/

/-- whether values of a type are objects: neither functions nor nothing -/
def Ty.isObject : Ty → Bool
  | .function _ | .void => false
  | _ => true

mutual
/-- a type that can be written in the vocabulary of signatures -/
def Ty.WellFormed : Ty → Prop
  | .arith _ | .void => True
  | .pointer e => e.WellFormed
  | .array e n => e.WellFormed ∧ e.isObject = true ∧ n < 2 ^ 63
  | .cls c => c.WellFormed
  | .function ts =>
    signature.recognize ts Symbol.function = true ∧ ∀ t ∈ ts, t ∉ signatureWildcards
  | .list es => Ty.WellFormedAll es

def ClassTy.WellFormed : ClassTy → Prop
  | .mk n as o =>
    signature.classify n = Symbol.ident ∧ Ty.WellFormedAll as ∧ ClassTy.WellFormedOuter o

def Ty.WellFormedAll : List Ty → Prop
  | [] => True
  | t :: ts => t.WellFormed ∧ Ty.WellFormedAll ts

def ClassTy.WellFormedOuter : Option ClassTy → Prop
  | none => True
  | some c => c.WellFormed
end

/-- the nonterminals that only wrap a type pass on what it denotes -/
theorem ofTree_wrap {s : Symbol} {i : Nat} {c : Tree} (hs : s.isWrapper = true)
    (hc : c.isLeaf = false) : Ty.ofTree (.branch s i [c]) = Ty.ofTree c := by
  rw [Ty.ofTree, if_pos hs]
  simp only [hc, Bool.false_eq_true, if_false]

theorem isLeaf_of_formed {t : Tree} (ht : t.Formed) (hs : t.symbol ∈ signatureRules.map Rule.head) :
    t.isLeaf = false := by
  cases t with
  | leaf s tok => exact absurd hs (formed_leaf.mp ht).1
  | branch s i cs => rfl
  | head s i tok => rfl

/-! ## What a tree is read to, part by part -/

theorem ofTree_arithmetic (i : Nat) (s : Symbol) (tok : Token) :
    Ty.ofTree (.branch Symbol.arithmetic i [.leaf s tok]) =
      match Kind.ofToken? tok.text with
      | some k => .ok (.arith k)
      | none => .error (.notATypeSymbol Symbol.arithmetic) := by
  rw [Ty.ofTree, if_neg (by decide)]
  exact if_pos (by decide)

theorem ofTree_pointer (i : Nat) (k c : Tree) :
    Ty.ofTree (.branch Symbol.pointer i [k, c]) = (Ty.ofTree c).map Ty.pointer := by
  rw [Ty.ofTree, if_neg (by decide), if_neg (by decide), if_pos (by decide)]

theorem ofTree_array (i : Nat) (k c : Tree) (s : Symbol) (tok : Token) :
    Ty.ofTree (.branch Symbol.array i [k, .leaf s tok, c]) =
      match word? tok.text with
      | some size => (Ty.ofTree c).map fun t => Ty.array t size.toNat
      | none => .error (.arraySize tok.text) := by
  rw [Ty.ofTree.eq_def]
  dsimp only
  rw [if_neg (by decide), if_neg (by decide), if_neg (by decide), if_pos (by decide)]
  rfl

theorem ofTree_list (i : Nat) (k o l r : Tree) :
    Ty.ofTree (.branch Symbol.list i [k, o, l, r]) = (Ty.ofTypeList l).map Ty.list := by
  rw [Ty.ofTree.eq_def]
  dsimp only
  rw [if_neg (by decide), if_neg (by decide), if_neg (by decide), if_neg (by decide),
    if_neg (by decide), if_pos (by decide)]

theorem ofTree_function (i : Nat) (cs : List Tree) :
    Ty.ofTree (.branch Symbol.function i cs) = .ok (.function (Tree.tokensAll cs)) := by
  rw [Ty.ofTree.eq_def]
  dsimp only
  rw [if_neg (by decide), if_neg (by decide), if_neg (by decide), if_neg (by decide),
    if_neg (by decide), if_neg (by decide), if_pos (by decide)]

def ClassTy.ofParts (name : String) (args around : Tree) : Except Fault ClassTy :=
  match Ty.ofTypeList args with
  | .error e => .error e
  | .ok args => (ClassTy.ofEnclosing name around).map fun o => .mk name args o

theorem ofTree_class (i : Nat) (k o args r around : Tree) (s : Symbol) (tok : Token) :
    Ty.ofTree (.branch Symbol.class_ i [k, .leaf s tok, o, args, r, around]) =
      (ClassTy.ofParts tok.text args around).map Ty.cls := by
  rw [Ty.ofTree.eq_def]
  dsimp only
  rw [if_neg (by decide), if_neg (by decide), if_neg (by decide), if_neg (by decide),
    if_pos (by decide)]
  unfold ClassTy.ofParts
  cases Ty.ofTypeList args with
  | error e => rfl
  | ok tys =>
    simp only [Tree.tokenText]
    cases ClassTy.ofEnclosing tok.text around <;> rfl

theorem ofEnclosing_class (name : String) (i j : Nat) (e k o args r around : Tree) (s : Symbol)
    (tok : Token) :
    ClassTy.ofEnclosing name (.branch Symbol.enclosing i
        [e, .branch Symbol.class_ j [k, .leaf s tok, o, args, r, around]]) =
      (ClassTy.ofParts tok.text args around).map some := by
  rw [ClassTy.ofEnclosing]
  unfold ClassTy.ofParts
  cases Ty.ofTypeList args with
  | error e => rfl
  | ok tys =>
    simp only [Tree.tokenText]
    cases ClassTy.ofEnclosing tok.text around <;> rfl

/-! ## Taking trees apart -/

theorem children_of_formed {s : Symbol} {i : Nat} {cs : List Tree}
    (h : (Tree.branch s i cs).Formed) :
    ∃ body ∈ alternatives s, List.Forall₂ (fun x c => Tree.Formed c ∧ c.symbol = x) body cs := by
  obtain ⟨halt, hcs⟩ := formed_branch.mp h
  refine ⟨_, List.mem_of_getElem? halt, ?_⟩
  clear halt h
  induction cs with
  | nil => exact .nil
  | cons c cs ih =>
    exact .cons ⟨hcs c List.mem_cons_self, rfl⟩ (ih fun d hd => hcs d (List.mem_cons_of_mem _ hd))

theorem leaf_of_formed {t : Tree} (ht : t.Formed) (hs : t.symbol ∉ signatureRules.map Rule.head) :
    ∃ tok : Token, t = .leaf t.symbol tok ∧ signature.classify tok.text = t.symbol := by
  cases t with
  | leaf s tok => exact ⟨tok, rfl, (formed_leaf.mp ht).2⟩
  | branch s i cs => exact absurd (formed_symbol_mem ht rfl) hs
  | head s i tok => exact absurd (formed_symbol_mem ht rfl) hs

theorem keyword_not_head : ∀ k ∈ signatureKeywords, k ∉ signatureRules.map Rule.head := by decide

theorem keyword_of_formed {t : Tree} {k : String} (hk : k ∈ signatureKeywords)
    (h : t.Formed ∧ t.symbol = k) : ∃ tok : Token, t = .leaf k tok ∧ t.tokens = [k] := by
  obtain ⟨tok, ht, hclass⟩ := leaf_of_formed h.1 (by rw [h.2]; exact keyword_not_head k hk)
  rw [h.2] at ht hclass
  refine ⟨tok, ht, ?_⟩
  rw [ht, Tree.tokens, (classify_eq_keyword hk).mp hclass]

theorem class_shape {t : Tree} (ht : t.Formed) (hs : t.symbol = Symbol.class_)
    (hhead : t.isHead = false) :
    ∃ r : Except Fault ClassTy, Ty.ofTree t = r.map Ty.cls ∧
      ∀ name i e, ClassTy.ofEnclosing name (.branch Symbol.enclosing i [e, t]) = r.map some := by
  cases t with
  | leaf s tok =>
    cases show s = Symbol.class_ from hs
    exact absurd (by decide) (formed_leaf.mp ht).1
  | head s i tok => cases hhead
  | branch s i cs =>
    cases show s = Symbol.class_ from hs
    obtain ⟨body, hbody, hcs⟩ := children_of_formed ht
    cases List.mem_singleton.mp hbody
    obtain _ | ⟨_, _ | ⟨hn, _ | ⟨_, _ | ⟨_, _ | ⟨_, _ | ⟨_, _ | _⟩⟩⟩⟩⟩⟩ := hcs
    obtain ⟨tok, hleaf, _⟩ := leaf_of_formed hn.1 (by rw [hn.2]; decide)
    rw [hleaf]
    exact ⟨_, ofTree_class .., fun _ _ _ => ofEnclosing_class ..⟩

theorem ofEnclosing_eq_ok {e t : Tree} {i : Nat} {name : String}
    {outer : Option ClassTy} (ht : t.Formed)
    (hs : t.symbol = Symbol.class_) :
    ClassTy.ofEnclosing name (.branch Symbol.enclosing i [e, t]) = .ok outer ↔
      ∃ d, Ty.ofTree t = .ok (.cls d) ∧ outer = some d := by
  cases hhead : t.isHead with
  | true =>
    cases t with
    | head => simp [ClassTy.ofEnclosing, Ty.ofTree]
    | leaf | branch => cases hhead
  | false =>
    obtain ⟨r, htype, hall⟩ := class_shape ht hs hhead
    rw [htype, hall]
    cases r with
    | error f => simp [Except.map]
    | ok d => simp [Except.map, eq_comm]

/-! ## Function forms -/

theorem function_parts {i : Nat} {cs : List Tree} (h : (Tree.branch Symbol.function i cs).Formed) :
    ∃ r l : Tree, r ∈ cs ∧ l ∈ cs ∧ r.symbol = Symbol.return_ ∧ l.symbol = Symbol.paramList ∧
      Tree.tokensAll cs =
        Keyword.function :: ((r.tokens ++ Keyword.lparen :: l.tokens) ++ [Keyword.rparen]) := by
  obtain ⟨body, hbody, hcs⟩ := children_of_formed h
  cases List.mem_singleton.mp hbody
  obtain _ | ⟨h1, _ | ⟨h2, _ | ⟨h3, _ | ⟨h4, _ | ⟨h5, _ | _⟩⟩⟩⟩⟩ := hcs
  obtain ⟨_, _, hfunction⟩ := keyword_of_formed (by decide) h1
  obtain ⟨_, _, hopen⟩ := keyword_of_formed (by decide) h3
  obtain ⟨_, _, hclose⟩ := keyword_of_formed (by decide) h5
  refine ⟨_, _, by simp, by simp, h2.2, h4.2, ?_⟩
  simp [hfunction, hopen, hclose]

theorem not_mem_of_classify {t : String} {marks : List Symbol}
    (hmarks : ∀ k ∈ marks, k ∈ signatureKeywords) (h : signature.classify t ∉ marks) :
    t ∉ marks := by
  intro ht
  rw [classify_keyword (hmarks t ht)] at h
  exact h ht

/-- **Induction on formed trees** in which function forms are a case of their own, by their return
and their parameters.  The marks are keywords that stand in no other form, so outside function forms
there are none of them. -/
theorem Tree.forms_induct {marks : List Symbol} {motive : Tree → Prop}
    (hmarks : ∀ k ∈ marks, k ∈ signatureKeywords)
    (halts : ∀ r ∈ signatureRules, r.head ≠ Symbol.function →
      ∀ body ∈ r.alts, ∀ s ∈ body, s ∉ marks)
    (leaf : ∀ s tok, tok.text ∉ marks → motive (.leaf s tok))
    (head : ∀ s i tok, tok.text ∉ marks → motive (.head s i tok))
    (function : ∀ i cs (r l : Tree), Tree.tokensAll cs =
      Keyword.function :: ((r.tokens ++ Keyword.lparen :: l.tokens) ++ [Keyword.rparen]) →
      motive r → motive l → motive (.branch Symbol.function i cs))
    (branch : ∀ s i cs, s ≠ Symbol.function → (∀ c ∈ cs, motive c) → motive (.branch s i cs))
    {t : Tree} (ht : t.Formed) (hs : t.symbol ∉ marks) : motive t := by
  induction t using Tree.induct with
  | leaf s tok =>
    refine leaf s tok (not_mem_of_classify hmarks ?_)
    rw [(formed_leaf.mp ht).2]
    exact hs
  | head s i tok =>
    refine head s i tok ?_
    rw [(formed_head.mp ht).2.2]
    exact hs
  | branch s i cs ih =>
    obtain ⟨halt, hcs⟩ := formed_branch.mp ht
    by_cases hf : s = Symbol.function
    · subst hf
      obtain ⟨r, l, hr, hl, hrs, hls, htokens⟩ := function_parts ht
      have hnot : ∀ x ∈ [Symbol.return_, Symbol.paramList], x ∉ marks := by
        intro x hx hmark
        have hheads : ∀ x ∈ [Symbol.return_, Symbol.paramList], x ∈ signatureRules.map Rule.head :=
          by decide
        exact keyword_not_head x (hmarks x hmark) (hheads x hx)
      exact function i cs r l htokens (ih r hr (hcs r hr) (by rw [hrs]; exact hnot _ (by simp)))
        (ih l hl (hcs l hl) (by rw [hls]; exact hnot _ (by simp)))
    · obtain ⟨r, hr, rfl, hbody⟩ := exists_rule halt
      have hbody := halts r hr hf _ (List.mem_of_getElem? hbody)
      exact branch _ i cs hf fun c hc => ih c hc (hcs c hc) (hbody _ (List.mem_map_of_mem hc))

/-- what texts keep when they are put together holds of the text of several trees -/
theorem tokensAll_closed {P : List String → Prop} (nil : P [])
    (append : ∀ {ts us}, P ts → P us → P (ts ++ us)) {cs : List Tree} (h : ∀ c ∈ cs, P c.tokens) :
    P (Tree.tokensAll cs) := by
  induction cs with
  | nil => exact nil
  | cons c cs ih =>
    rw [Tree.tokensAll_cons]
    obtain ⟨hc, hcs⟩ := List.forall_mem_cons.mp h
    exact append hc (ih hcs)

/-! ## The tree of each type -/

/-- a tree over the tokens of a type that denotes it -/
structure Tree.Renders (s : Symbol) (ty : Ty) (t : Tree) : Prop
    extends Tree.Shows s ty.tokens t where
  type_eq : Ty.ofTree t = .ok ty

/-- a tree that is written like a type and denotes it -/
structure Tree.Denotes (s : Symbol) (ty : Ty) (t : Tree) : Prop
    extends Tree.Spells s ty.tokens t, Tree.Renders s ty t

theorem Tree.Renders.wrap {s x : Symbol} {i : Nat} {ty : Ty} {t : Tree} (h : t.Renders x ty)
    (halt : (alternatives s)[i]? = some [x]) (hx : x ∈ signatureRules.map Rule.head)
    (hs : s.isWrapper = true) : (Tree.branch s i [t]).Renders s ty := by
  refine ⟨?_, ?_⟩
  · have := shows_branch (l := [(x, ty.tokens)]) halt (.cons h.toShows .nil)
    rw [List.flatMap_singleton] at this
    exact this
  · rw [ofTree_wrap hs (isLeaf_of_formed h.formed (by rw [h.symbol_eq]; exact hx)), h.type_eq]

theorem Tree.Denotes.wrap {s x : Symbol} {i : Nat} {ty : Ty} {t : Tree} (h : t.Denotes x ty)
    (halt : (alternatives s)[i]? = some [x]) (hx : x ∈ signatureRules.map Rule.head)
    (hs : s.isWrapper = true) : (Tree.branch s i [t]).Denotes s ty := by
  have hrenders := h.toRenders.wrap halt hx hs
  refine ⟨⟨hrenders.toShows, ?_⟩, hrenders.type_eq⟩
  rw [Tree.heads, Tree.headsAll_cons, Tree.headsAll_nil, h.heads_eq, List.append_nil]

theorem denotes_arith (k : Kind) :
    ∃ i, (Tree.branch Symbol.arithmetic i [.leaf k.token ⟨k.token, none⟩]).Denotes
      Symbol.arithmetic (.arith k) := by
  obtain ⟨i, halt⟩ : ∃ i : Nat, (alternatives Symbol.arithmetic)[i]? = some [k.token] := by
    cases k
    exacts [⟨0, by decide⟩, ⟨1, by decide⟩, ⟨2, by decide⟩, ⟨3, by decide⟩, ⟨4, by decide⟩,
      ⟨5, by decide⟩, ⟨6, by decide⟩, ⟨7, by decide⟩, ⟨8, by decide⟩, ⟨9, by decide⟩,
      ⟨10, by decide⟩]
  have hk : k.token ∈ signatureKeywords := by cases k <;> decide
  refine ⟨i, ?_, ?_⟩
  · exact spells_branch (l := [(k.token, [k.token])]) halt (.cons (spells_keyword hk) .nil)
  · rw [ofTree_arithmetic, Kind.ofToken?_token]

/-- a type has a tree of a symbol over its tokens -/
def Ty.HasTree (s : Symbol) (ty : Ty) : Prop := ∃ t : Tree, t.Renders s ty

def Ty.HasListTree (tys : List Ty) : Prop :=
  ∃ l : Tree, l.Shows Symbol.typeList (Ty.tokensAll tys) ∧ Ty.ofTypeList l = .ok tys

/-- what stands around a class has one; the name of the class is read for the fault only -/
def ClassTy.HasOuterTree (outer : Option ClassTy) : Prop :=
  ∃ e : Tree, e.Shows Symbol.enclosing (ClassTy.tokensOuter outer) ∧
    ∀ name, ClassTy.ofEnclosing name e = .ok outer

theorem Ty.HasTree.wrap {s x : Symbol} {i : Nat} {ty : Ty} (h : ty.HasTree x)
    (halt : (alternatives s)[i]? = some [x]) (hx : x ∈ signatureRules.map Rule.head)
    (hs : s.isWrapper = true) : ty.HasTree s := by
  obtain ⟨_, ht⟩ := h
  exact ⟨_, ht.wrap halt hx hs⟩

theorem hasTree_void : Ty.HasTree Symbol.type .void := by
  refine ⟨.branch Symbol.type 2 [.leaf Keyword.void ⟨Keyword.void, none⟩], ?_, ?_⟩
  · rw [Ty.tokens]
    exact shows_branch (l := [(Keyword.void, [Keyword.void])]) (by decide)
      (.cons (shows_keyword (by decide)) .nil)
  · rw [Ty.ofTree, if_pos (by decide)]
    rfl

theorem hasTree_arith (k : Kind) : Ty.HasTree Symbol.arithmetic (.arith k) := by
  obtain ⟨_, h⟩ := denotes_arith k
  exact ⟨_, h.toRenders⟩

theorem Ty.HasTree.pointer {e : Ty} (h : e.HasTree Symbol.type) :
    Ty.HasTree Symbol.pointer (.pointer e) := by
  obtain ⟨t, ht⟩ := h
  refine ⟨.branch Symbol.pointer 0 [.leaf Keyword.ptr ⟨Keyword.ptr, none⟩, t], ?_, ?_⟩
  · have := shows_branch (s := Symbol.pointer) (i := 0)
      (l := [(Keyword.ptr, [Keyword.ptr]), (Symbol.type, e.tokens)]) (by rfl)
      (.cons (shows_keyword (by decide)) (.cons ht.toShows .nil))
    rw [Ty.tokens]
    simpa using this
  · rw [ofTree_pointer, ht.type_eq]
    rfl

theorem Ty.HasTree.array {e : Ty} {n : Nat} (h : e.HasTree Symbol.object) (hn : n < 2 ^ 63) :
    Ty.HasTree Symbol.array (.array e n) := by
  obtain ⟨t, ht⟩ := h
  refine ⟨.branch Symbol.array 0 [.leaf Keyword.array ⟨Keyword.array, none⟩,
    .leaf Symbol.num ⟨toString n, none⟩, t], ?_, ?_⟩
  · have hnum : (Tree.leaf Symbol.num ⟨toString n, none⟩).Spells Symbol.num [toString n] :=
      spells_class (by decide) (classify_number (isNumber_toString n))
    have := shows_branch (s := Symbol.array) (i := 0)
      (l := [(Keyword.array, [Keyword.array]), (Symbol.num, [toString n]),
        (Symbol.object, e.tokens)]) (by rfl)
      (.cons (shows_keyword (by decide)) (.cons hnum.toShows (.cons ht.toShows .nil)))
    rw [Ty.tokens]
    simpa using this
  · rw [ofTree_array, word?_toString hn, ht.type_eq]
    rfl

def classTree (name : String) (args around : Tree) : Tree :=
  .branch Symbol.class_ 0 [.leaf Keyword.class_ ⟨Keyword.class_, none⟩,
    .leaf Symbol.ident ⟨name, none⟩, .leaf Keyword.langle ⟨Keyword.langle, none⟩, args,
    .leaf Keyword.rangle ⟨Keyword.rangle, none⟩, around]

theorem formed_classTree {name : String} {l e : Tree}
    (hname : signature.classify name = Symbol.ident) (hl : l.Formed)
    (hls : l.symbol = Symbol.typeList) (he : e.Formed) (hes : e.symbol = Symbol.enclosing) :
    (classTree name l e).Formed := by
  have h1 := (spells_keyword (k := Keyword.class_) (by decide)).formed
  have h2 := (spells_class (s := Symbol.ident) (by decide) hname).formed
  have h3 := (spells_keyword (k := Keyword.langle) (by decide)).formed
  have h5 := (spells_keyword (k := Keyword.rangle) (by decide)).formed
  refine formed_branch.mpr ⟨?_, by simpa using ⟨h1, h2, h3, hl, h5, he⟩⟩
  show (alternatives Symbol.class_)[0]? = some [Keyword.class_, Symbol.ident, Keyword.langle,
    l.symbol, Keyword.rangle, e.symbol]
  rw [hls, hes]
  decide

theorem hasTree_class {name : String} {args : List Ty} {outer : Option ClassTy}
    (hname : signature.classify name = Symbol.ident) (hargs : Ty.HasListTree args)
    (houter : ClassTy.HasOuterTree outer) :
    Ty.HasTree Symbol.class_ (.cls (.mk name args outer)) := by
  obtain ⟨l, hl, hargs⟩ := hargs
  obtain ⟨e, he, houter⟩ := houter
  refine ⟨classTree name l e, ?_, ?_⟩
  · have hident := (spells_class (s := Symbol.ident) (by decide) hname).toShows
    have := shows_branch (s := Symbol.class_) (i := 0)
      (l := [(Keyword.class_, [Keyword.class_]), (Symbol.ident, [name]),
        (Keyword.langle, [Keyword.langle]), (Symbol.typeList, Ty.tokensAll args),
        (Keyword.rangle, [Keyword.rangle]), (Symbol.enclosing, ClassTy.tokensOuter outer)])
      (by rfl) (.cons (shows_keyword (by decide)) (.cons hident
        (.cons (shows_keyword (by decide)) (.cons hl (.cons (shows_keyword (by decide))
          (.cons he .nil))))))
    rw [Ty.tokens, ClassTy.tokens]
    unfold classTree
    simpa using this
  · rw [classTree, ofTree_class, ClassTy.ofParts, hargs]
    simp only [houter]
    rfl

theorem Ty.HasListTree.list {es : List Ty} (h : Ty.HasListTree es) :
    Ty.HasTree Symbol.list (.list es) := by
  obtain ⟨l, hl, hes⟩ := h
  refine ⟨.branch Symbol.list 0 [.leaf Keyword.list ⟨Keyword.list, none⟩,
    .leaf Keyword.langle ⟨Keyword.langle, none⟩, l,
    .leaf Keyword.rangle ⟨Keyword.rangle, none⟩], ?_, ?_⟩
  · have := shows_branch (s := Symbol.list) (i := 0)
      (l := [(Keyword.list, [Keyword.list]), (Keyword.langle, [Keyword.langle]),
        (Symbol.typeList, Ty.tokensAll es), (Keyword.rangle, [Keyword.rangle])]) (by rfl)
      (.cons (shows_keyword (by decide)) (.cons (shows_keyword (by decide))
        (.cons hl (.cons (shows_keyword (by decide)) .nil))))
    rw [Ty.tokens]
    simpa using this
  · rw [ofTree_list, hes]
    rfl

theorem function_cases {t : Tree} (ht : t.Formed) (hs : t.symbol = Symbol.function) :
    (∃ i tok, t = .head Symbol.function i tok) ∨ ∃ i cs, t = .branch Symbol.function i cs := by
  cases t with
  | leaf s tok =>
    have hs : s = Symbol.function := hs
    exact absurd (by rw [hs]; decide) (formed_leaf.mp ht).1
  | branch s i cs =>
    have hs : s = Symbol.function := hs
    exact .inr ⟨i, cs, by rw [hs]⟩
  | head s i tok =>
    have hs : s = Symbol.function := hs
    exact .inl ⟨i, tok, by rw [hs]⟩

theorem Tree.Shows.function {ts : List String} {i : Nat} {cs : List Tree}
    (h : (Tree.branch Symbol.function i cs).Shows Symbol.function ts) :
    (Tree.branch Symbol.function i cs).Renders Symbol.function (.function ts) := by
  have htokens : Tree.tokensAll cs = ts := by
    have := Tree.texts_yield (.branch Symbol.function i cs)
    rw [h.yield_eq, Tree.tokens] at this
    exact this.symm.trans (Binding.texts_ofTexts ts)
  refine ⟨by rw [Ty.tokens]; exact h, ?_⟩
  rw [ofTree_function, htokens]

theorem denotes_function {ts : List String}
    (hrec : signature.recognize ts Symbol.function = true)
    (hfree : ∀ t ∈ ts, t ∉ signatureWildcards) :
    ∃ t : Tree, t.Denotes Symbol.function (.function ts) := by
  obtain ⟨t, ht⟩ := recognize_eq_true_iff.mp hrec
  obtain ⟨hf, hs, hy⟩ := (parsePlain_eq_some_iff (by decide)).mp ht
  have hspells := Tree.Shows.spells ⟨hf, hs, hy⟩ (by decide) hfree
  obtain ⟨i, tok, rfl⟩ | ⟨i, cs, rfl⟩ := function_cases hf hs
  · have hheads := hspells.heads_eq
    rw [Tree.heads] at hheads
    cases hheads
  · exact ⟨_, by rw [Ty.tokens]; exact hspells, hspells.toShows.function.type_eq⟩

theorem hasListTree_nil : Ty.HasListTree [] := by
  refine ⟨.branch Symbol.typeList 1 [], ?_, ?_⟩
  · rw [Ty.tokensAll]
    exact shows_branch (l := []) (by decide) .nil
  · rw [Ty.ofTypeList]
    intro _ _ _ _ h
    cases h

theorem Ty.HasListTree.cons {ty : Ty} {tys : List Ty} (h : ty.HasTree Symbol.type)
    (hs : Ty.HasListTree tys) : Ty.HasListTree (ty :: tys) := by
  obtain ⟨t, ht⟩ := h
  obtain ⟨l, hl, htys⟩ := hs
  refine ⟨.branch Symbol.typeList 0 [t, l], ?_, ?_⟩
  · have := shows_branch (s := Symbol.typeList) (i := 0)
      (l := [(Symbol.type, ty.tokens), (Symbol.typeList, Ty.tokensAll tys)]) (by rfl)
      (.cons ht.toShows (.cons hl .nil))
    rw [Ty.tokensAll]
    simpa using this
  · rw [Ty.ofTypeList, ht.type_eq]
    simp only [htys]
    rfl

theorem hasOuterTree_none : ClassTy.HasOuterTree none := by
  refine ⟨.branch Symbol.enclosing 1 [], ?_, fun n => ?_⟩
  · rw [ClassTy.tokensOuter]
    exact shows_branch (l := []) (by decide) .nil
  · rw [ClassTy.ofEnclosing]
    intro _ _ _ _ h
    cases h

theorem Ty.HasTree.outer {c : ClassTy} (h : Ty.HasTree Symbol.class_ (.cls c)) :
    ClassTy.HasOuterTree (some c) := by
  obtain ⟨t, ht⟩ := h
  refine ⟨.branch Symbol.enclosing 0 [.leaf Keyword.in_ ⟨Keyword.in_, none⟩, t], ?_,
    fun _ => (ofEnclosing_eq_ok ht.formed ht.symbol_eq).mpr ⟨c, ht.type_eq, rfl⟩⟩
  have hshows := ht.toShows
  rw [Ty.tokens] at hshows
  have := shows_branch (s := Symbol.enclosing) (i := 0)
    (l := [(Keyword.in_, [Keyword.in_]), (Symbol.class_, c.tokens)]) (by rfl)
    (.cons (shows_keyword (by decide)) (.cons hshows .nil))
  rw [ClassTy.tokensOuter]
  simpa using this

/-! ## The trees of well-formed types -/

theorem free_keyword {k : String} (hk : k ∈ signatureKeywords) : k ∉ signatureWildcards :=
  (keyword_ne k hk).1

theorem free_of_classify {t : String} {s : Symbol} (ht : signature.classify t = s)
    (hs : s = Symbol.num ∨ s = Symbol.ident) : t ∉ signatureWildcards := by
  intro hw
  have hne := headOf_ne t hw
  rw [classify_wildcard hw] at ht
  rcases hs with rfl | rfl
  · exact hne.2.1 ht
  · exact hne.2.2.1 ht

mutual
theorem free_tokens : ∀ ty : Ty, ty.WellFormed → ∀ x ∈ ty.tokens, x ∉ signatureWildcards
  | .arith k, _ => by
    rw [Ty.tokens]
    exact List.forall_mem_singleton.mpr (free_keyword (by cases k <;> decide))
  | .void, _ => by
    rw [Ty.tokens]
    exact List.forall_mem_singleton.mpr (free_keyword (by decide))
  | .pointer e, h => by
    rw [Ty.WellFormed] at h
    rw [Ty.tokens]
    exact List.forall_mem_cons.mpr ⟨free_keyword (by decide), free_tokens e h⟩
  | .array e n, h => by
    rw [Ty.WellFormed] at h
    simp only [Ty.tokens, List.forall_mem_cons]
    exact ⟨free_keyword (by decide),
      free_of_classify (classify_number (isNumber_toString n)) (.inl rfl), free_tokens e h.1⟩
  | .cls c, h => by
    rw [Ty.WellFormed] at h
    rw [Ty.tokens]
    exact free_tokensClass c h
  | .function ts, h => by
    rw [Ty.WellFormed] at h
    rw [Ty.tokens]
    exact h.2
  | .list es, h => by
    rw [Ty.WellFormed] at h
    simp only [Ty.tokens, List.forall_mem_cons, List.forall_mem_append]
    exact ⟨free_keyword (by decide), free_keyword (by decide), free_tokensAll es h,
      free_keyword (by decide), List.forall_mem_nil _⟩

theorem free_tokensClass : ∀ c : ClassTy, c.WellFormed → ∀ x ∈ c.tokens, x ∉ signatureWildcards
  | .mk name args outer, h => by
    rw [ClassTy.WellFormed] at h
    simp only [ClassTy.tokens, List.forall_mem_cons, List.forall_mem_append]
    exact ⟨free_keyword (by decide), free_of_classify h.1 (.inr rfl), free_keyword (by decide),
      free_tokensAll args h.2.1, free_keyword (by decide), free_tokensOuter outer h.2.2⟩

theorem free_tokensAll : ∀ tys : List Ty, Ty.WellFormedAll tys →
    ∀ x ∈ Ty.tokensAll tys, x ∉ signatureWildcards
  | [], _ => by
    rw [Ty.tokensAll]
    exact List.forall_mem_nil _
  | ty :: tys, h => by
    rw [Ty.WellFormedAll] at h
    rw [Ty.tokensAll]
    exact List.forall_mem_append.mpr ⟨free_tokens ty h.1, free_tokensAll tys h.2⟩

theorem free_tokensOuter : ∀ outer : Option ClassTy, ClassTy.WellFormedOuter outer →
    ∀ x ∈ ClassTy.tokensOuter outer, x ∉ signatureWildcards
  | none, _ => by
    rw [ClassTy.tokensOuter]
    exact List.forall_mem_nil _
  | some c, h => by
    rw [ClassTy.WellFormedOuter] at h
    rw [ClassTy.tokensOuter]
    exact List.forall_mem_cons.mpr ⟨free_keyword (by decide), free_tokensClass c h⟩
end

theorem hasTree_object {x : Symbol} {i : Nat} {ty : Ty} (h : ty.HasTree x)
    (halt : (alternatives Symbol.object)[i]? = some [x]) (hx : x ∈ signatureRules.map Rule.head) :
    (ty.isObject = true → ty.HasTree Symbol.object) ∧ ty.HasTree Symbol.type := by
  have hobject := h.wrap halt hx (by decide)
  exact ⟨fun _ => hobject, hobject.wrap (i := 0) (by decide) (by decide) (by decide)⟩

mutual
theorem hasTree_of_wellFormed : ∀ ty : Ty, ty.WellFormed →
    (ty.isObject = true → ty.HasTree Symbol.object) ∧ ty.HasTree Symbol.type
  | .arith k, _ => hasTree_object (i := 0) (hasTree_arith k) (by decide) (by decide)
  | .pointer e, h => by
    rw [Ty.WellFormed] at h
    exact hasTree_object (i := 1) (hasTree_of_wellFormed e h).2.pointer (by decide) (by decide)
  | .array e n, h => by
    rw [Ty.WellFormed] at h
    have he := (hasTree_of_wellFormed e h.1).1 h.2.1
    exact hasTree_object (i := 2) (he.array h.2.2) (by decide) (by decide)
  | .cls c, h => by
    rw [Ty.WellFormed] at h
    exact hasTree_object (i := 3) (hasClassTree c h) (by decide) (by decide)
  | .function ts, h => by
    rw [Ty.WellFormed] at h
    obtain ⟨t, ht⟩ := denotes_function h.1 h.2
    exact ⟨nofun, Ty.HasTree.wrap (i := 1) ⟨t, ht.toRenders⟩ (by decide) (by decide) (by decide)⟩
  | .void, _ => ⟨nofun, hasTree_void⟩
  | .list es, h => by
    rw [Ty.WellFormed] at h
    exact hasTree_object (i := 4) (hasListTree es h).list (by decide) (by decide)

theorem hasClassTree : ∀ c : ClassTy, c.WellFormed → Ty.HasTree Symbol.class_ (.cls c)
  | .mk name args outer, h => by
    rw [ClassTy.WellFormed] at h
    exact hasTree_class h.1 (hasListTree args h.2.1) (hasOuterTree outer h.2.2)

theorem hasListTree : ∀ tys : List Ty, Ty.WellFormedAll tys → Ty.HasListTree tys
  | [], _ => hasListTree_nil
  | ty :: tys, h => by
    rw [Ty.WellFormedAll] at h
    exact .cons (hasTree_of_wellFormed ty h.1).2 (hasListTree tys h.2)

theorem hasOuterTree : ∀ outer : Option ClassTy, ClassTy.WellFormedOuter outer →
    ClassTy.HasOuterTree outer
  | none, _ => hasOuterTree_none
  | some c, h => by
    rw [ClassTy.WellFormedOuter] at h
    exact (hasClassTree c h).outer
end

def Ty.HasTrees (ty : Ty) : Prop :=
  (ty.isObject = true → ∃ t : Tree, t.Denotes Symbol.object ty) ∧
    ∃ t : Tree, t.Denotes Symbol.type ty

theorem hasTrees (ty : Ty) (h : ty.WellFormed) : ty.HasTrees := by
  have hclosed : ∀ {s : Symbol}, s ∈ signatureRules.map Rule.head → ty.HasTree s →
      ∃ t : Tree, t.Denotes s ty := by
    rintro s hs ⟨t, ht⟩
    exact ⟨t, ht.toShows.spells hs (free_tokens ty h), ht.type_eq⟩
  obtain ⟨hobject, htype⟩ := hasTree_of_wellFormed ty h
  exact ⟨fun ho => hclosed (by decide) (hobject ho), hclosed (by decide) htype⟩

/-! ## What formed trees denote -/

theorem wrapper_of_single : ∀ r ∈ signatureRules, ∀ body ∈ r.alts, body.length = 1 →
    (∀ z ∈ body, z ∈ signatureRules.map Rule.head) → r.head.isWrapper = true := by
  decide

theorem ofTree_unwrap {t : Tree} (ht : t.Formed) : Ty.ofTree t.unwrap = Ty.ofTree t := by
  refine Tree.unwrap_rec (P := fun t u => t.Formed → Ty.ofTree u = Ty.ofTree t)
    (fun _ _ => rfl) ?_ t ht
  intro s i c u hleaf ih hbranch
  obtain ⟨halt, hcs⟩ := formed_branch.mp hbranch
  have hc := hcs c List.mem_cons_self
  obtain ⟨r, hr, rfl, hbody⟩ := exists_rule halt
  have hw : r.head.isWrapper = true := by
    refine wrapper_of_single r hr _ (List.mem_of_getElem? hbody) rfl fun z hz => ?_
    rw [List.map_singleton, List.mem_singleton] at hz
    rw [hz]
    exact formed_symbol_mem hc hleaf
  rw [ih hc, ofTree_wrap hw hleaf]

theorem isFunction_of_branch {s : Symbol} {i : Nat} {cs : List Tree} {ty : Ty}
    (hw : s.isWrapper = false) (hs : s ≠ Symbol.function)
    (h : Ty.ofTree (.branch s i cs) = .ok ty) : ty.isFunction = false := by
  have hmap : ∀ {α : Type} {x : Except Fault α} {f : α → Ty}, x.map f = .ok ty →
      ∃ a, ty = f a := by
    intro α x f hx
    cases x with
    | error e => cases hx
    | ok a => exact ⟨a, (Except.ok.inj hx).symm⟩
  rw [Ty.ofTree.eq_def] at h
  dsimp only at h
  rw [if_neg (by rw [hw]; exact Bool.false_ne_true)] at h
  split at h
  · split at h
    · split at h
      · cases h; rfl
      · cases h
    · cases h
  split at h
  · split at h
    · obtain ⟨a, rfl⟩ := hmap h; rfl
    · cases h
  split at h
  · split at h
    · split at h
      · obtain ⟨a, rfl⟩ := hmap h; rfl
      · cases h
    · cases h
  split at h
  · split at h
    · split at h
      · cases h
      split at h
      · cases h
      · cases h; rfl
    · cases h
  split at h
  · split at h
    · obtain ⟨a, rfl⟩ := hmap h; rfl
    · cases h
  split at h
  · next hf => exact absurd (by simpa using hf) hs
  · cases h

theorem object_alternatives : ∀ body ∈ alternatives Symbol.object,
    ∃ x ∈ signatureRules.map Rule.head, body = [x] ∧ x.isWrapper = false ∧ x ≠ Symbol.function := by
  decide

theorem isFunction_of_ofTree {t : Tree} (ht : t.Formed) {ty : Ty} (h : Ty.ofTree t = .ok ty) :
    (t.symbol = Symbol.object → ty.isFunction = false) ∧
      (t.symbol = Symbol.function → ty.isFunction = true) := by
  constructor
  · intro hs
    cases t with
    | leaf s tok => rw [Ty.ofTree] at h; cases h
    | head s i tok => rw [Ty.ofTree] at h; cases h
    | branch s i cs =>
      have hs : s = Symbol.object := hs
      subst hs
      obtain ⟨halt, hcs⟩ := formed_branch.mp ht
      obtain ⟨x, hx, hbody, hw, hne⟩ := object_alternatives _ (List.mem_of_getElem? halt)
      obtain ⟨c, rfl⟩ : ∃ c, cs = [c] := List.length_eq_one_iff.mp (by
        simpa using congrArg List.length hbody)
      have hsym : c.symbol = x := by simpa using hbody
      have hc := hcs c List.mem_cons_self
      rw [ofTree_wrap (by decide) (isLeaf_of_formed hc (by rw [hsym]; exact hx))] at h
      cases c with
      | leaf s tok => rw [Ty.ofTree] at h; cases h
      | head s i tok => rw [Ty.ofTree] at h; cases h
      | branch s i cs =>
        have hsym : s = x := hsym
        rw [← hsym] at hw hne
        exact isFunction_of_branch hw hne h
  · intro hs
    obtain ⟨i, tok, rfl⟩ | ⟨i, cs, rfl⟩ := function_cases ht hs
    · rw [Ty.ofTree] at h; cases h
    · rw [ofTree_function] at h
      cases h
      rfl

end Overloading
