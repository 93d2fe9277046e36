import Overloading.Proofs.SignatureGrammar

/-!
# The trees of signatures

`Tree.Formed` are the derivation trees of the rules of signatures.  One equivalence for each kind
of node says what a formed tree is at its root, so that trees are built and taken apart by
rewriting (`formed_leaf`, `formed_head`, `formed_branch`); `alternatives` lists what a
nonterminal may expand to.

The vocabulary is settled by running the classifier's tables: which tokens are keywords, and that
a token is classified as a keyword or as a head only if it is written so.
-/

namespace Overloading

/-- a derivation tree of the rules of signatures -/
def Tree.Formed (t : Tree) : Prop :=
  t.Derived Grammar.signatureRules Grammar.signatureWildcards Grammar.signature.classify

namespace Grammar

/-! ## The rules -/

/-- what a nonterminal of signatures may expand to -/
def alternatives (s : Symbol) : List (List Symbol) :=
  ((signatureRules.find? fun r => r.head == s).map Rule.alts).getD []

theorem find_signatureRules :
    ∀ r ∈ signatureRules, signatureRules.find? (fun q => q.head == r.head) = some r := by
  decide

theorem alternatives_head {r : Rule} (hr : r ∈ signatureRules) : alternatives r.head = r.alts := by
  unfold alternatives
  rw [find_signatureRules r hr]
  rfl

theorem exists_rule {s : Symbol} {i : Nat} {body : List Symbol}
    (h : (alternatives s)[i]? = some body) :
    ∃ r ∈ signatureRules, r.head = s ∧ r.alts[i]? = some body := by
  unfold alternatives at h
  cases hf : signatureRules.find? fun r => r.head == s with
  | none => rw [hf] at h; simp at h
  | some r =>
    rw [hf] at h
    exact ⟨r, List.mem_of_find?_eq_some hf, by simpa using List.find?_some hf, h⟩

theorem headOf_not_mem_heads :
    ∀ r ∈ signatureRules, Symbol.headOf r.head ∉ signatureRules.map Rule.head := by
  decide

/-- no head stands in an alternative -/
theorem headOf_not_mem_alts :
    ∀ r ∈ signatureRules, ∀ body ∈ r.alts, ∀ s ∈ body, ∀ w ∈ signatureWildcards,
      s ≠ Symbol.headOf w := by
  decide

theorem wildcards_mem_heads : ∀ w ∈ signatureWildcards, w ∈ signatureRules.map Rule.head := by
  decide

/-! ## Formed trees -/

theorem formed_leaf {s : Symbol} {t : Token} :
    (Tree.leaf s t).Formed ↔
      s ∉ signatureRules.map Rule.head ∧ signature.classify t.text = s := by
  constructor
  · intro h
    cases h with
    | leaf hs hc => exact ⟨hs, hc⟩
  · rintro ⟨hs, hc⟩
    exact .leaf hs hc

theorem formed_branch {s : Symbol} {i : Nat} {cs : List Tree} :
    (Tree.branch s i cs).Formed ↔
      (alternatives s)[i]? = some (cs.map Tree.symbol) ∧ ∀ c ∈ cs, c.Formed := by
  constructor
  · intro h
    cases h with
    | branch hr halt hcs =>
      rw [alternatives_head hr]
      exact ⟨halt, hcs⟩
    | defined hr _ hn => exact absurd hn (headOf_not_mem_heads _ hr)
  · rintro ⟨halt, hcs⟩
    obtain ⟨r, hr, rfl, hbody⟩ := exists_rule halt
    exact .branch hr hbody hcs

theorem formed_single {s : Symbol} {i : Nat} {c : Tree}
    (halt : (alternatives s)[i]? = some [c.symbol]) (hc : c.Formed) :
    (Tree.branch s i [c]).Formed := formed_branch.mpr ⟨halt, List.forall_mem_singleton.mpr hc⟩

theorem formed_head_classify {s : Symbol} {i : Nat} {t : Token} :
    (Tree.head s i t).Formed ↔
      s ∈ signatureWildcards ∧ i = (alternatives s).length ∧
        signature.classify t.text = Symbol.headOf s := by
  constructor
  · intro h
    cases h with
    | head hr hw _ hc =>
      rw [alternatives_head hr]
      exact ⟨hw, rfl, hc⟩
  · rintro ⟨hw, rfl, hc⟩
    obtain ⟨r, hr, rfl⟩ := List.mem_map.mp (wildcards_mem_heads s hw)
    rw [alternatives_head hr]
    exact .head hr hw (headOf_not_mem_heads r hr) hc

/-! ## The vocabulary -/

def signatureKeywords : List String :=
  [Keyword.void, Keyword.ptr, Keyword.array, Keyword.class_, Keyword.in_, Keyword.list,
    Keyword.function, Keyword.lref, Keyword.clref, Keyword.langle, Keyword.rangle,
    Keyword.lparen, Keyword.rparen] ++ Kind.all.map Kind.token

theorem mem_keywordsOf_signature (t : String) :
    t ∈ keywordsOf (signatureRules.map Rule.head)
        (productionsOf signatureWildcards signatureRules) ↔ t ∈ signatureKeywords := by
  have h1 : ∀ k ∈ keywordsOf (signatureRules.map Rule.head)
      (productionsOf signatureWildcards signatureRules), k ∈ signatureKeywords := by decide
  have h2 : ∀ k ∈ signatureKeywords, k ∈ keywordsOf (signatureRules.map Rule.head)
      (productionsOf signatureWildcards signatureRules) := by decide
  exact ⟨h1 t, h2 t⟩

theorem mayBeWildcard_signature {t : String} :
    signature.mayBeWildcard t = true ↔ t ∈ signatureWildcards := by
  unfold mayBeWildcard
  rw [compiled_signature.wildcardable_eq]
  simp

theorem isKeyword_signature {t : String} :
    signature.keywords.contains t = true ↔ t ∈ signatureKeywords := by
  rw [compiled_signature.keywords_eq, compiled_signature.nonterminals_eq,
    compiled_signature.productions_eq, ← mem_keywordsOf_signature]
  simp

theorem classify_cases (t : String) :
    (t ∈ signatureWildcards ∧ signature.classify t = Symbol.headOf t) ∨
    (t ∉ signatureWildcards ∧ t ∈ signatureKeywords ∧ signature.classify t = t) ∨
    (t ∉ signatureWildcards ∧ t ∉ signatureKeywords ∧ Text.isNumber t = true ∧
      signature.classify t = Symbol.num) ∨
    (t ∉ signatureWildcards ∧ t ∉ signatureKeywords ∧ Text.isNumber t = false ∧
      signature.classify t = Symbol.ident) ∨
    (t ∉ signatureWildcards ∧ t ∉ signatureKeywords ∧ Text.isNumber t = false ∧
      signature.classify t = "") := by
  by_cases hw : t ∈ signatureWildcards
  · refine .inl ⟨hw, ?_⟩
    unfold classify
    rw [if_pos (mayBeWildcard_signature.mpr hw)]
  refine .inr ?_
  have hw' : ¬ signature.mayBeWildcard t = true := fun h => hw (mayBeWildcard_signature.mp h)
  by_cases hk : t ∈ signatureKeywords
  · refine .inl ⟨hw, hk, ?_⟩
    unfold classify
    rw [if_neg hw', if_pos (isKeyword_signature.mpr hk)]
  refine .inr ?_
  have hk' : ¬ signature.keywords.contains t = true := fun h => hk (isKeyword_signature.mp h)
  by_cases hn : Text.isNumber t = true
  · refine .inl ⟨hw, hk, hn, ?_⟩
    unfold classify
    rw [if_neg hw', if_neg hk', if_pos hn]
  refine .inr ?_
  have hn' : Text.isNumber t = false := by simpa using hn
  by_cases hi : (Text.isName t && !signature.isNonterminal t) = true
  · refine .inl ⟨hw, hk, hn', ?_⟩
    unfold classify
    rw [if_neg hw', if_neg hk', if_neg hn, if_pos hi]
  · refine .inr ⟨hw, hk, hn', ?_⟩
    unfold classify
    rw [if_neg hw', if_neg hk', if_neg hn, if_neg hi]

theorem headOf_inj {a b : Symbol} (h : Symbol.headOf a = Symbol.headOf b) : a = b := by
  unfold Symbol.headOf at h
  have := congrArg String.toList h
  rw [String.toList_append, String.toList_append] at this
  exact String.toList_inj.mp (List.append_cancel_left this)

theorem headOf_ne : ∀ w ∈ signatureWildcards, Symbol.headOf w ∉ signatureKeywords ∧
    Symbol.headOf w ≠ Symbol.num ∧ Symbol.headOf w ≠ Symbol.ident ∧ Symbol.headOf w ≠ "" := by
  decide

theorem keyword_ne : ∀ k ∈ signatureKeywords, k ∉ signatureWildcards ∧ k ≠ Symbol.num ∧
    k ≠ Symbol.ident ∧ k ≠ "" ∧ Text.isNumber k = false := by
  decide

theorem wildcard_not_number : ∀ w ∈ signatureWildcards, Text.isNumber w = false := by
  decide

theorem classify_wildcard {t : String} (h : t ∈ signatureWildcards) :
    signature.classify t = Symbol.headOf t := by
  rcases classify_cases t with ⟨_, e⟩ | ⟨hn, _⟩ | ⟨hn, _⟩ | ⟨hn, _⟩ | ⟨hn, _⟩
  · exact e
  all_goals exact absurd h hn

theorem classify_keyword {t : String} (h : t ∈ signatureKeywords) :
    signature.classify t = t := by
  rcases classify_cases t with ⟨hw, _⟩ | ⟨_, _, e⟩ | ⟨_, hn, _⟩ | ⟨_, hn, _⟩ | ⟨_, hn, _⟩
  · exact absurd hw (keyword_ne t h).1
  · exact e
  all_goals exact absurd h hn

theorem classify_number {t : String} (h : Text.isNumber t = true) :
    signature.classify t = Symbol.num := by
  rcases classify_cases t with ⟨hw, _⟩ | ⟨_, hk, _⟩ | ⟨_, _, _, e⟩ | ⟨_, _, hn, _⟩ | ⟨_, _, hn, _⟩
  · rw [wildcard_not_number t hw] at h; cases h
  · rw [(keyword_ne t hk).2.2.2.2] at h; cases h
  · exact e
  all_goals rw [hn] at h; cases h

theorem classify_name {t : String} (hw : t ∉ signatureWildcards) (hk : t ∉ signatureKeywords)
    (hn : Text.isNumber t = false) (hname : Text.isName t = true)
    (hs : t ∉ signatureRules.map Rule.head) : signature.classify t = Symbol.ident := by
  have hw : ¬ signature.mayBeWildcard t = true := fun h => hw (mayBeWildcard_signature.mp h)
  have hk : ¬ signature.keywords.contains t = true := fun h => hk (isKeyword_signature.mp h)
  have hs : signature.isNonterminal t = false := by
    rw [Bool.eq_false_iff]
    exact fun h => hs (compiled_signature.isNonterminal_iff.mp h)
  unfold classify
  rw [if_neg hw, if_neg hk, hn, hname, hs]
  rfl

theorem classify_eq_headOf {t : String} {s : Symbol} (hs : s ∈ signatureWildcards) :
    signature.classify t = Symbol.headOf s ↔ t = s := by
  constructor
  · intro h
    obtain ⟨hk, hnum, hident, hempty⟩ := headOf_ne s hs
    rcases classify_cases t with
      ⟨_, e⟩ | ⟨_, ht, e⟩ | ⟨_, _, _, e⟩ | ⟨_, _, _, e⟩ | ⟨_, _, _, e⟩ <;> rw [h] at e
    · exact (headOf_inj e).symm
    · exact absurd (e ▸ ht) hk
    · exact absurd e hnum
    · exact absurd e hident
    · exact absurd e hempty
  · rintro rfl
    exact classify_wildcard hs

theorem classify_eq_keyword {t k : String} (hk : k ∈ signatureKeywords) :
    signature.classify t = k ↔ t = k := by
  constructor
  · intro h
    obtain ⟨_, hnum, hident, hempty, _⟩ := keyword_ne k hk
    rcases classify_cases t with
      ⟨hw, e⟩ | ⟨_, _, e⟩ | ⟨_, _, _, e⟩ | ⟨_, _, _, e⟩ | ⟨_, _, _, e⟩ <;> rw [h] at e
    · exact absurd (e ▸ hk) (headOf_ne t hw).1
    · exact e.symm
    · exact absurd e hnum
    · exact absurd e hident
    · exact absurd e hempty
  · rintro rfl
    exact classify_keyword hk

theorem formed_head {s : Symbol} {i : Nat} {t : Token} :
    (Tree.head s i t).Formed ↔
      s ∈ signatureWildcards ∧ i = (alternatives s).length ∧ t.text = s := by
  rw [formed_head_classify]
  exact and_congr_right fun hs => and_congr_right fun _ => classify_eq_headOf hs

theorem formed_symbol_mem {t : Tree} (ht : t.Formed) (hleaf : t.isLeaf = false) :
    t.symbol ∈ signatureRules.map Rule.head := by
  cases t with
  | leaf s tok => cases hleaf
  | branch s i cs =>
    obtain ⟨r, hr, rfl, _⟩ := exists_rule (formed_branch.mp ht).1
    exact List.mem_map_of_mem hr
  | head s i tok => exact wildcards_mem_heads s (formed_head.mp ht).1

theorem formed_keyword {k : String} (hk : k ∈ signatureKeywords) {t : Token} :
    (Tree.leaf k t).Formed ↔ t.text = k := by
  have hnot : ∀ k ∈ signatureKeywords, k ∉ signatureRules.map Rule.head := by decide
  rw [formed_leaf, classify_eq_keyword hk]
  exact and_iff_right (hnot k hk)

/-! ## Wildcards in formed trees -/

/-- a terminal of an alternative is never the class of a wildcardable name -/
theorem text_not_mem_wildcards {t : Token} {s : Symbol}
    (hs : ∀ w ∈ signatureWildcards, s ≠ Symbol.headOf w) (h : (Tree.leaf s t).Formed) :
    t.text ∉ signatureWildcards := by
  intro hw
  have hc := (formed_leaf.mp h).2
  rw [classify_wildcard hw] at hc
  exact hs _ hw hc.symm

end Grammar

end Overloading
