import Overloading.Proofs.PlainDeclarations

/-!
# When two texts are one type

Two texts can be compared in two ways: their trees are matched, leaf by leaf as they are written,
or both are read to types, and these are compared.  A text has one tree only, so trees without
wildcards match just if the texts are the same.  A type keeps all of the text that it is read from
but the zeros in front of array sizes; within a function form it keeps these as well.

* `admits_closed`     what matching says of two texts without wildcards;
* `readType_eq_iff`   what reading says of them;
* `type_identity`     the two agree on texts without such zeros, and on texts with them only if
                      both are the same, or not even the same without the zeros.
-/

namespace Overloading

open Grammar Overloading.Text

variable {s t : List String} {u v : Ty}

/-! ## Matching -/

theorem prepareBody_free (strict : Bool) (hspoken : ∀ x ∈ s, Spoken x)
    (hfree : ∀ x ∈ s, x ∉ signatureWildcards) :
    signature.prepareBody s strict = .ok ⟨[], Binding.ofTexts s⟩ := by
  cases s with
  | nil => rfl
  | cons k src => exact prepareBody_closed hspoken hfree

theorem compile_of_spells (strict : Bool) {start : Symbol} (hstart : start ∈ signatureWildcards)
    {root : Tree} (h : root.Spells start s) :
    signature.compile s start strict = .ok ⟨s, [], Binding.ofTexts s, start, root⟩ := by
  have hsymbol : ∀ x ∈ signatureWildcards, x ≠ "" ∧ x ∈ signatureRules.map Rule.head := by decide
  obtain ⟨hne, hmem⟩ := hsymbol start hstart
  have hpre := prepareBody_free strict (h.spoken hne) (h.free hmem)
  exact compile_of_formed s strict ⟨[], Binding.ofTexts s⟩ hstart hpre h.formed h.symbol_eq
    h.yield_eq

theorem unify_closed {start : Symbol} (hstart : start ∈ signatureWildcards) {actual formal : Tree}
    (ha : actual.Spells start s) (hf : formal.Spells start t) (b : Bindings) :
    unify actual formal b = if s = t then some b else none := by
  have hord : Tree.Ordinary actual.symbol := by
    rw [ha.symbol_eq]
    exact Tree.ordinary_wildcard hstart
  by_cases hsame : s = t
  · subst hsame
    rw [if_pos rfl]
    obtain rfl : actual = formal := derives_unique compiled_signature hstart
      ⟨ha.formed, ha.symbol_eq, ha.yield_eq⟩ ⟨hf.formed, hf.symbol_eq, hf.yield_eq⟩
    obtain ⟨b', hb'⟩ := unify_self hf.formed hf.heads_eq b
    exact unify_binds_nothing ha.formed hord hf.heads_eq hb'
  · rw [if_neg hsame]
    cases hu : unify actual formal b with
    | none => rfl
    | some b' =>
      have hreads := (unify_solves ha.formed ha.plain hu).reads
      rw [substitute_plain hf.heads_eq, hf.tokens_eq, ha.tokens_eq] at hreads
      exact absurd (Option.some.inj hreads).symm hsame

theorem isFunctionForm_unwrap {root : Tree} (hroot : root.Formed) (h : Ty.ofTree root = .ok u)
    (hu : u.isFunction = false) : root.unwrap.isFunctionForm = false := by
  rw [← ofTree_unwrap hroot] at h
  cases hunwrap : root.unwrap with
  | leaf | head => rfl
  | branch s i cs =>
    rw [hunwrap] at h
    by_contra hform
    obtain rfl : s = Symbol.function := by simpa [Tree.isFunctionForm] using hform
    rw [ofTree_function] at h
    cases h
    cases hu

/-- **Matching two types** that are written without wildcards compares their texts. -/
theorem admits_closed (m : CastRules) (strict strict' : Bool)
    (hs : ∀ x ∈ s, x ∉ signatureWildcards) (ht : ∀ x ∈ t, x ∉ signatureWildcards)
    (hu : signature.readType s = .ok u) (hv : signature.readType t = .ok v)
    (hfun : u.isFunction = false) :
    ∃ sub sup, signature.compile s Symbol.type strict = .ok sub ∧
      signature.compile t Symbol.type strict' = .ok sup ∧
      m.admits sub sup [] = .ok (if s = t then some ⟨[], [], none⟩ else none) := by
  have hstart : Symbol.type ∈ signatureWildcards := by decide
  obtain ⟨a, hparse, hty⟩ := readType_eq_ok.mp hu
  obtain ⟨f, hparse', -⟩ := readType_eq_ok.mp hv
  have ha := closed_of_parsePlain hstart hs hparse
  have hf := closed_of_parsePlain hstart ht hparse'
  refine ⟨_, _, compile_of_spells strict hstart ha, compile_of_spells strict' hstart hf, ?_⟩
  have hform : (Signature.mk s [] (Binding.ofTexts s) Symbol.type a).isFunction = false :=
    isFunctionForm_unwrap ha.formed hty hfun
  rw [admits_of_not_call m (by rw [hform, Bool.false_and]), unify_closed hstart ha hf]
  split <;> rfl

/-! ## Reading -/

/-- **Reading two types** compares their texts without the zeros in front of array sizes. -/
theorem readType_eq_iff (hs : ∀ x ∈ s, x ∉ signatureWildcards)
    (ht : ∀ x ∈ t, x ∉ signatureWildcards) (hu : signature.readType s = .ok u)
    (hv : signature.readType t = .ok v) : u = v ↔ shortenSizes 0 s = shortenSizes 0 t := by
  obtain ⟨hwell, htokens⟩ := readType_wellFormed hs hu
  obtain ⟨hwell', htokens'⟩ := readType_wellFormed ht hv
  rw [← htokens, ← htokens']
  exact ⟨fun h => h ▸ rfl, tokens_injective hwell hwell'⟩

/-- **Type identity**, for two texts without wildcards that are read to types, the first of them to
no function: matching them succeeds, and binds nothing, just if the texts are the same, and else is
a mismatch; the types are equal just if the texts are the same without the zeros in front of array
sizes outside function forms.  So types that match are equal, and for texts that are written without
such zeros, as types themselves are, equal types match. -/
theorem type_identity (m : CastRules) (strict strict' : Bool)
    (hs : ∀ x ∈ s, x ∉ signatureWildcards) (ht : ∀ x ∈ t, x ∉ signatureWildcards)
    (hu : signature.readType s = .ok u) (hv : signature.readType t = .ok v)
    (hfun : u.isFunction = false) :
    ∃ sub sup, signature.compile s Symbol.type strict = .ok sub ∧
      signature.compile t Symbol.type strict' = .ok sup ∧
      m.admits sub sup [] = .ok (if s = t then some ⟨[], [], none⟩ else none) ∧
      (u.beq v = true ↔ shortenSizes 0 s = shortenSizes 0 t) ∧
      ((∃ r, m.admits sub sup [] = .ok (some r)) → u.beq v = true) ∧
      (shortenSizes 0 s = s → shortenSizes 0 t = t →
        ((∃ r, m.admits sub sup [] = .ok (some r)) ↔ u.beq v = true)) := by
  obtain ⟨sub, sup, hsub, hsup, hadmits⟩ := admits_closed m strict strict' hs ht hu hv hfun
  have hread : u.beq v = true ↔ shortenSizes 0 s = shortenSizes 0 t :=
    (Ty.beq_iff u v).trans (readType_eq_iff hs ht hu hv)
  have hmatch : (∃ r, m.admits sub sup [] = .ok (some r)) ↔ s = t := by
    rw [hadmits]
    by_cases hsame : s = t
    · simp [hsame]
    · simp [hsame]
  refine ⟨sub, sup, hsub, hsup, hadmits, hread, fun h => ?_, fun hshort hshort' => ?_⟩
  · rw [hread, hmatch.mp h]
  · rw [hmatch, hread, hshort, hshort']

/-- `ARRAY 007 I32` and `ARRAY 7 I32` are read to one type but do not match -/
theorem type_identity_zeros :
    signature.readType [Keyword.array, "007", Kind.i32.token] = .ok (.array (.arith .i32) 7) ∧
    signature.readType [Keyword.array, "7", Kind.i32.token] = .ok (.array (.arith .i32) 7) ∧
    ∃ sub sup, signature.compile [Keyword.array, "007", Kind.i32.token] Symbol.type true = .ok sub ∧
      signature.compile [Keyword.array, "7", Kind.i32.token] Symbol.type true = .ok sup ∧
      CastRules.admits ⟨none, []⟩ sub sup [] = .ok none := by
  have hwell : (Ty.array (.arith .i32) 7).WellFormed := by
    rw [Ty.WellFormed]
    exact ⟨trivial, rfl, by decide⟩
  have hread : signature.readType [Keyword.array, "7", Kind.i32.token] =
      .ok (.array (.arith .i32) 7) := readType_tokens hwell
  obtain ⟨sub, sup, hsub, hsup, hadmits, -⟩ := type_identity ⟨none, []⟩ true true (by decide)
    (by decide) readType_array_zeros hread rfl
  rw [if_neg (by decide)] at hadmits
  exact ⟨readType_array_zeros, hread, sub, sup, hsub, hsup, hadmits⟩

end Overloading
