import Overloading.Catalog.Layout
import Overloading.Proofs.CallForms
import Overloading.Proofs.Preparation
import Overloading.Proofs.TypeReading
import Overloading.Proofs.Unification

/-!
# The signatures of default constructors

The default constructor of a template is declared by a text that is made from the name of the
template and its number of arguments.  It returns a class with a wildcard for each argument and, if
the template belongs to a class, one for the class around.

* `Template.fields_nullarySignature`   the words of that text;
* `Template.tokens_of_compile`         the tokens they are prepared to;
* `Tree.substitute_eq`                 a substitution is read off the tokens of a tree;
* `Template.admits_nullary`            the signature admits the call that asks for a class of the
                                       template, and returns that class.
-/

namespace Overloading

open Grammar Overloading.Text

/-! ## Domains of classes -/

def isNameChar (c : Char) : Bool := beginsName c || isDigit c

theorem nameChars_of_isName {x : String} (h : isName x = true) :
    x.toList ≠ [] ∧ ∀ c ∈ x.toList, isNameChar c = true := by
  unfold isName at h
  split at h
  · cases h
  · next c cs hcs =>
    obtain ⟨hc, hrest⟩ := Bool.and_eq_true_iff.mp h
    rw [hcs]
    refine ⟨List.cons_ne_nil c cs, List.forall_mem_cons.mpr ⟨?_, List.all_eq_true.mp hrest⟩⟩
    unfold isNameChar
    rw [hc]
    rfl

def blankCodes : List Nat :=
  [9, 10, 11, 12, 13, 32, 0x85, 0xA0, 0x1680, 0x2000, 0x2001, 0x2002, 0x2003, 0x2004, 0x2005,
    0x2006, 0x2007, 0x2008, 0x2009, 0x200A, 0x2028, 0x2029, 0x202F, 0x205F, 0x3000]

theorem toNat_mem_blankCodes {c : Char} (h : isBlank c = true) : c.toNat ∈ blankCodes := by
  unfold isBlank at h
  dsimp only at h
  simp only [blankCodes, List.mem_cons, List.not_mem_nil, or_false]
  split at h
  · simp at h
    omega
  · simp at h
    omega

theorem isBlank_of_isNameChar {c : Char} (h : isNameChar c = true) : isBlank c = false := by
  have hblanks : ∀ n ∈ blankCodes, isNameChar (Char.ofNat n) = false := by decide +kernel
  rw [Bool.eq_false_iff]
  intro hblank
  have hfalse := hblanks c.toNat (toNat_mem_blankCodes hblank)
  rw [Char.ofNat_toNat, h] at hfalse
  cases hfalse

mutual
theorem ClassTy.domain_chars : ∀ c : ClassTy, c.WellFormed →
    ∀ x ∈ c.domain.toList, isNameChar x = true ∨ x = '.'
  | .mk n as o, h => by
    rw [ClassTy.WellFormed] at h
    intro x hx
    rw [ClassTy.domain, String.toList_append] at hx
    rcases List.mem_append.mp hx with hx | hx
    · exact ClassTy.domainBefore_chars o h.2.2 x hx
    · exact .inl ((nameChars_of_isName (isName_of_classify h.1)).2 x hx)

theorem ClassTy.domainBefore_chars : ∀ o : Option ClassTy, ClassTy.WellFormedOuter o →
    ∀ x ∈ (ClassTy.domainBefore o).toList, isNameChar x = true ∨ x = '.'
  | none, _ => by
    intro x hx
    rw [ClassTy.domainBefore] at hx
    cases hx
  | some c, h => by
    intro x hx
    rw [ClassTy.domainBefore, String.toList_append] at hx
    rcases List.mem_append.mp hx with hx | hx
    · exact ClassTy.domain_chars c (by rw [ClassTy.WellFormedOuter] at h; exact h) x hx
    · exact .inr (List.mem_singleton.mp hx)
end

theorem ClassTy.toList_domain (c : ClassTy) : c.domain.toList =
    match c.outer with
    | none => c.name.toList
    | some d => d.domain.toList ++ '.' :: c.name.toList := by
  obtain ⟨n, as, o⟩ := c
  rw [ClassTy.domain]
  cases o with
  | none => rw [ClassTy.domainBefore]; rfl
  | some d =>
    rw [ClassTy.domainBefore, String.toList_append, String.toList_append, List.append_assoc]
    rfl

theorem Template.toList_domain (t : Template) : t.domain.toList =
    if t.isNested then t.owner.toList ++ '.' :: t.name.toList else t.name.toList := by
  unfold Template.domain domainWithin Template.isNested
  cases h : t.owner == globalDomain || t.owner == "" with
  | true =>
    have hnot : (t.owner != globalDomain && t.owner != "") = false := by
      rw [bne, bne, ← Bool.not_or, h]
      rfl
    rw [hnot]
    rfl
  | false =>
    have hyes : (t.owner != globalDomain && t.owner != "") = true := by
      rw [bne, bne, ← Bool.not_or, h]
      rfl
    rw [hyes]
    simp only [Bool.false_eq_true, if_false, if_true]
    rw [String.toList_append, String.toList_append, List.append_assoc]
    rfl

theorem eq_behind_separator {d : Char} {a b x y : List Char} (hx : d ∉ x) (hy : d ∉ y)
    (h : a ++ d :: x = b ++ d :: y) : x = y := by
  rcases List.append_eq_append_iff.mp h with ⟨c, rfl, hc⟩ | ⟨c, rfl, hc⟩
  · cases c with
    | nil => exact (List.cons.inj hc).2
    | cons e c =>
      rw [(List.cons.inj hc).2] at hx
      exact absurd (List.mem_append_right c List.mem_cons_self) hx
  · cases c with
    | nil => exact (List.cons.inj hc).2.symm
    | cons e c =>
      rw [(List.cons.inj hc).2] at hy
      exact absurd (List.mem_append_right c List.mem_cons_self) hy

theorem ClassTy.name_chars {c : ClassTy} (hc : c.WellFormed) :
    c.name.toList ≠ [] ∧ ∀ x ∈ c.name.toList, isNameChar x = true := by
  obtain ⟨n, as, o⟩ := c
  rw [ClassTy.WellFormed] at hc
  exact nameChars_of_isName (isName_of_classify hc.1)

theorem ClassTy.separator_not_mem_name {c : ClassTy} (hc : c.WellFormed) :
    '.' ∉ c.name.toList := fun h => absurd ((ClassTy.name_chars hc).2 _ h) (by decide)

section

variable {t : Template} {c : ClassTy} (hc : c.WellFormed) (hdomain : t.domain = c.domain)
include hc hdomain

theorem Template.name_chars :
    t.name.toList ≠ [] ∧ ∀ x ∈ t.name.toList, isNameChar x = true ∨ x = '.' := by
  have hlist : t.domain.toList = c.domain.toList := by rw [hdomain]
  have hchars := ClassTy.domain_chars c hc
  rw [← hlist, Template.toList_domain] at hchars
  refine ⟨fun hnil => ?_, fun x hx => hchars x ?_⟩
  · -- a domain of a class ends in a character of its name, no separator
    obtain ⟨hne, hname⟩ := ClassTy.name_chars hc
    have hlast : t.domain.toList.getLast? = some (c.name.toList.getLast hne) := by
      rw [hlist, ClassTy.toList_domain]
      split
      · exact List.getLast?_eq_some_getLast hne
      · rw [List.getLast?_append, List.getLast?_cons, List.getLast?_eq_some_getLast hne]
        rfl
    have hx := hname _ (List.getLast_mem hne)
    rw [Template.toList_domain, hnil] at hlast
    split at hlast
    · rw [List.getLast?_concat] at hlast
      rw [← Option.some.inj hlast] at hx
      exact absurd hx (by decide)
    · cases hlast
  · split
    · simp [hx]
    · exact hx

/-- a template without a separator in its name has the name of the class, and belongs to a class if
the class does -/
theorem Template.name_eq (hdot : '.' ∉ t.name.toList) :
    t.name = c.name ∧ t.isNested = c.outer.isSome := by
  have hlist : t.domain.toList = c.domain.toList := by rw [hdomain]
  have hname := ClassTy.separator_not_mem_name hc
  rw [Template.toList_domain, ClassTy.toList_domain] at hlist
  cases hnested : t.isNested with
  | true =>
    rw [hnested, if_pos rfl] at hlist
    cases houter : c.outer with
    | none =>
      rw [houter] at hlist
      rw [← show _ = c.name.toList from hlist] at hname
      exact absurd (List.mem_append_right _ List.mem_cons_self) hname
    | some d =>
      rw [houter] at hlist
      exact ⟨String.toList_inj.mp (eq_behind_separator hdot hname hlist), rfl⟩
  | false =>
    rw [hnested, if_neg nofun] at hlist
    cases houter : c.outer with
    | none =>
      rw [houter] at hlist
      exact ⟨String.toList_inj.mp hlist, rfl⟩
    | some d =>
      rw [houter] at hlist
      rw [show t.name.toList = _ from hlist] at hdot
      exact absurd (List.mem_append_right _ List.mem_cons_self) hdot

theorem Template.isWord_name : Text.IsWord t.name.toList := by
  obtain ⟨hne, hchars⟩ := Template.name_chars hc hdomain
  refine ⟨hne, fun x hx => ?_⟩
  rcases hchars x hx with hx | rfl
  · exact isBlank_of_isNameChar hx
  · decide

end

/-! ## The words of a signature -/

namespace Template

def nullaryBody (t : Template) : List String :=
  [Keyword.function, Keyword.class_, t.name, Keyword.langle] ++
    (List.range t.arity).map (fun i => "?" ++ toString i) ++ [Keyword.rangle] ++
    (if t.isNested then [Keyword.in_, "?" ++ toString t.arity] else []) ++
    [Keyword.lparen, Keyword.rparen]

def nullaryKinds (t : Template) : List Symbol :=
  List.replicate t.arity Symbol.type ++ if t.isNested then [Symbol.class_] else []

theorem kind_of_lt {t : Template} {i : Nat} (hi : i < t.arity) :
    t.nullaryKinds[i]? = some Symbol.type := by
  unfold nullaryKinds
  rw [List.getElem?_append_left (by rwa [List.length_replicate]), List.getElem?_replicate_of_lt hi]

theorem kind_arity {t : Template} (ht : t.isNested = true) :
    t.nullaryKinds[t.arity]? = some Symbol.class_ := by
  unfold nullaryKinds
  rw [ht, List.getElem?_append_right (by rw [List.length_replicate]), List.length_replicate,
    Nat.sub_self]
  rfl

end Template

theorem isWord_of_all {w : List Char} (hne : w ≠ [])
    (hall : w.all (fun c => !isBlank c) = true) : Text.IsWord w :=
  ⟨hne, fun c hc => by simpa using List.all_eq_true.mp hall c hc⟩

theorem words_declarators (n : Nat) (cs : List Char) :
    words ((String.join (List.replicate n "!Type ")).toList ++ cs) =
      List.replicate n "!Type".toList ++ words cs := by
  have hword : Text.IsWord "!Type".toList := isWord_of_all (by decide) (by decide)
  induction n with
  | zero => rfl
  | succ n ih =>
    rw [List.replicate_succ, List.replicate_succ, List.cons_append, ← ih, ← words_append hword]
    simp

theorem words_append_of_blank {w cs : List Char} (hw : Text.IsWord w) (h : ∃ ds, cs = ' ' :: ds) :
    words (w ++ cs) = w :: words cs := by
  obtain ⟨ds, rfl⟩ := h
  rw [words_append hw, words_cons_blank (by decide)]

theorem isWord_reference (i : Nat) : Text.IsWord ("?" ++ toString i).toList := by
  have hlist : ("?" ++ toString i).toList = '?' :: Nat.toDigits 10 i := by
    rw [String.toList_append, toList_toString]
    rfl
  rw [hlist]
  refine ⟨List.cons_ne_nil _ _, List.forall_mem_cons.mpr ⟨by decide, fun c hc => ?_⟩⟩
  refine isBlank_of_isNameChar ?_
  have hdigit := isAsciiDigit_of_mem_toDigits hc
  have hsmall : c.toNat < 128 := by
    unfold isAsciiDigit at hdigit
    simp at hdigit
    omega
  unfold isNameChar isDigit
  rw [if_pos hsmall, hdigit, Bool.or_true]

theorem blank_references (is : List Nat) {cs : List Char} (h : ∃ ds, cs = ' ' :: ds) :
    ∃ ds, (String.join (is.map fun i => " ?" ++ toString i)).toList ++ cs = ' ' :: ds := by
  cases is with
  | nil => exact h
  | cons j js => exact ⟨_, by simp; rfl⟩

theorem words_references (is : List Nat) {cs : List Char} (h : ∃ ds, cs = ' ' :: ds) :
    words ((String.join (is.map fun i => " ?" ++ toString i)).toList ++ cs) =
      is.map (fun i => ("?" ++ toString i).toList) ++ words cs := by
  induction is with
  | nil => rfl
  | cons i is ih =>
    have hfirst : (String.join ((i :: is).map fun i => " ?" ++ toString i)).toList ++ cs =
        ' ' :: (("?" ++ toString i).toList ++
          ((String.join (is.map fun i => " ?" ++ toString i)).toList ++ cs)) := by
      simp
    rw [hfirst, words_cons_blank (by decide),
      words_append_of_blank (isWord_reference i) (blank_references is h), ih, List.map_cons,
      List.cons_append]

theorem words_keyword {k : String} (hk : k ∈ signatureKeywords) (cs : List Char) :
    words (k.toList ++ ' ' :: cs) = k.toList :: words cs := by
  have hwords : ∀ k ∈ signatureKeywords,
      k.toList ≠ [] ∧ k.toList.all (fun c => !isBlank c) = true := by decide
  obtain ⟨hne, hall⟩ := hwords k hk
  exact words_append (isWord_of_all hne hall) cs

theorem words_rangle (nested : Bool) (n : Nat) :
    words (" >".toList ++ ((if nested then " IN ?" ++ toString n else "").toList ++
      " ( )".toList)) =
      (Keyword.rangle :: ((if nested then [Keyword.in_, "?" ++ toString n] else []) ++
        [Keyword.lparen, Keyword.rparen])).map String.toList := by
  cases nested with
  | false => rfl
  | true =>
    have hsplit : " >".toList ++ ((if true then " IN ?" ++ toString n else "").toList ++
        " ( )".toList) = ' ' :: (">".toList ++ ' ' :: ("IN".toList ++ ' ' ::
          (("?" ++ toString n).toList ++ ' ' :: ("(".toList ++ ' ' :: ")".toList)))) := by
      simp
    rw [hsplit, words_cons_blank (by decide), words_keyword (by decide), words_keyword (by decide),
      words_append (isWord_reference n)]
    rfl

theorem Template.fields_nullarySignature {t : Template} (ht : Text.IsWord t.name.toList) :
    fields t.nullarySignature = t.nullaryKinds.map (fun k => "!" ++ k) ++ t.nullaryBody := by
  have hlist : t.nullarySignature.toList =
      (String.join (List.replicate t.arity "!Type ")).toList ++
        ((if t.isNested then "!Class " else "").toList ++ ("FUNCTION".toList ++ ' ' ::
          ("CLASS".toList ++ ' ' :: (t.name.toList ++ ' ' :: ("<".toList ++
            ((String.join ((List.range t.arity).map fun i => " ?" ++ toString i)).toList ++
              (" >".toList ++ ((if t.isNested then " IN ?" ++ toString t.arity else "").toList ++
                " ( )".toList)))))))) := by
    unfold nullarySignature
    simp
  have hclass : ∀ cs, words ((if t.isNested then "!Class " else "").toList ++ cs) =
      (if t.isNested then ["!Class".toList] else []) ++ words cs := by
    intro cs
    cases t.isNested with
    | false => rfl
    | true => exact words_append (w := "!Class".toList) (isWord_of_all (by decide) (by decide)) cs
  have hrest : ∃ ds, " >".toList ++ ((if t.isNested then " IN ?" ++ toString t.arity else "").toList
      ++ " ( )".toList) = ' ' :: ds := ⟨_, rfl⟩
  have hwords : words t.nullarySignature.toList =
      (t.nullaryKinds.map (fun k => "!" ++ k) ++ t.nullaryBody).map String.toList := by
    rw [hlist, words_declarators, hclass, words_keyword (by decide), words_keyword (by decide),
      words_append ht,
      words_append_of_blank (w := "<".toList) (isWord_of_all (by decide) (by decide))
        (blank_references _ hrest), words_references _ hrest, words_rangle]
    unfold nullaryKinds nullaryBody
    cases t.isNested <;>
      simp [Keyword.function, Keyword.class_, Keyword.langle, Symbol.type, Symbol.class_]
  unfold fields
  rw [hwords, List.map_map]
  exact (List.map_congr_left fun x _ => String.ofList_toList).trans (List.map_id _)

/-! ## Its tokens -/

/-- the tokens of the body, its wildcards numbered -/
def Template.nullaryTokens (t : Template) : List Token :=
  Binding.ofTexts [Keyword.function, Keyword.class_, t.name, Keyword.langle] ++
    (List.range t.arity).map (fun i => ⟨Symbol.type, some i⟩) ++ Binding.ofTexts [Keyword.rangle] ++
    (if t.isNested then [⟨Keyword.in_, none⟩, ⟨Symbol.class_, some t.arity⟩] else []) ++
    Binding.ofTexts [Keyword.lparen, Keyword.rparen]

theorem declarator_mark (k : String) : declarator? ("!" ++ k) = some k := by
  unfold declarator?
  rw [String.toList_append]
  show some (String.ofList k.toList) = some k
  rw [String.ofList_toList]

theorem reference_mark (k : String) : reference? ("?" ++ k) = some k := by
  unfold reference?
  rw [String.toList_append]
  show some (String.ofList k.toList) = some k
  rw [String.ofList_toList]

theorem declaratorsOf_append {ks : List String} {x : String} {ts : List String}
    (hx : declarator? x = none) :
    declaratorsOf (ks.map (fun k => "!" ++ k) ++ x :: ts) = ks.map (fun k => "!" ++ k) ∧
      bodyOf (ks.map (fun k => "!" ++ k) ++ x :: ts) = x :: ts := by
  unfold declaratorsOf bodyOf
  induction ks with
  | nil => simp [hx]
  | cons k ks ih => simpa [declarator_mark] using ih

theorem referredId?_toString {i : Nat} {id : Nat} (h : word? (toString i) = some (id : Int)) :
    referredId? ("?" ++ toString i) = some i := by
  refine referredId?_eq_some.mpr ⟨_, reference_mark _, ?_⟩
  have hid := h
  unfold word? at hid
  rw [integer?_toString, Option.filter_some] at hid
  split at hid
  · cases hid
    exact h
  · cases hid

/-- a word is numbered in one way only, wherever it stands -/
def Forced (declared : List Symbol) (t : String) (mark : Token) : Prop :=
  ∀ before tok, NumberedAs declared before t tok → tok = mark

theorem Numbers.eq_of_forced {declared : List Symbol} {before ts : List String}
    {tokens marks : List Token} (h : Numbers declared before ts tokens)
    (hforced : List.Forall₂ (Forced declared) ts marks) : tokens = marks := by
  refine List.ext_getElem? fun i => ?_
  cases hi : ts[i]? with
  | none =>
    have hlen := List.getElem?_eq_none_iff.mp hi
    rw [List.getElem?_eq_none (by rw [h.length_eq]; exact hlen),
      List.getElem?_eq_none (by rw [← hforced.length_eq]; exact hlen)]
  | some t =>
    obtain ⟨tok, htok, hnum⟩ := h.numberedAs i t hi
    obtain ⟨hlt, rfl⟩ := List.getElem?_eq_some_iff.mp hi
    have hlt' : i < marks.length := by rw [← hforced.length_eq]; exact hlt
    rw [htok, List.getElem?_eq_getElem hlt',
      hforced.get hlt hlt' _ tok hnum]
    rfl

theorem forced_plain {declared : List Symbol} {t : String} (href : reference? t = none)
    (hwild : t ∉ signatureWildcards) : Forced declared t ⟨t, none⟩ := by
  intro before tok h
  cases h with
  | reference refers =>
    obtain ⟨_, hr, _⟩ := referredId?_eq_some.mp refers
    rw [href] at hr
    cases hr
  | direct wild => exact absurd wild hwild
  | plain => rfl

theorem forced_reference {declared : List Symbol} {t : String} {id : Nat} {kind : Symbol}
    (href : referredId? t = some id) (hget : declared[id]? = some kind) :
    Forced declared t ⟨kind, some id⟩ := by
  intro before tok h
  obtain ⟨number, hr, _⟩ := referredId?_eq_some.mp href
  cases h with
  | reference refers get =>
    cases href.symm.trans refers
    cases hget.symm.trans get
    rfl
  | direct wild =>
    rw [(wildcard_marks t wild).2] at hr
    cases hr
  | plain _ noReference =>
    rw [noReference] at hr
    cases hr

theorem forced_words {declared : List Symbol} {ts : List String}
    (hts : ∀ x ∈ ts, reference? x = none ∧ x ∉ signatureWildcards) :
    List.Forall₂ (Forced declared) ts (Binding.ofTexts ts) :=
  List.forall₂_map_right_iff.mpr (List.forall₂_same.mpr fun x hx =>
    forced_plain (hts x hx).1 (hts x hx).2)

theorem separator_not_mem_of_spoken {x : String} (h : Spoken x) : '.' ∉ x.toList := by
  have hwords : ∀ w ∈ signatureWildcards ++ signatureKeywords, '.' ∉ w.toList := by decide
  rcases classify_cases x with ⟨hw, _⟩ | ⟨_, hk, _⟩ | ⟨_, _, hn, _⟩ | ⟨_, _, _, e⟩ | ⟨_, _, _, e⟩
  · exact hwords x (List.mem_append_left _ hw)
  · exact hwords x (List.mem_append_right _ hk)
  · intro hdot
    unfold isNumber at hn
    split at hn
    · next e => rw [e] at hdot; cases hdot
    · exact absurd (List.all_eq_true.mp hn _ hdot) (by decide)
  · exact fun hdot => absurd ((nameChars_of_isName (isName_of_classify e)).2 _ hdot) (by decide)
  · exact absurd e h

theorem prepared_of_compile {src : List String} {start : Symbol} {strict : Bool} {s : Signature}
    (h : signature.compile src start strict = .ok s) :
    s.declared.map some = (declaratorsOf src).map declarator? ∧
      Numbers s.declared (declaratorsOf src) (bodyOf src) s.tokens ∧ Preparable strict src := by
  obtain ⟨e, -, herror⟩ | ⟨pre, hdeclared, hnumbers, hclean, hok⟩ := prepareBody_run src strict
  · obtain ⟨pre, _, hpre, _, _⟩ := compile_eq_ok.mp h
    rw [herror] at hpre
    cases hpre
  · obtain ⟨hd, ht⟩ := body_of_compile hok h
    rw [hd, ht]
    exact ⟨hdeclared, hnumbers, unoffending_iff.mp hclean⟩

theorem spoken_of_compile {src : List String} {strict : Bool} {s : Signature}
    (h : signature.compile src Symbol.function strict = .ok s) {x : String} (hx : x ∈ bodyOf src)
    (href : reference? x = none) : Spoken x := by
  obtain ⟨_, hnumbers, _⟩ := prepared_of_compile h
  have hcompiled := compiledFrom_of_compile (by decide) h
  obtain ⟨i, hi⟩ := List.mem_iff_getElem?.mp hx
  obtain ⟨tok, htok, hnum⟩ := hnumbers.numberedAs i x hi
  cases hnum with
  | reference refers =>
    obtain ⟨_, hr, _⟩ := referredId?_eq_some.mp refers
    rw [href] at hr
    cases hr
  | direct wild =>
    unfold Spoken
    rw [classify_wildcard wild]
    exact (headOf_ne x wild).2.2.2
  | plain =>
    refine spoken_of_formed hcompiled.formed ?_ ⟨x, none⟩ ?_
    · rw [hcompiled.symbol_eq]
      decide
    · rw [hcompiled.yield_eq]
      exact List.mem_of_getElem? htok

section

variable {t : Template} {c : ClassTy} {strict : Bool} {s : Signature} (hc : c.WellFormed)
  (hdomain : t.domain = c.domain)
  (h : signature.compileText t.nullarySignature Symbol.function strict = .ok s)
include hc hdomain h

omit h in
theorem Template.parts_nullarySignature :
    declaratorsOf (fields t.nullarySignature) = t.nullaryKinds.map (fun k => "!" ++ k) ∧
      bodyOf (fields t.nullarySignature) = t.nullaryBody := by
  rw [Template.fields_nullarySignature (Template.isWord_name hc hdomain)]
  exact declaratorsOf_append (by decide)

theorem Template.name_of_compile : t.name = c.name ∧ t.isNested = c.outer.isSome := by
  refine Template.name_eq hc hdomain (separator_not_mem_of_spoken (spoken_of_compile h ?_ ?_))
  · rw [(Template.parts_nullarySignature hc hdomain).2]
    unfold Template.nullaryBody
    simp
  · -- a name does not begin with the mark of a reference
    unfold reference?
    split
    · next number hname =>
      rcases (Template.name_chars hc hdomain).2 '?' (by rw [hname]; exact List.mem_cons_self)
        with hmark | hmark
      · exact absurd hmark (by decide)
      · exact absurd hmark (by decide)
    · rfl

theorem Template.name_plain : reference? t.name = none ∧ t.name ∉ signatureWildcards := by
  have hident : signature.classify t.name = Symbol.ident := by
    rw [(Template.name_of_compile hc hdomain h).1]
    obtain ⟨n, as, o⟩ := c
    rw [ClassTy.WellFormed] at hc
    exact hc.1
  have hspoken : Spoken t.name := by
    unfold Spoken
    rw [hident]
    decide
  refine ⟨(declarator_of_spoken hspoken).2, fun hmem => ?_⟩
  rw [classify_wildcard hmem] at hident
  exact (headOf_ne _ hmem).2.2.1 hident

theorem Template.referredId?_of_compile {i : Nat} (hi : "?" ++ toString i ∈ t.nullaryBody) :
    referredId? ("?" ++ toString i) = some i := by
  obtain ⟨_, _, hpreparable⟩ := prepared_of_compile h
  rw [← (Template.parts_nullarySignature hc hdomain).2] at hi
  obtain ⟨id, hid, _⟩ := hpreparable.declared _ hi _ (reference_mark _)
  exact referredId?_toString hid

theorem Template.declared_of_compile : s.declared = t.nullaryKinds := by
  obtain ⟨hdeclared, _⟩ := prepared_of_compile h
  rw [(Template.parts_nullarySignature hc hdomain).1, List.map_map] at hdeclared
  refine List.map_injective_iff.mpr (fun _ _ => Option.some.inj) (hdeclared.trans ?_)
  exact List.map_congr_left fun k _ => declarator_mark k

/-- the tokens of the compiled signature: each word of its body is numbered in one way only -/
theorem Template.tokens_of_compile : s.tokens = t.nullaryTokens := by
  have hkeyword : ∀ k ∈ signatureKeywords, reference? k = none ∧ k ∉ signatureWildcards := by
    decide
  have hkinds := Template.declared_of_compile hc hdomain h
  have hreference := fun i => Template.referredId?_of_compile hc hdomain h (i := i)
  have hwords : ∀ ts : List String, (∀ x ∈ ts, x = t.name ∨ x ∈ signatureKeywords) →
      List.Forall₂ (Forced s.declared) ts (Binding.ofTexts ts) := by
    refine fun ts hts => forced_words fun x hx => ?_
    rcases hts x hx with rfl | hk
    · exact Template.name_plain hc hdomain h
    · exact hkeyword x hk
  obtain ⟨_, hnumbers, _⟩ := prepared_of_compile h
  rw [(Template.parts_nullarySignature hc hdomain).2] at hnumbers
  refine hnumbers.eq_of_forced ?_
  unfold Template.nullaryBody at hreference ⊢
  unfold Template.nullaryTokens
  refine List.rel_append (List.rel_append (List.rel_append (List.rel_append (hwords _ ?_) ?_)
    (hwords _ ?_)) ?_) (hwords _ ?_)
  · simp only [List.forall_mem_cons]
    exact ⟨.inr (by decide), .inr (by decide), .inl trivial, .inr (by decide),
      List.forall_mem_nil _⟩
  · refine List.forall₂_map_left_iff.mpr (List.forall₂_map_right_iff.mpr
      (List.forall₂_same.mpr fun i hi => forced_reference (hreference i ?_) ?_))
    · simp only [List.mem_append, List.mem_map]
      exact .inl (.inl (.inl (.inr ⟨i, hi, rfl⟩)))
    · rw [hkinds]
      exact Template.kind_of_lt (List.mem_range.mp hi)
  · exact List.forall_mem_singleton.mpr (.inr (by decide))
  · cases hnested : t.isNested with
    | false => exact .nil
    | true =>
      rw [hnested] at hreference
      refine .cons (forced_plain (by decide) (by decide))
        (.cons (forced_reference (hreference _ (by simp)) ?_) .nil)
      rw [hkinds]
      exact Template.kind_arity hnested
  · simp only [List.forall_mem_cons]
    exact ⟨.inr (by decide), .inr (by decide), List.forall_mem_nil _⟩

end

/-! ## Substitution by tokens -/

/-- what a token stands for: itself, or what its wildcard stands for -/
def Token.filled (B : Nat → Option (List String)) (tok : Token) : List String :=
  match tok.wildcard with
  | none => [tok.text]
  | some id => (B id).getD []

theorem Tree.substitute_eq {B : Nat → Option (List String)} {t : Tree} (ht : t.Formed)
    (hs : Tree.Ordinary t.symbol) (hn : t.Numbered)
    (hB : ∀ tok ∈ t.yield, ∀ id, tok.wildcard = some id → (B id).isSome) :
    t.substitute B = some (t.yield.flatMap (Token.filled B)) := by
  induction t using Tree.induct with
  | leaf s tok =>
    have hmem : tok ∈ (Tree.leaf s tok).yield := by rw [Tree.yield]; exact List.mem_singleton_self _
    have hnone : tok.wildcard = none := by
      rw [← Option.not_isSome_iff_eq_none, hn tok hmem]
      exact text_not_mem_wildcards hs ht
    rw [Tree.substitute, Tree.yield, List.flatMap_singleton, Token.filled, hnone]
  | head s i tok =>
    have hmem : tok ∈ (Tree.head s i tok).yield := by
      rw [Tree.yield]
      exact List.mem_singleton_self _
    obtain ⟨hw, _, htext⟩ := formed_head.mp ht
    obtain ⟨id, hid⟩ := Option.isSome_iff_exists.mp ((hn tok hmem).mpr (by rw [htext]; exact hw))
    obtain ⟨ts, hts⟩ := Option.isSome_iff_exists.mp (hB tok hmem id hid)
    rw [Tree.substitute, Tree.yield, List.flatMap_singleton, Token.filled, hid, Option.bind_some]
    simp only [hts, Option.getD_some]
  | branch s i cs ih =>
    rw [Tree.substitute, Tree.yield, Tree.yieldAll_eq_flatMap, List.flatMap_assoc]
    refine Tree.substituteAll_eq_flatMap fun c hc => ?_
    obtain ⟨hformed, hord⟩ := Tree.formed_child ht hc
    exact ih c hc hformed hord (hn.child hc) fun tok htok =>
      hB tok (Tree.mem_yield_branch.mpr ⟨c, hc, htok⟩)

/-! ## Instances of a template -/

/-- what the wildcards of a default constructor stand for in a class: its arguments, and the class
around it -/
def ClassTy.filling (c : ClassTy) (i : Nat) : Option (List String) :=
  (c.args.map Ty.tokens ++ c.outer.toList.map ClassTy.tokens)[i]?

theorem ClassTy.filling_arg {c : ClassTy} {i : Nat} {ty : Ty} (h : c.args[i]? = some ty) :
    c.filling i = some ty.tokens := by
  obtain ⟨hlt, _⟩ := List.getElem?_eq_some_iff.mp h
  unfold ClassTy.filling
  rw [List.getElem?_append_left (by rwa [List.length_map]), List.getElem?_map, h]
  rfl

theorem ClassTy.filling_outer {c d : ClassTy} (h : c.outer = some d) :
    c.filling c.args.length = some d.tokens := by
  have hlen : (c.args.map Ty.tokens).length = c.args.length := List.length_map ..
  unfold ClassTy.filling
  rw [List.getElem?_append_right (Nat.le_of_eq hlen), hlen, Nat.sub_self, h]
  rfl

theorem Ty.tokensAll_eq (tys : List Ty) : Ty.tokensAll tys = (tys.map Ty.tokens).flatten := by
  induction tys with
  | nil => rw [Ty.tokensAll]; rfl
  | cons ty tys ih => rw [Ty.tokensAll, ih, List.map_cons, List.flatten_cons]

theorem sentence_type {ty : Ty} (h : ty.WellFormed) : Sentence Symbol.type ty.tokens := by
  obtain ⟨_, t, ht⟩ := hasTrees ty h
  exact ⟨t, ht.formed, ht.symbol_eq, ht.yield_eq⟩

theorem sentence_class {c : ClassTy} (h : c.WellFormed) : Sentence Symbol.class_ c.tokens := by
  obtain ⟨t, ht⟩ := hasClassTree c h
  refine ⟨t, ht.formed, ht.symbol_eq, ?_⟩
  rw [ht.yield_eq, Ty.tokens]

theorem Ty.WellFormedAll.of_mem {tys : List Ty} (h : Ty.WellFormedAll tys) :
    ∀ ty ∈ tys, ty.WellFormed := by
  induction tys with
  | nil => exact List.forall_mem_nil _
  | cons ty tys ih =>
    rw [Ty.WellFormedAll] at h
    exact List.forall_mem_cons.mpr ⟨h.1, ih h.2⟩

theorem Template.sentence_of_token {t : Template} {c : ClassTy} (hc : c.WellFormed)
    (harity : c.args.length = t.arity) (hnested : t.isNested = c.outer.isSome) :
    ∀ tok ∈ t.nullaryTokens, ∀ id, tok.wildcard = some id →
      ∃ ts, c.filling id = some ts ∧ Sentence tok.text ts := by
  have hplain : ∀ ts : List String, ∀ tok ∈ Binding.ofTexts ts, ∀ id, tok.wildcard = some id →
      ∃ ts, c.filling id = some ts ∧ Sentence tok.text ts := by
    intro ts tok htok id hid
    obtain ⟨x, _, rfl⟩ := List.mem_map.mp htok
    cases hid
  have hargs : ∀ ty ∈ c.args, ty.WellFormed := by
    obtain ⟨n, as, o⟩ := c
    rw [ClassTy.WellFormed] at hc
    exact Ty.WellFormedAll.of_mem hc.2.1
  have houter : ∀ d, c.outer = some d → d.WellFormed := by
    obtain ⟨n, as, o⟩ := c
    rw [ClassTy.WellFormed] at hc
    rintro d rfl
    have hd := hc.2.2
    rwa [ClassTy.WellFormedOuter] at hd
  intro tok htok id hid
  unfold Template.nullaryTokens at htok
  simp only [List.mem_append, or_assoc] at htok
  rcases htok with htok | htok | htok | htok | htok
  · exact hplain _ tok htok id hid
  · obtain ⟨i, hi, rfl⟩ := List.mem_map.mp htok
    cases hid
    have hlt : id < c.args.length := by
      rw [harity]
      exact List.mem_range.mp hi
    exact ⟨_, ClassTy.filling_arg (List.getElem?_eq_getElem hlt),
      sentence_type (hargs _ (List.getElem_mem hlt))⟩
  · exact hplain _ tok htok id hid
  · cases ho : c.outer with
    | none =>
      rw [hnested, ho] at htok
      cases htok
    | some d =>
      rw [hnested, ho] at htok
      rcases List.mem_pair.mp htok with rfl | rfl
      · cases hid
      · cases hid
        exact ⟨_, harity ▸ ClassTy.filling_outer ho, sentence_class (houter d ho)⟩
  · exact hplain _ tok htok id hid

theorem Template.filled_nullaryTokens {t : Template} {c : ClassTy} (hname : t.name = c.name)
    (harity : c.args.length = t.arity) (hnested : t.isNested = c.outer.isSome) :
    t.nullaryTokens.flatMap (Token.filled c.filling) = typedCallForm (.cls c) [] := by
  have hplain : ∀ ts : List String,
      (Binding.ofTexts ts).flatMap (Token.filled c.filling) = ts := by
    intro ts
    unfold Binding.ofTexts
    rw [List.flatMap_map]
    exact List.flatMap_singleton' ts
  have hargs : ((List.range t.arity).map fun i => (⟨Symbol.type, some i⟩ : Token)).flatMap
      (Token.filled c.filling) = Ty.tokensAll c.args := by
    rw [Ty.tokensAll_eq, List.flatMap_map, List.flatMap_def, ← harity]
    congr 1
    refine List.ext_getElem (by simp) fun i h _ => ?_
    have hlt : i < c.args.length := by simpa using h
    rw [List.getElem_map, List.getElem_range, List.getElem_map]
    show (c.filling i).getD [] = _
    rw [ClassTy.filling_arg (List.getElem?_eq_getElem hlt)]
    rfl
  have houter : (if t.isNested then [⟨Keyword.in_, none⟩, ⟨Symbol.class_, some t.arity⟩]
      else ([] : List Token)).flatMap (Token.filled c.filling) = ClassTy.tokensOuter c.outer := by
    rw [hnested, ← harity]
    cases ho : c.outer with
    | none =>
      rw [ClassTy.tokensOuter]
      rfl
    | some d =>
      rw [ClassTy.tokensOuter]
      show Keyword.in_ :: ((c.filling c.args.length).getD [] ++ []) = _
      rw [ClassTy.filling_outer ho, Option.getD_some, List.append_nil]
  unfold Template.nullaryTokens
  rw [List.flatMap_append, List.flatMap_append, List.flatMap_append, List.flatMap_append, hplain,
    hplain, hplain, hargs, houter, hname]
  obtain ⟨n, as, o⟩ := c
  unfold typedCallForm callForm
  rw [Ty.tokens, ClassTy.tokens]
  simp [ClassTy.name, ClassTy.args, ClassTy.outer]

/-! ## Calls without arguments -/

theorem Signature.CompiledFrom.graft_form {s call : Signature}
    (hs : s.CompiledFrom Symbol.function) (hfun : s.isFunction = true)
    {σ : Symbol → Option Nat → Tree} (hgraft : s.root.graft σ = call.root) :
    ∃ ret, s.returnTree? = some ret ∧ ret.Formed ∧ (∀ x ∈ ret.heads, x ∈ s.root.heads) ∧
      call.returnTree? = some (ret.graft σ) ∧ call.params.length = s.params.length := by
  obtain ⟨i, tok, hroot⟩ | ⟨i, cs, hroot⟩ := function_cases hs.formed hs.symbol_eq
  · unfold isFunction at hfun
    rw [hroot] at hfun
    cases hfun
  have hformed := hs.formed
  rw [hroot] at hformed
  obtain ⟨body, hbody, hcs⟩ := children_of_formed hformed
  cases List.mem_singleton.mp hbody
  obtain _ | ⟨h1, _ | ⟨h2, _ | ⟨h3, _ | ⟨h4, _ | ⟨h5, _ | _⟩⟩⟩⟩⟩ := hcs
  next f ret o list e =>
  rw [hroot, Tree.graft_branch] at hgraft
  have hunwrap : s.root.unwrap = .branch Symbol.function i [f, ret, o, list, e] := by
    rw [hroot]
    rfl
  have hunwrap' : call.root.unwrap = .branch Symbol.function i
      ([f, ret, o, list, e].map (Tree.graft σ)) := by
    rw [← hgraft]
    rfl
  have hfun' : call.isFunction = true := by
    unfold isFunction
    rw [hunwrap']
    rfl
  have hlist := (eq_paramsTree h4.1 h4.2).1
  refine ⟨ret, ?_, h2.1, fun x hx => ?_, ?_, ?_⟩
  · unfold returnTree?
    rw [if_pos hfun, hunwrap]
    rfl
  · rw [hroot]
    exact Tree.mem_heads_branch.mpr ⟨ret, by simp, hx⟩
  · unfold returnTree?
    rw [if_pos hfun', hunwrap']
    rfl
  · unfold params
    rw [if_pos hfun, if_pos hfun', hunwrap, hunwrap']
    show (Tree.elements (list.graft σ)).length = (Tree.elements list).length
    rw [hlist, graft_paramsTree, elements_paramsTree, elements_paramsTree, List.length_map]

theorem planCall_nil {cast : Ty → Ref → Ty → Planned Transfer} {sub sup : Signature}
    {subRet supRet : Tree} {b b' : Bindings} {ts : List String} (hsub : sub.params = [])
    (hsup : sup.params = []) (hsubRet : sub.returnTree? = some subRet)
    (hsupRet : sup.returnTree? = some supRet) (hopen : subRet.isOpenReturn = false)
    (hunify : unify subRet supRet b = some b') (hinst : instantiate supRet b' = some ts) :
    planCall cast sub sup b = .ok (some ⟨[], b'.toTexts, some ts⟩) := by
  have hret : unifyReturn subRet supRet b = some b' := by
    unfold unifyReturn
    rw [hopen]
    exact hunify
  unfold planCall
  simp only [hsub, hsup, hsubRet, hsupRet, hret, draftAll, Draft.groups, promoteAll, finishAll,
    hinst]
  rfl

theorem isOpenReturn_of_heads {t : Tree} (h : t.heads = []) : t.isOpenReturn = false := by
  cases t with
  | head s i tok =>
    rw [Tree.heads] at h
    cases h
  | leaf | branch => rfl

theorem instantiate_of_solves {actual formal : Tree} {b b' : Bindings}
    (h : Solves actual formal b b') : instantiate formal b' = some actual.tokens := by
  have hclosed : (formal.heads.any fun x => (x.2.map b'.isOpen).getD false) = false := by
    refine List.any_eq_false.mpr fun x hx => ?_
    obtain ⟨id, ts, hid, hget, _⟩ := h.bound x hx
    rw [hid, Option.map_some, Option.getD_some, Bool.not_eq_true]
    unfold Bindings.isOpen
    rw [hget, Option.map_some, Option.getD_some]
    unfold Binding.isOpen Binding.ofTexts
    simp
  unfold instantiate
  rw [hclosed]
  exact h.reads

section

variable {t : Template} {c : ClassTy} {strict : Bool} {s call : Signature} (hc : c.WellFormed)
  (hdomain : t.domain = c.domain) (harity : c.args.length = t.arity)
  (h : signature.compileText t.nullarySignature Symbol.function strict = .ok s)
  (hcall : signature.compile (typedCallForm (.cls c) []) Symbol.function false = .ok call)
include hc hdomain harity h hcall

/-- the call that asks for a class of the template is the signature with its wildcards filled -/
theorem Template.graft_nullary :
    s.root.Supplied c.filling (fillTree c.filling) ∧
      s.root.graft (fillTree c.filling) = call.root := by
  have hstart : Symbol.function ∈ signatureWildcards := by decide
  have hsup := compiledFrom_of_compile hstart h
  have hsub := compiledFrom_of_compile hstart hcall
  obtain ⟨hname, hnested⟩ := Template.name_of_compile hc hdomain h
  have htokens := Template.tokens_of_compile hc hdomain h
  have hsentence := Template.sentence_of_token hc harity hnested
  rw [← htokens] at hsentence
  have hcallTokens : call.tokens = Binding.ofTexts (typedCallForm (.cls c) []) :=
    (body_of_compile (prepareBody_typed (show (Ty.cls c).WellFormed from hc)
      (List.forall_mem_nil _)) hcall).2
  have hfree : call.root.heads = [] := by
    rw [(heads_of_compile hcall).2, hcallTokens]
    refine List.filterMap_eq_nil_iff.mpr fun tok htok => ?_
    obtain ⟨x, _, rfl⟩ := List.mem_map.mp htok
    rfl
  have hσ : s.root.Supplied c.filling (fillTree c.filling) := by
    refine supplied_of_sentences hsup.formed fun x hx => ?_
    rw [(heads_of_compile h).2] at hx
    obtain ⟨tok, htok, hat⟩ := List.mem_filterMap.mp hx
    obtain ⟨id, hid, rfl⟩ := Option.map_eq_some_iff.mp hat
    obtain ⟨ts, hts, hsent⟩ := hsentence tok htok id hid
    exact ⟨id, ts, rfl, hts, hsent⟩
  have hreads : s.root.substitute c.filling = some (Binding.texts call.tokens) := by
    rw [Tree.substitute_eq hsup.formed (hsup.symbol_eq ▸ Tree.ordinary_wildcard hstart)
      hsup.numbered, hsup.yield_eq, htokens, Template.filled_nullaryTokens hname harity hnested,
      hcallTokens, Binding.texts_ofTexts]
    rw [hsup.yield_eq]
    intro tok htok id hid
    obtain ⟨ts, hts, _⟩ := hsentence tok htok id hid
    rw [hts]
    rfl
  exact ⟨hσ, graft_eq_root hstart hsub hsup hfree hσ hreads⟩

/-- **The default constructor of a template admits the call that asks for a class of the
template**, and the class is what it returns. -/
theorem Template.admits_nullary (hfun : s.isFunction = true) (m : CastRules) :
    ∃ bindings, m.admits call s [] = .ok (some ⟨[], bindings, some c.tokens⟩) := by
  obtain ⟨hσ, hgraft⟩ := Template.graft_nullary hc hdomain harity h hcall
  obtain ⟨hcalls, -⟩ := calls_of_compile (show (Ty.cls c).WellFormed from hc)
    (List.forall_mem_nil _) hcall
  obtain ⟨ret, hret, hformed, hheads, hcallRet, hlength⟩ :=
    (compiledFrom_of_compile (by decide) h).graft_form hfun hgraft
  obtain ⟨r, hr, hspells⟩ := hcalls.returns
  cases hcallRet.symm.trans hr
  obtain ⟨b, hunify, -⟩ := unify_graft (b := []) (V := fun id => (c.filling id).map Binding.ofTexts)
    hformed (fun x hx => by
      obtain ⟨id, ts, hid, hts, h1, h2, h3⟩ := hσ x (hheads x hx)
      refine ⟨h1, h2, id, hid, ?_⟩
      rw [(hσ.plain x (hheads x hx)).marks_eq, h3, hts]
      rfl) nofun
  have hinst := instantiate_of_solves (unify_solves hspells.formed hspells.plain hunify)
  rw [hspells.tokens_eq, Ty.tokens] at hinst
  have hparams : call.params = [] := by
    have hshown := hcalls.params
    cases hps : call.params with
    | nil => rfl
    | cons p ps => rw [hps] at hshown; cases hshown
  have hnil : s.params = [] := by
    rw [hparams] at hlength
    exact List.length_eq_zero_iff.mp hlength.symm
  refine ⟨b.toTexts, ?_⟩
  unfold CastRules.admits admitsWith
  rw [bindExplicit]
  simp only [hcalls.isFunction, hfun, Bool.and_self, if_true]
  exact planCall_nil hparams hnil hcallRet hret (isOpenReturn_of_heads hspells.heads_eq) hunify
    hinst

end

end Overloading
