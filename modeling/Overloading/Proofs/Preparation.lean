import Mathlib.Data.List.Induction
import Overloading.Proofs.CallTrees

/-!
# How the wildcards of a signature are numbered

Preparing a text reads its declarators and then its body, token by token.  What it makes of a token
depends on the tokens before it only through two things: the wildcards they refer to, and how many
they write directly.

* `Offends`           a token that may not stand where it stands, and its fault;
* `NumberedAs`        what a token of the body becomes behind the tokens before it;
* `readBody_step`     one token is read: either it offends, or it becomes what it is numbered as;
* `prepareBody_run`   so a text is prepared up to the first token that offends;
* `unoffending_iff`   a text has none just if its declarators, references and order are as they
                      should be;
* `wildcards_numbered`   when preparing succeeds, what it gives, and how it fails; and how the
                      numbers come to the tree of a compiled signature.
-/

namespace Overloading

open Grammar Overloading.Text

/-! ## What a text says about wildcards -/

def declaratorsOf (src : List String) : List String :=
  src.takeWhile fun t => (declarator? t).isSome

def bodyOf (src : List String) : List String :=
  src.dropWhile fun t => (declarator? t).isSome

def referredId? (t : String) : Option Nat :=
  match (reference? t).bind word? with
  | some (.ofNat id) => some id
  | _ => none

/-- the wildcards that a text refers to, reference by reference -/
def referredIds (ts : List String) : List Nat := ts.filterMap referredId?

/-- how many wildcards a text writes directly -/
def directCount (ts : List String) : Nat := ts.countP fun t => decide (t ∈ signatureWildcards)

/-- a token that may not stand behind others in a text with so many declarators, and its fault -/
inductive Offends (strict : Bool) (d : Nat) (before : List String) (t : String) : Fault → Prop
  | kind {k : String} (front : before.length < d) (declares : declarator? t = some k)
      (unknown : k ∉ signatureWildcards) : Offends strict d before t (.unknownWildcardKind t)
  | late {k : String} (behind : d ≤ before.length) (declares : declarator? t = some k) :
      Offends strict d before t (.lateDeclarator t)
  | malformed {number : String} (refers : reference? t = some number)
      (bad : referredId? t = none) : Offends strict d before t (.malformedReference t)
  | undeclared {id : Nat} (refers : referredId? t = some id) (large : d ≤ id) :
      Offends strict d before t (.undeclaredWildcard t d)
  | order {id last : Nat} (strictly : strict = true) (refers : referredId? t = some id)
      (small : id < d) (first : id ∉ referredIds before) (mem : last ∈ referredIds before)
      (greatest : ∀ m ∈ referredIds before, m ≤ last) (descends : id < last) :
      Offends strict d before t (.wildcardOrder id last)

/-- what a token of the body becomes behind the tokens before it: a reference becomes the kind it
is declared with and keeps its number, a wildcard written directly is numbered behind the declared
ones and the direct ones before it, any other token is kept without a number -/
inductive NumberedAs (declared : List Symbol) (before : List String) (t : String) : Token → Prop
  | reference {id : Nat} {kind : Symbol} (refers : referredId? t = some id)
      (get : declared[id]? = some kind) : NumberedAs declared before t ⟨kind, some id⟩
  | direct (wild : t ∈ signatureWildcards) :
      NumberedAs declared before t ⟨t, some (declared.length + directCount before)⟩
  | plain (free : t ∉ signatureWildcards) (noReference : reference? t = none) :
      NumberedAs declared before t ⟨t, none⟩

theorem referredId?_eq_some {t : String} {id : Nat} :
    referredId? t = some id ↔
      ∃ number, reference? t = some number ∧ word? number = some (id : Int) := by
  unfold referredId?
  cases hr : reference? t with
  | none => exact ⟨nofun, nofun⟩
  | some number =>
    rw [Option.bind_some]
    constructor
    · intro h
      split at h
      · next hw =>
        cases h
        exact ⟨number, rfl, hw⟩
      · cases h
    · rintro ⟨_, hn, hw⟩
      cases hn
      rw [hw]

theorem reference_of_declarator {t k : String} (h : declarator? t = some k) :
    reference? t = none := by
  unfold declarator? at h
  split at h
  · next cs hcs =>
    unfold reference?
    rw [hcs]
    rfl
  · cases h

theorem referredId?_of_not_reference {t : String} (h : reference? t = none) :
    referredId? t = none := by
  unfold referredId?
  rw [h]
  rfl

theorem referredId?_of_declarator {t k : String} (h : declarator? t = some k) :
    referredId? t = none :=
  referredId?_of_not_reference (reference_of_declarator h)

theorem wildcard_marks : ∀ t ∈ signatureWildcards, declarator? t = none ∧ reference? t = none := by
  decide

theorem Offends.unique {strict : Bool} {d : Nat} {before : List String} {t : String} {e e' : Fault}
    (h : Offends strict d before t e) (h' : Offends strict d before t e') : e = e' := by
  have hnot : ∀ k, declarator? t = some k → reference? t = none ∧ referredId? t = none :=
    fun k hk => ⟨reference_of_declarator hk, referredId?_of_declarator hk⟩
  cases h with
  | kind front declares =>
    cases h' with
    | kind => rfl
    | late behind => omega
    | malformed refers => rw [(hnot _ declares).1] at refers; cases refers
    | undeclared refers | order _ refers => rw [(hnot _ declares).2] at refers; cases refers
  | late behind declares =>
    cases h' with
    | kind front => omega
    | late => rfl
    | malformed refers => rw [(hnot _ declares).1] at refers; cases refers
    | undeclared refers | order _ refers => rw [(hnot _ declares).2] at refers; cases refers
  | malformed refers bad =>
    cases h' with
    | kind _ declares | late _ declares => rw [(hnot _ declares).1] at refers; cases refers
    | malformed => rfl
    | undeclared refers' | order _ refers' => rw [bad] at refers'; cases refers'
  | undeclared refers large =>
    cases h' with
    | kind _ declares | late _ declares => rw [(hnot _ declares).2] at refers; cases refers
    | malformed _ bad => rw [bad] at refers; cases refers
    | undeclared => rfl
    | order _ refers' small => cases refers.symm.trans refers'; omega
  | order _ refers small _ mem greatest =>
    cases h' with
    | kind _ declares | late _ declares => rw [(hnot _ declares).2] at refers; cases refers
    | malformed _ bad => rw [bad] at refers; cases refers
    | undeclared refers' large => cases refers.symm.trans refers'; omega
    | order _ refers' _ _ mem' greatest' =>
      cases refers.symm.trans refers'
      cases Nat.le_antisymm (greatest' _ mem) (greatest _ mem')
      rfl

/-! ## One token -/

section

variable {strict : Bool} {declared : List Symbol} {before : List String} {t : String}

theorem resolveReference_cases (declared : List Symbol) {number : String}
    (h : reference? t = some number) :
    (∃ id kind, referredId? t = some id ∧ declared[id]? = some kind ∧
      resolveReference declared t number = .ok (id, kind)) ∨
    (∃ id, referredId? t = some id ∧ declared.length ≤ id ∧
      resolveReference declared t number = .error (.undeclaredWildcard t declared.length)) ∨
    (referredId? t = none ∧
      resolveReference declared t number = .error (.malformedReference t)) := by
  unfold resolveReference referredId?
  rw [h, Option.bind_some]
  cases word? number with
  | none => exact .inr (.inr ⟨rfl, rfl⟩)
  | some z =>
    cases z with
    | negSucc _ => exact .inr (.inr ⟨rfl, rfl⟩)
    | ofNat id =>
      cases hget : declared[id]? with
      | some kind => exact .inl ⟨id, kind, rfl, hget, by simp [hget]⟩
      | none =>
        exact .inr (.inl ⟨id, rfl, List.getElem?_eq_none_iff.mp hget, by simp [hget]⟩)

/-- what the tokens before one have brought -/
def stateAfter (d : Nat) (before : List String) : References :=
  ⟨d + directCount before, (referredIds before).reverse⟩

theorem checkOrder_cases (strict : Bool) (d : Nat) (before : List String) (id : Nat) :
    (∃ last ∈ referredIds before, (∀ m ∈ referredIds before, m ≤ last) ∧ strict = true ∧
      id < last ∧ checkOrder strict (stateAfter d before) id = .error (.wildcardOrder id last)) ∨
    ((strict = true → ∀ m ∈ referredIds before, m ≤ id) ∧
      checkOrder strict (stateAfter d before) id = .ok ()) := by
  unfold checkOrder References.greatest? stateAfter
  cases hmax : (referredIds before).reverse.max? with
  | none =>
    have hnil : referredIds before = [] := by simpa using List.max?_eq_none_iff.mp hmax
    refine .inr ⟨fun _ m hm => ?_, rfl⟩
    rw [hnil] at hm
    exact (List.not_mem_nil hm).elim
  | some last =>
    obtain ⟨hmem, hle⟩ := List.max?_eq_some_iff.mp hmax
    have hle : ∀ m ∈ referredIds before, m ≤ last := fun m hm => hle m (List.mem_reverse.mpr hm)
    by_cases hlt : strict = true ∧ id < last
    · refine .inl ⟨last, List.mem_reverse.mp hmem, hle, hlt.1, hlt.2, ?_⟩
      simp [hlt.1, hlt.2]
    · refine .inr ⟨fun hs m hm => ?_, ?_⟩
      · have := hle m hm
        have : ¬ id < last := fun h => hlt ⟨hs, h⟩
        omega
      · have hfalse : (strict && decide (id < last)) = false := by
          rw [Bool.eq_false_iff]
          intro h
          obtain ⟨h1, h2⟩ := Bool.and_eq_true_iff.mp h
          exact hlt ⟨h1, of_decide_eq_true h2⟩
        simp [hfalse]

theorem stateAfter_reference {d id : Nat} (h : referredId? t = some id)
    (hwild : t ∉ signatureWildcards) :
    stateAfter d (before ++ [t]) =
      { stateAfter d before with seen := id :: (stateAfter d before).seen } := by
  unfold stateAfter directCount referredIds
  simp [List.filterMap_append, h, hwild]

theorem stateAfter_direct {d : Nat} (h : t ∈ signatureWildcards) :
    stateAfter d (before ++ [t]) =
      { stateAfter d before with next := (stateAfter d before).next + 1 } := by
  have hnone := referredId?_of_not_reference (wildcard_marks t h).2
  unfold stateAfter directCount referredIds
  simp [List.filterMap_append, h, hnone, Nat.add_assoc]

theorem stateAfter_plain {d : Nat} (h : t ∉ signatureWildcards) (href : reference? t = none) :
    stateAfter d (before ++ [t]) = stateAfter d before := by
  have hnone := referredId?_of_not_reference href
  unfold stateAfter directCount referredIds
  simp [List.filterMap_append, h, hnone]

theorem not_offends_reference {d id : Nat} (hdecl : declarator? t = none)
    (hid : referredId? t = some id) (hlt : id < d)
    (horder : id ∈ referredIds before ∨ (strict = true → ∀ m ∈ referredIds before, m ≤ id)) :
    ∀ e, ¬ Offends strict d before t e := by
  intro e h
  cases h with
  | kind _ declares | late _ declares => rw [hdecl] at declares; cases declares
  | malformed _ bad => rw [bad] at hid; cases hid
  | undeclared refers large => cases hid.symm.trans refers; omega
  | order strictly refers _ first mem _ descends =>
    cases hid.symm.trans refers
    rcases horder with hmem | hle
    · exact first hmem
    · have := hle strictly _ mem
      omega

theorem not_offends_plain {d : Nat} (hdecl : declarator? t = none) (href : reference? t = none) :
    ∀ e, ¬ Offends strict d before t e := by
  have hid := referredId?_of_not_reference href
  intro e h
  cases h with
  | kind _ declares | late _ declares => rw [hdecl] at declares; cases declares
  | malformed refers => rw [href] at refers; cases refers
  | undeclared refers | order _ refers => rw [hid] at refers; cases refers

/-- a reference to a declared wildcard is kept; if it is the first one to it, its place in the order
is checked before -/
theorem readBody_reference (strict : Bool) (before : List String) {number : String} {id : Nat}
    {kind : Symbol} (hdecl : declarator? t = none) (href : reference? t = some number)
    (hid : referredId? t = some id) (hres : resolveReference declared t number = .ok (id, kind))
    (rest : List String) :
    signature.readBody declared strict (stateAfter declared.length before) (t :: rest) =
      (if id ∈ referredIds before then .ok ()
        else checkOrder strict (stateAfter declared.length before) id) >>= fun _ =>
        (signature.readBody declared strict (stateAfter declared.length (before ++ [t])) rest).map
          fun toks => ⟨kind, some id⟩ :: toks := by
  have hw : t ∉ signatureWildcards := fun h => by
    rw [(wildcard_marks t h).2] at href
    cases href
  have hcontains : (stateAfter declared.length before).seen.contains id =
      decide (id ∈ referredIds before) := by
    unfold stateAfter
    simp
  rw [readBody, hdecl, href, stateAfter_reference hid hw]
  simp only [Option.isSome_none, Bool.false_eq_true, if_false, hres]
  show (do
    if !(stateAfter declared.length before).seen.contains id then
      checkOrder strict (stateAfter declared.length before) id
    let tail ← signature.readBody declared strict _ rest
    return _ :: tail) = _
  rw [hcontains]
  by_cases hseen : id ∈ referredIds before
  · rw [decide_eq_true hseen, if_pos hseen]
    cases signature.readBody declared strict _ rest <;> rfl
  · rw [decide_eq_false hseen, if_neg hseen]
    cases checkOrder strict (stateAfter declared.length before) id with
    | error e => rfl
    | ok u => cases signature.readBody declared strict _ rest <;> rfl

/-- **One token of a body is read**: either it offends, and reading stops with its fault; or it
does not, and it becomes what it is numbered as. -/
theorem readBody_step (strict : Bool) (t : String) (hbehind : declared.length ≤ before.length) :
    (∃ e, Offends strict declared.length before t e ∧ ∀ rest,
      signature.readBody declared strict (stateAfter declared.length before) (t :: rest) =
        .error e) ∨
    (∃ tok, NumberedAs declared before t tok ∧ (∀ e, ¬ Offends strict declared.length before t e) ∧
      ∀ rest,
      signature.readBody declared strict (stateAfter declared.length before) (t :: rest) =
        (signature.readBody declared strict (stateAfter declared.length (before ++ [t])) rest).map
          fun toks => tok :: toks) := by
  cases hdecl : declarator? t with
  | some k =>
    refine .inl ⟨_, .late hbehind hdecl, fun rest => ?_⟩
    rw [readBody, hdecl]
    rfl
  | none =>
  cases href : reference? t with
  | none =>
    by_cases hw : t ∈ signatureWildcards
    · refine .inr ⟨_, .direct hw, not_offends_plain hdecl href, fun rest => ?_⟩
      rw [readBody, hdecl, href, stateAfter_direct hw]
      simp only [Option.isSome_none, Bool.false_eq_true, if_false, mayBeWildcard_signature.mpr hw,
        if_true]
      cases signature.readBody declared strict _ rest <;> rfl
    · have hnot : ¬ signature.mayBeWildcard t = true := fun h => hw (mayBeWildcard_signature.mp h)
      refine .inr ⟨_, .plain hw href, not_offends_plain hdecl href, fun rest => ?_⟩
      rw [readBody, hdecl, href, stateAfter_plain hw href]
      simp only [Option.isSome_none, Bool.false_eq_true, if_false, hnot]
      cases signature.readBody declared strict _ rest <;> rfl
  | some number =>
    obtain ⟨id, kind, hid, hget, hres⟩ | ⟨id, hid, hlarge, hres⟩ | ⟨hid, hres⟩ :=
      resolveReference_cases declared href
    · obtain ⟨hlt, -⟩ := List.getElem?_eq_some_iff.mp hget
      have hread := readBody_reference strict before hdecl href hid hres
      by_cases hseen : id ∈ referredIds before
      · refine .inr ⟨_, .reference hid hget,
          not_offends_reference hdecl hid hlt (.inl hseen), fun rest => ?_⟩
        rw [hread, if_pos hseen]
        rfl
      · obtain ⟨last, hlast, hgreatest, hstrict, hdescends, herror⟩ | ⟨hle, hok⟩ :=
          checkOrder_cases strict declared.length before id
        · refine .inl ⟨_, .order hstrict hid hlt hseen hlast hgreatest hdescends, fun rest => ?_⟩
          rw [hread, if_neg hseen, herror]
          rfl
        · refine .inr ⟨_, .reference hid hget,
            not_offends_reference hdecl hid hlt (.inr hle), fun rest => ?_⟩
          rw [hread, if_neg hseen, hok]
          rfl
    · refine .inl ⟨_, .undeclared hid hlarge, fun rest => ?_⟩
      rw [readBody, hdecl, href]
      simp only [Option.isSome_none, Bool.false_eq_true, if_false, hres]
      rfl
    · refine .inl ⟨_, .malformed href hid, fun rest => ?_⟩
      rw [readBody, hdecl, href]
      simp only [Option.isSome_none, Bool.false_eq_true, if_false, hres]
      rfl

end

/-! ## Runs -/

/-- the fault of the first token that offends, behind those before it -/
inductive FirstOffence (strict : Bool) (d : Nat) :
    (before : List String) → List String → Fault → Prop
  | here {before : List String} {t : String} {ts : List String} {e : Fault}
      (offends : Offends strict d before t e) : FirstOffence strict d before (t :: ts) e
  | later {before : List String} {t : String} {ts : List String} {e : Fault}
      (clean : ∀ e, ¬ Offends strict d before t e)
      (rest : FirstOffence strict d (before ++ [t]) ts e) : FirstOffence strict d before (t :: ts) e

/-- no token offends where it stands -/
def Unoffending (strict : Bool) (d : Nat) (before ts : List String) : Prop :=
  ∀ b t a, ts = b ++ t :: a → ∀ e, ¬ Offends strict d (before ++ b) t e

/-- a text with its wildcards numbered: as many tokens, each as it is numbered behind those before
it -/
structure Numbers (declared : List Symbol) (before ts : List String) (tokens : List Token) :
    Prop where
  length_eq : tokens.length = ts.length
  numberedAs : ∀ (i : Nat) (t : String), ts[i]? = some t →
    ∃ tok, tokens[i]? = some tok ∧ NumberedAs declared (before ++ ts.take i) t tok

section

variable {strict : Bool} {d : Nat} {declared : List Symbol} {before ts us : List String}
  {t : String} {e : Fault}

theorem Unoffending.nil : Unoffending strict d before [] :=
  fun b t a h => absurd h (by simp)

theorem Unoffending.cons (ht : ∀ e, ¬ Offends strict d before t e)
    (h : Unoffending strict d (before ++ [t]) ts) : Unoffending strict d before (t :: ts) := by
  intro b u a hsplit
  cases b with
  | nil =>
    cases hsplit
    rwa [List.append_nil]
  | cons x b =>
    cases hsplit
    have := h b u a rfl
    rwa [List.append_assoc] at this

theorem Unoffending.append (h : Unoffending strict d before ts)
    (h' : Unoffending strict d (before ++ ts) us) : Unoffending strict d before (ts ++ us) := by
  induction ts generalizing before with
  | nil => rwa [List.append_nil] at h'
  | cons t ts ih =>
    refine .cons (by simpa using h [] t ts rfl) (ih (fun b u a hsplit => ?_) ?_)
    · have := h (t :: b) u a (by rw [hsplit]; rfl)
      rwa [List.append_assoc]
    · rwa [List.append_assoc]

theorem FirstOffence.not_unoffending (h : FirstOffence strict d before ts e) :
    ¬ Unoffending strict d before ts := by
  intro hclean
  induction h with
  | @here before t ts _ offends =>
    exact hclean [] t ts rfl _ (by rwa [List.append_nil])
  | @later before t ts _ _ _ ih =>
    refine ih fun b u a hsplit => ?_
    have := hclean (t :: b) u a (by rw [hsplit]; rfl)
    rwa [List.append_assoc]

theorem FirstOffence.unique {e' : Fault} (h : FirstOffence strict d before ts e)
    (h' : FirstOffence strict d before ts e') : e = e' := by
  induction h with
  | here offends =>
    cases h' with
    | here offends' => exact offends.unique offends'
    | later clean => exact absurd offends (clean _)
  | later clean _ ih =>
    cases h' with
    | here offends' => exact absurd offends' (clean _)
    | later _ rest => exact ih rest

theorem FirstOffence.behind (hts : Unoffending strict d before ts)
    (h : FirstOffence strict d (before ++ ts) us e) :
    FirstOffence strict d before (ts ++ us) e := by
  induction ts generalizing before with
  | nil => rwa [List.append_nil] at h
  | cons t ts ih =>
    refine .later (by simpa using hts [] t ts rfl) (ih (fun b u a hsplit => ?_) ?_)
    · have := hts (t :: b) u a (by rw [hsplit]; rfl)
      rwa [List.append_assoc]
    · rwa [List.append_assoc]

theorem FirstOffence.inFront (h : FirstOffence strict d before ts e) :
    FirstOffence strict d before (ts ++ us) e := by
  induction h with
  | here offends => exact .here offends
  | later clean _ ih => exact .later clean ih

theorem Numbers.nil : Numbers declared before [] [] := ⟨rfl, nofun⟩

theorem Numbers.cons {tok : Token} {tokens : List Token} (ht : NumberedAs declared before t tok)
    (h : Numbers declared (before ++ [t]) ts tokens) :
    Numbers declared before (t :: ts) (tok :: tokens) := by
  refine ⟨by rw [List.length_cons, List.length_cons, h.length_eq], fun i u hu => ?_⟩
  cases i with
  | zero =>
    cases hu
    exact ⟨tok, rfl, by rwa [List.take_zero, List.append_nil]⟩
  | succ i =>
    obtain ⟨tok', hget, hnum⟩ := h.numberedAs i u hu
    refine ⟨tok', hget, ?_⟩
    rwa [List.append_assoc] at hnum

/-- a body is read up to its first token that offends, by induction on its tokens -/
theorem readBody_run (strict : Bool) (ts : List String)
    (hbehind : declared.length ≤ before.length) :
    (∃ e, FirstOffence strict declared.length before ts e ∧
      signature.readBody declared strict (stateAfter declared.length before) ts = .error e) ∨
    (∃ tokens, Numbers declared before ts tokens ∧ Unoffending strict declared.length before ts ∧
      signature.readBody declared strict (stateAfter declared.length before) ts = .ok tokens) := by
  induction ts generalizing before with
  | nil => exact .inr ⟨[], .nil, .nil, by rw [readBody]⟩
  | cons t ts ih =>
    obtain ⟨e, hoffends, herror⟩ | ⟨tok, hnum, hclean, hread⟩ :=
      readBody_step strict t hbehind
    · exact .inl ⟨e, .here hoffends, herror ts⟩
    · have hlonger : declared.length ≤ (before ++ [t]).length := by
        rw [List.length_append]
        omega
      rw [hread]
      obtain ⟨e, hfirst, herror⟩ | ⟨tokens, hnums, hrest, hok⟩ := ih hlonger
      · exact .inl ⟨e, .later hclean hfirst, by rw [herror]; rfl⟩
      · exact .inr ⟨tok :: tokens, .cons hnum hnums, .cons hclean hrest, by rw [hok]; rfl⟩

theorem parts_cons_of_declarator {t k : String} (h : declarator? t = some k) (ts : List String) :
    declaratorsOf (t :: ts) = t :: declaratorsOf ts ∧ bodyOf (t :: ts) = bodyOf ts := by
  unfold declaratorsOf bodyOf
  rw [List.takeWhile_cons, List.dropWhile_cons, h]
  exact ⟨rfl, rfl⟩

theorem parts_cons_of_not_declarator {t : String} (h : declarator? t = none) (ts : List String) :
    declaratorsOf (t :: ts) = [] ∧ bodyOf (t :: ts) = t :: ts := by
  unfold declaratorsOf bodyOf
  rw [List.takeWhile_cons, List.dropWhile_cons, h]
  exact ⟨rfl, rfl⟩

theorem not_offends_declarator {t k : String} (hdecl : declarator? t = some k)
    (hk : k ∈ signatureWildcards) (hfront : before.length < d) :
    ∀ e, ¬ Offends strict d before t e := by
  intro e h
  cases h with
  | kind _ declares unknown =>
    cases hdecl.symm.trans declares
    exact unknown hk
  | late behind => omega
  | malformed refers =>
    rw [reference_of_declarator hdecl] at refers
    cases refers
  | undeclared refers | order _ refers =>
    rw [referredId?_of_declarator hdecl] at refers
    cases refers

/-- the declarators are read up to the first that names no wildcardable kind -/
theorem readDeclarators_run (strict : Bool) (before ts : List String)
    (hd : d = before.length + (declaratorsOf ts).length) :
    (∃ e, FirstOffence strict d before (declaratorsOf ts) e ∧
      signature.readDeclarators ts = .error e) ∨
    (∃ kinds, kinds.map some = (declaratorsOf ts).map declarator? ∧
      Unoffending strict d before (declaratorsOf ts) ∧
      signature.readDeclarators ts = .ok (kinds, bodyOf ts)) := by
  induction ts generalizing before with
  | nil => exact .inr ⟨[], rfl, .nil, rfl⟩
  | cons t ts ih =>
    rw [readDeclarators]
    cases hdecl : declarator? t with
    | none =>
      obtain ⟨hfront, hbody⟩ := parts_cons_of_not_declarator hdecl ts
      rw [hfront, hbody]
      exact .inr ⟨[], rfl, .nil, rfl⟩
    | some kind =>
      obtain ⟨hfront, hbody⟩ := parts_cons_of_declarator hdecl ts
      rw [hfront, List.length_cons] at hd
      rw [hfront, hbody]
      by_cases hkind : kind ∈ signatureWildcards
      · have hclean : ∀ e, ¬ Offends strict d before t e :=
          not_offends_declarator hdecl hkind (by omega)
        have hd' : d = (before ++ [t]).length + (declaratorsOf ts).length := by
          rw [List.length_append, List.length_singleton]
          omega
        simp only [mayBeWildcard_signature.mpr hkind, Bool.not_true, Bool.false_eq_true, if_false]
        obtain ⟨e, hfirst, herror⟩ | ⟨kinds, hkinds, hrest, hok⟩ := ih (before ++ [t]) hd'
        · exact .inl ⟨e, .later hclean hfirst, by rw [herror]⟩
        · refine .inr ⟨kind :: kinds, ?_, .cons hclean hrest, by rw [hok]⟩
          rw [List.map_cons, List.map_cons, hkinds, hdecl]
      · have hnot : signature.mayBeWildcard kind = false := by
          rw [Bool.eq_false_iff]
          exact fun h => hkind (mayBeWildcard_signature.mp h)
        simp only [hnot, Bool.not_false, if_true]
        exact .inl ⟨_, .here (.kind (by omega) hdecl hkind), rfl⟩

end

theorem declaratorsOf_append_bodyOf (src : List String) : declaratorsOf src ++ bodyOf src = src :=
  List.takeWhile_append_dropWhile

theorem declarator?_of_mem {src : List String} {t : String} (h : t ∈ declaratorsOf src) :
    ∃ k, declarator? t = some k := by
  have hall := List.all_eq_true.mp (List.all_takeWhile (p := fun t => (declarator? t).isSome)
    (l := src)) t h
  exact Option.isSome_iff_exists.mp hall

theorem stateAfter_declaratorsOf (d : Nat) (src : List String) :
    stateAfter d (declaratorsOf src) = ⟨d, []⟩ := by
  have hids : referredIds (declaratorsOf src) = [] := by
    refine List.filterMap_eq_nil_iff.mpr fun t ht => ?_
    obtain ⟨k, hk⟩ := declarator?_of_mem ht
    exact referredId?_of_declarator hk
  have hcount : directCount (declaratorsOf src) = 0 := by
    refine List.countP_eq_zero.mpr fun t ht h => ?_
    obtain ⟨k, hk⟩ := declarator?_of_mem ht
    rw [(wildcard_marks t (of_decide_eq_true h)).1] at hk
    cases hk
  unfold stateAfter
  rw [hids, hcount]
  rfl

/-- **A text is prepared up to its first token that offends.** -/
theorem prepareBody_run (src : List String) (strict : Bool) :
    (∃ e, FirstOffence strict (declaratorsOf src).length [] src e ∧
      signature.prepareBody src strict = .error e) ∨
    (∃ pre : Body, pre.declared.map some = (declaratorsOf src).map declarator? ∧
      Numbers pre.declared (declaratorsOf src) (bodyOf src) pre.tokens ∧
      Unoffending strict (declaratorsOf src).length [] src ∧
      signature.prepareBody src strict = .ok pre) := by
  obtain ⟨e, hfirst, herror⟩ | ⟨kinds, hkinds, hclean, hok⟩ :=
    readDeclarators_run strict [] src (d := (declaratorsOf src).length) (by simp)
  · refine .inl ⟨e, ?_, by unfold prepareBody; rw [herror]; rfl⟩
    have : FirstOffence strict (declaratorsOf src).length [] (declaratorsOf src ++ bodyOf src) e :=
      hfirst.inFront
    rwa [declaratorsOf_append_bodyOf] at this
  · have hlength : kinds.length = (declaratorsOf src).length := by
      simpa using congrArg List.length hkinds
    have hrun := readBody_run strict (bodyOf src) (Nat.le_of_eq hlength)
    rw [stateAfter_declaratorsOf, hlength] at hrun
    have hprepare : signature.prepareBody src strict =
        (signature.readBody kinds strict ⟨(declaratorsOf src).length, []⟩ (bodyOf src)).map
          fun tokens => ⟨kinds, tokens⟩ := by
      unfold prepareBody
      rw [hok, ← hlength]
      show (signature.readBody kinds strict ⟨kinds.length, []⟩ (bodyOf src) >>= _) = _
      cases signature.readBody kinds strict ⟨kinds.length, []⟩ (bodyOf src) <;> rfl
    rw [hprepare]
    obtain ⟨e, hfirst, herror⟩ | ⟨tokens, hnum, hrest, hbody⟩ := hrun
    · refine .inl ⟨e, ?_, by rw [herror]; rfl⟩
      have := FirstOffence.behind hclean hfirst
      rwa [declaratorsOf_append_bodyOf] at this
    · refine .inr ⟨⟨kinds, tokens⟩, hkinds, hnum, ?_, by rw [hbody]; rfl⟩
      have := Unoffending.append hclean hrest
      rwa [declaratorsOf_append_bodyOf] at this

/-! ## Texts in which no token offends -/

/-- numbers in the order in which they first stand somewhere increase just if every number that is
new is larger than those before it -/
theorem eraseDups_increasing_iff {l : List Nat} : l.eraseDups.Pairwise (· < ·) ↔
    ∀ b n a, l = b ++ n :: a → n ∉ b → ∀ m ∈ b, m < n := by
  induction l using List.reverseRecOn with
  | nil => exact ⟨fun _ b n a h => absurd h (by simp), fun _ => .nil⟩
  | append_singleton l x ih =>
    have hlast : [x].removeAll l = if x ∈ l then [] else [x] := by
      unfold List.removeAll
      by_cases hx : x ∈ l <;> simp [hx]
    rw [List.eraseDups_append, List.pairwise_append, ih, hlast]
    constructor
    · rintro ⟨hl, -, hnew⟩ b n a hsplit hn m hm
      rcases List.eq_nil_or_concat a with rfl | ⟨a, y, rfl⟩
      · -- the number is the last one
        obtain ⟨rfl, hx⟩ := List.append_inj' hsplit rfl
        cases hx
        refine hnew m (List.mem_eraseDups.mpr hm) x ?_
        rw [if_neg hn]
        exact List.mem_eraseDups.mpr List.mem_cons_self
      · have hsplit : l ++ [x] = (b ++ n :: a) ++ [y] := by simpa using hsplit
        exact hl b n a (List.append_inj' hsplit rfl).1 hn m hm
    · intro h
      refine ⟨fun b n a hsplit => h b n (a ++ [x]) (by rw [hsplit]; simp), ?_, fun m hm n hn => ?_⟩
      · split
        · exact .nil
        · exact List.pairwise_singleton _ _
      · by_cases hx : x ∈ l
        · rw [if_pos hx] at hn
          cases hn
        · rw [if_neg hx] at hn
          cases List.mem_singleton.mp (List.mem_eraseDups.mp hn)
          exact h l x [] rfl hx m (List.mem_eraseDups.mp hm)

/-- a text that can be prepared -/
structure Preparable (strict : Bool) (src : List String) : Prop where
  /-- every declarator in front names a wildcardable kind -/
  kinds_known : ∀ t ∈ declaratorsOf src, ∃ k ∈ signatureWildcards, declarator? t = some k
  /-- no declarator stands behind them -/
  none_late : ∀ t ∈ bodyOf src, declarator? t = none
  /-- every reference is an integer that numbers a declarator -/
  declared : ∀ t ∈ bodyOf src, ∀ number, reference? t = some number →
    ∃ id : Nat, word? number = some (id : Int) ∧ id < (declaratorsOf src).length
  /-- under the strict rule, wildcards are first referred to in the order of their numbers -/
  ordered : strict = true → (referredIds src).eraseDups.Pairwise (· < ·)

section

variable {strict : Bool} {src b a : List String} {t : String}

theorem mem_declaratorsOf (hsplit : src = b ++ t :: a) (h : b.length < (declaratorsOf src).length) :
    t ∈ declaratorsOf src := by
  have hget : (declaratorsOf src ++ bodyOf src)[b.length]? = some t := by
    rw [declaratorsOf_append_bodyOf, hsplit]
    simp
  rw [List.getElem?_append_left h] at hget
  exact List.mem_of_getElem? hget

theorem mem_bodyOf (hsplit : src = b ++ t :: a) (h : (declaratorsOf src).length ≤ b.length) :
    t ∈ bodyOf src := by
  have hget : (declaratorsOf src ++ bodyOf src)[b.length]? = some t := by
    rw [declaratorsOf_append_bodyOf, hsplit]
    simp
  rw [List.getElem?_append_right h] at hget
  exact List.mem_of_getElem? hget

theorem mem_bodyOf_of_reference (h : t ∈ src) {number : String}
    (href : reference? t = some number) : t ∈ bodyOf src := by
  rw [← declaratorsOf_append_bodyOf src] at h
  refine (List.mem_append.mp h).resolve_left fun hfront => ?_
  obtain ⟨k, hk⟩ := declarator?_of_mem hfront
  rw [reference_of_declarator hk] at href
  cases href

theorem Preparable.unoffending (h : Preparable strict src) :
    Unoffending strict (declaratorsOf src).length [] src := by
  intro b t a hsplit e hoffends
  rw [List.nil_append] at hoffends
  have hmem : t ∈ src := by rw [hsplit]; simp
  cases hoffends with
  | kind front declares unknown =>
    obtain ⟨k, hk, hdecl⟩ := h.kinds_known t (mem_declaratorsOf hsplit front)
    cases hdecl.symm.trans declares
    exact unknown hk
  | late behind declares =>
    rw [h.none_late t (mem_bodyOf hsplit behind)] at declares
    cases declares
  | malformed refers bad =>
    obtain ⟨id, hid, -⟩ := h.declared t (mem_bodyOf_of_reference hmem refers) _ refers
    rw [referredId?_eq_some.mpr ⟨_, refers, hid⟩] at bad
    cases bad
  | undeclared refers large =>
    obtain ⟨number, href, hid⟩ := referredId?_eq_some.mp refers
    obtain ⟨id, hid', hlt⟩ := h.declared t (mem_bodyOf_of_reference hmem href) _ href
    cases hid.symm.trans hid'
    omega
  | @order id last strictly refers _ first mem _ descends =>
    have hids : referredIds src = referredIds b ++ id :: referredIds a := by
      unfold referredIds
      rw [hsplit, List.filterMap_append, List.filterMap_cons, refers]
    have := eraseDups_increasing_iff.mp (h.ordered strictly) _ _ _ hids first last mem
    omega

theorem Unoffending.preparable (h : Unoffending strict (declaratorsOf src).length [] src) :
    Preparable strict src := by
  have hclean : ∀ {b t a e}, src = b ++ t :: a →
      ¬ Offends strict (declaratorsOf src).length b t e := fun hsplit => h _ _ _ hsplit _
  have hdeclared : ∀ t ∈ src, ∀ number, reference? t = some number →
      ∃ id : Nat, word? number = some (id : Int) ∧ id < (declaratorsOf src).length := by
    intro t ht number href
    obtain ⟨b, a, hsplit⟩ := List.append_of_mem ht
    cases hid : referredId? t with
    | none => exact absurd (.malformed href hid) (hclean hsplit)
    | some id =>
      obtain ⟨_, hn, hword⟩ := referredId?_eq_some.mp hid
      cases href.symm.trans hn
      refine ⟨id, hword, Nat.lt_of_not_le fun hlarge => ?_⟩
      exact hclean hsplit (.undeclared hid hlarge)
  refine ⟨fun t ht => ?_, fun t ht => ?_, fun t ht => ?_, fun hstrict => ?_⟩
  · obtain ⟨b, a, hfront⟩ := List.append_of_mem ht
    have hsplit : src = b ++ t :: (a ++ bodyOf src) := by
      rw [← List.cons_append, ← List.append_assoc, ← hfront, declaratorsOf_append_bodyOf]
    obtain ⟨k, hk⟩ := declarator?_of_mem ht
    refine ⟨k, by_contra fun hunknown => ?_, hk⟩
    refine hclean hsplit (.kind ?_ hk hunknown)
    rw [hfront]
    simp
  · obtain ⟨b, a, hbody⟩ := List.append_of_mem ht
    have hsplit : src = (declaratorsOf src ++ b) ++ t :: a := by
      rw [List.append_assoc, ← hbody, declaratorsOf_append_bodyOf]
    cases hdecl : declarator? t with
    | none => rfl
    | some k =>
      refine absurd (.late ?_ hdecl) (hclean hsplit)
      rw [List.length_append]
      omega
  · refine hdeclared t ?_
    rw [← declaratorsOf_append_bodyOf src]
    exact List.mem_append_right _ ht
  · refine eraseDups_increasing_iff.mpr fun c id d hids hnew m hm => ?_
    obtain ⟨b, us, hsplit, rfl, hus⟩ := List.filterMap_eq_append_iff.mp hids
    obtain ⟨b', t, a, rfl, hnone, hid, -⟩ := List.filterMap_eq_cons_iff.mp hus
    have hb' : referredIds b' = [] := List.filterMap_eq_nil_iff.mpr hnone
    have hbefore : referredIds (b ++ b') = List.filterMap referredId? b := by
      unfold referredIds at hb' ⊢
      rw [List.filterMap_append, hb', List.append_nil]
    have hsplit : src = (b ++ b') ++ t :: a := by rw [hsplit, List.append_assoc]
    rw [← hbefore] at hnew hm
    obtain ⟨_, href, hword⟩ := referredId?_eq_some.mp hid
    obtain ⟨id', hword', hlt⟩ := hdeclared t (by rw [hsplit]; simp) _ href
    cases hword.symm.trans hword'
    cases hmax : (referredIds (b ++ b')).max? with
    | none =>
      rw [List.max?_eq_none_iff.mp hmax] at hm
      cases hm
    | some last =>
      obtain ⟨hlast, hgreatest⟩ := List.max?_eq_some_iff.mp hmax
      have hle : ¬ id < last := fun hdescends =>
        hclean hsplit (.order hstrict hid hlt hnew hlast hgreatest hdescends)
      have hne : m ≠ id := fun e => hnew (e ▸ hm)
      have := hgreatest m hm
      omega

/-- no token of a text offends just if it can be prepared -/
theorem unoffending_iff : Unoffending strict (declaratorsOf src).length [] src ↔
    Preparable strict src :=
  ⟨Unoffending.preparable, Preparable.unoffending⟩

end

/-! ## Compiled signatures -/

def wildcardIds (tokens : List Token) : List Nat := tokens.filterMap Token.wildcard

theorem arity_eq (s : Signature) :
    s.arity = max s.declared.length ((wildcardIds s.tokens).max?.elim 0 fun id => id + 1) := by
  unfold Signature.arity
  generalize s.declared.length = n
  induction s.tokens generalizing n with
  | nil => simp [wildcardIds]
  | cons t ts ih =>
    rw [List.foldl_cons, ih]
    unfold wildcardIds
    cases hw : t.wildcard with
    | none => rw [List.filterMap_cons_none hw]
    | some id =>
      rw [List.filterMap_cons_some hw, List.max?_cons]
      cases (List.filterMap Token.wildcard ts).max? with
      | none => simp
      | some m =>
        simp only [Option.elim]
        omega

theorem heads_of_compile {src : List String} {start : Symbol} {strict : Bool} {s : Signature}
    (h : signature.compile src start strict = .ok s) :
    s.root.tokens = s.tokens.map Token.text ∧
      s.root.heads =
        s.tokens.filterMap fun tok => tok.wildcard.map fun id => (tok.text, some id) := by
  obtain ⟨pre, root, hpre, hparse, rfl⟩ := compile_eq_ok.mp h
  obtain ⟨hstart, hderives⟩ := derives_of_parse compiled_signature hparse
  have hc := compiledFrom_of_derives hpre hderives
  rw [compiled_signature.nonterminals_eq] at hstart
  have hord := Tree.ordinary_of_mem_heads (hc.symbol_eq.symm ▸ hstart)
  refine ⟨?_, ?_⟩
  · rw [← Tree.texts_yield, hc.yield_eq]
    rfl
  · rw [Tree.heads_eq hc.formed hord, hc.yield_eq]
    refine List.filterMap_congr fun tok htok => ?_
    have hnumbered := hc.numbered tok (by rw [hc.yield_eq]; exact htok)
    unfold Tree.headAt
    cases hw : tok.wildcard with
    | none =>
      rw [hw] at hnumbered
      rw [if_neg fun hmem => nomatch hnumbered.mpr hmem]
      rfl
    | some id =>
      rw [hw] at hnumbered
      rw [if_pos (hnumbered.mp rfl)]
      rfl

theorem body_of_compile {src : List String} {start : Symbol} {strict : Bool} {s : Signature}
    {pre : Body} (hpre : signature.prepareBody src strict = .ok pre)
    (h : signature.compile src start strict = .ok s) :
    s.declared = pre.declared ∧ s.tokens = pre.tokens := by
  obtain ⟨pre', root, hpre', -, rfl⟩ := compile_eq_ok.mp h
  cases hpre.symm.trans hpre'
  exact ⟨rfl, rfl⟩

/-- **The wildcards of a signature are numbered exactly.**  A text is prepared just if its
declarators name wildcardable kinds and all stand in front, its references number declarators, and
under the strict rule the wildcards are first referred to in the order of their numbers.  Each token
of the body then becomes what it is numbered as: a reference the kind it is declared with, under its
number; a wildcard written directly itself, numbered behind the declared ones and the direct ones
before it; any other token itself, without a number.  In whatever signature is compiled from the
text, the heads are just the numbered tokens, in order, and the arity is the number of declarators
or one more than the greatest number, whichever is larger.  If preparing fails, the error is that of
the first token that offends. -/
theorem wildcards_numbered (src : List String) (strict : Bool) :
    ((∃ pre, signature.prepareBody src strict = .ok pre) ↔ Preparable strict src) ∧
    (∀ pre, signature.prepareBody src strict = .ok pre →
      pre.declared.map some = (declaratorsOf src).map declarator? ∧
      pre.tokens.length = src.length - (declaratorsOf src).length ∧
      Numbers pre.declared (declaratorsOf src) (bodyOf src) pre.tokens ∧
      ∀ start s, signature.compile src start strict = .ok s →
        s.root.tokens = pre.tokens.map Token.text ∧
        s.root.heads =
          pre.tokens.filterMap (fun tok => tok.wildcard.map fun id => (tok.text, some id)) ∧
        s.arity = max (declaratorsOf src).length
          ((wildcardIds pre.tokens).max?.elim 0 fun id => id + 1)) ∧
    ∀ e, signature.prepareBody src strict = .error e ↔
      FirstOffence strict (declaratorsOf src).length [] src e := by
  rw [← unoffending_iff]
  obtain ⟨e, hfirst, herror⟩ | ⟨pre, hdeclared, hnumbers, hclean, hok⟩ := prepareBody_run src strict
  · rw [herror]
    refine ⟨⟨nofun, fun h => absurd h hfirst.not_unoffending⟩, nofun, fun e' => ⟨?_, fun h => ?_⟩⟩
    · rintro ⟨⟩
      exact hfirst
    · rw [hfirst.unique h]
  · have hlength : pre.declared.length = (declaratorsOf src).length := by
      simpa using congrArg List.length hdeclared
    have hsrc : src.length = (declaratorsOf src).length + (bodyOf src).length := by
      rw [← List.length_append, declaratorsOf_append_bodyOf]
    refine ⟨⟨fun _ => hclean, fun _ => ⟨pre, hok⟩⟩, fun pre' hpre' => ?_, fun e => ⟨fun h => ?_,
      fun h => absurd hclean h.not_unoffending⟩⟩
    · cases hok.symm.trans hpre'
      refine ⟨hdeclared, by rw [hnumbers.length_eq]; omega, hnumbers, fun start s hs => ?_⟩
      obtain ⟨htokens, hheads⟩ := heads_of_compile hs
      obtain ⟨hd, ht⟩ := body_of_compile hok hs
      rw [ht] at htokens hheads
      refine ⟨htokens, hheads, ?_⟩
      rw [arity_eq, hd, ht, hlength]
    · rw [hok] at h
      cases h

/-- two declared wildcards, referred to in the wrong order, and a direct one between them -/
theorem wildcards_numbered_backwards :
    (∃ s, signature.compile
        ["!Object", "!Arithmetic", "FUNCTION", "VOID", "(", "?1", "Object", "?0", ")"]
        Symbol.function false = .ok s ∧
      s.root.heads = [("Arithmetic", some 1), ("Object", some 2), ("Object", some 0)] ∧
      s.arity = 3) ∧
    FirstOffence true 2 []
      ["!Object", "!Arithmetic", "FUNCTION", "VOID", "(", "?1", "Object", "?0", ")"]
      (.wildcardOrder 0 1) := by
  have hvoid : (Tree.leaf Keyword.void ⟨Keyword.void, none⟩).Formed :=
    (formed_keyword (by decide)).mpr rfl
  have hreturn := formed_single (s := Symbol.return_) (i := 0) (by decide)
    (formed_single (s := Symbol.type) (i := 2) (by decide) hvoid)
  have hobject : ∀ id, (Tree.branch Symbol.paramObject 0
      [.head Symbol.object 5 ⟨Symbol.object, some id⟩]).Formed := fun id =>
    formed_single (show (alternatives Symbol.paramObject)[0]? = some [Symbol.object] by decide)
      (formed_head.mpr ⟨by decide, by decide, rfl⟩)
  have harithmetic : (Tree.branch Symbol.paramObject 0 [.branch Symbol.object 0
      [.head Symbol.arithmetic 11 ⟨Symbol.arithmetic, some 1⟩]]).Formed :=
    formed_single (by decide)
      (formed_single (by decide) (formed_head.mpr ⟨by decide, by decide, rfl⟩))
  have hform := formed_formTree.mpr ⟨⟨hreturn, rfl⟩,
    formed_paramsTree (l := [_, _, _]) (by simpa using ⟨⟨harithmetic, rfl⟩, ⟨hobject 2, rfl⟩,
      hobject 0, rfl⟩)⟩
  have hpre : signature.prepareBody
      ["!Object", "!Arithmetic", "FUNCTION", "VOID", "(", "?1", "Object", "?0", ")"] false =
        .ok ⟨["Object", "Arithmetic"], [⟨"FUNCTION", none⟩, ⟨"VOID", none⟩, ⟨"(", none⟩,
          ⟨"Arithmetic", some 1⟩, ⟨"Object", some 2⟩, ⟨"Object", some 0⟩, ⟨")", none⟩]⟩ :=
    prepareBody_signature (by rintro ⟨_, _, _, _, _, _, _⟩ rfl; rfl)
  have hcompile := compile_of_formed _ false _
    (show Symbol.function ∈ signatureWildcards by decide) hpre hform rfl rfl
  obtain ⟨-, -, -, htrees⟩ := (wildcards_numbered _ false).2.1 _ hpre
  obtain ⟨-, hheads, harity⟩ := htrees _ _ hcompile
  refine ⟨⟨_, hcompile, hheads, harity⟩, ?_⟩
  have hfail : signature.prepareBody
      ["!Object", "!Arithmetic", "FUNCTION", "VOID", "(", "?1", "Object", "?0", ")"] true =
        .error (.wildcardOrder 0 1) :=
    prepareBody_signature (by rintro ⟨_, _, _, _, _, _, _⟩ rfl; rfl)
  exact ((wildcards_numbered _ true).2.2 _).mp hfail

end Overloading
