import Mathlib.Data.List.Basic
import Overloading.Match.Unify
import Overloading.Proofs.SignatureTrees
import Overloading.Signature

/-!
# Wildcards, wrappers and substitution

How the readings of a tree hang together, and what happens to them below a wrapper and under a
substitution.

* `heads_eq`       the heads of a tree are the tokens that name a wildcardable nonterminal;
* `unwrap_rec`     what is passed down a wrapper holds of the unwrapped tree;
* `Tree.graft`     a tree with a tree put in for every head; what it reads is what `substitute`
                   gives (`substitute_graft`), and it is formed again (`formed_graft`);
* `Signature.CompiledFrom`   what compiling guarantees: the tree is the derivation of the tokens,
                   and just the wildcardable names among them have a number (`Tree.Numbered`).
-/

namespace Overloading

open Grammar

theorem Binding.texts_ofTexts (ts : List String) : Binding.texts (Binding.ofTexts ts) = ts := by
  unfold Binding.texts Binding.ofTexts
  rw [List.map_map]
  exact List.map_id ts

namespace Tree

/-! ## Readings of a list of trees -/

theorem tokensAll_eq_flatMap (cs : List Tree) : tokensAll cs = cs.flatMap tokens := by
  induction cs with
  | nil => rfl
  | cons c cs ih => rw [tokensAll_cons, ih, List.flatMap_cons]

theorem headsAll_eq_flatMap (cs : List Tree) : headsAll cs = cs.flatMap heads := by
  induction cs with
  | nil => rfl
  | cons c cs ih => rw [headsAll_cons, ih, List.flatMap_cons]

theorem marksAll_eq_flatMap (cs : List Tree) : marksAll cs = cs.flatMap marks := by
  induction cs with
  | nil => rw [marksAll]; rfl
  | cons c cs ih => rw [marksAll, ih, List.flatMap_cons]

@[simp] theorem substituteAll_nil (lookup : Nat → Option (List String)) :
    substituteAll lookup [] = some [] := by rw [substituteAll]

theorem substituteAll_cons (lookup : Nat → Option (List String)) (c : Tree) (cs : List Tree) :
    substituteAll lookup (c :: cs) =
      (c.substitute lookup).bind fun ts => (substituteAll lookup cs).map fun us => ts ++ us := by
  rw [substituteAll]
  cases c.substitute lookup <;> rfl

theorem substituteAll_eq_flatMap {lookup : Nat → Option (List String)} {F : Tree → List String}
    {cs : List Tree} (h : ∀ c ∈ cs, c.substitute lookup = some (F c)) :
    substituteAll lookup cs = some (cs.flatMap F) := by
  induction cs with
  | nil => rw [substituteAll_nil]; rfl
  | cons c cs ih =>
    rw [substituteAll_cons, h c List.mem_cons_self,
      ih fun d hd => h d (List.mem_cons_of_mem _ hd)]
    rfl

theorem texts_marks (t : Tree) : Binding.texts t.marks = t.tokens := by
  induction t using induct with
  | leaf s t => rw [marks, tokens]; rfl
  | head s i t => rw [marks, tokens]; rfl
  | branch s i cs ih =>
    rw [marks, tokens, marksAll_eq_flatMap, tokensAll_eq_flatMap]
    unfold Binding.texts
    rw [List.map_flatMap]
    exact List.flatMap_congr ih

theorem texts_yield (t : Tree) : Binding.texts t.yield = t.tokens := by
  induction t using induct with
  | leaf s t => rw [yield, tokens]; rfl
  | head s i t => rw [yield, tokens]; rfl
  | branch s i cs ih =>
    rw [yield, tokens, yieldAll_eq_flatMap, tokensAll_eq_flatMap]
    unfold Binding.texts
    rw [List.map_flatMap]
    exact List.flatMap_congr ih

theorem mem_yield_branch {s : Symbol} {i : Nat} {cs : List Tree} {tok : Token} :
    tok ∈ (branch s i cs).yield ↔ ∃ c ∈ cs, tok ∈ c.yield := by
  rw [yield, yieldAll_eq_flatMap, List.mem_flatMap]

theorem mem_heads_branch {s : Symbol} {i : Nat} {cs : List Tree} {h : Symbol × Option Nat} :
    h ∈ (branch s i cs).heads ↔ ∃ c ∈ cs, h ∈ c.heads := by
  rw [heads, headsAll_eq_flatMap, List.mem_flatMap]

/-! ## Below wrappers -/

/-- a tree and what is left of it below its wrappers are related by every relation that is
reflexive and passes a wrapper -/
theorem unwrap_rec {P : Tree → Tree → Prop} (refl : ∀ t, P t t)
    (wrap : ∀ s i c u, c.isLeaf = false → P c u → P (branch s i [c]) u) (t : Tree) :
    P t t.unwrap := by
  induction t using induct with
  | leaf s t => rw [unwrap]; exact refl _; intro s i c h; cases h
  | head s i t => rw [unwrap]; exact refl _; intro s i c h; cases h
  | branch s i cs ih =>
    by_cases hcs : ∃ c, cs = [c]
    · obtain ⟨c, rfl⟩ := hcs
      rw [unwrap]
      cases hc : c.isLeaf with
      | true => exact refl _
      | false => exact wrap s i c _ hc (ih c List.mem_cons_self)
    · rw [unwrap]
      · exact refl _
      · intro s' i' c h
        cases h
        exact hcs ⟨c, rfl⟩

theorem yield_unwrap (t : Tree) : t.unwrap.yield = t.yield := by
  refine unwrap_rec (P := fun t u => u.yield = t.yield) (fun _ => rfl) ?_ t
  intro s i c u _ h
  rw [h, yield, yieldAll_cons, yieldAll_nil, List.append_nil]

theorem heads_unwrap (t : Tree) : t.unwrap.heads = t.heads := by
  refine unwrap_rec (P := fun t u => u.heads = t.heads) (fun _ => rfl) ?_ t
  intro s i c u _ h
  rw [h, heads, headsAll_cons, headsAll_nil, List.append_nil]

theorem substitute_unwrap (lookup : Nat → Option (List String)) (t : Tree) :
    t.unwrap.substitute lookup = t.substitute lookup := by
  refine unwrap_rec (P := fun t u => u.substitute lookup = t.substitute lookup) (fun _ => rfl) ?_ t
  intro s i c u _ h
  rw [h, substitute, substituteAll_cons, substituteAll_nil]
  cases c.substitute lookup with
  | none => rfl
  | some ts => simp

theorem formed_unwrap {t : Tree} (h : t.Formed) : t.unwrap.Formed := by
  refine unwrap_rec (P := fun t u => t.Formed → u.Formed) (fun _ ht => ht) ?_ t h
  intro s i c u _ hc hbranch
  exact hc ((formed_branch.mp hbranch).2 c List.mem_cons_self)

/-! ## The heads of a tree are its wildcardable names -/

/-- a symbol that is not the terminal of a head -/
def Ordinary (s : Symbol) : Prop := ∀ w ∈ signatureWildcards, s ≠ Symbol.headOf w

theorem ordinary_of_mem_heads {s : Symbol} (h : s ∈ signatureRules.map Rule.head) : Ordinary s := by
  intro w hw e
  obtain ⟨r, hr, rfl⟩ := List.mem_map.mp (wildcards_mem_heads w hw)
  exact headOf_not_mem_heads r hr (e ▸ h)

theorem ordinary_wildcard {s : Symbol} (h : s ∈ signatureWildcards) : Ordinary s :=
  ordinary_of_mem_heads (wildcards_mem_heads s h)

theorem ordinary_of_mem_alternative {s : Symbol} {i : Nat} {body : List Symbol}
    (h : (alternatives s)[i]? = some body) : ∀ x ∈ body, Ordinary x := by
  obtain ⟨r, hr, _, hbody⟩ := exists_rule h
  exact headOf_not_mem_alts r hr body (List.mem_of_getElem? hbody)

theorem formed_child {s : Symbol} {i : Nat} {cs : List Tree} (h : (branch s i cs).Formed) {c : Tree}
    (hc : c ∈ cs) : c.Formed ∧ Ordinary c.symbol := by
  obtain ⟨halt, hcs⟩ := formed_branch.mp h
  exact ⟨hcs c hc, ordinary_of_mem_alternative halt _ (List.mem_map_of_mem hc)⟩

/-- the head a token stands for if it names a wildcardable nonterminal -/
def headAt (tok : Token) : Option (Symbol × Option Nat) :=
  if tok.text ∈ signatureWildcards then some (tok.text, tok.wildcard) else none

theorem heads_eq {t : Tree} (ht : t.Formed) (hs : Ordinary t.symbol) :
    t.heads = t.yield.filterMap headAt := by
  induction t using induct with
  | leaf s tok =>
    have hnot : tok.text ∉ signatureWildcards := text_not_mem_wildcards hs ht
    rw [heads, yield, List.filterMap_cons, headAt, if_neg hnot]
    rfl
  | head s i tok =>
    obtain ⟨hw, _, htext⟩ := formed_head.mp ht
    have hmem : tok.text ∈ signatureWildcards := by rw [htext]; exact hw
    rw [heads, yield, List.filterMap_cons, headAt, if_pos hmem, htext]
    rfl
  | branch s i cs ih =>
    rw [heads, yield, headsAll_eq_flatMap, yieldAll_eq_flatMap, List.filterMap_flatMap]
    exact List.flatMap_congr fun c hc => ih c hc (formed_child ht hc).1 (formed_child ht hc).2

theorem kind_mem_of_mem_heads {t : Tree} (ht : t.Formed) {x : Symbol × Option Nat}
    (hx : x ∈ t.heads) : x.1 ∈ signatureWildcards := by
  induction t using induct with
  | leaf s tok => rw [heads] at hx; exact (List.not_mem_nil hx).elim
  | head s i tok =>
    rw [heads] at hx
    rw [List.mem_singleton.mp hx]
    exact (formed_head.mp ht).1
  | branch s i cs ih =>
    obtain ⟨c, hc, hx⟩ := mem_heads_branch.mp hx
    exact ih c hc (formed_child ht hc).1 hx

theorem heads_eq_nil_iff {t : Tree} (ht : t.Formed) (hs : Ordinary t.symbol) :
    t.heads = [] ↔ ∀ tok ∈ t.yield, tok.text ∉ signatureWildcards := by
  rw [heads_eq ht hs, List.filterMap_eq_nil_iff]
  refine forall_congr' fun tok => forall_congr' fun _ => ?_
  unfold headAt
  by_cases hw : tok.text ∈ signatureWildcards
  · simp [hw]
  · simp [hw]

/-! ## Grafting -/

mutual
/-- a tree with a tree in the place of every head -/
def graft (σ : Symbol → Option Nat → Tree) : Tree → Tree
  | leaf s t => leaf s t
  | branch s i cs => branch s i (graftAll σ cs)
  | head s _ t => σ s t.wildcard

def graftAll (σ : Symbol → Option Nat → Tree) : List Tree → List Tree
  | [] => []
  | c :: cs => c.graft σ :: graftAll σ cs
end

theorem graftAll_eq_map (σ : Symbol → Option Nat → Tree) (cs : List Tree) :
    graftAll σ cs = cs.map (graft σ) := by
  induction cs with
  | nil => rw [graftAll]; rfl
  | cons c cs ih => rw [graftAll, ih, List.map_cons]

theorem graft_branch (σ : Symbol → Option Nat → Tree) (s : Symbol) (i : Nat) (cs : List Tree) :
    (branch s i cs).graft σ = branch s i (cs.map (graft σ)) := by
  rw [graft, graftAll_eq_map]

variable {σ : Symbol → Option Nat → Tree}

theorem symbol_graft {t : Tree} (hσ : ∀ h ∈ t.heads, (σ h.1 h.2).symbol = h.1) :
    (t.graft σ).symbol = t.symbol := by
  cases t with
  | leaf s tok => rw [graft]
  | branch s i cs => rw [graft]; rfl
  | head s i tok =>
    rw [graft]
    exact hσ (s, tok.wildcard) (by rw [heads]; exact List.mem_singleton.mpr rfl)

theorem formed_graft {t : Tree} (ht : t.Formed)
    (hσ : ∀ h ∈ t.heads, (σ h.1 h.2).Formed ∧ (σ h.1 h.2).symbol = h.1) : (t.graft σ).Formed := by
  induction t using induct with
  | leaf s tok => rw [graft]; exact ht
  | head s i tok =>
    rw [graft]
    exact (hσ (s, tok.wildcard) (by rw [heads]; exact List.mem_singleton.mpr rfl)).1
  | branch s i cs ih =>
    have hσ' : ∀ c ∈ cs, ∀ h ∈ c.heads, (σ h.1 h.2).Formed ∧ (σ h.1 h.2).symbol = h.1 :=
      fun c hc h hh => hσ h (mem_heads_branch.mpr ⟨c, hc, hh⟩)
    obtain ⟨halt, hcs⟩ := formed_branch.mp ht
    rw [graft_branch, formed_branch, List.map_map]
    refine ⟨?_, fun d hd => ?_⟩
    · rw [halt]
      refine congrArg some (List.map_congr_left fun c hc => ?_)
      exact (symbol_graft fun h hh => (hσ' c hc h hh).2).symm
    · obtain ⟨c, hc, rfl⟩ := List.mem_map.mp hd
      exact ih c hc (hcs c hc) (hσ' c hc)

theorem substitute_graft {t : Tree} {lookup : Nat → Option (List String)}
    (hσ : ∀ h ∈ t.heads, h.2.bind lookup = some (σ h.1 h.2).tokens) :
    t.substitute lookup = some (t.graft σ).tokens := by
  induction t using induct with
  | leaf s tok => rw [substitute, graft, tokens]
  | head s i tok =>
    rw [substitute, graft]
    exact hσ (s, tok.wildcard) (by rw [heads]; exact List.mem_singleton.mpr rfl)
  | branch s i cs ih =>
    rw [substitute, graft_branch, tokens, tokensAll_eq_flatMap, List.flatMap_map]
    refine substituteAll_eq_flatMap fun c hc => ih c hc fun h hh => ?_
    exact hσ h (mem_heads_branch.mpr ⟨c, hc, hh⟩)

/-! ## Trees without numbers -/

/-- no token of the tree has a number -/
def Plain (t : Tree) : Prop := ∀ tok ∈ t.yield, tok.wildcard = none

theorem Plain.child {s : Symbol} {i : Nat} {cs : List Tree} (h : (branch s i cs).Plain) {c : Tree}
    (hc : c ∈ cs) : c.Plain := fun tok htok => h tok (mem_yield_branch.mpr ⟨c, hc, htok⟩)

theorem Plain.yield_eq {t : Tree} (h : t.Plain) : t.yield = Binding.ofTexts t.tokens := by
  rw [← texts_yield]
  unfold Binding.ofTexts Binding.texts
  rw [List.map_map]
  refine (List.map_id t.yield).symm.trans (List.map_congr_left fun tok htok => ?_)
  have := h tok htok
  cases tok
  cases this
  rfl

theorem Plain.marks_eq {t : Tree} (h : t.Plain) : t.marks = t.yield := by
  induction t using induct with
  | leaf s tok =>
    have := h tok (by rw [yield]; exact List.mem_singleton.mpr rfl)
    cases tok
    cases this
    rw [marks, yield]
  | head s i tok => rw [marks, yield]
  | branch s i cs ih =>
    rw [marks, yield, marksAll_eq_flatMap, yieldAll_eq_flatMap]
    exact List.flatMap_congr fun c hc => ih c hc (h.child hc)

/-- just the wildcardable names of the tree have a number -/
def Numbered (t : Tree) : Prop :=
  ∀ tok ∈ t.yield, tok.wildcard.isSome ↔ tok.text ∈ signatureWildcards

theorem Numbered.child {s : Symbol} {i : Nat} {cs : List Tree} (h : (branch s i cs).Numbered)
    {c : Tree} (hc : c ∈ cs) : c.Numbered :=
  fun tok htok => h tok (mem_yield_branch.mpr ⟨c, hc, htok⟩)

theorem Numbered.head_number {t : Tree} (ht : t.Formed) (hs : Ordinary t.symbol) (h : t.Numbered) :
    ∀ x ∈ t.heads, ∃ id, x.2 = some id := by
  intro x hx
  rw [heads_eq ht hs] at hx
  obtain ⟨tok, htok, hat⟩ := List.mem_filterMap.mp hx
  unfold headAt at hat
  split at hat
  · next hw =>
    cases hat
    exact Option.isSome_iff_exists.mp ((h tok htok).mpr hw)
  · cases hat

theorem Numbered.plain {t : Tree} (ht : t.Formed) (hs : Ordinary t.symbol) (h : t.Numbered)
    (hheads : t.heads = []) : t.Plain := by
  intro tok htok
  have hnot := (heads_eq_nil_iff ht hs).mp hheads tok htok
  rw [← h tok htok] at hnot
  simpa using hnot

theorem Numbered.plain_graft {t : Tree} (ht : t.Formed) (hs : Ordinary t.symbol) (h : t.Numbered)
    (hσ : ∀ x ∈ t.heads, (σ x.1 x.2).Plain) : (t.graft σ).Plain := by
  induction t using induct with
  | leaf s tok =>
    rw [graft]
    exact h.plain ht hs (by rw [heads])
  | head s i tok =>
    rw [graft]
    exact hσ (s, tok.wildcard) (by rw [heads]; exact List.mem_singleton.mpr rfl)
  | branch s i cs ih =>
    intro tok htok
    rw [graft_branch, mem_yield_branch] at htok
    obtain ⟨d, hd, htok⟩ := htok
    obtain ⟨c, hc, rfl⟩ := List.mem_map.mp hd
    obtain ⟨h1, h2⟩ := formed_child ht hc
    exact ih c hc h1 h2 (h.child hc) (fun x hx => hσ x (mem_heads_branch.mpr ⟨c, hc, hx⟩)) tok htok

end Tree

/-! ## Compiled signatures -/

namespace Grammar

theorem readDeclarators_mem {src body : List String} {kinds : List Symbol}
    (h : signature.readDeclarators src = .ok (kinds, body)) :
    ∀ k ∈ kinds, k ∈ signatureWildcards := by
  induction src generalizing kinds body with
  | nil =>
    rw [readDeclarators] at h
    cases h
    exact fun _ hk => (List.not_mem_nil hk).elim
  | cons t rest ih =>
    rw [readDeclarators] at h
    split at h
    · cases h
      exact fun _ hk => (List.not_mem_nil hk).elim
    next kind _ =>
    split at h
    · cases h
    next hw =>
    split at h
    · cases h
    next more _ hrest =>
    cases h
    intro k hk
    rcases List.mem_cons.mp hk with rfl | hk
    · exact mayBeWildcard_signature.mp (by simpa using hw)
    · exact ih hrest k hk

theorem resolveReference_get {declared : List Symbol} {t number : String} {id : Nat} {kind : Symbol}
    (h : resolveReference declared t number = .ok (id, kind)) : declared[id]? = some kind := by
  unfold resolveReference at h
  split at h
  · split at h
    · next k hk =>
      cases h
      exact hk
    · cases h
  · cases h

theorem bind_eq_ok {ε α β : Type} {x : Except ε α} {f : α → Except ε β} {b : β} :
    (x >>= f) = .ok b ↔ ∃ a, x = .ok a ∧ f a = .ok b := by
  cases x with
  | error e => exact ⟨nofun, fun ⟨_, h, _⟩ => nomatch h⟩
  | ok a => exact ⟨fun h => ⟨a, rfl, h⟩, fun ⟨_, e, h⟩ => by cases e; exact h⟩

/-- what reading one token of a body makes of it: a reference to a declared wildcard, a wildcard
with the next number, or the token as it is -/
inductive ReadsAs (declared : List Symbol) (t : String) (next after : Nat) : Token → Prop
  | reference {id : Nat} {kind : Symbol} (get : declared[id]? = some kind) (same : after = next) :
      ReadsAs declared t next after ⟨kind, some id⟩
  | direct (wild : t ∈ signatureWildcards) (step : after = next + 1) :
      ReadsAs declared t next after ⟨t, some next⟩
  | plain (free : t ∉ signatureWildcards) (same : after = next) :
      ReadsAs declared t next after ⟨t, none⟩

theorem readBody_cons {declared : List Symbol} {strict : Bool} {r : References} {t : String}
    {rest : List String} {tokens : List Token}
    (h : signature.readBody declared strict r (t :: rest) = .ok tokens) :
    ∃ (r' : References) (tok : Token) (tail : List Token), tokens = tok :: tail ∧
      signature.readBody declared strict r' rest = .ok tail ∧
      ReadsAs declared t r.next r'.next tok := by
  rw [readBody] at h
  split at h
  · cases h
  split at h
  · obtain ⟨⟨id, kind⟩, href, h⟩ := bind_eq_ok.mp h
    have hget := resolveReference_get href
    dsimp only at h
    split at h
    · obtain ⟨_, _, h⟩ := bind_eq_ok.mp h
      obtain ⟨tail, htail, h⟩ := bind_eq_ok.mp h
      exact ⟨_, _, tail, (Except.ok.inj h).symm, htail, .reference hget rfl⟩
    · obtain ⟨tail, htail, h⟩ := bind_eq_ok.mp h
      exact ⟨_, _, tail, (Except.ok.inj h).symm, htail, .reference hget rfl⟩
  split at h
  · next hw =>
    obtain ⟨tail, htail, h⟩ := bind_eq_ok.mp h
    exact ⟨_, _, tail, (Except.ok.inj h).symm, htail, .direct (mayBeWildcard_signature.mp hw) rfl⟩
  · next hw =>
    obtain ⟨tail, htail, h⟩ := bind_eq_ok.mp h
    exact ⟨_, _, tail, (Except.ok.inj h).symm, htail,
      .plain (fun e => hw (mayBeWildcard_signature.mpr e)) rfl⟩

theorem readBody_numbered {declared : List Symbol} (hd : ∀ k ∈ declared, k ∈ signatureWildcards)
    {strict : Bool} {r : References} {src : List String} {tokens : List Token}
    (h : signature.readBody declared strict r src = .ok tokens) :
    ∀ tok ∈ tokens, tok.wildcard.isSome ↔ tok.text ∈ signatureWildcards := by
  induction src generalizing r tokens with
  | nil =>
    rw [readBody] at h
    cases h
    exact List.forall_mem_nil _
  | cons t rest ih =>
    obtain ⟨r', tok, tail, rfl, htail, hread⟩ := readBody_cons h
    refine List.forall_mem_cons.mpr ⟨?_, ih htail⟩
    cases hread with
    | reference hget => exact ⟨fun _ => hd _ (List.mem_of_getElem? hget), fun _ => rfl⟩
    | direct hw => exact ⟨fun _ => hw, fun _ => rfl⟩
    | plain hfree => exact ⟨nofun, fun e => absurd e hfree⟩

end Grammar

/-- what compiling from a start symbol guarantees -/
structure Signature.CompiledFrom (start : Symbol) (s : Signature) : Prop where
  formed : s.root.Formed
  symbol_eq : s.root.symbol = start
  yield_eq : s.root.yield = s.tokens
  numbered : s.root.Numbered
  declared_mem : ∀ k ∈ s.declared, k ∈ signatureWildcards

namespace Grammar

theorem compile_eq_ok {g : Grammar} {src : List String} {start : Symbol} {strict : Bool}
    {s : Signature} : g.compile src start strict = .ok s ↔
      ∃ pre root, g.prepareBody src strict = .ok pre ∧ g.parse pre.tokens start = some root ∧
        s = ⟨src, pre.declared, pre.tokens, start, root⟩ := by
  unfold compile
  refine bind_eq_ok.trans (exists_congr fun pre => ?_)
  cases g.parse pre.tokens start with
  | some root =>
    constructor
    · rintro ⟨hpre, h⟩
      exact ⟨root, hpre, rfl, (Except.ok.inj h).symm⟩
    · rintro ⟨root', hpre, hroot, rfl⟩
      cases hroot
      exact ⟨hpre, rfl⟩
  | none =>
    constructor
    · rintro ⟨_, h⟩
      cases h
    · rintro ⟨_, _, hroot, _⟩
      cases hroot

theorem compiledFrom_of_derives {src : List String} {start : Symbol} {strict : Bool} {pre : Body}
    {root : Tree} (hpre : signature.prepareBody src strict = .ok pre)
    (hroot : root.Derives signatureRules signatureWildcards signature.classify start pre.tokens) :
    (⟨src, pre.declared, pre.tokens, start, root⟩ : Signature).CompiledFrom start := by
  obtain ⟨h1, h2, h3⟩ := hroot
  unfold prepareBody at hpre
  obtain ⟨⟨declared, body⟩, hdecl, hpre⟩ := bind_eq_ok.mp hpre
  obtain ⟨tokens, hbody, hpre⟩ := bind_eq_ok.mp hpre
  cases hpre
  have hd := readDeclarators_mem hdecl
  refine ⟨h1, h2, h3, ?_, hd⟩
  unfold Tree.Numbered
  rw [h3]
  exact readBody_numbered hd hbody

theorem compiledFrom_of_compile {src : List String} {start : Symbol} {strict : Bool} {s : Signature}
    (hstart : start ∈ signatureWildcards) (h : signature.compile src start strict = .ok s) :
    s.CompiledFrom start := by
  obtain ⟨pre, root, hpre, hroot, rfl⟩ := compile_eq_ok.mp h
  exact compiledFrom_of_derives hpre ((parse_eq_some_iff compiled_signature hstart).mp hroot)

/-- the body of a signature depends on the wildcardable names of the grammar only -/
theorem prepareBody_signature {src : List String} {strict : Bool} {r : Except Fault Body}
    (h : ∀ g : Grammar, g.wildcardable = signatureWildcards → g.prepareBody src strict = r) :
    signature.prepareBody src strict = r := h _ compiled_signature.wildcardable_eq

theorem parsePlain_eq_some_iff {kind : Symbol} (hk : kind ∈ signatureWildcards) {ts : List String}
    {t : Tree} : signature.parsePlain ts kind = some t ↔
      t.Formed ∧ t.symbol = kind ∧ t.yield = Binding.ofTexts ts := by
  unfold parsePlain
  refine (parse_eq_some_iff compiled_signature hk).trans ?_
  exact ⟨fun h => ⟨h.derived, h.symbol_eq, h.yield_eq⟩, fun h => ⟨h.1, h.2.1, h.2.2⟩⟩

theorem recognize_eq_true_iff {kind : Symbol} {ts : List String} :
    signature.recognize ts kind = true ↔ ∃ t, signature.parsePlain ts kind = some t := by
  unfold recognize
  exact Option.isSome_iff_exists

theorem compile_of_formed (src : List String) (strict : Bool) (pre : Body) {start : Symbol}
    {t : Tree} (hstart : start ∈ signatureWildcards)
    (hpre : signature.prepareBody src strict = .ok pre) (ht : t.Formed) (hs : t.symbol = start)
    (hyield : t.yield = pre.tokens) :
    signature.compile src start strict = .ok ⟨src, pre.declared, pre.tokens, start, t⟩ := by
  have hparse := (parse_eq_some_iff compiled_signature hstart).mpr ⟨ht, hs, hyield⟩
  exact compile_eq_ok.mpr ⟨pre, t, hpre, hparse, rfl⟩

end Grammar

end Overloading
