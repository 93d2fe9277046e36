import Overloading.Proofs.Demands
import Overloading.Proofs.Promotion

/-!
# Instances are sentences

Filling the wildcards of a signature with sentences of their kinds gives a sentence again, and the
tree of that is the tree of the signature with the trees of the fillings put in.

The return of a match is such an instance.  Its fillings were found by unification, were counted
out for an arithmetic wildcard, or were given explicitly; in each case they are sentences of the
kind of the wildcard, because a number stands for one kind throughout a signature.

* `Signature.Kinded`   each number of a signature belongs to one kind, the declared one if it is
                       declared (`exists_kinded`);
* `Bindings.Worded`    every binding without a wildcard of the caller is a sentence of the kind of
                       its number; each pass keeps this (`worded_of_unify`, `worded_of_draftAll`,
                       `worded_of_promoteAll`);
* `instances_are_sentences`   the two together.
-/

namespace Overloading

open Grammar

/-! ## The kind of a number -/

/-- each number of a signature belongs to one kind, the declared one if it is declared -/
structure Signature.Kinded (s : Signature) (kindOf : Nat → Symbol) : Prop where
  declared : ∀ id kind, s.declared[id]? = some kind → kindOf id = kind
  heads : ∀ kind id, (kind, some id) ∈ s.root.heads → kind = kindOf id

namespace Grammar

theorem exists_kinds_of_readBody {declared : List Symbol} {strict : Bool} {r : References}
    {src : List String} {tokens : List Token} (hr : declared.length ≤ r.next)
    (h : signature.readBody declared strict r src = .ok tokens) :
    (∀ tok ∈ tokens, ∀ id, tok.wildcard = some id → id < declared.length ∨ r.next ≤ id) ∧
      ∃ kindOf : Nat → Symbol, (∀ id kind, declared[id]? = some kind → kindOf id = kind) ∧
        ∀ tok ∈ tokens, ∀ id, tok.wildcard = some id → tok.text = kindOf id := by
  induction src generalizing r tokens with
  | nil =>
    rw [readBody] at h
    cases h
    exact ⟨List.forall_mem_nil _, fun id => (declared[id]?).getD "",
      fun id kind hk => by simp only [hk, Option.getD_some], List.forall_mem_nil _⟩
  | cons t rest ih =>
    obtain ⟨r', tok, tail, rfl, htail, hread⟩ := readBody_cons h
    rw [List.forall_mem_cons]
    simp only [List.forall_mem_cons]
    cases hread with
    | @reference id kind hget hnext =>
      obtain ⟨hids, kindOf, hdecl, hkinds⟩ := ih (by omega) htail
      rw [hnext] at hids
      refine ⟨⟨?_, hids⟩, kindOf, hdecl, ?_, hkinds⟩
      · rintro _ ⟨⟩
        exact .inl (List.getElem?_eq_some_iff.mp hget).1
      · rintro _ ⟨⟩
        exact (hdecl id kind hget).symm
    | direct hw hnext =>
      obtain ⟨hids, kindOf, hdecl, hkinds⟩ := ih (by omega) htail
      refine ⟨⟨?_, fun tok htok id hid => ?_⟩, fun id => if id = r.next then t else kindOf id,
        fun id kind hk => ?_, ?_, fun tok htok id hid => ?_⟩
      · rintro _ ⟨⟩
        exact .inr (Nat.le_refl _)
      · have := hids tok htok id hid
        omega
      · have := (List.getElem?_eq_some_iff.mp hk).1
        exact (if_neg (by omega)).trans (hdecl id kind hk)
      · rintro _ ⟨⟩
        exact (if_pos rfl).symm
      · have := hids tok htok id hid
        exact (hkinds tok htok id hid).trans (if_neg (by omega)).symm
    | plain hfree hnext =>
      obtain ⟨hids, kindOf, hdecl, hkinds⟩ := ih (by omega) htail
      rw [hnext] at hids
      exact ⟨⟨by simp, hids⟩, kindOf, hdecl, by simp, hkinds⟩

/-- a compiled signature from any start: what compiling guarantees, and one kind for each number -/
theorem exists_kinded {src : List String} {start : Symbol} {strict : Bool} {s : Signature}
    (h : signature.compile src start strict = .ok s) :
    start ∈ signatureRules.map Rule.head ∧ s.CompiledFrom start ∧ ∃ kindOf, s.Kinded kindOf := by
  obtain ⟨pre, root, hpre, hroot, rfl⟩ := compile_eq_ok.mp h
  obtain ⟨hstart, hder⟩ := derives_of_parse compiled_signature hroot
  rw [compiled_signature.nonterminals_eq] at hstart
  have hord : Tree.Ordinary root.symbol := hder.symbol_eq ▸ Tree.ordinary_of_mem_heads hstart
  refine ⟨hstart, compiledFrom_of_derives hpre hder, ?_⟩
  unfold prepareBody at hpre
  obtain ⟨⟨declared, body⟩, -, hpre⟩ := bind_eq_ok.mp hpre
  obtain ⟨tokens, hbody, hpre⟩ := bind_eq_ok.mp hpre
  cases hpre
  obtain ⟨-, kindOf, hdecl, hkinds⟩ := exists_kinds_of_readBody (Nat.le_refl _) hbody
  refine ⟨kindOf, hdecl, fun kind id hhead => ?_⟩
  rw [Tree.heads_eq hder.derived hord, hder.yield_eq] at hhead
  obtain ⟨tok, htok, hat⟩ := List.mem_filterMap.mp hhead
  unfold Tree.headAt at hat
  split at hat
  · obtain ⟨rfl, hid⟩ := Prod.mk.inj (Option.some.inj hat)
    exact hkinds tok htok id hid
  · cases hat

end Grammar

/-! ## Parts of a signature -/

theorem Tree.mem_heads_of_yield {p t : Tree} (hp : p.Formed) (hps : Ordinary p.symbol)
    (ht : t.Formed) (hts : Ordinary t.symbol) (h : ∀ tok ∈ p.yield, tok ∈ t.yield) :
    ∀ x ∈ p.heads, x ∈ t.heads := by
  intro x hx
  rw [heads_eq hp hps] at hx
  rw [heads_eq ht hts]
  obtain ⟨tok, htok, hat⟩ := List.mem_filterMap.mp hx
  exact List.mem_filterMap.mpr ⟨tok, h tok htok, hat⟩

theorem mem_returnTree {start : Symbol} {s : Signature} (h : s.CompiledFrom start) {r : Tree}
    (hr : s.returnTree? = some r) :
    r.Formed ∧ r.symbol = Symbol.return_ ∧ ∀ tok ∈ r.yield, tok ∈ s.root.yield := by
  unfold Signature.returnTree? at hr
  split at hr
  · next hfun =>
    unfold Signature.isFunction Tree.isFunctionForm at hfun
    split at hfun
    · next sym i cs heq =>
      have hs : sym = Symbol.function := by simpa using hfun
      subst hs
      have hformed := Tree.formed_unwrap h.formed
      rw [heq] at hformed hr
      obtain ⟨body, hbody, hcs⟩ := children_of_formed hformed
      cases List.mem_singleton.mp hbody
      obtain _ | ⟨_, _ | @⟨_, c, _, _, hc, _⟩⟩ := hcs
      cases hr
      refine ⟨hc.1, hc.2, fun tok htok => ?_⟩
      rw [← Tree.yield_unwrap, heq]
      exact Tree.mem_yield_branch.mpr ⟨r, by simp, htok⟩
    · cases hfun
  · cases hr

theorem Tree.mem_splitRef (p : Tree) :
    (∀ x ∈ p.splitRef.2.heads, x ∈ p.heads) ∧ ∀ tok ∈ p.splitRef.2.yield, tok ∈ p.yield := by
  unfold splitRef
  split
  · next s i m t obj =>
    have hobj : obj ∈ [Tree.leaf m t, obj] := by simp
    have hpart : (∀ x ∈ obj.heads, x ∈ (Tree.branch s i [.leaf m t, obj]).heads) ∧
        ∀ tok ∈ obj.yield, tok ∈ (Tree.branch s i [.leaf m t, obj]).yield :=
      ⟨fun x hx => mem_heads_branch.mpr ⟨obj, hobj, hx⟩,
        fun tok htok => mem_yield_branch.mpr ⟨obj, hobj, htok⟩⟩
    split
    · exact hpart
    split
    · exact hpart
    · exact ⟨fun _ h => h, fun _ h => h⟩
  · exact ⟨fun _ h => h, fun _ h => h⟩

theorem Tree.IsFormal.unmarked_splitRef {p : Tree} (h : p.IsFormal) : p.splitRef.2.IsUnmarked := by
  cases hhead : p.isHead with
  | false => exact h.unmarked hhead
  | true =>
    cases p with
    | head s i tok => exact ⟨h.formed, .inr h.symbol_eq, h.numbered⟩
    | leaf | branch => cases hhead

/-! ## Bindings that are sentences -/

/-- every binding without a wildcard of the caller is a sentence of the kind of its number -/
def Bindings.Worded (kindOf : Nat → Symbol) (b : Bindings) : Prop :=
  ∀ id v, b.get? id = some v → v.isOpen = false → Sentence (kindOf id) v.texts

theorem Binding.isOpen_ofTexts (ts : List String) : Binding.isOpen (Binding.ofTexts ts) = false := by
  unfold Binding.isOpen Binding.ofTexts
  simp

theorem Tree.isOpen_marks (t : Tree) :
    Binding.isOpen t.marks = false ↔ ∀ x ∈ t.heads, x.2 = none := by
  induction t using induct with
  | leaf s tok => rw [marks, heads]; simp [Binding.isOpen]
  | head s i tok => rw [marks, heads]; simp [Binding.isOpen]
  | branch s i cs ih =>
    rw [marks, marksAll_eq_flatMap]
    constructor
    · intro h x hx
      obtain ⟨c, hc, hx⟩ := mem_heads_branch.mp hx
      refine (ih c hc).mp ?_ x hx
      unfold Binding.isOpen at h ⊢
      rw [List.any_eq_false] at h ⊢
      exact fun tok htok => h tok (List.mem_flatMap.mpr ⟨c, hc, htok⟩)
    · intro h
      unfold Binding.isOpen
      rw [List.any_eq_false]
      intro tok htok
      obtain ⟨c, hc, htok⟩ := List.mem_flatMap.mp htok
      have hopen := (ih c hc).mpr fun x hx => h x (mem_heads_branch.mpr ⟨c, hc, hx⟩)
      unfold Binding.isOpen at hopen
      exact List.any_eq_false.mp hopen tok htok

theorem Demand.Between.sentence {actual formal : Tree} {d : Demand} (h : d.Between actual formal)
    (hn : actual.Numbered) (hclosed : d.tree.marks.isOpen = false) :
    Sentence d.kind (Binding.texts d.tree.marks) := by
  have hnumbered : d.tree.Numbered := fun tok htok => hn tok (h.yield_mem tok htok)
  have hheads : d.tree.heads = [] := by
    refine List.eq_nil_iff_forall_not_mem.mpr fun x hx => ?_
    obtain ⟨id, hid⟩ := hnumbered.head_number h.formed h.ordinary x hx
    rw [(Tree.isOpen_marks d.tree).mp hclosed x hx] at hid
    cases hid
  have hplain := hnumbered.plain h.formed h.ordinary hheads
  obtain ⟨u, hu, hsym, hyield⟩ := exists_formed_of_derives h.formed h.derives
  exact ⟨u, hu, hsym, by rw [hyield, hplain.yield_eq, Tree.texts_marks]⟩

/-- what holds of the bindings and of what is demanded holds of the bindings after it is met -/
theorem meetAll_keeps {P : Nat → Binding → Prop} {ds : List Demand} {b b' : Bindings}
    (hb : ∀ id v, b.get? id = some v → P id v) (hd : ∀ d ∈ ds, P d.id d.tree.marks)
    (h : meetAll ds b = some b') : ∀ id v, b'.get? id = some v → P id v := by
  induction ds generalizing b with
  | nil => cases h; exact hb
  | cons d ds ih =>
    obtain ⟨hhead, htail⟩ := List.forall_mem_cons.mp hd
    rw [meetAll] at h
    obtain ⟨b₁, hb₁, h⟩ := Option.bind_eq_some_iff.mp h
    refine ih (fun id v hv => ?_) htail h
    unfold Demand.meet at hb₁
    split at hb₁
    · split at hb₁
      · cases hb₁; exact hb id v hv
      · cases hb₁
    · cases hb₁
      rw [Bindings.get?_insert] at hv
      by_cases hid : id = d.id
      · cases hget : b.get? id with
        | some w => rw [hget] at hv; cases hv; exact hb id v hget
        | none =>
          rw [hget, if_pos hid] at hv
          cases hv
          exact hid ▸ hhead
      · rw [if_neg hid, Option.or_none] at hv
        exact hb id v hv

section Passes

variable {kindOf : Nat → Symbol}

theorem worded_of_unify {actual formal : Tree} (ha : actual.Formed)
    (hs : Tree.Ordinary actual.symbol) (hn : actual.Numbered)
    (hkinds : ∀ kind id, (kind, some id) ∈ formal.heads → kind = kindOf id) {b b' : Bindings}
    (hb : b.Worded kindOf) (h : unify actual formal b = some b') : b'.Worded kindOf := by
  obtain ⟨o, ho⟩ := exists_demands ha hs formal
  rw [ho.unify_eq] at h
  obtain ⟨ds, hds, h⟩ := Option.bind_eq_some_iff.mp h
  refine meetAll_keeps (P := fun id v => v.isOpen = false → Sentence (kindOf id) v.texts) hb
    (fun d hd hclosed => ?_) h
  have hbetween := ho.between ds hds d hd
  rw [← hkinds d.kind d.id hbetween.head]
  exact hbetween.sentence hn hclosed

/-- an arithmetic argument that is put aside is put aside for an arithmetic wildcard -/
def Draft.Arithmetic (kindOf : Nat → Symbol) : Draft → Prop
  | .promote id _ _ => kindOf id = Symbol.arithmetic
  | _ => True

theorem mem_heads_of_bareArithmetic {p : Tree} {id : Nat} (h : p.bareArithmetic? = some id) :
    (Symbol.arithmetic, some id) ∈ p.heads := by
  unfold Tree.bareArithmetic? at h
  split at h
  · next s i tok heq =>
    split at h
    · next hs =>
      have hs : s = Symbol.arithmetic := by simpa using hs
      rw [← Tree.heads_unwrap, heq, Tree.heads, hs, h]
      exact List.mem_singleton.mpr rfl
    · cases h
  · cases h

theorem worded_of_draft {actual formal : Tree} (ha : actual.IsFormal)
    (hkinds : ∀ kind id, (kind, some id) ∈ formal.heads → kind = kindOf id) {b b' : Bindings}
    {d : Draft} (hb : b.Worded kindOf) (h : draft actual formal b = some (d, b')) :
    b'.Worded kindOf ∧ d.Arithmetic kindOf := by
  have hunmarked := ha.unmarked_splitRef
  have hsplit : ∀ {b'}, unify actual.splitRef.2 formal.splitRef.2 b = some b' →
      b'.Worded kindOf := fun hu =>
    worded_of_unify hunmarked.formed hunmarked.ordinary hunmarked.numbered
      (fun kind id hid => hkinds kind id (formal.mem_splitRef.1 _ hid)) hb hu
  cases hhead : formal.isHead with
  | true =>
    cases formal with
    | leaf | branch => cases hhead
    | head s i tok =>
      rw [draft] at h
      obtain ⟨b₁, hbind, he⟩ := Option.map_eq_some_iff.mp h
      cases he
      rw [← unify_head actual s i] at hbind
      refine ⟨worded_of_unify ha.formed ?_ ha.numbered hkinds hb hbind, trivial⟩
      rw [ha.symbol_eq]
      exact Tree.ordinary_wildcard (by decide)
  | false =>
    rcases draft_cases hhead h with ⟨_, _, rfl, hu⟩ | ⟨_, ⟨id, k, hid, _, rfl, rfl⟩ | ⟨rfl, hu⟩ |
      ⟨rfl, rfl⟩⟩
    · exact ⟨hsplit hu, trivial⟩
    · refine ⟨hb, ?_⟩
      exact (hkinds _ _ (formal.mem_splitRef.1 _ (mem_heads_of_bareArithmetic hid))).symm
    · exact ⟨hsplit hu, trivial⟩
    · exact ⟨hb, trivial⟩

theorem worded_of_draftAll {actuals formals : List Tree} (ha : ∀ p ∈ actuals, p.IsFormal)
    (hkinds : ∀ f ∈ formals, ∀ kind id, (kind, some id) ∈ f.heads → kind = kindOf id)
    {b b' : Bindings} {ds : List Draft} (hb : b.Worded kindOf)
    (h : draftAll actuals formals b = some (ds, b')) :
    b'.Worded kindOf ∧ ∀ d ∈ ds, d.Arithmetic kindOf := by
  induction actuals generalizing formals b ds with
  | nil =>
    rw [draftAll] at h
    · cases h
      exact ⟨hb, List.forall_mem_nil _⟩
    · intros; contradiction
  | cons a actuals ih =>
    cases formals with
    | nil =>
      rw [draftAll] at h
      · cases h
        exact ⟨hb, List.forall_mem_nil _⟩
      · intros; contradiction
    | cons f formals =>
      rw [draftAll] at h
      split at h
      · cases h
      next d b₁ hd =>
      obtain ⟨⟨ds', b₂⟩, hrest, he⟩ := Option.map_eq_some_iff.mp h
      cases he
      obtain ⟨ha, has⟩ := List.forall_mem_cons.mp ha
      obtain ⟨hf, hfs⟩ := List.forall_mem_cons.mp hkinds
      obtain ⟨hb₁, harith⟩ := worded_of_draft ha hf hb hd
      obtain ⟨hb₂, hall⟩ := ih has hfs hb₁ hrest
      exact ⟨hb₂, List.forall_mem_cons.mpr ⟨harith, hall⟩⟩

theorem mem_groups {ds : List Draft} {id : Nat} (h : id ∈ Draft.groups ds) :
    ∃ ref k, Draft.promote id ref k ∈ ds := by
  induction ds with
  | nil => cases h
  | cons d ds ih =>
    have hrest : id ∈ Draft.groups ds → ∃ ref k, Draft.promote id ref k ∈ d :: ds := fun h => by
      obtain ⟨ref, k, hmem⟩ := ih h
      exact ⟨ref, k, List.mem_cons_of_mem _ hmem⟩
    cases d with
    | promote i ref k =>
      rw [Draft.groups] at h
      rcases List.mem_cons.mp h with rfl | h
      · exact ⟨ref, k, List.mem_cons_self⟩
      · exact hrest (List.mem_of_mem_filter h)
    | settled | convert =>
      rw [Draft.groups] at h
      · exact hrest h
      · intros; contradiction

theorem sentence_kind (k : Kind) : Sentence Symbol.arithmetic [k.token] := by
  obtain ⟨i, ht⟩ := denotes_arith k
  exact ⟨_, ht.formed, ht.symbol_eq, ht.yield_eq⟩

theorem worded_of_promoteAll {ds : List Draft} {ids : List Nat} {b b' : Bindings}
    (hids : ∀ id ∈ ids, kindOf id = Symbol.arithmetic) (hb : b.Worded kindOf)
    (h : promoteAll ds ids b = .ok (some b')) : b'.Worded kindOf := by
  induction ids generalizing b with
  | nil => rw [promoteAll] at h; cases h; exact hb
  | cons id ids ih =>
    obtain ⟨hid, hids⟩ := List.forall_mem_cons.mp hids
    rw [promoteAll] at h
    split at h
    · next b₁ hb₁ =>
      refine ih hids ?_ h
      unfold promoteGroup at hb₁
      split at hb₁
      · split at hb₁
        · cases hb₁
        split at hb₁
        · cases hb₁; exact hb
        · cases hb₁
      · next hnone =>
        split at hb₁
        · next k hk =>
          cases hb₁
          intro j v hv hclosed
          rw [Bindings.get?_insert] at hv
          by_cases hj : j = id
          · rw [hj, hnone, if_pos rfl] at hv
            cases hv
            rw [hj, hid, Binding.texts_ofTexts]
            exact sentence_kind k
          · rw [if_neg hj, Option.or_none] at hv
            exact hb j v hv hclosed
        · cases hb₁
    · next hno => exact absurd h (hno b')

end Passes

/-! ## Explicit arguments -/

theorem bindExplicit_isSome {id : Nat} {kinds : List Symbol} {explicit : List (List String)} :
    (bindExplicit id kinds explicit).isSome = true ↔
      ∀ (i : Nat) (ts : List String), explicit[i]? = some ts →
        ∃ kind, kinds[i]? = some kind ∧ signature.recognize ts kind = true := by
  induction explicit generalizing id kinds with
  | nil =>
    rw [bindExplicit]
    simp
  | cons ts explicit ih =>
    cases kinds with
    | nil =>
      rw [bindExplicit]
      refine ⟨by simp, fun h => ?_⟩
      obtain ⟨kind, hkind, _⟩ := h 0 ts rfl
      cases hkind
    | cons kind kinds =>
      rw [bindExplicit]
      constructor
      · intro h
        split at h
        · next hrec =>
          rw [Option.isSome_map, ih] at h
          rintro (_ | i) us hus
          · cases hus
            exact ⟨kind, rfl, hrec⟩
          · exact h i us hus
        · cases h
      · intro h
        obtain ⟨kind', hkind, hrec⟩ := h 0 ts rfl
        cases hkind
        rw [if_pos hrec, Option.isSome_map, ih]
        exact fun i us hus => h (i + 1) us hus

theorem get?_bindExplicit {id : Nat} {kinds : List Symbol} {explicit : List (List String)}
    {b : Bindings} (h : bindExplicit id kinds explicit = some b) (j : Nat) :
    b.get? j = if j < id then none else explicit[j - id]?.map Binding.ofTexts := by
  induction explicit generalizing id kinds b with
  | nil =>
    rw [bindExplicit] at h
    cases h
    simp [Bindings.get?]
  | cons ts explicit ih =>
    cases kinds with
    | nil => rw [bindExplicit] at h; cases h
    | cons kind kinds =>
      rw [bindExplicit] at h
      split at h
      rotate_left
      · cases h
      obtain ⟨b', hb', rfl⟩ := Option.map_eq_some_iff.mp h
      rw [Bindings.get?, List.lookup_cons]
      rcases Nat.lt_trichotomy j id with hlt | rfl | hgt
      · have hne : (j == id) = false := by rw [beq_eq_false_iff_ne]; omega
        rw [hne, if_pos hlt]
        exact (ih hb').trans (if_pos (by omega))
      · simp
      · have hne : (j == id) = false := by rw [beq_eq_false_iff_ne]; omega
        obtain ⟨i, rfl⟩ : ∃ i, j = id + 1 + i := ⟨j - (id + 1), by omega⟩
        rw [hne, if_neg (by omega), show id + 1 + i - id = i + 1 by omega, List.getElem?_cons_succ]
        refine (ih hb').trans ?_
        rw [if_neg (by omega), Nat.add_sub_cancel_left]

theorem worded_of_bindExplicit {s : Signature} {kindOf : Nat → Symbol} (hk : s.Kinded kindOf)
    (hd : ∀ k ∈ s.declared, k ∈ signatureWildcards) {explicit : List (List String)} {b : Bindings}
    (h : bindExplicit 0 s.declared explicit = some b) : b.Worded kindOf := by
  intro j v hv _
  rw [get?_bindExplicit h, if_neg (Nat.not_lt_zero j), Nat.sub_zero] at hv
  obtain ⟨ts, hts, rfl⟩ := Option.map_eq_some_iff.mp hv
  obtain ⟨kind, hkind, hrec⟩ := bindExplicit_isSome.mp (Option.isSome_iff_exists.mpr ⟨b, h⟩) j ts hts
  rw [hk.declared j kind hkind, Binding.texts_ofTexts]
  exact (recognize_iff_sentence (hd kind (List.mem_of_getElem? hkind))).mp hrec

/-! ## The return of a match -/

/-- the passes of a plan before the last leave every closed binding a sentence of the kind of its
number -/
theorem worded_of_passes {start start' : Symbol} {sub sup : Signature} {kindOf : Nat → Symbol}
    (hsub : sub.CompiledFrom start) (hsup : sup.CompiledFrom start')
    (hord : Tree.Ordinary sup.root.symbol) (hk : sup.Kinded kindOf) {subRet supRet : Tree}
    {ds : List Draft} {b b₁ b₂ b₃ : Bindings} (hb : b.Worded kindOf)
    (hsubRet : sub.returnTree? = some subRet) (hsupRet : sup.returnTree? = some supRet)
    (hunify : unifyReturn subRet supRet b = some b₁)
    (hdraft : draftAll sub.params sup.params b₁ = some (ds, b₂))
    (hpromote : promoteAll ds (Draft.groups ds) b₂ = .ok (some b₃)) : b₃.Worded kindOf := by
  have hkinds : ∀ p : Tree, p.Formed → Tree.Ordinary p.symbol →
      (∀ tok ∈ p.yield, tok ∈ sup.root.yield) →
        ∀ kind id, (kind, some id) ∈ p.heads → kind = kindOf id := fun p hp hps hy kind id hid =>
    hk.heads kind id (Tree.mem_heads_of_yield hp hps hsup.formed hord hy _ hid)
  obtain ⟨hretf, hrets, hrety⟩ := mem_returnTree hsup hsupRet
  have hret : ∀ kind id, (kind, some id) ∈ supRet.heads → kind = kindOf id :=
    hkinds supRet hretf (hrets ▸ Tree.ordinary_wildcard (by decide)) hrety
  obtain ⟨hsubf, hsubs, hsuby⟩ := mem_returnTree hsub hsubRet
  have hb₁ : b₁.Worded kindOf := by
    unfold unifyReturn at hunify
    split at hunify
    · cases hunify; exact hb
    · exact worded_of_unify hsubf (hsubs ▸ Tree.ordinary_wildcard (by decide))
        (fun tok htok => hsub.numbered tok (hsuby tok htok)) hret hb hunify
  obtain ⟨hb₂, harith⟩ := worded_of_draftAll (fun p hp => isFormal_of_mem_params hsub hp)
    (fun p hp => by
      obtain ⟨hf, hs, hy⟩ := mem_params hsup hp
      exact hkinds p hf (hs ▸ Tree.ordinary_wildcard (by decide)) hy) hb₁ hdraft
  refine worded_of_promoteAll (fun id hid => ?_) hb₂ hpromote
  obtain ⟨ref, k, hmem⟩ := mem_groups hid
  exact harith _ hmem

theorem Tree.bound_of_substitute {B : Nat → Option (List String)} {t : Tree} {ts : List String}
    (h : t.substitute B = some ts) : ∀ x ∈ t.heads, ∃ us, x.2.bind B = some us := by
  induction t using induct generalizing ts with
  | leaf s tok => rw [heads]; exact List.forall_mem_nil _
  | head s i tok =>
    rw [substitute] at h
    rw [heads]
    exact List.forall_mem_singleton.mpr ⟨ts, h⟩
  | branch s i cs ih =>
    rw [substitute] at h
    intro x hhead
    obtain ⟨c, hc, hx⟩ := mem_heads_branch.mp hhead
    clear hhead
    induction cs generalizing ts with
    | nil => cases hc
    | cons d cs ihcs =>
      rw [substituteAll_cons] at h
      obtain ⟨us, hus, hrest⟩ := Option.bind_eq_some_iff.mp h
      obtain ⟨ws, hws, rfl⟩ := Option.map_eq_some_iff.mp hrest
      rcases List.mem_cons.mp hc with rfl | hc
      · exact ih c List.mem_cons_self hus x hx
      · exact ihcs (fun e he => ih e (List.mem_cons_of_mem _ he)) hws hc

theorem recognize_of_instantiate {supRet : Tree} {b : Bindings} {ts : List String}
    {kindOf : Nat → Symbol} (hf : supRet.Formed) (hs : supRet.symbol = Symbol.return_)
    (hn : supRet.Numbered) (hkinds : ∀ kind id, (kind, some id) ∈ supRet.heads → kind = kindOf id)
    (hb : b.Worded kindOf) (h : instantiate supRet b = some ts) :
    signature.recognize ts Symbol.return_ = true := by
  have hord : Tree.Ordinary supRet.symbol := hs ▸ Tree.ordinary_wildcard (by decide)
  unfold instantiate at h
  split at h
  · cases h
  next hopen =>
  have hσ : supRet.Supplied b.texts? (fillTree b.texts?) := by
    refine supplied_of_sentences hf ?_
    rintro ⟨kind, number⟩ hx
    obtain ⟨id, rfl⟩ : ∃ id, number = some id := hn.head_number hf hord _ hx
    obtain ⟨us, hus⟩ := Tree.bound_of_substitute h _ hx
    have hus : b.texts? id = some us := hus
    obtain ⟨v, hv, rfl⟩ := Option.map_eq_some_iff.mp hus
    have hclosed : v.isOpen = false := by
      have := List.any_eq_false.mp ((Bool.not_eq_true _).mp hopen) _ hx
      unfold Bindings.isOpen at this
      simpa [hv] using this
    refine ⟨id, _, rfl, hus, ?_⟩
    rw [hkinds kind id hx]
    exact hb id v hv hclosed
  obtain ⟨hgf, hgs, hread, hgp⟩ := hσ.graft hf hord hn
  rw [h] at hread
  refine (recognize_iff_sentence (by decide)).mpr ⟨_, hgf, hgs.trans hs, ?_⟩
  rw [hgp.yield_eq, ← Option.some.inj hread]

theorem recognize_returns {cast : Ty → Ref → Ty → Planned Transfer} {sub sup : Signature}
    {src src' : List String} {start start' : Symbol} {strict strict' : Bool}
    (hsub : signature.compile src start strict = .ok sub)
    (hsup : signature.compile src' start' strict' = .ok sup) {explicit : List (List String)}
    {r : Match} (h : admitsWith cast sub sup explicit = .ok (some r)) {ts : List String}
    (hts : r.returns = some ts) : signature.recognize ts Symbol.return_ = true := by
  obtain ⟨-, hsub, -⟩ := exists_kinded hsub
  obtain ⟨hstart, hsup, kindOf, hk⟩ := exists_kinded hsup
  have hord : Tree.Ordinary sup.root.symbol :=
    hsup.symbol_eq ▸ Tree.ordinary_of_mem_heads hstart
  cases hfun : sub.isFunction && sup.isFunction with
  | true =>
    obtain ⟨hsubfun, hsupfun⟩ := Bool.and_eq_true_iff.mp hfun
    obtain ⟨b, hb, hplan⟩ := planCall_of_admitsWith hsubfun hsupfun h
    have hb := worded_of_bindExplicit hk hsup.declared_mem hb
    obtain ⟨_, subRet, supRet, _, _, _, b', hsubRet, hsupRet, hunify, hdraft, hpromote, _, _,
      hreturns⟩ := planCall_stages hplan
    have hb' := worded_of_passes hsub hsup hord hk hb hsubRet hsupRet hunify hdraft hpromote
    obtain ⟨hf, hs, hy⟩ := mem_returnTree hsup hsupRet
    rw [hts] at hreturns
    refine recognize_of_instantiate hf hs (fun tok htok => hsup.numbered tok (hy tok htok))
      (fun kind id hid => ?_) hb' hreturns.symm
    exact hk.heads kind id (Tree.mem_heads_of_yield hf (hs ▸ Tree.ordinary_wildcard (by decide))
      hsup.formed hord hy _ hid)
  | false =>
    unfold admitsWith at h
    split at h
    · cases h
    rw [hfun] at h
    obtain ⟨b, _, rfl⟩ := Option.map_eq_some_iff.mp (Except.ok.inj h)
    cases hts

/-! ## The theorem -/

/-- **Instances are sentences**: if every wildcard of a signature compiled from a wildcardable start
stands for a sentence of its kind, substitution gives a sentence of the start, whose tree is the
tree of the signature with the trees of these sentences in the places of the heads; if some wildcard
stands for nothing, substitution gives nothing.  So the return of every match is a sentence, once
it is known. -/
theorem instances_are_sentences :
    (∀ (src : List String) (start : Symbol) (strict : Bool) (s : Signature),
      start ∈ signatureWildcards → signature.compile src start strict = .ok s →
        (∀ B : Nat → Option (List String),
          (∀ kind id, (kind, some id) ∈ s.root.heads →
            ∃ run, B id = some run ∧ signature.recognize run kind = true) →
          ∃ ts, s.root.substitute B = some ts ∧ signature.recognize ts start = true ∧
            signature.parsePlain ts start = some (s.root.graft (fillTree B)) ∧
            ∀ kind id, (kind, some id) ∈ s.root.heads → ∃ run, B id = some run ∧
              signature.parsePlain run kind = some (fillTree B kind (some id))) ∧
        ∀ (B : Nat → Option (List String)) (kind : Symbol) (id : Nat),
          (kind, some id) ∈ s.root.heads → B id = none → s.root.substitute B = none) ∧
    ∀ (m : CastRules) (src src' : List String) (start start' : Symbol) (strict strict' : Bool)
      (sub sup : Signature) (explicit : List (List String)) (r : Match) (ts : List String),
      signature.compile src start strict = .ok sub →
      signature.compile src' start' strict' = .ok sup →
      m.admits sub sup explicit = .ok (some r) → r.returns = some ts →
        signature.recognize ts Symbol.return_ = true := by
  constructor
  · intro src start strict s hstart hs
    have hc := compiledFrom_of_compile hstart hs
    have hord : Tree.Ordinary s.root.symbol := hc.symbol_eq ▸ Tree.ordinary_wildcard hstart
    refine ⟨fun B hB => ?_, fun B kind id hhead hnone => ?_⟩
    · have hσ : s.root.Supplied B (fillTree B) := by
        refine supplied_of_sentences hc.formed ?_
        rintro ⟨kind, number⟩ hx
        obtain ⟨id, rfl⟩ : ∃ id, number = some id := hc.numbered.head_number hc.formed hord _ hx
        obtain ⟨run, hrun, hrec⟩ := hB kind id hx
        have hkind := Tree.kind_mem_of_mem_heads hc.formed hx
        exact ⟨id, run, rfl, hrun, (recognize_iff_sentence hkind).mp hrec⟩
      obtain ⟨hf, hsym, hread, hplain⟩ := hσ.graft hc.formed hord hc.numbered
      have hparse : signature.parsePlain (s.root.graft (fillTree B)).tokens start =
          some (s.root.graft (fillTree B)) :=
        (parsePlain_eq_some_iff hstart).mpr ⟨hf, hsym.trans hc.symbol_eq, hplain.yield_eq⟩
      refine ⟨_, hread, recognize_eq_true_iff.mpr ⟨_, hparse⟩, hparse, fun kind id hx => ?_⟩
      obtain ⟨id', run, hid, hrun, hfill⟩ := hσ _ hx
      cases hid
      exact ⟨run, hrun,
        (parsePlain_eq_some_iff (Tree.kind_mem_of_mem_heads hc.formed hx)).mpr hfill⟩
    · cases hsub : s.root.substitute B with
      | none => rfl
      | some ts =>
        obtain ⟨us, hus⟩ := Tree.bound_of_substitute hsub _ hhead
        rw [Option.bind_some, hnone] at hus
        cases hus
  · intro m src src' start start' strict strict' sub sup explicit r ts hsub hsup h hts
    exact recognize_returns hsub hsup h hts

/-- `!Arithmetic FUNCTION ?0 ( ?0 )` with `F64` for its wildcard; called with `I32` it returns
`I32` -/
theorem instances_are_sentences_operator :
    ∃ sup call : Signature, signature.compile ["!Arithmetic", "FUNCTION", "?0", "(", "?0", ")"]
        Symbol.function false = .ok sup ∧
      signature.compile (openCallForm [⟨.arith .i32, .none⟩]) Symbol.function false = .ok call ∧
      sup.root.substitute (fun id => if id = 0 then some ["F64"] else none) =
        some ["FUNCTION", "F64", "(", "F64", ")"] ∧
      signature.recognize ["FUNCTION", "F64", "(", "F64", ")"] Symbol.function = true ∧
      sup.root.substitute (fun _ => none) = none ∧
      ∃ r, CastRules.admits ⟨none, []⟩ call sup [] = .ok (some r) ∧ r.returns = some ["I32"] ∧
        signature.recognize ["I32"] Symbol.return_ = true := by
  have hpre : signature.prepareBody ["!Arithmetic", "FUNCTION", "?0", "(", "?0", ")"] false =
      .ok ⟨[Symbol.arithmetic], formTokens [⟨Symbol.arithmetic, some 0⟩]
        (List.replicate 1 [⟨Symbol.arithmetic, some 0⟩])⟩ :=
    prepareBody_signature (by rintro ⟨_, _, _, _, _, _, _⟩ rfl; rfl)
  have hsup := compile_operatorForm hpre
  have hargs : [(⟨.arith .i32, .none⟩ : Arg)].map Arg.type = [Kind.i32].map Ty.arith := rfl
  have hvoid : ∀ a ∈ [(⟨.arith .i32, .none⟩ : Arg)], a.type ≠ .void := by simp
  obtain ⟨call, hcall⟩ := compile_open false (wellFormed_of_arith hargs) hvoid
  have hadmits := admits_operatorForm ⟨none, []⟩ ["!Arithmetic", "FUNCTION", "?0", "(", "?0", ")"]
    hargs (k := .i32) (by decide) hcall
  obtain ⟨hinstance, hreturn⟩ := instances_are_sentences
  obtain ⟨hfilled, hunfilled⟩ := hinstance _ _ _ _ (by decide) hsup
  have hheads : (operatorForm ["!Arithmetic", "FUNCTION", "?0", "(", "?0", ")"] 1).root.heads =
      [(Symbol.arithmetic, some 0), (Symbol.arithmetic, some 0)] := rfl
  have hF64 : signature.recognize ["F64"] Symbol.arithmetic = true :=
    (recognize_iff_sentence (by decide)).mpr (sentence_kind .f64)
  obtain ⟨ts, hts, hrec, -⟩ := hfilled (fun id => if id = 0 then some ["F64"] else none) (by
    intro kind id hid
    rw [hheads] at hid
    simp only [List.mem_cons, List.not_mem_nil, or_false, or_self] at hid
    cases hid
    exact ⟨_, rfl, hF64⟩)
  cases hts
  exact ⟨_, call, hsup, hcall, rfl, hrec,
    hunfilled _ Symbol.arithmetic 0 (by rw [hheads]; simp) rfl, _, hadmits, rfl,
    hreturn _ _ _ _ _ _ _ _ _ _ _ _ hcall hsup hadmits rfl⟩

end Overloading
