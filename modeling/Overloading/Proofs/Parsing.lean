import Mathlib.Data.List.Perm.Subperm
import Overloading.Proofs.Prediction

/-!
# The parser reads the derivation tree

`Grammar.parse` is compared with the derivation trees of the rules.

* `derives_of_parseSymbol`     what the parser returns is a derived tree over the tokens it read;
* `parseSymbol_of_derived`     in front of a token that may follow, the parser finds every derived
                               tree, given calls as deep as the tree;
* `derived_unique`             so two trees at one place of the tokens are the same tree;
* `depth_add_length_le`        and no nonterminal stands above itself at one place, which bounds
                               the depth of a tree by the number of its tokens.

Together: `parse_eq_some_iff`.
-/

namespace Overloading

namespace Grammar

variable {rules : List Rule} {wildcardable : List Symbol} {g : Grammar}

/-! ## What the parser returns is derived -/

theorem derives_of_parseSequence {one : Symbol → List Token → Option (Tree × List Token)}
    {P : Tree → Prop}
    (hone : ∀ s rest t rest', one s rest = some (t, rest') →
      P t ∧ t.symbol = s ∧ rest = t.yield ++ rest')
    {ss : List Symbol} {rest rest' : List Token} {cs : List Tree}
    (h : parseSequence one ss rest = some (cs, rest')) :
    (∀ c ∈ cs, P c) ∧ cs.map Tree.symbol = ss ∧ rest = Tree.yieldAll cs ++ rest' := by
  induction ss generalizing rest cs with
  | nil =>
    rw [parseSequence] at h
    cases h
    exact ⟨fun _ hc => (List.not_mem_nil hc).elim, rfl, rfl⟩
  | cons s ss ih =>
    rw [parseSequence] at h
    split at h
    · cases h
    next t mid ht =>
    split at h
    · cases h
    next ts last hts =>
    cases h
    obtain ⟨h1, h2, h3⟩ := hone s rest t mid ht
    obtain ⟨k1, k2, k3⟩ := ih hts
    refine ⟨fun c hc => ?_, ?_, ?_⟩
    · rcases List.mem_cons.mp hc with rfl | hc
      · exact h1
      · exact k1 c hc
    · rw [List.map_cons, h2, k2]
    · rw [Tree.yieldAll_cons, List.append_assoc, ← k3]
      exact h3

theorem derives_of_parseSymbol (hg : g.Compiled rules wildcardable) {n : Nat} {s : Symbol}
    {rest rest' : List Token} {t : Tree} (h : g.parseSymbol n s rest = some (t, rest')) :
    t.Derived rules wildcardable g.classify ∧ t.symbol = s ∧ rest = t.yield ++ rest' := by
  induction n generalizing s rest t rest' with
  | zero => rw [parseSymbol] at h; cases h
  | succ n ih =>
    rw [parseSymbol] at h
    split at h
    · split at h
      · cases h
      next p hp =>
      split at h
      · cases h
      next cs last hcs =>
      cases h
      obtain ⟨hmem, hhead⟩ := hg.mem_productions_of_entry hp
      obtain ⟨h1, h2, h3⟩ := derives_of_parseSequence (fun _ _ _ _ => ih) hcs
      rw [hg.productions_eq] at hmem
      exact ⟨.node hmem h2 h1, (symbol_plant p cs).trans hhead, by rw [yield_plant]; exact h3⟩
    · next hs =>
      unfold parseTerminal at h
      split at h
      · cases h
      next tok more =>
      split at h
      · next hc =>
        cases h
        have hterm : s ∉ rules.map Rule.head := fun hmem => hs (hg.isNonterminal_iff.mpr hmem)
        exact ⟨.leaf hterm (by simpa using hc), rfl, rfl⟩
      · cases h

/-! ## The parser finds what is derived -/

theorem parseSequence_of_forall {one : Symbol → List Token → Option (Tree × List Token)}
    {cs : List Tree} {rest : List Token}
    (hone : ∀ pre c post, cs = pre ++ c :: post →
      one c.symbol (c.yield ++ (Tree.yieldAll post ++ rest)) =
        some (c, Tree.yieldAll post ++ rest)) :
    parseSequence one (cs.map Tree.symbol) (Tree.yieldAll cs ++ rest) = some (cs, rest) := by
  induction cs with
  | nil => rfl
  | cons c cs ih =>
    have hc := hone [] c cs rfl
    have htail := ih fun pre d post hd => hone (c :: pre) d post (by rw [hd]; rfl)
    rw [List.map_cons, Tree.yieldAll_cons, List.append_assoc, parseSequence, hc]
    simp only [htail]

theorem parseSymbol_of_derived (hg : g.Compiled rules wildcardable) {t : Tree}
    (h : t.Derived rules wildcardable g.classify) {rest : List Token}
    (hfit : g.Fits t.symbol (g.lookahead rest)) {n : Nat} (hn : t.depth ≤ n) :
    g.parseSymbol n t.symbol (t.yield ++ rest) = some (t, rest) := by
  induction h using Tree.Derived.induct generalizing rest n with
  | @leaf s tok hs hclass =>
    obtain ⟨n, rfl⟩ : ∃ m, n = m + 1 := ⟨n - 1, by rw [Tree.depth] at hn; omega⟩
    have hs' : ¬ g.isNonterminal s = true := fun h => hs (hg.isNonterminal_iff.mp h)
    show g.parseSymbol (n + 1) s (tok :: rest) = _
    rw [parseSymbol, if_neg hs']
    show (if g.classify tok.text == s then _ else _) = _
    rw [if_pos (by simpa using hclass)]
  | @node p cs hp hbody hcs ih =>
    rw [depth_plant] at hn
    rw [symbol_plant] at hfit ⊢
    rw [yield_plant]
    obtain ⟨n, rfl⟩ : ∃ m, n = m + 1 := ⟨n - 1, by omega⟩
    rw [← hg.productions_eq] at hp
    have hhead := hg.head_mem hp
    have hfit' := hfit hhead
    have hentry := hg.entry_of_mem_predict hp (mem_predict hg hbody hcs hfit')
    have hseq : parseSequence (g.parseSymbol n) p.body (Tree.yieldAll cs ++ rest) =
        some (cs, rest) := by
      rw [← hbody]
      refine parseSequence_of_forall fun pre c post hsplit => ?_
      subst hsplit
      have hc : c ∈ pre ++ c :: post := List.mem_append_right _ List.mem_cons_self
      refine ih c hc (fits_child hg hp hbody (fun d hd => ?_) hfit') ?_
      · exact hcs d (List.mem_append_right _ (List.mem_cons_of_mem _ hd))
      · have := Tree.depth_le_depthAll hc
        omega
    rw [parseSymbol, if_pos (by unfold isNonterminal; simpa using hhead), hentry]
    simp only [hseq]

/-- at one place of the tokens there is one derived tree of a symbol, if what follows may follow -/
theorem derived_unique (hg : g.Compiled rules wildcardable) {t u : Tree}
    (ht : t.Derived rules wildcardable g.classify) (hu : u.Derived rules wildcardable g.classify)
    (hsym : t.symbol = u.symbol) {rest rest' : List Token}
    (htfit : g.Fits t.symbol (g.lookahead rest)) (hufit : g.Fits u.symbol (g.lookahead rest'))
    (htokens : t.yield ++ rest = u.yield ++ rest') : t = u := by
  have h1 := parseSymbol_of_derived hg ht htfit (Nat.le_max_left t.depth u.depth)
  have h2 := parseSymbol_of_derived hg hu hufit (Nat.le_max_right t.depth u.depth)
  rw [hsym, htokens, h2] at h1
  exact (Prod.mk.inj (Option.some.inj h1)).1.symm

/-! ## How deep a derived tree is -/

/-- nonterminals that deeper trees beginning at the same place are rooted in -/
structure Above (rules : List Rule) (wildcardable : List Symbol) (g : Grammar) (t : Tree)
    (rest : List Token) (above : List Symbol) : Prop where
  nodup : above.Nodup
  sub : ∀ a ∈ above, a ∈ g.nonterminals
  deeper : ∀ a ∈ above, ∃ (u : Tree) (rest' : List Token),
    u.Derived rules wildcardable g.classify ∧ u.symbol = a ∧ g.Fits a (g.lookahead rest') ∧
      u.yield ++ rest' = t.yield ++ rest ∧ t.depth < u.depth

theorem Above.length_le {t : Tree} {rest : List Token} {above : List Symbol}
    (h : Above rules wildcardable g t rest above) : above.length ≤ g.nonterminals.length :=
  (List.subperm_of_subset h.nodup h.sub).length_le

theorem Above.nil (t : Tree) (rest : List Token) : Above rules wildcardable g t rest [] :=
  ⟨List.nodup_nil, fun _ ha => (List.not_mem_nil ha).elim, fun _ ha => (List.not_mem_nil ha).elim⟩

/-- a tree is not rooted in a nonterminal above it: it would be its own proper part -/
theorem Above.not_mem (hg : g.Compiled rules wildcardable) {t : Tree}
    (ht : t.Derived rules wildcardable g.classify) {rest : List Token}
    (hfit : g.Fits t.symbol (g.lookahead rest)) {above : List Symbol}
    (h : Above rules wildcardable g t rest above) : t.symbol ∉ above := by
  intro hmem
  obtain ⟨u, rest', hu, hsym, hufit, htokens, hlt⟩ := h.deeper _ hmem
  have e := derived_unique hg hu ht hsym (by rw [hsym]; exact hufit) hfit htokens
  rw [e] at hlt
  exact Nat.lt_irrefl _ hlt

/-- the first of the children that read tokens, and those before it, have their parent above them
too -/
theorem Above.child (hg : g.Compiled rules wildcardable) {p : Production} {pre post : List Tree}
    {c : Tree} (ht : (plant p (pre ++ c :: post)).Derived rules wildcardable g.classify)
    (hhead : p.head ∈ g.nonterminals) {rest : List Token}
    (hfit : g.Fits p.head (g.lookahead rest)) {above : List Symbol}
    (h : Above rules wildcardable g (plant p (pre ++ c :: post)) rest above)
    (hpre : Tree.yieldAll pre = []) :
    Above rules wildcardable g c (Tree.yieldAll post ++ rest) (p.head :: above) := by
  have hyield : (plant p (pre ++ c :: post)).yield ++ rest =
      c.yield ++ (Tree.yieldAll post ++ rest) := by
    rw [yield_plant, Tree.yieldAll_append, hpre, List.nil_append, Tree.yieldAll_cons,
      List.append_assoc]
  have hdepth : c.depth < (plant p (pre ++ c :: post)).depth := by
    rw [depth_plant]
    have hc : c ∈ pre ++ c :: post := List.mem_append_right _ List.mem_cons_self
    have := Tree.depth_le_depthAll hc
    omega
  have hnot := h.not_mem hg ht (by rw [symbol_plant]; exact hfit)
  rw [symbol_plant] at hnot
  refine ⟨List.nodup_cons.mpr ⟨hnot, h.nodup⟩, fun a ha => ?_, fun a ha => ?_⟩
  · rcases List.mem_cons.mp ha with rfl | ha
    · exact hhead
    · exact h.sub a ha
  · rcases List.mem_cons.mp ha with rfl | ha
    · exact ⟨_, rest, ht, symbol_plant _ _, hfit, hyield, hdepth⟩
    · obtain ⟨u, rest', hu, hsym, hufit, htokens, hlt⟩ := h.deeper a ha
      exact ⟨u, rest', hu, hsym, hufit, htokens.trans hyield, by omega⟩

/-- at one place no nonterminal stands above itself, so what is not spent on tokens is spent on
different nonterminals -/
theorem depth_add_length_le (hg : g.Compiled rules wildcardable) {t : Tree}
    (ht : t.Derived rules wildcardable g.classify) {rest : List Token}
    (hfit : g.Fits t.symbol (g.lookahead rest)) {above : List Symbol}
    (h : Above rules wildcardable g t rest above) :
    t.depth + above.length ≤
      t.yield.length * (g.nonterminals.length + 1) + g.nonterminals.length + 1 := by
  induction ht using Tree.Derived.induct generalizing rest above with
  | @leaf s tok hs hclass =>
    have := h.length_le
    rw [Tree.depth, Tree.yield, List.length_singleton]
    omega
  | @node p cs hp hbody hcs ih =>
    have ht := Tree.Derived.node hp hbody hcs
    rw [← hg.productions_eq] at hp
    have hhead := hg.head_mem hp
    rw [symbol_plant] at hfit
    have hlen := h.length_le
    have hchild : ∀ c ∈ cs, c.depth + above.length ≤
        (Tree.yieldAll cs).length * (g.nonterminals.length + 1) + g.nonterminals.length := by
      intro c hc
      obtain ⟨pre, post, rfl⟩ := List.append_of_mem hc
      have hcfit : g.Fits c.symbol (g.lookahead (Tree.yieldAll post ++ rest)) :=
        fits_child hg hp hbody
          (fun d hd => hcs d (List.mem_append_right _ (List.mem_cons_of_mem _ hd))) (hfit hhead)
      rw [Tree.yieldAll_append, Tree.yieldAll_cons, List.length_append, List.length_append]
      by_cases hpre : Tree.yieldAll pre = []
      · have hi := ih c hc hcfit (h.child hg ht hhead hfit hpre)
        rw [List.length_cons] at hi
        have hmul := Nat.mul_le_mul_right (g.nonterminals.length + 1)
          (show c.yield.length ≤
            (Tree.yieldAll pre).length + (c.yield.length + (Tree.yieldAll post).length) by omega)
        omega
      · -- a token has been read before this child: nothing stands above it at its place
        have hi := ih c hc hcfit (Above.nil c _)
        have hpos := List.length_pos_iff.mpr hpre
        have hmul := Nat.mul_le_mul_right (g.nonterminals.length + 1)
          (show c.yield.length + 1 ≤
            (Tree.yieldAll pre).length + (c.yield.length + (Tree.yieldAll post).length) by omega)
        rw [Nat.succ_mul] at hmul
        rw [List.length_nil] at hi
        omega
    rw [depth_plant, yield_plant]
    have hall : Tree.depthAll cs ≤ (Tree.yieldAll cs).length * (g.nonterminals.length + 1) +
        g.nonterminals.length - above.length := by
      refine Tree.depthAll_le fun c hc => ?_
      have := hchild c hc
      omega
    omega

theorem depth_le_depthBound (hg : g.Compiled rules wildcardable) {t : Tree}
    (ht : t.Derived rules wildcardable g.classify) {rest : List Token}
    (hfit : g.Fits t.symbol (g.lookahead rest)) : t.depth ≤ g.depthBound t.yield.length := by
  have h := depth_add_length_le hg ht hfit (Above.nil t rest)
  unfold depthBound
  rw [Nat.succ_mul]
  rw [List.length_nil] at h
  omega

/-! ## Parsing decides derivability -/

theorem fits_finish (hg : g.Compiled rules wildcardable) {start : Symbol}
    (hs : start ∈ wildcardable) : g.Fits start (g.lookahead []) := fun _ => hg.finish_mem start hs

theorem derives_of_parse (hg : g.Compiled rules wildcardable) {start : Symbol}
    {tokens : List Token} {t : Tree} (h : g.parse tokens start = some t) :
    start ∈ g.nonterminals ∧ t.Derives rules wildcardable g.classify start tokens := by
  unfold parse at h
  split at h
  · next hnt =>
    split at h
    · next u hu =>
      cases h
      obtain ⟨h1, h2, h3⟩ := derives_of_parseSymbol hg hu
      exact ⟨isNonterminal_iff_mem.mp hnt, h1, h2, by rw [h3, List.append_nil]⟩
    · cases h
  · cases h

theorem parse_eq_some_iff (hg : g.Compiled rules wildcardable) {start : Symbol}
    (hs : start ∈ wildcardable) {tokens : List Token} {t : Tree} :
    g.parse tokens start = some t ↔
      t.Derives rules wildcardable g.classify start tokens := by
  constructor
  · exact fun h => (derives_of_parse hg h).2
  · intro h
    obtain ⟨hd, rfl, rfl⟩ := h
    have hfit := fits_finish hg hs
    have hp := parseSymbol_of_derived hg hd hfit (depth_le_depthBound hg hd hfit)
    rw [List.append_nil] at hp
    unfold parse
    rw [if_pos (isNonterminal_iff_mem.mpr (hg.wildcards_mem _ hs)), hp]

theorem derives_unique (hg : g.Compiled rules wildcardable) {start : Symbol}
    (hs : start ∈ wildcardable) {tokens : List Token} {t u : Tree}
    (ht : t.Derives rules wildcardable g.classify start tokens)
    (hu : u.Derives rules wildcardable g.classify start tokens) : t = u := by
  have h1 := (parse_eq_some_iff hg hs).mpr ht
  have h2 := (parse_eq_some_iff hg hs).mpr hu
  exact Option.some.inj (h1.symm.trans h2)

end Grammar

end Overloading
