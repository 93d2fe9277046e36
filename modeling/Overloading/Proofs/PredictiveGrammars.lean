import Mathlib.Data.List.Perm.Lattice
import Mathlib.Data.List.Sigma
import Overloading.Proofs.PassBounds
import Overloading.Proofs.SententialForms

/-!
# Which grammars are accepted

A grammar is LL(1) if one token says which alternative of a nonterminal can apply: no terminal is
predicted by two of them.  This is a statement about derivations (`IsLL1`).  A build decides it:
the passes settle in time for the grammars of up to half as many nonterminals as passes, the sets
they settle in are those of the derivations, and the table has room for all productions exactly if
no two of them are predicted in one place.

* `Predicts`   a terminal may stand where an alternative is applied;
* `IsLL1`      the rules are complete, each nonterminal derives terminals, and one token decides;
* `Reorders`   the same rules, with the rules and the alternatives of each in another order;
* `exists_enterAll_iff`   when all productions find a place in the table;
* `build_accepts`         the build succeeds on the LL(1) grammars, and FIRST is exact.
-/

namespace Overloading

/-- what a production says about derivations: a nonterminal and a body for it -/
def Production.alternative (p : Production) : Symbol × List Symbol := (p.head, p.body)

/-- a terminal may stand where an alternative of a nonterminal is applied: the alternative can begin
with it, or the alternative can be empty and the nonterminal be followed by it -/
def Predicts (nonterminals wildcardable : List Symbol) (ps : List Production)
    (a : Symbol × List Symbol) (t : Symbol) : Prop :=
  First nonterminals ps a.2 t ∨ Produces ps a.2 [] ∧ Follow nonterminals wildcardable ps a.1 t

/-- two alternatives of one nonterminal predict a common terminal -/
def Clash (nonterminals wildcardable : List Symbol) (ps : List Production)
    (a b : Symbol × List Symbol) : Prop :=
  a.1 = b.1 ∧ ∃ t, Predicts nonterminals wildcardable ps a t ∧
    Predicts nonterminals wildcardable ps b t

/-- an LL(1) grammar: no two rules have one head, every wildcardable symbol has a rule, every
nonterminal derives a terminal sequence, and different productions of one nonterminal, its head
among them, predict different terminals -/
structure IsLL1 (rules : List Rule) (wildcardable : List Symbol) : Prop where
  distinct : (rules.map Rule.head).Nodup
  wildcards : ∀ x ∈ wildcardable, x ∈ rules.map Rule.head
  productive : ∀ x ∈ rules.map Rule.head,
    ∃ u, Yields (rules.map Rule.head) (productionsOf wildcardable rules) [x] u
  disjoint : ((productionsOf wildcardable rules).map Production.alternative).Pairwise fun a b =>
    ¬ Clash (rules.map Rule.head) wildcardable (productionsOf wildcardable rules) a b

/-- a rule with its alternatives in another order -/
structure Rule.Reordered (r r' : Rule) : Prop where
  head_eq : r.head = r'.head
  alts_perm : r.alts.Perm r'.alts

/-- rules in another order, and the alternatives of each of them -/
def Reorders (rules rules' : List Rule) : Prop :=
  ∃ mid, rules.Perm mid ∧ List.Forall₂ Rule.Reordered mid rules'

/-! ## The order of the rules -/

section
variable {nonterminals nonterminals' wildcardable : List Symbol} {ps ps' : List Production}
  (hps : ps.map Production.alternative ⊆ ps'.map Production.alternative)
  {α β u : List Symbol} {x t : Symbol}
include hps

theorem Rewrites.mono (h : Rewrites ps α β) : Rewrites ps' α β := by
  obtain ⟨p, hp, pre, post, rfl, rfl⟩ := h
  obtain ⟨q, hq, heq⟩ := List.mem_map.mp (hps (List.mem_map_of_mem hp))
  obtain ⟨hhead, hbody⟩ : q.head = p.head ∧ q.body = p.body := Prod.ext_iff.mp heq
  exact ⟨q, hq, pre, post, by rw [hhead], by rw [hbody]⟩

theorem Produces.mono (h : Produces ps α β) : Produces ps' α β :=
  Relation.ReflTransGen.mono (fun _ _ => Rewrites.mono hps) _ _ h

variable (hnonterminals : nonterminals' ⊆ nonterminals)
include hnonterminals

theorem Yields.mono (h : Yields nonterminals ps α u) : Yields nonterminals' ps' α u :=
  ⟨h.1.mono hps, fun s hs hmem => h.2 s hs (hnonterminals hmem)⟩

theorem Follow.mono (h : Follow nonterminals wildcardable ps x t) :
    Follow nonterminals' wildcardable ps' x t := by
  rcases h with ⟨ht, y, α, β, hy⟩ | ⟨ht, y, hy, α, hα⟩
  · exact .inl ⟨fun hmem => ht (hnonterminals hmem), y, α, β, hy.mono hps⟩
  · exact .inr ⟨ht, y, hy, α, hα.mono hps⟩

theorem Predicts.mono {a : Symbol × List Symbol}
    (h : Predicts nonterminals wildcardable ps a t) :
    Predicts nonterminals' wildcardable ps' a t := by
  rcases h with ⟨u, hu⟩ | ⟨hempty, hfollow⟩
  · exact .inl ⟨u, hu.mono hps hnonterminals⟩
  · exact .inr ⟨hempty.mono hps, hfollow.mono hps hnonterminals⟩

theorem Clash.mono {a b : Symbol × List Symbol} (h : Clash nonterminals wildcardable ps a b) :
    Clash nonterminals' wildcardable ps' a b := by
  obtain ⟨hhead, t, ha, hb⟩ := h
  exact ⟨hhead, t, ha.mono hps hnonterminals, hb.mono hps hnonterminals⟩

end

theorem Clash.symm {nonterminals wildcardable : List Symbol} {ps : List Production}
    {a b : Symbol × List Symbol} (h : Clash nonterminals wildcardable ps a b) :
    Clash nonterminals wildcardable ps b a := by
  obtain ⟨hhead, t, ha, hb⟩ := h
  exact ⟨hhead.symm, t, hb, ha⟩

/-- an LL(1) grammar stays one if its rules and productions are put in another order -/
theorem IsLL1.of_perm {rules rules' : List Rule} {wildcardable : List Symbol}
    (hheads : (rules.map Rule.head).Perm (rules'.map Rule.head))
    (hps : ((productionsOf wildcardable rules).map Production.alternative).Perm
      ((productionsOf wildcardable rules').map Production.alternative))
    (h : IsLL1 rules wildcardable) : IsLL1 rules' wildcardable where
  distinct := hheads.nodup h.distinct
  wildcards x hx := hheads.subset (h.wildcards x hx)
  productive x hx :=
    (h.productive x (hheads.symm.subset hx)).imp fun _ hu => hu.mono hps.subset hheads.symm.subset
  disjoint := (hps.pairwise_iff fun hclash h => hclash h.symm).mp <| h.disjoint.imp
    fun hclash hclash' => hclash (hclash'.mono hps.symm.subset hheads.subset)

theorem Rule.map_alternative_productions (wildcardable : List Symbol) (r : Rule) :
    (r.productions wildcardable).map Production.alternative =
      r.alts.map (Prod.mk r.head) ++
        if wildcardable.contains r.head then [(r.head, [Symbol.headOf r.head])] else [] := by
  have hordinary : r.ordinary.map Production.alternative = r.alts.map (Prod.mk r.head) := by
    unfold Rule.ordinary
    conv_rhs => rw [← List.zipIdx_map_fst 0 r.alts]
    rw [List.map_map, List.map_map]
    rfl
  unfold Rule.productions
  split
  · rw [List.map_append, hordinary]
    rfl
  · rw [hordinary, List.append_nil]

theorem Rule.Reordered.alternatives {r r' : Rule} (h : r.Reordered r')
    (wildcardable : List Symbol) :
    ((r.productions wildcardable).map Production.alternative).Perm
      ((r'.productions wildcardable).map Production.alternative) := by
  rw [Rule.map_alternative_productions, Rule.map_alternative_productions, h.head_eq]
  exact (h.alts_perm.map _).append_right _

theorem Reorders.heads {rules rules' : List Rule} (h : Reorders rules rules') :
    (rules.map Rule.head).Perm (rules'.map Rule.head) := by
  obtain ⟨mid, hperm, hmid⟩ := h
  refine (hperm.map Rule.head).trans (.of_eq ?_)
  clear hperm
  induction hmid with
  | nil => rfl
  | cons hr _ ih => rw [List.map_cons, List.map_cons, hr.head_eq, ih]

theorem Reorders.alternatives {rules rules' : List Rule} (h : Reorders rules rules')
    (wildcardable : List Symbol) :
    ((productionsOf wildcardable rules).map Production.alternative).Perm
      ((productionsOf wildcardable rules').map Production.alternative) := by
  obtain ⟨mid, hperm, hmid⟩ := h
  refine ((hperm.flatMap_right _).map _).trans ?_
  clear hperm
  induction hmid with
  | nil => exact .refl _
  | cons hr _ ih =>
    rw [List.flatMap_cons, List.map_append, productionsOf_cons, List.map_append]
    exact (hr.alternatives wildcardable).append ih

namespace Grammar

/-! ## Room in the table -/

section
variable {nonterminals : List Symbol} {l : Leading} {follow : SymbolSets}

theorem exists_enter {p : Production} {ts : List Symbol} {table : List Prediction}
    (hfree : ∀ t ∈ ts, ∀ q, entry? table p.head t = some q → q = p) :
    ∃ table', enter p ts table = .ok table' := by
  induction ts generalizing table with
  | nil => exact ⟨table, rfl⟩
  | cons t ts ih =>
    obtain ⟨ht, hts⟩ := List.forall_mem_cons.mp hfree
    rw [enter]
    cases hentry : entry? table p.head t with
    | some q =>
      simp only [ht q hentry, if_true]
      exact ih hts
    | none =>
      refine ih fun u hu q hq => ?_
      rw [entry_append, Option.or_eq_some_iff] at hq
      rcases hq with hq | ⟨-, hq⟩
      · exact hts u hu q hq
      · split at hq
        · exact (Option.some.inj hq).symm
        · cases hq

theorem exists_enterAll {ps : List Production} {table : List Prediction}
    (hfree : ∀ p ∈ ps, ∀ t ∈ predict nonterminals l follow p, ∀ q,
      entry? table p.head t = some q → q = p)
    (hapart : ∀ p ∈ ps, ∀ q ∈ ps, p.head = q.head → ∀ t ∈ predict nonterminals l follow p,
      t ∈ predict nonterminals l follow q → p = q) :
    ∃ table', enterAll nonterminals l follow ps table = .ok table' := by
  induction ps generalizing table with
  | nil => exact ⟨table, rfl⟩
  | cons p ps ih =>
    obtain ⟨mid, hmid⟩ := exists_enter (hfree p List.mem_cons_self)
    rw [enterAll, hmid]
    refine ih (fun q hq t ht r hr => ?_) fun q hq r hr =>
      hapart q (List.mem_cons_of_mem p hq) r (List.mem_cons_of_mem p hr)
    rcases (enter_spec hmid).2.2 q.head t r hr with hold | ⟨rfl, hhead, htr⟩
    · exact hfree q (List.mem_cons_of_mem p hq) t ht r hold
    · exact hapart r List.mem_cons_self q (List.mem_cons_of_mem r hq) hhead.symm t htr ht

/-- **The table** has room for all productions exactly if no two are predicted in one place. -/
theorem exists_enterAll_iff {ps : List Production} :
    (∃ table, enterAll nonterminals l follow ps [] = .ok table) ↔
      ∀ p ∈ ps, ∀ q ∈ ps, p.head = q.head → ∀ t ∈ predict nonterminals l follow p,
        t ∈ predict nonterminals l follow q → p = q := by
  constructor
  · rintro ⟨table, htable⟩ p hp q hq hhead t htp htq
    obtain ⟨-, hentry, -⟩ := enterAll_spec htable
    have hpt := hentry p hp t htp
    rw [hhead, hentry q hq t htq] at hpt
    exact (Option.some.inj hpt).symm
  · exact exists_enterAll fun p _ t _ q hq => by cases hq

end

/-! ## What a build decides -/

section
variable {rules : List Rule} {wildcardable : List Symbol}

theorem head_of_mem_productions {r : Rule} {p : Production} (hp : p ∈ r.productions wildcardable) :
    p.head = r.head := by
  have hmem : p ∈ productionsOf wildcardable [r] := by simpa [productionsOf] using hp
  simpa using head_mem_of_mem_productionsOf hmem

theorem nodup_productions (wildcardable : List Symbol) (r : Rule) :
    (r.productions wildcardable).Nodup := by
  have hordinary : r.ordinary.Nodup :=
    List.Nodup.of_map Production.alt (by
      unfold Rule.ordinary
      rw [List.map_map]
      exact List.nodup_zipIdx_map_snd r.alts)
  unfold Rule.productions
  split
  · refine List.nodup_append.mpr ⟨hordinary, List.nodup_singleton _, fun p hp q hq heq => ?_⟩
    obtain ⟨a, -, rfl⟩ := List.mem_map.mp hp
    obtain rfl := List.mem_singleton.mp hq
    exact Bool.false_ne_true (congrArg Production.wildcard heq)
  · exact hordinary

theorem nodup_productionsOf (hdistinct : (rules.map Rule.head).Nodup) :
    (productionsOf wildcardable rules).Nodup := by
  refine List.nodup_flatMap.mpr ⟨fun r _ => nodup_productions wildcardable r, ?_⟩
  refine (List.pairwise_map.mp hdistinct).imp fun {r r'} hne p hp hp' => hne ?_
  exact (head_of_mem_productions hp).symm.trans (head_of_mem_productions hp')

end

section
variable {rules : List Rule} {wildcardable : List Symbol}
  (hdistinct : (rules.map Rule.head).Nodup)
  (hwild : ∀ x ∈ wildcardable, x ∈ rules.map Rule.head)
  (hyields : ∀ x ∈ rules.map Rule.head,
    ∃ u, Yields (rules.map Rule.head) (productionsOf wildcardable rules) [x] u)
  {n m : Nat} {l : Leading} {follow : SymbolSets}
  (hleading : settle (leadingPass (rules.map Rule.head) (productionsOf wildcardable rules)) n
    ⟨SymbolSets.empty (rules.map Rule.head), []⟩ = some l)

include hyields hleading in
/-- the first terminals that are computed are those of the derivations -/
theorem mem_ofSequence_iff_first {α : List Symbol} {t : Symbol} :
    t ∈ (l.ofSequence (rules.map Rule.head) α).1 ↔
      First (rules.map Rule.head) (productionsOf wildcardable rules) α t :=
  Leading.mem_ofSequence_iff_first (fun _ => head_mem_of_mem_productionsOf)
    (closed_of_settle (fun _ => head_mem_of_mem_productionsOf) hleading)
    (sound_of_settle hleading) hyields

variable (hfollow : settle (followPass (rules.map Rule.head) l (productionsOf wildcardable rules)) m
    (followStart (rules.map Rule.head) wildcardable) = some follow)
include hwild hyields hleading hfollow

/-- a production is entered where derivations say that it may be applied -/
theorem mem_predict_iff_predicts {p : Production} (hp : p ∈ productionsOf wildcardable rules)
    {t : Symbol} :
    t ∈ predict (rules.map Rule.head) l follow p ↔
      Predicts (rules.map Rule.head) wildcardable (productionsOf wildcardable rules) p.alternative
        t := by
  have hheads : ∀ p ∈ productionsOf wildcardable rules, p.head ∈ rules.map Rule.head :=
    fun _ => head_mem_of_mem_productionsOf
  have hclosed := closed_of_settle hheads hleading
  have hsound := sound_of_settle hleading
  rw [mem_predict_iff, Leading.mem_ofSequence_iff_first hheads hclosed hsound hyields,
    Leading.ofSequence_empty_iff_produces hheads hclosed hsound,
    SymbolSets.mem_get_iff_follow hheads hclosed hsound hwild hfollow (hheads p hp)]
  exact Iff.rfl

include hdistinct in
theorem exists_table_iff :
    (∃ table, enterAll (rules.map Rule.head) l follow (productionsOf wildcardable rules) [] =
      .ok table) ↔
      ((productionsOf wildcardable rules).map Production.alternative).Pairwise fun a b =>
        ¬ Clash (rules.map Rule.head) wildcardable (productionsOf wildcardable rules) a b := by
  rw [exists_enterAll_iff, List.pairwise_map]
  have hpredict := @mem_predict_iff_predicts rules wildcardable hwild hyields n m l follow hleading
    hfollow
  constructor
  · intro hapart
    refine (nodup_productionsOf hdistinct).pairwise_of_forall_ne fun p hp q hq hne => ?_
    rintro ⟨hhead, t, htp, htq⟩
    exact hne (hapart p hp q hq hhead t ((hpredict hp).mpr htp) ((hpredict hq).mpr htq))
  · intro hdisjoint p hp q hq hhead t htp htq
    by_contra hne
    have hsymm : Std.Symm fun p q : Production => ¬ Clash (rules.map Rule.head) wildcardable
        (productionsOf wildcardable rules) p.alternative q.alternative :=
      ⟨fun _ _ h h' => h h'.symm⟩
    exact hdisjoint.forall hp hq hne ⟨hhead, t, (hpredict hp).mp htp, (hpredict hq).mp htq⟩

end

section
variable {rules : List Rule} {wildcardable : List Symbol}

theorem exists_build_iff (hsmall : (rules.map Rule.head).dedup.length ≤ 32) :
    (∃ g, build rules wildcardable = .ok g) ↔ IsLL1 rules wildcardable := by
  have hheads : ∀ p ∈ productionsOf wildcardable rules, p.head ∈ rules.map Rule.head :=
    fun _ => head_mem_of_mem_productionsOf
  constructor
  · rintro ⟨g, hg⟩
    obtain ⟨hdistinct, hwild, productive, leading, follow, table, hproductive, hall, hleading,
      hfollow, htable, -⟩ := build_eq_ok_iff.mp hg
    have hyields := fun x hx => (mem_productive_iff hproductive hx).mp (hall x hx)
    exact ⟨hdistinct, hwild, hyields,
      (exists_table_iff hdistinct hwild hyields hleading hfollow).mp ⟨table, htable⟩⟩
  · rintro ⟨hdistinct, hwild, hyields, hdisjoint⟩
    rw [hdistinct.dedup] at hsmall
    have hlimit : 2 * (rules.map Rule.head).length < passLimit + 1 := by
      unfold passLimit
      omega
    have hbelow : (rules.map Rule.head).length < passLimit + 1 := by omega
    obtain ⟨productive, hproductive⟩ := settle_productive hheads hbelow
    obtain ⟨leading, hleading⟩ := Leading.settle_leading hdistinct hheads hlimit
    obtain ⟨follow, hfollow⟩ := settle_follow hdistinct leading wildcardable hbelow
    obtain ⟨table, htable⟩ :=
      (exists_table_iff hdistinct hwild hyields hleading hfollow).mpr hdisjoint
    exact ⟨_, build_eq_ok_iff.mpr ⟨hdistinct, hwild, productive, leading, follow, table,
      hproductive, fun x hx => (mem_productive_iff hproductive hx).mpr (hyields x hx), hleading,
      hfollow, htable, rfl⟩⟩

theorem mem_first_of_build {g : Grammar} (hg : build rules wildcardable = .ok g) {x t : Symbol}
    (hx : x ∈ rules.map Rule.head) :
    t ∈ g.first x ↔ First (rules.map Rule.head) (productionsOf wildcardable rules) [x] t := by
  obtain ⟨-, -, productive, leading, follow, table, hproductive, hall, hleading, -, -, rfl⟩ :=
    build_eq_ok_iff.mp hg
  have hyields := fun y hy => (mem_productive_iff hproductive hy).mp (hall y hy)
  rw [← mem_ofSequence_iff_first hyields hleading, Leading.ofSequence_singleton hx]
  exact List.mem_mergeSort

/-- **The build accepts the LL(1) grammars.**  For every list of rules with at most 32 nonterminals
it succeeds exactly if the grammar is LL(1); then FIRST of a nonterminal holds exactly the
terminals that begin a terminal sequence derived from it; and the order of the rules, and of the
alternatives of each, does not matter for success. -/
theorem build_accepts {rules : List Rule} {wildcardable : List Symbol}
    (hsmall : (rules.map Rule.head).dedup.length ≤ 32) :
    ((∃ g, build rules wildcardable = .ok g) ↔ IsLL1 rules wildcardable) ∧
      (∀ g, build rules wildcardable = .ok g → ∀ x ∈ rules.map Rule.head, ∀ t,
        t ∈ g.first x ↔
          First (rules.map Rule.head) (productionsOf wildcardable rules) [x] t) ∧
      ∀ rules', Reorders rules rules' →
        ((∃ g, build rules' wildcardable = .ok g) ↔ ∃ g, build rules wildcardable = .ok g) := by
  refine ⟨exists_build_iff hsmall, fun g hg x hx t => mem_first_of_build hg hx,
    fun rules' horder => ?_⟩
  have hsmall' : (rules'.map Rule.head).dedup.length ≤ 32 :=
    horder.heads.dedup.length_eq ▸ hsmall
  have halts := horder.alternatives wildcardable
  rw [exists_build_iff hsmall, exists_build_iff hsmall']
  exact ⟨.of_perm horder.heads.symm halts.symm, .of_perm horder.heads halts⟩

/-- lists of items between brackets are LL(1) -/
theorem build_accepts_lists :
    ([⟨"List", [["[", "Items", "]"]]⟩, ⟨"Items", [["x", "Items"], []]⟩].map Rule.head).dedup.length
      ≤ 32 ∧
    IsLL1 [⟨"List", [["[", "Items", "]"]]⟩, ⟨"Items", [["x", "Items"], []]⟩] ["Items"] := by
  have hsmall : ([⟨"List", [["[", "Items", "]"]]⟩, ⟨"Items", [["x", "Items"], []]⟩].map
      Rule.head).dedup.length ≤ 32 := by decide
  refine ⟨hsmall, (build_accepts hsmall).1.mp ?_⟩
  have hok : (build [⟨"List", [["[", "Items", "]"]]⟩, ⟨"Items", [["x", "Items"], []]⟩]
      ["Items"]).isOk = true := by decide +kernel
  cases hbuild : build [⟨"List", [["[", "Items", "]"]]⟩, ⟨"Items", [["x", "Items"], []]⟩]
      ["Items"] with
  | ok g => exact ⟨g, rfl⟩
  | error e =>
    rw [hbuild] at hok
    cases hok

end

end Grammar

end Overloading
