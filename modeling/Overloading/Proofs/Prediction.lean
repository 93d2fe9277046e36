import Overloading.Proofs.Derivation
import Overloading.Proofs.Saturation

/-!
# What a compiled grammar predicts

`Grammar.Compiled` collects what `Grammar.build` has computed and checked, in the form the parser
needs it; `compiled_of_build` reads it off a successful build.

* `build_eq_ok_iff`   a build succeeds if each of its checks does and all its passes settle;
* `entry_of_mem_predict`, `mem_productions_of_entry`   the table holds each production in exactly
  the places it is predicted in, so a place holds only one;
* `Starts`, `Fits`   the token after a place is one FIRST or FOLLOW knows of;
* `mem_predict`   a production is predicted in front of everything it derives.
-/

namespace Overloading

namespace Grammar

/-! ## The table -/

theorem entry_append (table : List Prediction) (e : Prediction) (a t : Symbol) :
    entry? (table ++ [e]) a t = ( entry? table a t).or
      (if e.head == a && e.terminal == t then some e.production else none) := by
  unfold entry?
  rw [List.find?_append]
  cases List.find? (fun e => e.head == a && e.terminal == t) table with
  | some q => rfl
  | none =>
    rw [Option.none_or, List.find?_singleton]
    split <;> rfl

theorem enter_spec {p : Production} {ts : List Symbol} {table table' : List Prediction}
    (h : enter p ts table = .ok table') :
    (∀ a t q, entry? table a t = some q → entry? table' a t = some q) ∧
      (∀ t ∈ ts, entry? table' p.head t = some p) ∧
      (∀ a t q, entry? table' a t = some q →
        entry? table a t = some q ∨ (q = p ∧ a = p.head ∧ t ∈ ts)) := by
  induction ts generalizing table with
  | nil =>
    rw [enter] at h
    cases h
    exact ⟨fun _ _ _ hq => hq, fun _ ht => (List.not_mem_nil ht).elim, fun _ _ _ hq => .inl hq⟩
  | cons t ts ih =>
    rw [enter] at h
    cases ht : entry? table p.head t with
    | some q =>
      rw [ht] at h
      by_cases hq : q = p
      · simp only [if_pos hq] at h
        obtain ⟨h1, h2, h3⟩ := ih h
        subst hq
        refine ⟨h1, fun u hu => ?_, fun a u r hr => ?_⟩
        · rcases List.mem_cons.mp hu with rfl | hu
          · exact h1 _ _ _ ht
          · exact h2 u hu
        · rcases h3 a u r hr with h | ⟨e1, e2, e3⟩
          · exact .inl h
          · exact .inr ⟨e1, e2, List.mem_cons_of_mem _ e3⟩
      · simp only [if_neg hq] at h
        cases h
    | none =>
      rw [ht] at h
      obtain ⟨h1, h2, h3⟩ := ih h
      have hkeep : ∀ a u q, entry? table a u = some q →
          entry? (table ++ [⟨p.head, t, p⟩]) a u = some q := by
        intro a u q hq
        rw [entry_append, hq]
        rfl
      have hnew : entry? (table ++ [⟨p.head, t, p⟩]) p.head t = some p := by
        rw [entry_append, ht]
        simp
      refine ⟨fun a u q hq => h1 _ _ _ (hkeep a u q hq), fun u hu => ?_, fun a u q hq => ?_⟩
      · rcases List.mem_cons.mp hu with rfl | hu
        · exact h1 _ _ _ hnew
        · exact h2 u hu
      · rcases h3 a u q hq with h | ⟨e1, e2, e3⟩
        · rw [entry_append] at h
          cases hold : entry? table a u with
          | some r => rw [hold] at h; exact .inl h
          | none =>
            rw [hold] at h
            simp only [Option.none_or] at h
            split at h
            · next hc =>
              simp only [Bool.and_eq_true, beq_iff_eq] at hc
              cases h
              exact .inr ⟨rfl, hc.1.symm, hc.2 ▸ List.mem_cons_self⟩
            · cases h
        · exact .inr ⟨e1, e2, List.mem_cons_of_mem _ e3⟩

theorem enterAll_spec {nonterminals : List Symbol} {l : Leading} {follow : SymbolSets}
    {ps : List Production} {table table' : List Prediction}
    (h : enterAll nonterminals l follow ps table = .ok table') :
    (∀ a t q, entry? table a t = some q → entry? table' a t = some q) ∧
      (∀ p ∈ ps, ∀ t ∈ predict nonterminals l follow p, entry? table' p.head t = some p) ∧
      (∀ a t q, entry? table' a t = some q →
        entry? table a t = some q ∨
          (q ∈ ps ∧ a = q.head ∧ t ∈ predict nonterminals l follow q)) := by
  induction ps generalizing table with
  | nil =>
    rw [enterAll] at h
    cases h
    exact ⟨fun _ _ _ hq => hq, fun _ hp => (List.not_mem_nil hp).elim, fun _ _ _ hq => .inl hq⟩
  | cons p ps ih =>
    rw [enterAll] at h
    cases he : enter p (predict nonterminals l follow p) table with
    | error e => rw [he] at h; cases h
    | ok mid =>
      rw [he] at h
      obtain ⟨k1, k2, k3⟩ := enter_spec he
      obtain ⟨h1, h2, h3⟩ := ih h
      refine ⟨fun a t q hq => h1 _ _ _ (k1 _ _ _ hq), fun q hq t ht => ?_, fun a t q hq => ?_⟩
      · rcases List.mem_cons.mp hq with rfl | hq
        · exact h1 _ _ _ (k2 t ht)
        · exact h2 q hq t ht
      · rcases h3 a t q hq with h | ⟨e1, e2⟩
        · rcases k3 a t q h with h | ⟨rfl, e1, e2⟩
          · exact .inl h
          · exact .inr ⟨List.mem_cons_self, e1, e2⟩
        · exact .inr ⟨List.mem_cons_of_mem _ e1, e2⟩

theorem mem_predict_iff {nonterminals : List Symbol} {l : Leading} {follow : SymbolSets}
    {p : Production} {t : Symbol} :
    t ∈ predict nonterminals l follow p ↔ t ∈ (l.ofSequence nonterminals p.body).1 ∨
      (l.ofSequence nonterminals p.body).2 = true ∧ t ∈ follow.get p.head := by
  show t ∈ (if (l.ofSequence nonterminals p.body).2 then
    includeAll (l.ofSequence nonterminals p.body).1 (follow.get p.head)
    else (l.ofSequence nonterminals p.body).1) ↔ _
  split
  · next hempty => rw [mem_includeAll, and_iff_right hempty]
  · next hempty => exact ⟨.inl, fun h => h.elim id fun h => absurd h.1 hempty⟩

/-! ## The sets in which the passes settle -/

theorem keys_empty (xs : List Symbol) : (SymbolSets.empty xs).keys = xs := by
  unfold SymbolSets.empty SymbolSets.keys
  rw [List.map_map]
  exact List.map_id xs

theorem keys_followStart (nonterminals wildcardable : List Symbol) :
    (followStart nonterminals wildcardable).keys = nonterminals := by
  unfold followStart SymbolSets.keys
  rw [List.map_map]
  exact List.map_id nonterminals

/-- before the first pass only the finish follows anything, and only a wildcardable nonterminal -/
theorem mem_followStart {nonterminals wildcardable : List Symbol} {x t : Symbol} :
    t ∈ (followStart nonterminals wildcardable).get x ↔
      x ∈ nonterminals ∧ x ∈ wildcardable ∧ t = Symbol.finish := by
  by_cases hx : x ∈ nonterminals
  · have hkey : x ∈ (followStart nonterminals wildcardable).keys := by
      rw [keys_followStart]
      exact hx
    obtain ⟨y, -, e⟩ := List.mem_map.mp (SymbolSets.get_mem hkey)
    have e1 : y = x := congrArg Prod.fst e
    have e2 : (if wildcardable.contains y then [Symbol.finish] else []) =
        (followStart nonterminals wildcardable).get x := congrArg Prod.snd e
    rw [← e2, e1]
    by_cases hw : x ∈ wildcardable
    · simp [hx, hw]
    · simp [hw]
  · refine ⟨fun h => absurd (SymbolSets.mem_keys_of_mem_get h) ?_, fun h => absurd h.1 hx⟩
    rw [keys_followStart]
    exact hx

section
variable {nonterminals wildcardable : List Symbol} {ps : List Production} {l : Leading}
  {follow : SymbolSets} {n : Nat}

theorem closed_of_settle (hheads : ∀ p ∈ ps, p.head ∈ nonterminals)
    (h : settle (leadingPass nonterminals ps) n ⟨SymbolSets.empty nonterminals, []⟩ = some l) :
    l.Closed nonterminals ps := by
  have hkeys : l.first.keys = nonterminals :=
    settle_keeps (fun l hl => (keys_leadingPass _ _ l).trans hl) h (keys_empty _)
  exact Leading.closed_of_pass_eq (fun p hp => hkeys ▸ hheads p hp) (pass_eq_of_settle h)

theorem followClosed_of_settle
    (h : settle (followPass nonterminals l ps) n (followStart nonterminals wildcardable) =
      some follow) : follow.FollowClosed nonterminals l ps := by
  have hkeys : follow.keys = nonterminals :=
    settle_keeps (fun m hm => (keys_followPass _ _ _ m).trans hm) h (keys_followStart _ _)
  exact followClosed_of_pass_eq (fun s hs => hkeys ▸ hs) (pass_eq_of_settle h)

theorem finish_mem_of_settle
    (h : settle (followPass nonterminals l ps) n (followStart nonterminals wildcardable) =
      some follow) {x : Symbol} (hx : x ∈ nonterminals) (hw : x ∈ wildcardable) :
    Symbol.finish ∈ follow.get x :=
  settle_keeps (P := fun m => Symbol.finish ∈ m.get x) (fun _ => mem_followPass) h
    (mem_followStart.mpr ⟨hx, hw, rfl⟩)

end

/-! ## The checks -/

theorem repeated?_eq_none_iff {seen xs : List Symbol} :
    repeated? seen xs = none ↔ xs.Nodup ∧ ∀ x ∈ xs, x ∉ seen := by
  induction xs generalizing seen with
  | nil => simp [repeated?]
  | cons x xs ih =>
    rw [repeated?, List.nodup_cons, List.forall_mem_cons]
    by_cases hx : x ∈ seen
    · simp [hx]
    · rw [if_neg (by simpa using hx), ih]
      simp only [List.mem_cons, not_or]
      grind

theorem unproductive_eq_nil_iff {nonterminals productive : List Symbol} :
    unproductive nonterminals productive = [] ↔ ∀ x ∈ nonterminals, x ∈ productive := by
  unfold unproductive
  rw [← List.length_eq_zero_iff, List.length_mergeSort, List.length_eq_zero_iff,
    List.filter_eq_nil_iff]
  simp

/-- a build succeeds if each of its checks does and all its passes settle -/
theorem build_eq_ok_iff {rules : List Rule} {wildcardable : List Symbol} {g : Grammar} :
    build rules wildcardable = .ok g ↔
      (rules.map Rule.head).Nodup ∧ (∀ x ∈ wildcardable, x ∈ rules.map Rule.head) ∧
      ∃ (productive : List Symbol) (leading : Leading) (follow : SymbolSets)
        (table : List Prediction),
      settle (productivePass (rules.map Rule.head) (productionsOf wildcardable rules))
        (passLimit + 1) [] = some productive ∧
      (∀ x ∈ rules.map Rule.head, x ∈ productive) ∧
      settle (leadingPass (rules.map Rule.head) (productionsOf wildcardable rules)) (passLimit + 1)
        ⟨SymbolSets.empty (rules.map Rule.head), []⟩ = some leading ∧
      settle (followPass (rules.map Rule.head) leading (productionsOf wildcardable rules))
        (passLimit + 1) (followStart (rules.map Rule.head) wildcardable) = some follow ∧
      enterAll (rules.map Rule.head) leading follow (productionsOf wildcardable rules) [] =
        .ok table ∧
      g = ⟨rules.map Rule.head, wildcardable, productionsOf wildcardable rules,
        keywordsOf (rules.map Rule.head) (productionsOf wildcardable rules), leading, follow,
        table⟩ := by
  have hdistinct : repeated? [] (rules.map Rule.head) = none ↔ (rules.map Rule.head).Nodup := by
    rw [repeated?_eq_none_iff]
    simp
  have hknown : (wildcardable.find? fun w => !(rules.map Rule.head).contains w) = none ↔
      ∀ x ∈ wildcardable, x ∈ rules.map Rule.head := by simp
  simp only [← hdistinct, ← hknown, ← unproductive_eq_nil_iff]
  unfold build
  simp only [bind, Except.bind, pure, Except.pure, throw, throwThe, MonadExceptOf.throw]
  constructor
  · intro h
    split at h
    · cases h
    next hseen =>
    split at h
    · cases h
    next hwild =>
    split at h
    rotate_left
    · cases h
    next productive hproductive =>
    split at h
    · cases h
    next hall =>
    split at h
    rotate_left
    · cases h
    next leading hleading =>
    split at h
    rotate_left
    · cases h
    next follow hfollow =>
    split at h
    · cases h
    next table htable =>
    cases h
    have hnone : unproductive (rules.map Rule.head) productive = [] := by
      cases hu : unproductive (rules.map Rule.head) productive with
      | nil => rfl
      | cons x xs => exact (hall x xs hu).elim
    exact ⟨Option.eq_none_iff_forall_ne_some.mpr hseen,
      Option.eq_none_iff_forall_ne_some.mpr hwild, productive, leading, follow, table, hproductive,
      hnone, hleading, hfollow, htable, rfl⟩
  · rintro ⟨hseen, hwild, productive, leading, follow, table, hproductive, hall, hleading,
      hfollow, htable, rfl⟩
    rw [hseen, hwild, hproductive]
    simp only [hall, hleading, hfollow, htable]

/-! ## What a successful build says -/

/-- what `build` has computed and checked -/
structure Compiled (rules : List Rule) (wildcardable : List Symbol) (g : Grammar) : Prop where
  nonterminals_eq : g.nonterminals = rules.map Rule.head
  wildcardable_eq : g.wildcardable = wildcardable
  productions_eq : g.productions = productionsOf wildcardable rules
  keywords_eq : g.keywords = keywordsOf g.nonterminals g.productions
  wildcards_mem : ∀ x ∈ wildcardable, x ∈ g.nonterminals
  leading_closed : g.leading.Closed g.nonterminals g.productions
  follow_closed : g.follow.FollowClosed g.nonterminals g.leading g.productions
  finish_mem : ∀ x ∈ wildcardable, Symbol.finish ∈ g.follow.get x
  table_eq : enterAll g.nonterminals g.leading g.follow g.productions [] = .ok g.table

theorem compiled_of_build {rules : List Rule} {wildcardable : List Symbol} {g : Grammar}
    (h : build rules wildcardable = .ok g) : g.Compiled rules wildcardable := by
  obtain ⟨-, hmem, -, leading, follow, table, -, -, hleading, hfollow, htable, rfl⟩ :=
    build_eq_ok_iff.mp h
  exact
    { nonterminals_eq := rfl
      wildcardable_eq := rfl
      productions_eq := rfl
      keywords_eq := rfl
      wildcards_mem := hmem
      leading_closed := closed_of_settle (fun _ => head_mem_of_mem_productionsOf) hleading
      follow_closed := followClosed_of_settle hfollow
      finish_mem := fun x hx => finish_mem_of_settle hfollow (hmem x hx) hx
      table_eq := htable }

theorem isNonterminal_iff_mem {g : Grammar} {s : Symbol} :
    g.isNonterminal s = true ↔ s ∈ g.nonterminals := by
  unfold isNonterminal
  exact List.contains_iff_mem

namespace Compiled

variable {rules : List Rule} {wildcardable : List Symbol} {g : Grammar}
  (hg : g.Compiled rules wildcardable)
include hg

theorem isNonterminal_iff {s : Symbol} : g.isNonterminal s = true ↔ s ∈ rules.map Rule.head := by
  unfold isNonterminal
  rw [hg.nonterminals_eq]
  simp

theorem head_mem {p : Production} (hp : p ∈ g.productions) : p.head ∈ g.nonterminals := by
  rw [hg.productions_eq] at hp
  rw [hg.nonterminals_eq]
  exact head_mem_of_mem_productionsOf hp

theorem entry_of_mem_predict {p : Production} (hp : p ∈ g.productions) {t : Symbol}
    (ht : t ∈ predict g.nonterminals g.leading g.follow p) :
    entry? g.table p.head t = some p :=
  (enterAll_spec hg.table_eq).2.1 p hp t ht

theorem mem_productions_of_entry {a t : Symbol} {p : Production}
    (h : entry? g.table a t = some p) : p ∈ g.productions ∧ p.head = a := by
  rcases (enterAll_spec hg.table_eq).2.2 a t p h with h | ⟨h1, h2, -⟩
  · cases h
  · exact ⟨h1, h2.symm⟩

/-- a production stands in the table only where it is predicted: its body begins with the token, or
may be empty and the token may follow its head -/
theorem mem_predict_of_entry {a t : Symbol} {p : Production} (h : entry? g.table a t = some p) :
    t ∈ (g.leading.ofSequence g.nonterminals p.body).1 ∨
      (g.leading.ofSequence g.nonterminals p.body).2 = true ∧ t ∈ g.follow.get p.head := by
  rcases (enterAll_spec hg.table_eq).2.2 a t p h with h | ⟨-, -, h⟩
  · cases h
  · exact mem_predict_iff.mp h

end Compiled

/-! ## The first token of what is derived -/

/-- a tree begins as its symbol may: a terminal with a token of its class, a nonterminal with one
of FIRST, and only a nullable symbol has an empty tree -/
structure Starts (g : Grammar) (t : Tree) : Prop where
  terminal : t.symbol ∉ g.nonterminals → ∃ tok, t.yield = [tok] ∧ g.classify tok.text = t.symbol
  first : t.symbol ∈ g.nonterminals → ∀ tok rest, t.yield = tok :: rest →
    g.classify tok.text ∈ g.leading.first.get t.symbol
  nullable : t.symbol ∈ g.nonterminals → t.yield = [] → t.symbol ∈ g.leading.nullable

theorem ofSequence_cons_terminal {nonterminals : List Symbol} {l : Leading} {s : Symbol}
    {rest : List Symbol} (h : s ∉ nonterminals) :
    l.ofSequence nonterminals (s :: rest) = ([s], false) := by
  rw [Leading.ofSequence, if_pos (by simpa using h)]

theorem ofSequence_cons_nonempty {nonterminals : List Symbol} {l : Leading} {s : Symbol}
    {rest : List Symbol} (h : s ∈ nonterminals) (hn : s ∉ l.nullable) :
    l.ofSequence nonterminals (s :: rest) = (l.first.get s, false) := by
  rw [Leading.ofSequence, if_neg (by simpa using h), if_pos (by simpa using hn)]

theorem ofSequence_cons_nullable {nonterminals : List Symbol} {l : Leading} {s : Symbol}
    {rest : List Symbol} (h : s ∈ nonterminals) (hn : s ∈ l.nullable) :
    l.ofSequence nonterminals (s :: rest) =
      (includeAll (l.first.get s) (l.ofSequence nonterminals rest).1,
        (l.ofSequence nonterminals rest).2) := by
  rw [Leading.ofSequence, if_neg (by simpa using h), if_neg (by simpa using hn)]

theorem ofSequence_starts {g : Grammar} {cs : List Tree} (h : ∀ c ∈ cs, g.Starts c) :
    (∀ tok rest, Tree.yieldAll cs = tok :: rest →
      g.classify tok.text ∈ (g.leading.ofSequence g.nonterminals (cs.map Tree.symbol)).1) ∧
    (Tree.yieldAll cs = [] →
      (g.leading.ofSequence g.nonterminals (cs.map Tree.symbol)).2 = true) := by
  induction cs with
  | nil => exact ⟨fun tok rest h => by simp at h, fun _ => rfl⟩
  | cons c cs ih =>
    obtain ⟨ih1, ih2⟩ := ih fun d hd => h d (List.mem_cons_of_mem _ hd)
    have hc := h c List.mem_cons_self
    rw [List.map_cons, Tree.yieldAll_cons]
    by_cases hs : c.symbol ∈ g.nonterminals
    · by_cases hn : c.symbol ∈ g.leading.nullable
      · rw [ofSequence_cons_nullable hs hn]
        constructor
        · intro tok rest hy
          rw [mem_includeAll]
          cases hcy : c.yield with
          | nil =>
            rw [hcy, List.nil_append] at hy
            exact .inr (ih1 tok rest hy)
          | cons u us =>
            rw [hcy, List.cons_append] at hy
            cases hy
            exact .inl (hc.first hs _ us hcy)
        · intro hy
          exact ih2 (List.append_eq_nil_iff.mp hy).2
      · rw [ofSequence_cons_nonempty hs hn]
        constructor
        · intro tok rest hy
          cases hcy : c.yield with
          | nil => exact absurd (hc.nullable hs hcy) hn
          | cons u us =>
            rw [hcy, List.cons_append] at hy
            cases hy
            exact hc.first hs _ us hcy
        · intro hy
          exact absurd (hc.nullable hs (List.append_eq_nil_iff.mp hy).1) hn
    · rw [ofSequence_cons_terminal hs]
      obtain ⟨u, hu, hclass⟩ := hc.terminal hs
      rw [hu]
      constructor
      · intro tok rest hy
        cases hy
        exact List.mem_singleton.mpr hclass
      · intro hy
        cases hy

section
variable {rules : List Rule} {wildcardable : List Symbol} {g : Grammar}

theorem starts_of_derived (hg : g.Compiled rules wildcardable) {t : Tree}
    (h : t.Derived rules wildcardable g.classify) : g.Starts t := by
  induction h using Tree.Derived.induct with
  | @leaf s t hs hclass =>
    have hs' : (Tree.leaf s t).symbol ∉ g.nonterminals := by
      rw [hg.nonterminals_eq]
      exact hs
    exact ⟨fun _ => ⟨t, rfl, hclass⟩, fun h => absurd h hs', fun h => absurd h hs'⟩
  | @node p cs hp hbody _ ih =>
    rw [← hg.productions_eq] at hp
    obtain ⟨h1, h2⟩ := ofSequence_starts ih
    rw [hbody] at h1 h2
    constructor <;> rw [symbol_plant] <;> rw [yield_plant]
    · exact fun h => absurd (hg.head_mem hp) h
    · intro _ tok rest hy
      exact hg.leading_closed.first p hp _ (h1 tok rest hy)
    · intro _ hy
      exact hg.leading_closed.nullable p hp (h2 hy)

/-! ## The token after what is derived -/

/-- a token may follow a symbol: after a nonterminal it is in FOLLOW -/
def Fits (g : Grammar) (s a : Symbol) : Prop := s ∈ g.nonterminals → a ∈ g.follow.get s

/-- the lookahead in front of some trees is one the sequence of their symbols may begin with, or
the one behind them -/
theorem lookahead_yieldAll (hg : g.Compiled rules wildcardable) {cs : List Tree}
    (hcs : ∀ c ∈ cs, c.Derived rules wildcardable g.classify) (rest : List Token) :
    g.lookahead (Tree.yieldAll cs ++ rest) ∈
        (g.leading.ofSequence g.nonterminals (cs.map Tree.symbol)).1 ∨
      ((g.leading.ofSequence g.nonterminals (cs.map Tree.symbol)).2 = true ∧
        g.lookahead (Tree.yieldAll cs ++ rest) = g.lookahead rest) := by
  obtain ⟨h1, h2⟩ := ofSequence_starts fun c hc => starts_of_derived hg (hcs c hc)
  cases hy : Tree.yieldAll cs with
  | nil => exact .inr ⟨h2 hy, rfl⟩
  | cons u us => exact .inl (h1 u us hy)

/-- a production is predicted in front of everything it derives -/
theorem mem_predict (hg : g.Compiled rules wildcardable) {p : Production} {cs : List Tree}
    (hbody : cs.map Tree.symbol = p.body)
    (hcs : ∀ c ∈ cs, c.Derived rules wildcardable g.classify) {rest : List Token}
    (hfit : g.lookahead rest ∈ g.follow.get p.head) :
    g.lookahead (Tree.yieldAll cs ++ rest) ∈ predict g.nonterminals g.leading g.follow p := by
  have h := lookahead_yieldAll hg hcs rest
  rw [hbody] at h
  show _ ∈ if (g.leading.ofSequence g.nonterminals p.body).2 then
    includeAll (g.leading.ofSequence g.nonterminals p.body).1 (g.follow.get p.head)
    else (g.leading.ofSequence g.nonterminals p.body).1
  rcases h with h | ⟨he, h⟩
  · split
    · exact mem_includeAll.mpr (.inl h)
    · exact h
  · rw [if_pos he, h]
    exact mem_includeAll.mpr (.inr hfit)

/-- what follows a child is what its later siblings begin with, or what follows the parent -/
theorem fits_child (hg : g.Compiled rules wildcardable) {p : Production} (hp : p ∈ g.productions)
    {pre post : List Tree} {c : Tree} (hbody : (pre ++ c :: post).map Tree.symbol = p.body)
    (hpost : ∀ d ∈ post, d.Derived rules wildcardable g.classify) {rest : List Token}
    (hfit : g.lookahead rest ∈ g.follow.get p.head) :
    g.Fits c.symbol (g.lookahead (Tree.yieldAll post ++ rest)) := by
  intro hs
  have hsplit : p.body = pre.map Tree.symbol ++ c.symbol :: post.map Tree.symbol := by
    rw [← hbody, List.map_append, List.map_cons]
  rcases lookahead_yieldAll hg hpost rest with h | ⟨he, h⟩
  · exact hg.follow_closed.rest p hp _ _ _ hsplit hs _ h
  · rw [h]
    exact hg.follow_closed.head p hp _ _ _ hsplit hs he _ hfit

end

end Grammar

end Overloading
