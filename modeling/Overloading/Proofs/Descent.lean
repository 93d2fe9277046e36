import Mathlib.Data.List.Infix
import Mathlib.Logic.Relation
import Mathlib.Order.RelClasses
import Overloading.Proofs.LeastSets
import Overloading.Proofs.SignatureGrammar

/-!
# The descent ends

`Grammar.parse` carries a bound on its depth.  Here the descent is described without one, and the
bound is shown to be no restriction for any grammar that `Grammar.build` accepts, although the
builder never looks for left recursion.

* `Grammar.Descends`    the descent itself: from some symbols and tokens, after so many expansions
                        of a nonterminal, to an outcome; reading past the last token is an outcome
                        of its own;
* `Grammar.Enters`      an expansion that comes to another nonterminal before it has read a token;
* `Grammar.acc_enters`  there is no endless chain of such expansions.  A nonterminal expanded in
                        front of a token either begins with it or vanishes and is followed by it,
                        and the reason for that, being finite, bounds the chain;
* `Grammar.settles_of_depth`   so the descent always ends, and as the bounded parser says.
-/

namespace Overloading

namespace Grammar

inductive Outcome where
  /-- the symbols derive the tokens before the rest -/
  | found (trees : List Tree) (rest : List Token)
  /-- the symbols derive nothing that the tokens begin with -/
  | rejected
  /-- a token behind the last one was read -/
  | overrun

namespace Outcome

def prepend (t : Tree) : Outcome → Outcome
  | found ts rest => found (t :: ts) rest
  | o => o

def isFound : Outcome → Bool
  | found .. => true
  | _ => false

def result : Outcome → Option (List Tree × List Token)
  | found ts rest => some (ts, rest)
  | _ => none

def accepted : Outcome → Option Tree
  | found [t] [] => some t
  | _ => none

theorem result_prepend (t : Tree) (o : Outcome) :
    (o.prepend t).result = o.result.map fun r => (t :: r.1, r.2) := by
  cases o <;> rfl

theorem eq_found_of_accepted {t : Tree} {o : Outcome} (h : o.accepted = some t) :
    o = found [t] [] := by
  unfold accepted at h
  split at h
  · rw [Option.some.inj h]
  · cases h

theorem prepend_ne_overrun {t : Tree} {o : Outcome} (h : o ≠ .overrun) :
    o.prepend t ≠ .overrun := by
  cases o with
  | found => simp [prepend]
  | rejected => exact h
  | overrun => exact absurd rfl h

end Outcome

/-- recursive descent over a sequence of symbols: how many expansions it takes and how it ends -/
inductive Descends (g : Grammar) : List Symbol → List Token → Nat → Outcome → Prop
  /-- no symbol is left -/
  | done (rest : List Token) : Descends g [] rest 0 (.found [] rest)
  /-- a terminal that is not the class of what comes next -/
  | mismatch {s : Symbol} {ss : List Symbol} {rest : List Token} (terminal : ¬ g.isNonterminal s)
      (ne : g.lookahead rest ≠ s) : Descends g (s :: ss) rest 0 .rejected
  /-- a terminal that is the class of a token -/
  | token {s : Symbol} {ss : List Symbol} {t : Token} {rest : List Token} {n : Nat} {o : Outcome}
      (terminal : ¬ g.isNonterminal s) (class_eq : g.classify t.text = s)
      (tail : Descends g ss rest n o) : Descends g (s :: ss) (t :: rest) n (o.prepend (.leaf s t))
  /-- a terminal that is what stands for the end: its token does not exist -/
  | overrun {s : Symbol} {ss : List Symbol} (terminal : ¬ g.isNonterminal s)
      (finish : Symbol.finish = s) : Descends g (s :: ss) [] 0 .overrun
  /-- the table has no production -/
  | refused {s : Symbol} {ss : List Symbol} {rest : List Token} (nonterminal : g.isNonterminal s)
      (none : entry? g.table s (g.lookahead rest) = none) : Descends g (s :: ss) rest 0 .rejected
  /-- the body of the production does not derive what comes -/
  | broken {s : Symbol} {ss : List Symbol} {rest : List Token} {p : Production} {n : Nat}
      {o : Outcome} (nonterminal : g.isNonterminal s)
      (entry : entry? g.table s (g.lookahead rest) = some p) (body : Descends g p.body rest n o)
      (failed : o.isFound = false) : Descends g (s :: ss) rest (n + 1) o
  /-- the body of the production derives what comes -/
  | expanded {s : Symbol} {ss : List Symbol} {rest mid : List Token} {p : Production}
      {cs : List Tree} {n m : Nat} {o : Outcome} (nonterminal : g.isNonterminal s)
      (entry : entry? g.table s (g.lookahead rest) = some p)
      (body : Descends g p.body rest n (.found cs mid)) (tail : Descends g ss mid m o) :
      Descends g (s :: ss) rest (n + 1 + m) (o.prepend (plant p cs))

variable {rules : List Rule} {wildcardable : List Symbol} {g : Grammar}

/-! ## Descents, one after the other -/

theorem Descends.unique {ss : List Symbol} {rest : List Token} {n m : Nat} {o o' : Outcome}
    (h : g.Descends ss rest n o) (h' : g.Descends ss rest m o') : m = n ∧ o' = o := by
  induction h generalizing m o' with
  | done rest => cases h'; exact ⟨rfl, rfl⟩
  | mismatch hs hne =>
    cases h' with
    | mismatch => exact ⟨rfl, rfl⟩
    | token _ hc => exact absurd hc hne
    | overrun _ hf => exact absurd hf hne
    | refused hn => exact absurd hn hs
    | broken hn => exact absurd hn hs
    | expanded hn => exact absurd hn hs
  | token hs hc _ ih =>
    cases h' with
    | mismatch _ hne => exact absurd hc hne
    | token _ _ tail =>
      obtain ⟨rfl, rfl⟩ := ih tail
      exact ⟨rfl, rfl⟩
    | refused hn => exact absurd hn hs
    | broken hn => exact absurd hn hs
    | expanded hn => exact absurd hn hs
  | overrun hs hf =>
    cases h' with
    | mismatch _ hne => exact absurd hf hne
    | overrun => exact ⟨rfl, rfl⟩
    | refused hn => exact absurd hn hs
    | broken hn => exact absurd hn hs
    | expanded hn => exact absurd hn hs
  | refused hn hnone =>
    cases h' with
    | mismatch hs => exact absurd hn hs
    | token hs => exact absurd hn hs
    | overrun hs => exact absurd hn hs
    | refused => exact ⟨rfl, rfl⟩
    | broken _ hentry => rw [hnone] at hentry; cases hentry
    | expanded _ hentry => rw [hnone] at hentry; cases hentry
  | broken hn hentry _ hfail ih =>
    cases h' with
    | mismatch hs => exact absurd hn hs
    | token hs => exact absurd hn hs
    | overrun hs => exact absurd hn hs
    | refused _ hnone => rw [hnone] at hentry; cases hentry
    | broken _ hentry' body =>
      cases hentry.symm.trans hentry'
      obtain ⟨rfl, rfl⟩ := ih body
      exact ⟨rfl, rfl⟩
    | expanded _ hentry' body =>
      cases hentry.symm.trans hentry'
      obtain ⟨-, rfl⟩ := ih body
      cases hfail
  | expanded hn hentry _ _ ihbody ihtail =>
    cases h' with
    | mismatch hs => exact absurd hn hs
    | token hs => exact absurd hn hs
    | overrun hs => exact absurd hn hs
    | refused _ hnone => rw [hnone] at hentry; cases hentry
    | broken _ hentry' body hfail =>
      cases hentry.symm.trans hentry'
      obtain ⟨-, rfl⟩ := ihbody body
      cases hfail
    | expanded _ hentry' body tail =>
      cases hentry.symm.trans hentry'
      obtain ⟨rfl, e⟩ := ihbody body
      cases e
      obtain ⟨rfl, rfl⟩ := ihtail tail
      exact ⟨rfl, rfl⟩

theorem Descends.cons {s : Symbol} {ss : List Symbol} {rest mid : List Token} {n m : Nat}
    {ts : List Tree} {o : Outcome} (h : g.Descends [s] rest n (.found ts mid))
    (htail : g.Descends ss mid m o) :
    ∃ t, ts = [t] ∧ g.Descends (s :: ss) rest (n + m) (o.prepend t) := by
  generalize ho : Outcome.found ts mid = first at h
  cases h with
  | mismatch => cases ho
  | token hs hc tail =>
    cases tail
    cases ho
    rw [Nat.zero_add]
    exact ⟨_, rfl, .token hs hc htail⟩
  | overrun => cases ho
  | refused => cases ho
  | broken _ _ _ hfail => rw [← ho] at hfail; cases hfail
  | expanded hn hentry body tail =>
    cases tail
    cases ho
    exact ⟨_, rfl, .expanded hn hentry body htail⟩

theorem Descends.cons_failed {s : Symbol} {rest : List Token} {n : Nat} {o : Outcome}
    (h : g.Descends [s] rest n o) (hfail : o.isFound = false) (ss : List Symbol) :
    g.Descends (s :: ss) rest n o := by
  cases h with
  | mismatch hs hne => exact .mismatch hs hne
  | token _ _ tail => cases tail; cases hfail
  | overrun hs hf => exact .overrun hs hf
  | refused hn hnone => exact .refused hn hnone
  | broken hn hentry body hf => exact .broken hn hentry body hf
  | expanded _ _ _ tail => cases tail; cases hfail

theorem Descends.uncons {s : Symbol} {ss : List Symbol} {rest last : List Token} {n : Nat}
    {ts : List Tree} (h : g.Descends (s :: ss) rest n (.found ts last)) :
    ∃ t us mid k m, ts = t :: us ∧ g.Descends [s] rest k (.found [t] mid) ∧
      g.Descends ss mid m (.found us last) := by
  generalize ho : Outcome.found ts last = whole at h
  cases h with
  | mismatch => cases ho
  | @token _ _ t rest _ o hs hc tail =>
    cases o with
    | found us r =>
      cases ho
      exact ⟨_, us, rest, _, _, rfl, .token hs hc (.done rest), tail⟩
    | rejected => cases ho
    | overrun => cases ho
  | overrun => cases ho
  | refused => cases ho
  | broken _ _ _ hfail => rw [← ho] at hfail; cases hfail
  | @expanded _ _ _ mid _ _ _ _ o hn hentry body tail =>
    cases o with
    | found us r =>
      cases ho
      exact ⟨_, us, mid, _, _, rfl, .expanded hn hentry body (.done mid), tail⟩
    | rejected => cases ho
    | overrun => cases ho

/-- what a descent over two sequences finds, it finds over the first and then over the second -/
theorem Descends.split {pre post : List Symbol} {rest last : List Token} {n : Nat}
    {ts : List Tree} (h : g.Descends (pre ++ post) rest n (.found ts last)) :
    ∃ mid k m cs ds, g.Descends pre rest k (.found cs mid) ∧
      g.Descends post mid m (.found ds last) := by
  induction pre generalizing rest n ts with
  | nil => exact ⟨rest, 0, n, [], ts, .done rest, h⟩
  | cons s pre ih =>
    obtain ⟨t, us, mid, k, m, rfl, hs, hrest⟩ := h.uncons
    obtain ⟨mid', k', m', cs, ds, hpre, hpost⟩ := ih hrest
    obtain ⟨t', -, hcons⟩ := hs.cons hpre
    exact ⟨mid', _, m', _, ds, hcons, hpost⟩

theorem Descends.suffix {ss : List Symbol} {rest : List Token} {n : Nat} {o : Outcome}
    (h : g.Descends ss rest n o) : ∀ ts mid, o = .found ts mid → mid <:+ rest := by
  induction h with
  | done rest => rintro _ _ ⟨⟩; exact List.suffix_rfl
  | mismatch => rintro _ _ ⟨⟩
  | @token _ _ t _ _ o _ _ _ ih =>
    intro ts mid ho
    cases o with
    | found us r => cases ho; exact (ih _ _ rfl).trans (List.suffix_cons t _)
    | rejected => cases ho
    | overrun => cases ho
  | overrun => rintro _ _ ⟨⟩
  | refused => rintro _ _ ⟨⟩
  | broken _ _ _ hfail => rintro _ _ rfl; cases hfail
  | @expanded _ _ _ _ _ _ _ _ o _ _ _ _ ihbody ihtail =>
    intro ts mid ho
    cases o with
    | found us r => cases ho; exact (ihtail _ _ rfl).trans (ihbody _ _ rfl)
    | rejected => cases ho
    | overrun => cases ho

theorem Descends.expansion {x : Symbol} {rest last : List Token} {n : Nat} {ts : List Tree}
    (h : g.Descends [x] rest n (.found ts last)) (hx : g.isNonterminal x = true) :
    ∃ p cs k, entry? g.table x (g.lookahead rest) = some p ∧
      g.Descends p.body rest k (.found cs last) := by
  generalize ho : Outcome.found ts last = whole at h
  cases h with
  | mismatch => cases ho
  | token hs => exact absurd hx hs
  | overrun => cases ho
  | refused => cases ho
  | broken _ _ _ hfail => rw [← ho] at hfail; cases hfail
  | expanded _ hentry body tail =>
    cases tail
    cases ho
    exact ⟨_, _, _, hentry, body⟩

theorem length_lt_of_terminal {s : Symbol} (hs : ¬ g.isNonterminal s = true)
    {rest last : List Token} {n : Nat} {ts : List Tree}
    (h : g.Descends [s] rest n (.found ts last)) : last.length < rest.length := by
  generalize ho : Outcome.found ts last = whole at h
  cases h with
  | mismatch => cases ho
  | token _ _ tail =>
    cases tail
    cases ho
    exact Nat.lt_succ_self _
  | overrun => cases ho
  | refused => cases ho
  | broken hn => exact absurd hn hs
  | expanded hn => exact absurd hn hs

/-- a descent through a symbol that reads something in front of the same tokens reads something -/
theorem Descends.length_lt_of_place {pre post : List Symbol} {s : Symbol}
    {rest last : List Token} {n : Nat} {cs : List Tree}
    (h : g.Descends (pre ++ s :: post) rest n (.found cs last))
    (hs : ∀ k ts mid, g.Descends [s] rest k (.found ts mid) → mid.length < rest.length) :
    last.length < rest.length := by
  obtain ⟨mid, _, _, _, _, hpre, hpost⟩ := h.split
  obtain ⟨_, _, mid', _, _, -, hmid, hlast⟩ := hpost.uncons
  have h1 := hpre.suffix _ _ rfl
  have h2 := (hmid.suffix _ _ rfl).length_le
  have h3 := (hlast.suffix _ _ rfl).length_le
  by_cases e : mid.length = rest.length
  · rw [h1.eq_of_length e] at hmid
    have := hs _ _ _ hmid
    omega
  · have := h1.length_le
    omega

/-! ## Expansions that read nothing -/

/-- an expansion in front of some tokens comes to a nonterminal and has not read any of them -/
def Enters (g : Grammar) (rest : List Token) (x y : Symbol) : Prop :=
  ∃ (p : Production) (pre post : List Symbol),
    entry? g.table x (g.lookahead rest) = some p ∧ p.body = pre ++ y :: post ∧
      g.isNonterminal y = true ∧ ∃ n cs, g.Descends pre rest n (.found cs rest)

section
variable (hg : g.Compiled rules wildcardable)
  (hsound : g.leading.Sound g.nonterminals g.productions)
include hg hsound

theorem entry_of_begins {p : Production} (hp : p ∈ g.productions) {pre post : List Symbol}
    {s t : Symbol} (hsplit : p.body = pre ++ s :: post) (hpre : ∀ u ∈ pre, Vanishes g.productions u)
    (hs : s ∉ g.nonterminals ∧ s = t ∨ Begins g.nonterminals g.productions t s) :
    entry? g.table p.head t = some p := by
  refine hg.entry_of_mem_predict hp ?_
  have hfirst : t ∈ (g.leading.ofSequence g.nonterminals p.body).1 := by
    rw [hsplit]
    exact hg.mem_ofSequence hsound hpre (hs.imp_right fun h =>
      ⟨hg.mem_nonterminals_of_begins h, (hg.mem_first_iff hsound).mpr h⟩)
  show t ∈ if (g.leading.ofSequence g.nonterminals p.body).2 then
    includeAll (g.leading.ofSequence g.nonterminals p.body).1 (g.follow.get p.head)
    else (g.leading.ofSequence g.nonterminals p.body).1
  split
  · exact mem_includeAll.mpr (.inl hfirst)
  · exact hfirst

theorem length_lt_of_begins {rest : List Token} {x : Symbol}
    (h : Begins g.nonterminals g.productions (g.lookahead rest) x) {n : Nat} {ts : List Tree}
    {last : List Token} (hd : g.Descends [x] rest n (.found ts last)) :
    last.length < rest.length := by
  induction h generalizing n ts last with
  | @here p pre post mem split gone terminal =>
    have hentry := entry_of_begins hg hsound mem split gone (.inl ⟨terminal, rfl⟩)
    obtain ⟨q, cs, k, hq, hbody⟩ := hd.expansion (isNonterminal_iff_mem.mpr (hg.head_mem mem))
    cases hentry.symm.trans hq
    rw [split] at hbody
    exact hbody.length_lt_of_place fun _ _ _ =>
      length_lt_of_terminal (mt isNonterminal_iff_mem.mp terminal)
  | @inside p pre post s mem split gone inner ih =>
    have hentry := entry_of_begins hg hsound mem split gone (.inr inner)
    obtain ⟨q, cs, k, hq, hbody⟩ := hd.expansion (isNonterminal_iff_mem.mpr (hg.head_mem mem))
    cases hentry.symm.trans hq
    rw [split] at hbody
    exact hbody.length_lt_of_place fun _ _ _ => ih

/-- from a nonterminal that vanishes in front of what may follow it, no endless chain of expansions
starts: the reason why it vanishes contains the reasons of all nonterminals entered -/
theorem acc_of_vanishes {rest : List Token} {x : Symbol} (h : Vanishes g.productions x)
    (hfollow : g.lookahead rest ∈ g.follow.get x) : Acc (fun y x => g.Enters rest x y) x := by
  induction h with
  | @intro p mem hbody ih =>
    have hempty : ∀ post : List Symbol, (∀ s ∈ post, s ∈ p.body) →
        (g.leading.ofSequence g.nonterminals post).2 = true := fun post hpost =>
      Leading.ofSequence_empty_iff.mpr fun s hs =>
        ⟨hg.mem_nonterminals_of_vanishes (hbody s (hpost s hs)),
          (hg.mem_nullable_iff hsound).mpr (hbody s (hpost s hs))⟩
    have hentry : entry? g.table p.head (g.lookahead rest) = some p := by
      refine hg.entry_of_mem_predict mem ?_
      show _ ∈ if (g.leading.ofSequence g.nonterminals p.body).2 then
        includeAll (g.leading.ofSequence g.nonterminals p.body).1 (g.follow.get p.head)
        else (g.leading.ofSequence g.nonterminals p.body).1
      rw [if_pos (hempty p.body fun s hs => hs)]
      exact mem_includeAll.mpr (.inr hfollow)
    refine Acc.intro _ ?_
    rintro y ⟨q, pre, post, hq, hsplit, hy, -⟩
    cases hentry.symm.trans hq
    have hmem : y ∈ p.body := by rw [hsplit]; exact List.mem_append_right _ List.mem_cons_self
    refine ih y hmem (hg.follow_closed.head p mem pre y post hsplit ?_ ?_ _ hfollow)
    · unfold isNonterminal at hy
      simpa using hy
    · refine hempty post fun s hs => ?_
      rw [hsplit]
      exact List.mem_append_right _ (List.mem_cons_of_mem _ hs)

/-- in front of a token that a body begins with, what is entered stands before the symbol that
begins with it, and vanishes, or is that symbol -/
theorem acc_of_place {rest : List Token} {p : Production} (hp : p ∈ g.productions)
    {pre post : List Symbol} {s : Symbol} (hsplit : p.body = pre ++ s :: post)
    (hpre : ∀ u ∈ pre, Vanishes g.productions u)
    (hs : s ∉ g.nonterminals ∧ s = g.lookahead rest ∨
      Begins g.nonterminals g.productions (g.lookahead rest) s)
    (hacc : g.isNonterminal s = true → Acc (fun y x => g.Enters rest x y) s) :
    Acc (fun y x => g.Enters rest x y) p.head := by
  have hentry := entry_of_begins hg hsound hp hsplit hpre hs
  refine Acc.intro _ ?_
  rintro y ⟨q, before, after, hq, hsplit', hy, n, cs, hread⟩
  cases hentry.symm.trans hq
  rw [hsplit] at hsplit'
  rcases List.append_eq_append_iff.mp hsplit' with ⟨mid, rfl, hmid⟩ | ⟨mid, rfl, hmid⟩
  · cases mid with
    | nil =>
      cases hmid
      exact hacc hy
    | cons a mid =>
      cases hmid
      refine absurd (hread.length_lt_of_place fun k ts last hd => ?_) (Nat.lt_irrefl _)
      rcases hs with ⟨hterm, rfl⟩ | hs
      · exact length_lt_of_terminal (mt isNonterminal_iff_mem.mp hterm) hd
      · exact length_lt_of_begins hg hsound hs hd
  · cases mid with
    | nil =>
      cases hmid
      exact hacc hy
    | cons b mid =>
      -- `y` vanishes, and is followed by what the rest of the body begins with
      cases hmid
      have hyv : Vanishes g.productions y :=
        hpre y (List.mem_append_right _ List.mem_cons_self)
      refine acc_of_vanishes hg hsound hyv ?_
      refine hg.follow_closed.rest p hp before y (mid ++ s :: post) (by simp [hsplit])
        (hg.mem_nonterminals_of_vanishes hyv) _ ?_
      refine hg.mem_ofSequence hsound (fun u hu => ?_) (hs.imp_right fun h =>
        ⟨hg.mem_nonterminals_of_begins h, (hg.mem_first_iff hsound).mpr h⟩)
      exact hpre u (List.mem_append_right _ (List.mem_cons_of_mem _ hu))

/-- from a nonterminal that begins with the next token no endless chain of expansions starts -/
theorem acc_of_begins {rest : List Token} {x : Symbol}
    (h : Begins g.nonterminals g.productions (g.lookahead rest) x) :
    Acc (fun y x => g.Enters rest x y) x := by
  induction h with
  | here mem split gone terminal =>
    exact acc_of_place hg hsound mem split gone (.inl ⟨terminal, rfl⟩) fun h =>
      absurd h (mt isNonterminal_iff_mem.mp terminal)
  | inside mem split gone inner ih =>
    exact acc_of_place hg hsound mem split gone (.inr inner) fun _ => ih

/-- in front of any tokens no endless chain of expansions reads nothing -/
theorem acc_enters (rest : List Token) (x : Symbol) : Acc (fun y x => g.Enters rest x y) x := by
  cases hentry : entry? g.table x (g.lookahead rest) with
  | none =>
    refine Acc.intro _ ?_
    rintro y ⟨q, pre, post, hq, -⟩
    rw [hentry] at hq
    cases hq
  | some p =>
    obtain ⟨hp, rfl⟩ := hg.mem_productions_of_entry hentry
    rcases hg.mem_predict_of_entry hentry with hfirst | ⟨hempty, hfollow⟩
    · exact acc_of_begins hg hsound
        ((hg.mem_first_iff hsound).mp (hg.leading_closed.first p hp _ hfirst))
    · exact acc_of_vanishes hg hsound
        ((hg.mem_nullable_iff hsound).mp (hg.leading_closed.nullable p hp hempty)) hfollow

/-- no nonterminal is entered again before a token has been read -/
theorem not_transGen_enters (rest : List Token) (x : Symbol) :
    ¬ Relation.TransGen (g.Enters rest) x x := by
  intro h
  have hwf : WellFounded (Relation.TransGen fun y x => g.Enters rest x y) :=
    WellFounded.transGen ⟨acc_enters hg hsound rest⟩
  have h' : Relation.TransGen (fun y x => g.Enters rest x y) x x := Relation.transGen_swap.mpr h
  exact hwf.asymmetric x x h' h'

end

/-! ## The bound is no restriction -/

/-- the descent over some symbols ends with every token it reads at hand, and as a parser of single
symbols says -/
def Settles (g : Grammar) (one : Symbol → List Token → Option (Tree × List Token))
    (ss : List Symbol) (rest : List Token) : Prop :=
  ∃ n o, g.Descends ss rest n o ∧ o ≠ .overrun ∧ o.result = parseSequence one ss rest

/-- a descent over a sequence ends if those over its symbols do, wherever they are reached -/
theorem settles_sequence {one : Symbol → List Token → Option (Tree × List Token)}
    {ss : List Symbol} {rest : List Token}
    (hone : ∀ pre s post mid n cs, ss = pre ++ s :: post →
      g.Descends pre rest n (.found cs mid) → g.Settles one [s] mid) :
    g.Settles one ss rest := by
  induction ss generalizing rest with
  | nil => exact ⟨0, .found [] rest, .done rest, by simp, rfl⟩
  | cons s ss ih =>
    obtain ⟨n, o, hs, hne, hres⟩ := hone [] s ss rest 0 [] rfl (.done rest)
    rw [parseSequence] at hres
    cases o with
    | found ts mid =>
      obtain ⟨m, o, hss, hne', hres'⟩ := ih fun pre u post last k cs hsplit hpre => by
        obtain ⟨t, -, hcons⟩ := hs.cons hpre
        exact hone (s :: pre) u post last _ _ (by rw [hsplit]; rfl) hcons
      obtain ⟨t, rfl, hcons⟩ := hs.cons hss
      refine ⟨_, _, hcons, Outcome.prepend_ne_overrun hne', ?_⟩
      rw [Outcome.result_prepend, hres', parseSequence]
      cases h : one s rest with
      | none => rw [h] at hres; cases hres
      | some r =>
        obtain ⟨u, last⟩ := r
        rw [h] at hres
        cases hres
        dsimp only
        cases parseSequence one ss mid <;> rfl
    | rejected =>
      refine ⟨n, _, hs.cons_failed rfl ss, hne, ?_⟩
      rw [parseSequence]
      cases h : one s rest with
      | none => rfl
      | some r => rw [h] at hres; cases hres
    | overrun => exact absurd rfl hne

/-- a terminal is read or is not there; it is not the end that a parser would look behind -/
theorem settles_terminal {s : Symbol} (hs : ¬ g.isNonterminal s = true)
    (hfinish : s ≠ Symbol.finish) (n : Nat) (rest : List Token) :
    g.Settles (g.parseSymbol (n + 1)) [s] rest := by
  have hone : g.parseSymbol (n + 1) s rest = g.parseTerminal s rest := by
    rw [parseSymbol, if_neg hs]
  cases rest with
  | nil =>
    refine ⟨0, .rejected, .mismatch hs fun e => hfinish e.symm, by simp, ?_⟩
    rw [parseSequence, hone]
    rfl
  | cons t rest =>
    by_cases hc : g.classify t.text = s
    · refine ⟨0, .found [.leaf s t] rest, .token hs hc (.done rest), by simp, ?_⟩
      rw [parseSequence, hone, parseTerminal, if_pos (by simpa using hc)]
      rfl
    · refine ⟨0, .rejected, .mismatch hs hc, by simp, ?_⟩
      rw [parseSequence, hone, parseTerminal, if_neg (by simpa using hc)]
      rfl

/-- a nonterminal is expanded as the table says; what is found is what is found from the body -/
theorem settles_nonterminal {s : Symbol} (hs : g.isNonterminal s = true) {n : Nat}
    {rest : List Token} (hbody : ∀ p, entry? g.table s (g.lookahead rest) = some p →
      g.Settles (g.parseSymbol n) p.body rest) :
    g.Settles (g.parseSymbol (n + 1)) [s] rest := by
  unfold Settles
  rw [parseSequence, parseSymbol, if_pos hs]
  cases hentry : entry? g.table s (g.lookahead rest) with
  | none => exact ⟨0, .rejected, .refused hs hentry, by simp, rfl⟩
  | some p =>
    obtain ⟨k, o, hd, hne, hres⟩ := hbody p hentry
    simp only [← hres]
    cases o with
    | found cs mid =>
      exact ⟨_, _, .expanded hs hentry hd (.done mid), Outcome.prepend_ne_overrun (by simp), rfl⟩
    | rejected => exact ⟨_, _, .broken hs hentry hd rfl, hne, rfl⟩
    | overrun => exact absurd rfl hne

theorem ne_finish_of_mem_body (hg : g.Compiled rules wildcardable)
    (hfinish : ∀ r ∈ rules, ∀ body ∈ r.alts, Symbol.finish ∉ body) {p : Production}
    (hp : p ∈ g.productions) {s : Symbol} (hs : s ∈ p.body) : s ≠ Symbol.finish := by
  rw [hg.productions_eq] at hp
  obtain ⟨r, hr, ⟨body, hbody, e⟩ | ⟨-, e⟩⟩ := mem_productionsOf.mp hp
  · rw [e] at hs
    exact fun h => hfinish r hr body (List.mem_of_getElem? hbody) (h ▸ hs)
  · rw [e] at hs
    rw [List.mem_singleton.mp hs]
    intro h
    have := congrArg String.toList h
    simp [Symbol.headOf, Symbol.finish, String.toList_append] at this

/-- **Every descent from a nonterminal ends**, with no token missing and as the parser says whose
depth is bounded: the nonterminals it is entered through in front of the same tokens are all
different, and fewer tokens allow all of them again -/
theorem settles_of_depth (hg : g.Compiled rules wildcardable)
    (hsound : g.leading.Sound g.nonterminals g.productions)
    (hfinish : ∀ r ∈ rules, ∀ body ∈ r.alts, Symbol.finish ∉ body) {n : Nat} {s : Symbol}
    (hs : g.isNonterminal s = true) {rest : List Token} {above : List Symbol}
    (hnodup : above.Nodup)
    (habove : ∀ a ∈ above, a ∈ g.nonterminals ∧ Relation.TransGen (g.Enters rest) a s)
    (hn : rest.length * (g.nonterminals.length + 1) + g.nonterminals.length + 1 ≤
      n + above.length) :
    g.Settles (g.parseSymbol n) [s] rest := by
  induction n generalizing s rest above with
  | zero =>
    have hlen := (List.subperm_of_subset hnodup fun a ha => (habove a ha).1).length_le
    omega
  | succ n ih =>
    have hnodup' : (s :: above).Nodup := List.nodup_cons.mpr
      ⟨fun h => not_transGen_enters hg hsound rest s (habove s h).2, hnodup⟩
    have hsub : ∀ a ∈ s :: above, a ∈ g.nonterminals := by
      rw [List.forall_mem_cons]
      exact ⟨isNonterminal_iff_mem.mp hs, fun a ha => (habove a ha).1⟩
    have hlen := (List.subperm_of_subset hnodup' hsub).length_le
    rw [List.length_cons] at hlen
    refine settles_nonterminal hs fun p hentry => settles_sequence ?_
    intro pre u post mid k cs hsplit hpre
    have hu : u ∈ p.body := hsplit ▸ List.mem_append_right _ List.mem_cons_self
    obtain ⟨hp, -⟩ := hg.mem_productions_of_entry hentry
    by_cases hnt : g.isNonterminal u = true
    · have hsuffix := hpre.suffix _ _ rfl
      by_cases hmid : mid.length = rest.length
      · cases hsuffix.eq_of_length hmid
        have henter : g.Enters rest s u := ⟨p, pre, post, hentry, hsplit, hnt, k, cs, hpre⟩
        refine ih hnt hnodup' (fun a ha => ⟨hsub a ha, ?_⟩) (by rw [List.length_cons]; omega)
        rcases List.mem_cons.mp ha with rfl | ha
        · exact .single henter
        · exact (habove a ha).2.tail henter
      · -- tokens have been read: all nonterminals may be entered again
        have hlt := hsuffix.length_le
        have hmul := Nat.mul_le_mul_right (g.nonterminals.length + 1)
          (show mid.length + 1 ≤ rest.length by omega)
        rw [Nat.succ_mul] at hmul
        refine ih hnt List.nodup_nil (fun a ha => (List.not_mem_nil ha).elim) ?_
        rw [List.length_nil]
        omega
    · obtain ⟨n, rfl⟩ : ∃ m, n = m + 1 := ⟨n - 1, by omega⟩
      exact settles_terminal hnt (ne_finish_of_mem_body hg hfinish hp hu) n mid

/-! ## The parser of a built grammar terminates -/

/-- **The descent of every grammar that the builder accepts ends**: if no rule mentions the mark of
the end, then from every nonterminal and over all tokens it takes a finite number of expansions to
a single outcome, never reads past the last token, and the parser says what the outcome says.  In
front of the same tokens no expansion comes back to its nonterminal, whether directly, through
other nonterminals or behind symbols that are empty there. -/
theorem descent_terminates {rules : List Rule} {wildcardable : List Symbol} {g : Grammar}
    (hb : build rules wildcardable = .ok g)
    (hfinish : ∀ r ∈ rules, ∀ body ∈ r.alts, Symbol.finish ∉ body) {start : Symbol}
    (hs : start ∈ rules.map Rule.head) (tokens : List Token) :
    (∃ n o, g.Descends [start] tokens n o ∧
      (∀ n' o', g.Descends [start] tokens n' o' → n' = n ∧ o' = o) ∧
      o ≠ .overrun ∧ g.parse tokens start = o.accepted) ∧
    ∀ rest x, ¬ Relation.TransGen (g.Enters rest) x x := by
  have hg := compiled_of_build hb
  have hsound := leading_sound_of_build hb
  refine ⟨?_, not_transGen_enters hg hsound⟩
  have hnt : g.isNonterminal start = true := hg.isNonterminal_iff.mpr hs
  have hdepth : tokens.length * (g.nonterminals.length + 1) + g.nonterminals.length + 1 ≤
      g.depthBound tokens.length + ([] : List Symbol).length := by
    unfold depthBound
    rw [Nat.succ_mul, List.length_nil]
    omega
  obtain ⟨n, o, hd, hne, hres⟩ := settles_of_depth hg hsound hfinish hnt List.nodup_nil
    (fun a ha => (List.not_mem_nil ha).elim) hdepth
  refine ⟨n, o, hd, fun _ _ h => hd.unique h, hne, ?_⟩
  unfold parse
  rw [if_pos hnt]
  rw [parseSequence] at hres
  cases o with
  | found ts mid =>
    cases h : g.parseSymbol (g.depthBound tokens.length) start tokens with
    | none => rw [h] at hres; cases hres
    | some r =>
      obtain ⟨t, mid⟩ := r
      rw [h] at hres
      cases hres
      cases mid <;> rfl
  | rejected =>
    cases h : g.parseSymbol (g.depthBound tokens.length) start tokens with
    | none => rfl
    | some r => rw [h] at hres; cases hres
  | overrun => exact absurd rfl hne

/-- rules with a left recursion that is no conflict, because nothing follows `A` -/
def recursiveRules : List Rule := [⟨"S", [["a", "S"], ["b", "A"], ["c"]]⟩, ⟨"A", [["A"], []]⟩]

/-- The descent over `a c` finds a tree, and that over `a b` comes to the left recursion, which it
does not enter. -/
theorem descent_terminates_left_recursion :
    ∃ g, build recursiveRules [] = .ok g ∧
      (∀ r ∈ recursiveRules, ∀ body ∈ r.alts, Symbol.finish ∉ body) ∧
      "S" ∈ recursiveRules.map Rule.head ∧
      (∃ t, g.parse [⟨"a", none⟩, ⟨"c", none⟩] "S" = some t ∧
        ∃ n, g.Descends ["S"] [⟨"a", none⟩, ⟨"c", none⟩] n (.found [t] [])) ∧
      g.parse [⟨"a", none⟩, ⟨"b", none⟩] "S" = none ∧
      (∃ n o, g.Descends ["S"] [⟨"a", none⟩, ⟨"b", none⟩] n o ∧ o ≠ .overrun) ∧
      ∀ rest, ¬ g.Enters rest "A" "A" := by
  have hb := eq_ok_orEmpty (show (build recursiveRules []).isOk = true by decide +kernel)
  have hsome : ((orEmpty (build recursiveRules [])).parse
    [⟨"a", none⟩, ⟨"c", none⟩] "S").isSome = true := by decide +kernel
  have hnone : ((orEmpty (build recursiveRules [])).parse
    [⟨"a", none⟩, ⟨"b", none⟩] "S").isNone = true := by decide +kernel
  generalize orEmpty (build recursiveRules []) = g at hb hsome hnone
  have hfinish : ∀ r ∈ recursiveRules, ∀ body ∈ r.alts, Symbol.finish ∉ body := by decide
  have hstart : "S" ∈ recursiveRules.map Rule.head := by decide
  obtain ⟨⟨n, o, hd, -, -, hparse⟩, hcycle⟩ :=
    descent_terminates hb hfinish hstart [⟨"a", none⟩, ⟨"c", none⟩]
  obtain ⟨⟨n', o', hd', -, hne, -⟩, -⟩ :=
    descent_terminates hb hfinish hstart [⟨"a", none⟩, ⟨"b", none⟩]
  obtain ⟨t, ht⟩ := Option.isSome_iff_exists.mp hsome
  rw [hparse] at ht
  obtain rfl := Outcome.eq_found_of_accepted ht
  exact ⟨g, hb, hfinish, hstart, ⟨t, hparse.trans ht, n, hd⟩, Option.isNone_iff_eq_none.mp hnone,
    ⟨n', o', hd', hne⟩, fun rest h => hcycle rest "A" (.single h)⟩

end Grammar

end Overloading
