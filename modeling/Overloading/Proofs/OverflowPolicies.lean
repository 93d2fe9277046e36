import Overloading.Proofs.OperatorCalls

/-!
# Overflow policies

The text of an overflow policy is read in two places.  Validation accepts short and long spellings
in any case, with blanks around; arithmetic compares the text as it stands with the two short
spellings that let a result wrap, and takes everything else for a fault.

* `Overflow.outcome`     what a policy makes of an integer out of the range of an unsigned kind;
* `Overflow.taken`       the policy that arithmetic takes a text for; the one that validation reads
                         if the text is its short spelling, and else `error` (`taken_eq`);
* `Catalog.Follows`      whatever a catalog computes or reads out of the range of an unsigned kind
                         becomes what a policy prescribes;
* `follows_taken`        a catalog follows the policy its text is taken for, and no other;
* `validated_policies`   so a validated policy is followed if it is `error` or spelled shortly, as
                         it is when it comes from a document.
-/

namespace Overloading

open Grammar Overloading.Text

variable {τ : Type}

/-! ## What a policy prescribes -/

/-- an unsigned kind does not hold an integer -/
structure Kind.Overflows (k : Kind) (n : Int) : Prop where
  unsigned : k.signed = false
  outside : k.contains n = false

/-- the residue an integer wraps to; truth values do not wrap, and are true -/
def Kind.wrapped (k : Kind) (n : Int) : Int := if k = .bool then 1 else n % 2 ^ k.bits

namespace Overflow

/-- what becomes of an integer out of the range of an unsigned kind: another integer, with warnings,
or a fault -/
def outcome (p : Overflow) (k : Kind) (n : Int) : Except Fault (Int × List Record) :=
  match p with
  | error => .error (.unsignedOverflow n k)
  | warn => .ok (k.wrapped n, [wrapWarning k n (k.wrapped n)])
  | ignore => .ok (k.wrapped n, [])

/-- the policy that arithmetic takes a text for -/
def taken (text : String) : Overflow :=
  if text = warnPolicy then warn else if text = ignorePolicy then ignore else error

theorem ofText_text (p : Overflow) : ofText p.text = .ok p := by cases p <;> rfl

/-- validation and arithmetic agree on the short spellings only, and on what is a fault to both -/
theorem taken_eq {text : String} {p : Overflow} (h : ofText text = .ok p) :
    taken text = if text = p.text then p else error := by
  have hshort : ∀ q : Overflow, text = q.text → p = q := by
    rintro q rfl
    rw [ofText_text] at h
    exact (Except.ok.inj h).symm
  unfold taken
  by_cases hwarn : text = warnPolicy
  · cases hshort warn hwarn
    rw [if_pos hwarn]
    exact (if_pos hwarn).symm
  by_cases hignore : text = ignorePolicy
  · cases hshort ignore hignore
    rw [if_neg hwarn, if_pos hignore]
    exact (if_pos hignore).symm
  rw [if_neg hwarn, if_neg hignore]
  cases p with
  | error => exact (ite_self error).symm
  | warn => exact (if_neg hwarn).symm
  | ignore => exact (if_neg hignore).symm

theorem taken_eq_iff {text : String} {p : Overflow} (h : ofText text = .ok p) :
    taken text = p ↔ p = error ∨ text = p.text := by
  rw [taken_eq h]
  by_cases hshort : text = p.text
  · rw [if_pos hshort]
    exact ⟨fun _ => .inr hshort, fun _ => rfl⟩
  · rw [if_neg hshort]
    exact ⟨fun heq => .inl heq.symm, fun hp => hp.elim Eq.symm fun heq => absurd heq hshort⟩

theorem outcome_inj {p q : Overflow} {k : Kind} {n : Int} (h : p.outcome k n = q.outcome k n) :
    p = q := by
  cases p <;> cases q <;> first | rfl | cases h

end Overflow

/-! ## Arithmetic -/

section Arithmetic

variable {k : Kind} {n : Int} {policy : String}

theorem Kind.Overflows.integral (h : k.Overflows n) : k.isIntegral = true := by
  have hunsigned := h.unsigned
  cases k <;> first | rfl | cases hunsigned

theorem Kind.Overflows.normalize_eq (h : k.Overflows n) : k.normalize n = k.wrapped n := by
  unfold wrapped
  by_cases hbool : k = .bool
  · subst hbool
    have hne : n ≠ 0 := by
      rintro rfl
      exact absurd h.outside (by decide)
    rw [normalize, if_pos rfl, if_neg hne, if_pos rfl]
  · rw [if_neg hbool, normalize_unsigned hbool h.unsigned h.outside]

theorem Kind.Overflows.contains_wrapped (h : k.Overflows n) : k.contains (k.wrapped n) = true :=
  h.normalize_eq ▸ k.contains_normalize n

theorem Kind.Overflows.contains_outcome {p : Overflow} (h : k.Overflows n) {m : Int}
    {records : List Record} (hm : p.outcome k n = .ok (m, records)) : k.contains m = true := by
  cases p with
  | error => cases hm
  | warn | ignore => cases hm; exact h.contains_wrapped

/-- **Fitting** follows the policy that the text is taken for. -/
theorem fit_overflow (h : k.Overflows n) : fit policy k n = (Overflow.taken policy).outcome k n := by
  unfold fit Overflow.taken
  rw [h.outside, h.unsigned, h.normalize_eq, if_neg Bool.false_ne_true, if_neg Bool.false_ne_true]
  by_cases hwarn : policy = warnPolicy
  · rw [if_pos (beq_iff_eq.mpr hwarn), if_pos hwarn]
    rfl
  rw [if_neg fun heq => hwarn (beq_iff_eq.mp heq), if_neg hwarn]
  by_cases hignore : policy = ignorePolicy
  · rw [if_pos (beq_iff_eq.mpr hignore), if_pos hignore]
    rfl
  · rw [if_neg fun heq => hignore (beq_iff_eq.mp heq), if_neg hignore]
    rfl

theorem scalar_ofInt (hk : k.contains n = true) : Scalar.ofInt k n = ⟨k, .int n⟩ := by
  have hsame : k.normalize n = n := by
    by_cases hbool : k = .bool
    · subst hbool
      have hrange : n = 0 ∨ n = 1 := by
        unfold Kind.contains Kind.minValue Kind.maxValue at hk
        simp only [if_true, Bool.and_eq_true, decide_eq_true_eq] at hk
        omega
      rcases hrange with rfl | rfl <;> rfl
    · exact Kind.normalize_of_contains hbool hk
  unfold Scalar.ofInt
  rw [hsame]

theorem readNumber_overflow {line : String} (h : k.Overflows n)
    (hline : integer? (trim line) = some n) :
    readNumber policy k line =
      ((Overflow.taken policy).outcome k n).map fun r => (⟨k, .int r.1⟩, r.2) := by
  have hfloat : ¬ k.isFloat = true := by simpa [Kind.isIntegral] using h.integral
  unfold readNumber
  simp only [if_neg hfloat, hline]
  rw [fit_overflow h]
  cases ho : (Overflow.taken policy).outcome k n with
  | error e => rfl
  | ok r =>
    show Except.ok (Scalar.ofInt k r.1, r.2) = _
    rw [scalar_ofInt (h.contains_outcome ho)]
    rfl

end Arithmetic

/-! ## Catalogs -/

/-- a step has ended as an outcome says: in a variable of a kind that holds the integer, after the
warnings, or with the fault -/
def Step.Shows (s : Step (Engine τ) Value) (k : Kind) : Except Fault (Int × List Record) → Prop
  | .error e => ∃ v, s = .fail v e
  | .ok (n, records) => ∃ v z, s = .done (World.note v records) (some z) ∧
      Number.In ⟨z, k, n⟩ v.state.store

/-- whatever a catalog computes or reads out of the range of an unsigned kind, and whatever it will
after further declarations, becomes what a policy prescribes -/
structure Catalog.Follows (r : Catalog τ) (p : Overflow) : Prop where
  fits : ∀ k n, k.Overflows n → fit r.config.unsignedOverflow k n = p.outcome k n
  operators : ∀ (r' : Catalog τ) (services : Services (Engine τ)) (w : Engine τ) (op : Operator)
    (x y : Number), r'.config = r.config → r'.HasOperators → x.In w.state.store →
    y.In w.state.store →
      let k := x.kind.promote y.kind
      let n := op.onInt (k.normalize x.value) (k.normalize y.value)
      ¬ (op.divides = true ∧ k.normalize y.value = 0) → k.Overflows n →
        (r'.dispatchIn services globalDomain (operatorKey op.symbol) []
          [some x.var, some y.var] w).Shows k (p.outcome k n)
  negation : ∀ (r' : Catalog τ) (services : Services (Engine τ)) (w : Engine τ) (x : Number),
    r'.config = r.config → r'.HasOperators → x.In w.state.store →
      let k := x.kind.promote x.kind
      let n := -k.normalize x.value
      k.Overflows n → (r'.dispatchIn services globalDomain (operatorKey Operator.sub.symbol) []
        [some x.var] w).Shows k (p.outcome k n)
  input : ∀ (r' : Catalog τ) (prompt line : String) (w w' : Engine τ) (k : Kind) (n : Int),
    r'.config = r.config → integer? (trim line) = some n → k.Overflows n →
      ∃ resume, r'.awaitNumber prompt k w = .await w prompt resume ∧
        (resume line w').Shows k (p.outcome k n)

theorem shows_tryLogged {k : Kind} {w : Engine τ}
    {f : Store → Except Fault (VarId × Store × List Record)}
    {o : Except Fault (Int × List Record)} (hk : k.isIntegral = true)
    (ho : ∀ m records, o = .ok (m, records) → k.contains m = true)
    (hf : f w.state.store = o.map fun r =>
      ((w.state.store.scalar ⟨k, .int r.1⟩).1, (w.state.store.scalar ⟨k, .int r.1⟩).2, r.2)) :
    (Comp.tryLogged f w).Shows k o := by
  unfold Comp.tryLogged
  rw [hf]
  cases o with
  | error e => exact ⟨w, rfl⟩
  | ok r => exact ⟨_, _, rfl, number_fresh _ _ hk (ho r.1 r.2 rfl)⟩

namespace Catalog

variable {r : Catalog τ}

theorem follows_taken (r : Catalog τ) : r.Follows (Overflow.taken r.config.unsignedOverflow) where
  fits k n h := fit_overflow h
  operators := by
    intro r' services w op x y hconfig hops hx hy k n hzero h
    obtain ⟨hk, hbool⟩ := Kind.promote_integral hx.integral hy.integral
    obtain ⟨_, v, z, u, hcall, hz, hu⟩ := dispatchIn_binary (k := k) hops services op hx hy rfl
    have hbinary := binary_numbers r'.config.unsignedOverflow op hz hu rfl hbool
    rw [if_neg hzero, fit_overflow h, hconfig] at hbinary
    rw [hcall, hconfig]
    exact shows_tryLogged hk (fun m records hm => h.contains_outcome hm) hbinary
  negation := by
    intro r' services w x hconfig hops hx k n h
    obtain ⟨hk, hbool⟩ := Kind.promote_integral hx.integral hx.integral
    obtain ⟨_, v, z, hcall, hz⟩ := dispatchIn_negate (k := k) hops services hx rfl
    have hnegate := negate_number r'.config.unsignedOverflow hz hbool
    rw [fit_overflow h, hconfig] at hnegate
    rw [hcall, hconfig]
    exact shows_tryLogged hk (fun m records hm => h.contains_outcome hm) hnegate
  input := by
    intro r' prompt line w w' k n hconfig hline h
    refine ⟨_, rfl, shows_tryLogged h.integral (fun m records hm => h.contains_outcome hm) ?_⟩
    rw [hconfig, readNumber_overflow h hline]
    cases (Overflow.taken r.config.unsignedOverflow).outcome k n <;> rfl

/-- a catalog follows no other policy, since minus one is out of the range of every unsigned kind -/
theorem Follows.eq_taken {p : Overflow} (h : r.Follows p) :
    p = Overflow.taken r.config.unsignedOverflow := by
  have hout : Kind.u32.Overflows (-1) := ⟨rfl, by decide⟩
  exact Overflow.outcome_inj ((h.fits _ _ hout).symm.trans (r.follows_taken.fits _ _ hout))

theorem follows_iff {p : Overflow} :
    r.Follows p ↔ Overflow.taken r.config.unsignedOverflow = p :=
  ⟨fun h => h.eq_taken.symm, fun h => h ▸ r.follows_taken⟩

end Catalog

/-! ## Configurations -/

/-- settings that come from a document hold the short spelling of their policy -/
theorem policy_of_parse {text path : String} {config : Config}
    (h : Config.parse text path = .ok config) :
    ∃ p : Overflow, config.unsignedOverflow = p.text := by
  unfold Config.parse at h
  obtain ⟨raw, _, h⟩ := bind_eq_ok.mp h
  obtain ⟨p, _, h⟩ := bind_eq_ok.mp h
  obtain ⟨_, _, h⟩ := bind_eq_ok.mp h
  cases h
  exact ⟨p, rfl⟩

/-- **Validated policies**: settings that make sense give a catalog, and their policy is followed
by it exactly if it is `error` or given by its short spelling; otherwise results out of range are
faults.  A policy from a document is followed, whichever way the document spells it. -/
theorem validated_policies (τ : Type) {config : Config} (h : config.validate = .ok ()) :
    ∃ (p : Overflow) (r : Catalog τ) (records : List Record),
      Overflow.ofText config.unsignedOverflow = .ok p ∧
      Catalog.new config = .ok (r, records) ∧
      (r.Follows p ↔ p = .error ∨ config.unsignedOverflow = p.text) ∧
      (¬ r.Follows p → r.Follows .error) ∧
      ∀ text path, Config.parse text path = .ok config → r.Follows p := by
  obtain ⟨⟨p, hp⟩, _⟩ := Catalog.validate_spec h
  obtain ⟨r, records, hnew⟩ := Catalog.exists_new_of_validate τ h
  have hconfig := (Catalog.new_spec hnew).1
  have hfollows : r.Follows p ↔ p = .error ∨ config.unsignedOverflow = p.text := by
    rw [Catalog.follows_iff, hconfig]
    exact Overflow.taken_eq_iff hp
  refine ⟨p, r, records, hp, hnew, hfollows, fun hnot => ?_, fun text path hparse => ?_⟩
  · rw [hfollows, not_or] at hnot
    rw [Catalog.follows_iff, hconfig, Overflow.taken_eq hp, if_neg hnot.2]
  · obtain ⟨q, hq⟩ := policy_of_parse hparse
    rw [hq, Overflow.ofText_text] at hp
    cases hp
    exact hfollows.mpr (.inr hq)

/-- `WARN` is the policy to wrap with a warning, but arithmetic faults under it -/
theorem validated_policies_capitals :
    ∃ (config : Config) (r : Catalog Unit) (records : List Record),
      config.unsignedOverflow = "WARN" ∧ config.validate = .ok () ∧
      Overflow.ofText config.unsignedOverflow = .ok .warn ∧
      Catalog.new config = .ok (r, records) ∧ ¬ r.Follows .warn ∧ r.Follows .error := by
  have hvalidate : ({ Config.default with unsignedOverflow := "WARN" } : Config).validate = .ok () :=
    rfl
  have hwarn : Overflow.ofText "WARN" = .ok .warn := rfl
  obtain ⟨p, r, records, hp, hnew, hfollows, herror, _⟩ := validated_policies Unit hvalidate
  cases hwarn.symm.trans hp
  have hnot : ¬ r.Follows .warn := by
    rw [hfollows]
    exact not_or.mpr ⟨nofun, by decide⟩
  exact ⟨_, r, records, rfl, hvalidate, hwarn, hnew, hnot, herror hnot⟩

end Overloading
