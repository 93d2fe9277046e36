import Mathlib.Algebra.Group.Int.Defs
import Overloading.Arithmetic
import Overloading.Proofs.StoreTypes

/-!
# Integer arithmetic on variables

A `Number` is a variable of an integral kind with the integer it holds.  Operators take numbers of
one kind and make a number of that kind, unless the exact result does not fit.

* `Kind.contains_normalize`   wrapping an integer to a kind brings it into the range of the kind;
* `fit_exact`, `fit_signed`, `fit_wraps`, `fit_unsigned`    what becomes of an exact result;
* `Number.In.fresh`           numbers stay what they are when variables are made;
* `convert_number`, `clone_number`, `binary_numbers`, `negate_number`    the operations on numbers.
-/

namespace Overloading

/-! ## Ranges -/

namespace Kind

theorem contains_normalize (k : Kind) (n : Int) : k.contains (k.normalize n) = true := by
  unfold normalize
  by_cases hk : k = bool
  · subst hk
    rw [if_pos rfl]
    split <;> decide
  rw [if_neg hk]
  by_cases hn : k.contains n = true
  · rw [if_pos hn, hn]
  rw [if_neg hn]
  unfold contains minValue maxValue
  have hhalves : Nat.pow 2 (k.bits - 1) + Nat.pow 2 (k.bits - 1) = Nat.pow 2 k.bits :=
    Nat.two_pow_pred_add_two_pow_pred k.bits_pos
  have hpos : 0 < Nat.pow 2 k.bits := Nat.two_pow_pos k.bits
  generalize Nat.pow 2 k.bits = m at hhalves hpos ⊢
  generalize Nat.pow 2 (k.bits - 1) = h at hhalves ⊢
  have hlow : 0 ≤ n % (m : Int) := Int.emod_nonneg _ (by omega)
  have hhigh : n % (m : Int) < m := Int.emod_lt_of_pos _ (by omega)
  generalize n % (m : Int) = r at hlow hhigh ⊢
  simp only [if_neg hk, Bool.and_eq_true, decide_eq_true_eq]
  cases k.signed with
  | false => simp only [Bool.false_eq_true, false_and, if_false]; omega
  | true =>
    simp only [true_and, if_true]
    split <;> omega

theorem normalize_unsigned {k : Kind} {n : Int} (hk : k ≠ bool) (hs : k.signed = false)
    (hn : k.contains n = false) : k.normalize n = n % 2 ^ k.bits := by
  unfold normalize
  rw [if_neg hk, hn, hs]
  simp

end Kind

/-! ## Fitting -/

section Fit

variable {policy : String} {k : Kind} {n : Int}

theorem fit_exact (hn : k.contains n = true) : fit policy k n = .ok (n, []) := if_pos hn

theorem fit_signed (hn : k.contains n = false) (hs : k.signed = true) :
    fit policy k n = .error (.signedOverflow n k) := by
  unfold fit
  rw [hn, hs, if_neg Bool.false_ne_true, if_pos rfl]

theorem fit_wraps (hk : k ≠ .bool) (hn : k.contains n = false) (hs : k.signed = false)
    (hpolicy : policy = warnPolicy ∨ policy = ignorePolicy) :
    ∃ records, fit policy k n = .ok (n % 2 ^ k.bits, records) := by
  unfold fit
  rw [hn, hs, if_neg Bool.false_ne_true, if_neg Bool.false_ne_true,
    Kind.normalize_unsigned hk hs hn]
  rcases hpolicy with rfl | rfl
  · exact ⟨_, if_pos (by decide)⟩
  · rw [if_neg (by decide)]
    exact ⟨[], if_pos (by decide)⟩

theorem fit_unsigned (hn : k.contains n = false) (hs : k.signed = false)
    (hwarn : policy ≠ warnPolicy) (hignore : policy ≠ ignorePolicy) :
    fit policy k n = .error (.unsignedOverflow n k) := by
  unfold fit
  rw [hn, hs, if_neg Bool.false_ne_true, if_neg Bool.false_ne_true,
    if_neg fun h => hwarn (beq_iff_eq.mp h), if_neg fun h => hignore (beq_iff_eq.mp h)]

end Fit

/-! ## Numbers -/

structure Number where
  var : VarId
  kind : Kind
  value : Int

/-- the variable has the kind and holds the integer, which is in its range -/
structure Number.In (x : Number) (s : Store) : Prop where
  type_eq : s.typeOf x.var = .ok (.arith x.kind)
  read_eq : s.read x.var = .ok (.int x.value)
  integral : x.kind.isIntegral = true
  in_range : x.kind.contains x.value = true

theorem Number.In.fresh {x : Number} {s : Store} (h : x.In s) (t : Ty) (c : Cell) :
    x.In (s.fresh t c).2 :=
  ⟨(s.grows_fresh t c).typeOf h.type_eq, (s.extends_fresh t c).read h.read_eq, h.integral,
    h.in_range⟩

theorem number_fresh (s : Store) {k : Kind} {n : Int} (holder : Holder)
    (hk : k.isIntegral = true) (hn : k.contains n = true) :
    Number.In ⟨(s.fresh (.arith k) ⟨.init, .int n, holder⟩).1, k, n⟩
      (s.fresh (.arith k) ⟨.init, .int n, holder⟩).2 :=
  ⟨s.typeOf_fresh _ _, s.read_fresh_self _ rfl, hk, hn⟩

/-! ## Operations on numbers -/

section Operations

variable {s : Store} {x y : Number}

theorem Number.In.operand_eq (h : x.In s) :
    s.operand x.var = ⟨.arith x.kind, .ok (.int x.value)⟩ := by
  unfold Store.operand
  rw [h.type_eq, h.read_eq]

theorem Number.In.isFloat (h : x.In s) : x.kind.isFloat = false := by
  simpa [Kind.isIntegral] using h.integral

theorem clone_number (h : x.In s) :
    s.clone x.var = .ok (s.fresh (.arith x.kind) ⟨.init, .int x.value, .itself⟩) := by
  unfold Store.clone
  rw [h.type_eq]
  dsimp only
  rw [h.read_eq]
  rfl

theorem convert_number (h : x.In s) {k : Kind} (hk : k.isIntegral = true) :
    s.convert x.var k =
      .ok (s.fresh (.arith k) ⟨.init, .int (k.normalize x.value), .temporary⟩) := by
  have hfloat : ¬ k.isFloat = true := by simpa [Kind.isIntegral] using hk
  unfold Store.convert Operand.convert
  rw [h.operand_eq]
  dsimp only
  rw [if_neg hfloat]
  rfl

theorem working_eq {k : Kind} (hk : k ≠ .bool) : k.working = k := if_neg hk

theorem binary_numbers (policy : String) (op : Operator) (hx : x.In s) (hy : y.In s)
    (hkind : y.kind = x.kind) (hbool : x.kind ≠ .bool) :
    s.binary policy op x.var y.var =
      if op.divides = true ∧ y.value = 0 then .error (.divisionByZero x.value op.symbol)
      else (fit policy x.kind (op.onInt x.value y.value)).map fun r =>
        ((s.scalar ⟨x.kind, .int r.1⟩).1, (s.scalar ⟨x.kind, .int r.1⟩).2, r.2) := by
  have happly : op.apply policy ⟨.arith x.kind, .ok (.int x.value)⟩
      ⟨.arith x.kind, .ok (.int y.value)⟩ =
        if op.divides = true ∧ y.value = 0 then .error (.divisionByZero x.value op.symbol)
        else fitted policy x.kind (op.onInt x.value y.value) := by
    unfold Operator.apply
    simp only [Ty.kind?, hx.isFloat, Operand.int, working_eq hbool]
    rw [if_neg fun h => h rfl, if_neg Bool.false_ne_true]
    show (if (op.divides && decide (y.value = 0)) = true then
      Except.error (.divisionByZero x.value op.symbol)
      else fitted policy x.kind (op.onInt x.value y.value)) = _
    simp only [Bool.and_eq_true, decide_eq_true_eq]
  unfold Store.binary
  rw [hx.operand_eq, hy.operand_eq, hkind, happly]
  split
  · rfl
  · unfold fitted
    cases fit policy x.kind (op.onInt x.value y.value) <;> rfl

theorem negate_number (policy : String) (hx : x.In s) (hbool : x.kind ≠ .bool) :
    s.negate policy x.var = (fit policy x.kind (-x.value)).map fun r =>
      ((s.scalar ⟨x.kind, .int r.1⟩).1, (s.scalar ⟨x.kind, .int r.1⟩).2, r.2) := by
  have hnegate : Operand.negate policy ⟨.arith x.kind, .ok (.int x.value)⟩ =
      fitted policy x.kind (-x.value) := by
    unfold Operand.negate
    simp only [Ty.kind?, hx.isFloat, Operand.int, working_eq hbool]
    rfl
  unfold Store.negate
  rw [hx.operand_eq, hnegate]
  unfold fitted
  cases fit policy x.kind (-x.value) <;> rfl

end Operations

end Overloading
