import Mathlib.Data.Int.ModEq
import Overloading.Proofs.IntegerArithmetic

/-!
# Wrapping is reduction

An integral kind other than truth values holds as many integers as its bits have patterns, one
after another, so every integer is congruent to just one of them modulo two to the width.  Wrapping
gives that one.  All that is said of wrapping here is read off this.

* `Kind.maxValue_eq`        how many integers a kind holds;
* `Kind.normalize_modEq`    wrapping keeps the residue, by each of its three branches;
* `Kind.normalize_eq_iff`   what an integer wraps to is the integer of the range in its residue
                            class;
* `convert_integer`         converting a variable that holds an integer wraps the integer;
* `normalize_reduces`       so wrapping is a reduction, and wider kinds may stand in between.
-/

namespace Overloading

namespace Kind

variable {k k' : Kind} {m n x y : Int}

/-! ## The range -/

theorem maxValue_eq (hk : k ≠ bool) : k.maxValue = k.minValue + 2 ^ k.bits - 1 := by
  have hhalves : Nat.pow 2 (k.bits - 1) + Nat.pow 2 (k.bits - 1) = Nat.pow 2 k.bits :=
    Nat.two_pow_pred_add_two_pow_pred k.bits_pos
  have hpow : ((Nat.pow 2 k.bits : Nat) : Int) = 2 ^ k.bits := Nat.cast_pow 2 k.bits
  unfold maxValue minValue
  rw [if_neg hk, if_neg hk, ← hpow]
  cases k.signed with
  | false => simp
  | true =>
    simp only [if_true]
    omega

theorem contains_iff : k.contains n = true ↔ k.minValue ≤ n ∧ n ≤ k.maxValue := by
  unfold contains
  rw [Bool.and_eq_true, decide_eq_true_eq, decide_eq_true_eq]

theorem eq_of_modEq (hk : k ≠ bool) (hx : k.contains x = true) (hy : k.contains y = true)
    (h : x ≡ y [ZMOD 2 ^ k.bits]) : x = y := by
  rw [contains_iff, maxValue_eq hk] at hx hy
  obtain ⟨c, hc⟩ := h.dvd
  have hpos : (0 : Int) < 2 ^ k.bits := Int.pow_pos (by decide)
  generalize (2 : Int) ^ k.bits = p at hx hy hc hpos
  have hlow : -1 < c := by
    by_contra hneg
    have := Int.mul_le_mul_of_nonneg_left (show c ≤ -1 by omega) hpos.le
    omega
  have hhigh : c < 1 := by
    by_contra hone
    have := Int.mul_le_mul_of_nonneg_left (show 1 ≤ c by omega) hpos.le
    omega
  obtain rfl : c = 0 := by omega
  omega

/-! ## Wrapping -/

theorem normalize_modEq (hk : k ≠ bool) (n : Int) : k.normalize n ≡ n [ZMOD 2 ^ k.bits] := by
  have hpow : ((Nat.pow 2 k.bits : Nat) : Int) = 2 ^ k.bits := Nat.cast_pow 2 k.bits
  have hmod : n % 2 ^ k.bits ≡ n [ZMOD 2 ^ k.bits] := Int.mod_modEq n _
  unfold normalize
  rw [if_neg hk, hpow]
  split
  · rfl
  dsimp only
  split
  · exact (Int.sub_modulus_modEq_iff).mpr hmod
  · exact hmod

theorem normalize_eq_iff (hk : k ≠ bool) :
    k.normalize n = x ↔ k.contains x = true ∧ x ≡ n [ZMOD 2 ^ k.bits] := by
  constructor
  · rintro rfl
    exact ⟨contains_normalize k n, normalize_modEq hk n⟩
  · rintro ⟨hx, hmod⟩
    exact eq_of_modEq hk (contains_normalize k n) hx ((normalize_modEq hk n).trans hmod.symm)

theorem normalize_eq_normalize_iff (hk : k ≠ bool) :
    k.normalize m = k.normalize n ↔ m ≡ n [ZMOD 2 ^ k.bits] := by
  rw [normalize_eq_iff hk, and_iff_right (contains_normalize k n)]
  exact ⟨fun h => h.symm.trans (normalize_modEq hk n), fun h => (normalize_modEq hk n).trans h.symm⟩

theorem normalize_eq_self_iff (hk : k ≠ bool) : k.normalize n = n ↔ k.contains n = true := by
  rw [normalize_eq_iff hk]
  exact and_iff_left rfl

theorem normalize_normalize_of_bits (hk : k ≠ bool) (hk' : k' ≠ bool) (hbits : k'.bits ≤ k.bits)
    (n : Int) : k'.normalize (k.normalize n) = k'.normalize n := by
  rw [normalize_eq_normalize_iff hk']
  exact (normalize_modEq hk n).of_dvd (pow_dvd_pow 2 hbits)

end Kind

/-! ## Conversions -/

/-- a variable that holds an integer, whatever its type, is converted by wrapping the integer -/
theorem convert_integer {s : Store} {v : VarId} {n : Int} (h : s.read v = .ok (.int n)) {k : Kind}
    (hk : k.isIntegral = true) :
    s.convert v k = .ok (s.scalar ⟨k, .int (k.normalize n)⟩) := by
  have hfloat : ¬ k.isFloat = true := by simpa [Kind.isIntegral] using hk
  obtain ⟨x, c, hview, -, -⟩ := Store.read_eq_ok.mp h
  have htype : s.typeOf v = .ok x.type := by
    unfold Store.typeOf
    rw [hview]
    rfl
  unfold Store.convert Store.operand Operand.convert
  rw [htype, h]
  dsimp only
  rw [if_neg hfloat]
  rfl

/-- **Wrapping is reduction.**  What an integer wraps to is in the range of the kind, is congruent
to it modulo two to the width, and is the only such integer.  So wrapping changes just what is out
of range and a second time nothing; what sums and products wrap to depends on what their parts wrap
to; and wrapping to a kind at least as wide first makes no difference, nor does converting a
variable that holds the integer. -/
theorem normalize_reduces {k : Kind} (hk : k.isIntegral = true) (hbool : k ≠ .bool) (n : Int) :
    (k.minValue ≤ k.normalize n ∧ k.normalize n ≤ k.maxValue ∧
      k.normalize n ≡ n [ZMOD 2 ^ k.bits] ∧
      ∀ x, k.minValue ≤ x → x ≤ k.maxValue → x ≡ n [ZMOD 2 ^ k.bits] → x = k.normalize n) ∧
    k.normalize (k.normalize n) = k.normalize n ∧
    (k.normalize n = n ↔ k.contains n = true) ∧
    (∀ m m' n', k.normalize m = k.normalize m' → k.normalize n = k.normalize n' →
      k.normalize (m + n) = k.normalize (m' + n') ∧
        k.normalize (m * n) = k.normalize (m' * n')) ∧
    ∀ k' : Kind, k'.isIntegral = true → k' ≠ .bool → k'.bits ≤ k.bits →
      k'.normalize (k.normalize n) = k'.normalize n ∧
      ∀ (s : Store) (v : VarId), s.read v = .ok (.int n) →
        ∃ y s₁ z s₂ z' s₂', s.convert v k = .ok (y, s₁) ∧ s₁.convert y k' = .ok (z, s₂) ∧
          s.convert v k' = .ok (z', s₂') ∧ Number.In ⟨z, k', k'.normalize n⟩ s₂ ∧
          Number.In ⟨z', k', k'.normalize n⟩ s₂' := by
  have hrange := Kind.contains_normalize k n
  obtain ⟨hlow, hhigh⟩ := Kind.contains_iff.mp hrange
  refine ⟨⟨hlow, hhigh, Kind.normalize_modEq hbool n, fun x hx hx' hmod => ?_⟩,
    Kind.normalize_of_contains hbool hrange, Kind.normalize_eq_self_iff hbool,
    fun m m' n' hm hn => ?_, fun k' hk' hbool' hbits => ?_⟩
  · exact ((Kind.normalize_eq_iff hbool).mpr ⟨Kind.contains_iff.mpr ⟨hx, hx'⟩, hmod⟩).symm
  · have hm := (Kind.normalize_eq_normalize_iff hbool).mp hm
    have hn := (Kind.normalize_eq_normalize_iff hbool).mp hn
    exact ⟨(Kind.normalize_eq_normalize_iff hbool).mpr (hm.add hn),
      (Kind.normalize_eq_normalize_iff hbool).mpr (hm.mul hn)⟩
  · have hthrough := Kind.normalize_normalize_of_bits hbool hbool' hbits n
    refine ⟨hthrough, fun s v hv => ?_⟩
    have hfirst := s.read_fresh_self (.arith k)
      (c := ⟨.init, .int (k.normalize n), .temporary⟩) rfl
    refine ⟨_, _, _, _, _, _, convert_integer hv hk, convert_integer hfirst hk',
      convert_integer hv hk', ?_, ?_⟩
    · rw [hthrough]
      exact number_fresh _ _ hk' (Kind.contains_normalize k' n)
    · exact number_fresh _ _ hk' (Kind.contains_normalize k' n)

def wideStore : Store := (Store.empty.temp (.arith .i32) (.int 32769)).2

/-- The integers after the greatest 16-bit one begin again with the least; a byte is the same with
or without 16 signed bits in between. -/
theorem normalize_reduces_boundary :
    Kind.i16.isIntegral = true ∧ Kind.i16 ≠ .bool ∧ Kind.i16.normalize 32769 = -32767 ∧
    Kind.u8.isIntegral = true ∧ Kind.u8 ≠ .bool ∧ Kind.u8.bits ≤ Kind.i16.bits ∧
    Kind.i16.normalize 1 = Kind.i16.normalize 65537 ∧
    Kind.i16.normalize (1 + 32769) = Kind.i16.normalize (65537 + -32767) ∧
    wideStore.read 0 = .ok (.int 32769) ∧
    ∃ y s₁ z s₂, wideStore.convert 0 .i16 = .ok (y, s₁) ∧ s₁.convert y .u8 = .ok (z, s₂) ∧
      Number.In ⟨z, .u8, 1⟩ s₂ := by
  obtain ⟨-, -, -, hsums, hkinds⟩ := normalize_reduces (k := .i16) rfl (by decide) 32769
  obtain ⟨y, s₁, z, s₂, -, -, hy, hz, -, hnumber, -⟩ :=
    (hkinds .u8 rfl (by decide) (by decide)).2 wideStore 0 rfl
  exact ⟨rfl, by decide, by decide, rfl, by decide, by decide, by decide,
    (hsums 1 65537 (-32767) (by decide) (by decide)).1, rfl, y, s₁, z, s₂, hy, hz, hnumber⟩

end Overloading
