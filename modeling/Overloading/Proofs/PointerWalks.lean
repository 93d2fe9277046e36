import Overloading.Proofs.Navigation

/-!
# Walks of a pointer

A pointer into a region is moved without a look at the region, so a walk of many moves depends on
their sum alone, as long as that is a number the machine has.  Where the walk has ended is compared
with the region when the pointer is dereferenced, not before.

* `IsWord`, `wrapWord_of_isWord`   the numbers that are not wrapped;
* `Store.offsets`   a walk: one move after another;
* `offsets_index`   a walk never fails, and all that is known of where it ends is the sum;
* `Store.Apart`     what two pointers tell, one of which is so many places after the other;
* `walks_depend_on_sum`   the ends of a walk are apart by the sum of its moves, whatever happens to
                          the store meanwhile.
-/

namespace Overloading

/-! ## Words -/

def IsWord (n : Int) : Prop := -2 ^ 63 ≤ n ∧ n < 2 ^ 63

instance (n : Int) : Decidable (IsWord n) := inferInstanceAs (Decidable (_ ∧ _))

theorem wrapWord_of_isWord {n : Int} (h : IsWord n) : wrapWord n = n := by
  obtain ⟨hlow, hhigh⟩ := h
  have hwidth : ((Nat.pow 2 64 : Nat) : Int) = 2 ^ 64 := rfl
  exact Int.bmod_eq_of_le_mul_two (by omega) (by omega)

theorem wrapWord_add (m n : Int) : wrapWord (wrapWord m + n) = wrapWord (m + n) := Int.bmod_add_bmod

theorem wrapWord_sub (m n : Int) : wrapWord (wrapWord m - n) = wrapWord (m - n) := Int.bmod_sub_bmod

def displacement : List Int → Int
  | [] => 0
  | n :: ns => n + displacement ns

/-- what a pointer is whose pointee is known, once it is moved -/
def Ty.moved : Ty → Ty
  | .array e _ => .pointer e
  | t => t

theorem Ty.pointee_moved (t : Ty) : t.moved.pointee = t.pointee := by cases t <;> rfl

namespace Store

variable {s s' : Store} {p q v : VarId} {t : Ty} {a : Pointer} {r : RegionId} {i j n : Int}
  {ns : List Int}

/-! ## Pointers in variables -/

theorem readPointer_eq_ok :
    s.readPointer p = .ok (t, a) ↔ s.typeOf p = .ok t ∧ s.read p = .ok a.raw := by
  unfold readPointer
  cases ht : s.typeOf p with
  | error e => simp
  | ok u =>
    cases hr : s.read p with
    | error e => simp
    | ok raw =>
      cases raw <;> cases a <;> simp [Pointer.raw]

theorem Extends.readPointer (h : s.Extends s') (hp : s.readPointer p = .ok (t, a)) :
    s'.readPointer p = .ok (t, a) := by
  obtain ⟨htype, hread⟩ := readPointer_eq_ok.mp hp
  obtain ⟨x, c, hview, hstate, hraw⟩ := read_eq_ok.mp hread
  refine readPointer_eq_ok.mpr ⟨?_, read_eq_ok.mpr ⟨x, c, h.view hview, hstate, hraw⟩⟩
  rw [← htype, typeOf, typeOf, hview, h.view hview]

/-! ## Moves -/

theorem offset_index (hp : s.readPointer p = .ok (t, .index r i)) (n : Int) :
    s.offset p n = .ok (s.temp t.moved (.index r (wrapWord (i + n)))) := by
  rw [offset, hp]
  cases t <;> rfl

/-- where a pointer is after some moves, and the store they leave -/
def offsets (s : Store) (p : VarId) : List Int → Except Fault (VarId × Store)
  | [] => .ok (p, s)
  | n :: ns =>
    match s.offset p n with
    | .error e => .error e
    | .ok (q, s) => s.offsets q ns

/-- **A walk** never fails: it ends at the sum of its moves, in or out of the region -/
theorem offsets_index (hp : s.readPointer p = .ok (t, .index r i)) (hi : IsWord i) (ns : List Int) :
    ∃ q s' u, s.offsets p ns = .ok (q, s') ∧
      s'.readPointer q = .ok (u, .index r (wrapWord (i + displacement ns))) ∧
      u.pointee = t.pointee := by
  have hwalk : ∀ (s : Store) (p : VarId) (t : Ty) (j : Int),
      s.readPointer p = .ok (t, .index r (wrapWord j)) → ∃ q s' u,
        s.offsets p ns = .ok (q, s') ∧
        s'.readPointer q = .ok (u, .index r (wrapWord (j + displacement ns))) ∧
        u.pointee = t.pointee := by
    induction ns with
    | nil =>
      intro s p t j hp
      refine ⟨p, s, t, rfl, ?_, rfl⟩
      rw [displacement, Int.add_zero, hp]
    | cons n ns ih =>
      intro s p t j hp
      have hmoved := s.readPointer_temp t.moved (.index r (wrapWord (j + n)))
      obtain ⟨q, s', u, hoffsets, hq, hu⟩ := ih _ _ _ (j + n) hmoved
      refine ⟨q, s', u, ?_, ?_, hu.trans t.pointee_moved⟩
      · rw [offsets, offset_index hp, wrapWord_add]
        exact hoffsets
      · rw [hq, displacement, Int.add_assoc]
  exact hwalk s p t i ((wrapWord_of_isWord hi).symm ▸ hp)

theorem builds_offsets (h : s.offsets p ns = .ok (q, s')) : s.Builds s' := by
  induction ns generalizing s p with
  | nil =>
    cases h
    exact .refl _
  | cons n ns ih =>
    rw [offsets] at h
    split at h
    · cases h
    · next hmove => exact (builds_offset hmove).trans (ih h)

/-! ## What is at the end -/

/-- what two pointers tell, the second of which is so many places after the first, at an index of
a region -/
structure Apart (s : Store) (p q : VarId) (elem : Ty) (r : RegionId) (j n : Int) : Prop where
  distance : s.distance q p = .ok n
  offset : ∃ u s', s.offset p n = .ok (u, s') ∧ s'.samePointer u q = .ok true
  inside : ∀ id, s.HasAt r j id → ∃ w s' c, s.deref q = .ok (w, s') ∧
    s.cells[id]? = some c ∧ s'.view w = .ok (⟨elem, false, id⟩, c)
  outside : ¬ s.Inside r j → ∃ w s' e, s.deref q = .ok (w, s') ∧ e.code = some .outOfBounds ∧
    (readInPlace w).result s' = (.error e, s') ∧
    ∀ raw, (assignInPlace w raw).result s' = (.error e, s')

theorem boundsFault_code (s : Store) (h : Holder) : (s.boundsFault h).code = some .outOfBounds := by
  unfold boundsFault
  split
  · split <;> rfl
  · rfl

/-- what is behind an index outside the region can be neither read nor assigned to -/
theorem deref_outside (hq : s.readPointer q = .ok (t, .index r j)) (hout : ¬ s.Inside r j) :
    ∃ w s' e, s.deref q = .ok (w, s') ∧ e.code = some .outOfBounds ∧ s'.read w = .error e ∧
      ∀ raw, s'.assign w raw = .error e := by
  let c : Cell := ⟨.unbound, .nothing, .slot r j⟩
  have hview := s.view_fresh_self t.pointee c
  refine ⟨(s.fresh t.pointee c).1, (s.fresh t.pointee c).2, _, ?_,
    boundsFault_code (s.fresh t.pointee c).2 c.holder, ?_, fun raw => ?_⟩
  · rw [deref, hq]
    exact congrArg Except.ok (cellAs_outside hout _)
  · rw [read, hview]
  · rw [assign, init, hview]
    rfl

theorem deref_inside {id : CellId} (hs : s.Held) (hq : s.readPointer q = .ok (t, .index r j))
    (hid : s.HasAt r j id) : ∃ w s' c, s.deref q = .ok (w, s') ∧ s.cells[id]? = some c ∧
      s'.view w = .ok (⟨t.pointee, false, id⟩, c) := by
  have hderef : s.deref q = .ok (s.addVariable ⟨t.pointee, false, id⟩) := by
    rw [deref, hq]
    exact congrArg Except.ok (cellAs_of_hasAt hid t.pointee)
  obtain ⟨x, k, hx, _, hk⟩ := hid
  obtain ⟨c, hc, _, _⟩ := hs r x hx k id hk
  exact ⟨_, _, c, hderef, hc, view_eq_ok.mpr ⟨Array.getElem?_push_size, hc⟩⟩

theorem samePointer_index {t' : Ty} (hp : s.readPointer p = .ok (t, .index r i))
    (hq : s.readPointer q = .ok (t', .index r i)) : s.samePointer p q = .ok true := by
  rw [samePointer, hp, hq]
  simp

theorem apart_of_index {t' : Ty} (hs : s.Held) (hn : IsWord n)
    (hp : s.readPointer p = .ok (t, .index r i))
    (hq : s.readPointer q = .ok (t', .index r (wrapWord (i + n)))) :
    s.Apart p q t'.pointee r (wrapWord (i + n)) n := by
  refine ⟨?_, ?_, fun id => deref_inside hs hq, fun hout => ?_⟩
  · rw [distance, hp, hq]
    dsimp only
    rw [if_pos rfl, wrapWord_sub, Int.add_comm, Int.add_sub_cancel, wrapWord_of_isWord hn]
  · have hextends := s.extends_fresh t.moved ⟨.init, .index r (wrapWord (i + n)), .temporary⟩
    exact ⟨_, _, offset_index hp n, samePointer_index
      (s.readPointer_temp t.moved (.index r (wrapWord (i + n)))) (hextends.readPointer hq)⟩
  · obtain ⟨w, s', e, hderef, hcode, hread, hassign⟩ := deref_outside hq hout
    refine ⟨w, s', e, hderef, hcode, ?_, fun raw => ?_⟩
    · rw [result_readInPlace, hread]
    · rw [result_assignInPlace, hassign]
      rfl

end Store

open Store

/-- **Walks depend on their sum.**  From a pointer into a region, an array or one that has decayed,
any moves can be made one after another, in and out of the region, and nothing that there is changes
meanwhile.  As long as the two pointers are held, whatever else happens and however the region
grows, the end of the walk is as far from its start as the sum of the moves says, and is where one
move by the sum leads.  It is dereferenced to a view of the cell that the region has there at that
moment, or else to a variable that can be neither read nor assigned to.  The index where the walk
ends is wrapped if it is not a word, and else is the sum counted from the start. -/
theorem walks_depend_on_sum {s : Store} (hs : s.Reached) {p : VarId} {t : Ty} {r : RegionId}
    {i : Int} (hp : s.readPointer p = .ok (t, .index r i)) (hi : IsWord i) {ns : List Int}
    (hsum : IsWord (displacement ns)) :
    ∃ q s', s.offsets p ns = .ok (q, s') ∧ s.Enlarges s' ∧
      ∀ more, (s'.after more).readPointer p = s'.readPointer p →
        (s'.after more).readPointer q = s'.readPointer q →
          (s'.after more).Apart p q t.pointee r (wrapWord (i + displacement ns))
            (displacement ns) ∧
          (IsWord (i + displacement ns) →
            (s'.after more).Apart p q t.pointee r (i + displacement ns) (displacement ns)) := by
  obtain ⟨q, s', u, hwalk, hq, hpointee⟩ := offsets_index hp hi ns
  have hbuilds := builds_offsets hwalk
  refine ⟨q, s', hwalk, hbuilds.toEnlarges, fun more hkept hkept' => ?_⟩
  have hheld' := hbuilds.held hs.held_sound.1
  have hapart := apart_of_index (keeps_after hheld' more).held hsum
    (hkept.trans (hbuilds.readPointer hp)) (hkept'.trans hq)
  rw [hpointee] at hapart
  exact ⟨hapart, fun hend => wrapWord_of_isWord hend ▸ hapart⟩

/-- a walk from the last cell of a region of two, far out of it and back to where it grows before
the pointer is dereferenced -/
theorem walks_depend_on_sum_grown : ∃ (s s' : Store) (q : VarId),
    s.offsets 0 [9, -10, 2] = .ok (q, s') ∧ ¬ s'.Inside 0 2 ∧
      (s'.after [.append 0 (.int 7)]).Inside 0 2 ∧
      (s'.after [.append 0 (.int 7)]).Apart 0 q (.arith .i32) 0 2 1 := by
  let word : Ty := .arith .i32
  let s : Store := ⟨#[⟨.uninit, .nothing, .slot 0 0⟩, ⟨.uninit, .nothing, .slot 0 1⟩,
      ⟨.init, .index 0 1, .temporary⟩],
    #[⟨.pointer word, false, 2⟩], #[⟨word, #[0, 1]⟩]⟩
  have hs : s.Reached := ⟨[.allocRegion word 2, .pointerInto 0 1], rfl⟩
  have hsum : IsWord (displacement [9, -10, 2]) := by decide
  obtain ⟨q, s', hwalk, _, hlater⟩ := walks_depend_on_sum hs (p := 0) rfl (by decide) hsum
  cases hwalk
  obtain ⟨_, hapart⟩ := hlater [.append 0 (.int 7)] rfl rfl
  refine ⟨s, _, _, rfl, ?_, inside_iff.mpr ⟨_, _, 2, rfl, rfl, rfl⟩, hapart (by decide)⟩
  rintro ⟨x, n, hx, hn, hlt⟩
  cases hx
  have hlt : n < 2 := hlt
  omega

end Overloading
