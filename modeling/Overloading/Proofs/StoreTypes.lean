import Overloading.Catalog.Calling
import Overloading.Proofs.StoreFrames

/-!
# Variables keep their types

The operations on a store add cells, variables and regions, and change what is in cells.  None of
them takes anything away or changes what a variable views, so a variable keeps its type for good.

* `Store.Grows`     what every operation does to a store, and what its types survive;
* `Store.Adds`      a store has grown, and then got a variable of a type with a cell of its own:
                    this is what conversions and allocations do.
-/

namespace Overloading

namespace Store

variable {s s' s'' : Store} {v : VarId} {t : Ty}

/-! ## Growing -/

/-- every variable of a store is as it was, and no cell is gone -/
structure Grows (s s' : Store) : Prop where
  vars : ∀ (v : VarId) (x : Variable), s.vars[v]? = some x → s'.vars[v]? = some x
  cells : s.cells.size ≤ s'.cells.size

theorem Grows.refl (s : Store) : s.Grows s := ⟨fun _ _ h => h, Nat.le_refl _⟩

theorem Grows.trans (h : s.Grows s') (h' : s'.Grows s'') : s.Grows s'' :=
  ⟨fun v x hx => h'.vars v x (h.vars v x hx), Nat.le_trans h.cells h'.cells⟩

theorem typeOf_eq_ok : s.typeOf v = .ok t ↔
    ∃ x, s.vars[v]? = some x ∧ x.cell < s.cells.size ∧ x.type = t := by
  unfold typeOf view
  cases hx : s.vars[v]? with
  | none => simp [Except.map]
  | some x =>
    by_cases hc : x.cell < s.cells.size
    · simp [Except.map, hc]
    · simp [Except.map, hc]

theorem Grows.typeOf (h : s.Grows s') (ht : s.typeOf v = .ok t) : s'.typeOf v = .ok t := by
  obtain ⟨x, hx, hc, rfl⟩ := typeOf_eq_ok.mp ht
  exact typeOf_eq_ok.mpr ⟨x, h.vars v x hx, Nat.lt_of_lt_of_le hc h.cells, rfl⟩

theorem Extends.grows (h : s.Extends s') : s.Grows s' :=
  ⟨h.vars, size_le_of_getElem? fun id c hc => ⟨c, h.cells id c hc⟩⟩

theorem Rebinds.grows (h : s.Rebinds s') : s.Grows s' := by
  refine ⟨fun v x hx => h.vars ▸ hx, size_le_of_getElem? fun id c hc => ?_⟩
  rcases h.cells id c hc with hc' | ⟨_, hc'⟩
  · exact ⟨_, hc'⟩
  · exact ⟨_, hc'⟩

theorem grows_fresh (s : Store) (t : Ty) (c : Cell) : s.Grows (s.fresh t c).2 :=
  (s.extends_fresh t c).grows

theorem typeOf_addVariable {x : Variable} (hx : x.cell < s.cells.size) :
    (s.addVariable x).2.typeOf (s.addVariable x).1 = .ok x.type := by
  refine typeOf_eq_ok.mpr ⟨x, ?_, hx, rfl⟩
  show (s.vars.push x)[s.vars.size]? = some x
  exact Array.getElem?_push_size

theorem typeOf_fresh (s : Store) (t : Ty) (c : Cell) :
    (s.fresh t c).2.typeOf (s.fresh t c).1 = .ok t := by
  refine typeOf_addVariable (x := ⟨t, false, s.cells.size⟩) ?_
  show s.cells.size < (s.cells.push c).size
  rw [Array.size_push]
  exact Nat.lt_succ_self _

/-! ## New variables -/

/-- a store has grown, and then got a variable of a type with a cell of its own -/
def Adds (s : Store) (t : Ty) (y : VarId) (s' : Store) : Prop :=
  ∃ s₀ c, s.Grows s₀ ∧ s₀.fresh t c = (y, s')

section Adds

variable {y : VarId}

theorem adds_fresh (s : Store) (t : Ty) (c : Cell) : s.Adds t (s.fresh t c).1 (s.fresh t c).2 :=
  ⟨s, c, .refl s, rfl⟩

theorem Grows.adds (h : s.Grows s') (h' : s'.Adds t y s'') : s.Adds t y s'' := by
  obtain ⟨s₀, c, hgrows, heq⟩ := h'
  exact ⟨s₀, c, h.trans hgrows, heq⟩

theorem Adds.grows (h : s.Adds t y s') : s.Grows s' := by
  obtain ⟨s₀, c, hgrows, heq⟩ := h
  cases heq
  exact hgrows.trans (s₀.grows_fresh t c)

theorem Adds.typeOf (h : s.Adds t y s') : s'.typeOf y = .ok t := by
  obtain ⟨s₀, c, _, heq⟩ := h
  cases heq
  exact s₀.typeOf_fresh t c

end Adds

theorem adds_allocObject (s : Store) (c : ClassTy) (members : List (String × VarId)) :
    s.Adds (.cls c) (s.allocObject c members).1 (s.allocObject c members).2 :=
  (s.rebinds_makeLocals members).grows.adds (adds_fresh _ _ _)

theorem adds_clone {y : VarId} (h : s.clone v = .ok (y, s')) :
    ∃ t, s.typeOf v = .ok t ∧ s.Adds t y s' := by
  unfold clone at h
  cases ht : s.typeOf v with
  | error e => rw [ht] at h; cases h
  | ok t =>
    cases hraw : s.read v with
    | error e => rw [ht, hraw] at h; cases h
    | ok raw =>
      have hcopy := (builds_clonePayload (s.nesting + 1) t raw s).grows
      rw [ht, hraw] at h
      cases h
      exact ⟨t, rfl, hcopy.adds (adds_fresh _ _ _)⟩

/-! ## Conversions -/

theorem adds_decay {y : VarId} (h : s.decay v = .ok (y, s')) :
    (∃ ts, s.typeOf v = .ok (.function ts) ∧ s.Adds (.pointer (.function ts)) y s') ∨
      (∃ e n, s.typeOf v = .ok (.array e n) ∧ s.Adds (.pointer e) y s') ∨
      ∃ e, s.typeOf v = .ok (.pointer e) ∧ y = v ∧ s' = s := by
  unfold decay at h
  split at h
  · cases h
  · next t ht =>
    split at h
    · cases h
      exact .inl ⟨_, ht, adds_fresh _ _ _⟩
    · cases h
      exact .inr (.inr ⟨_, ht, rfl, rfl⟩)
    · cases hp : s.readPointer v with
      | error f => rw [hp] at h; cases h
      | ok p =>
        rw [hp] at h
        cases h
        exact .inr (.inl ⟨_, _, ht, adds_fresh _ _ _⟩)
    · cases h

theorem convert_kind {x : Operand} {k : Kind} {r : Scalar} (h : x.convert k = .ok r) :
    r.kind = k := by
  unfold Operand.convert at h
  split at h
  · cases h
  · cases h
    split <;> rfl
  · cases h
    split
    · rfl
    split
    · next hk => exact hk.symm
    · rfl
  · cases h

theorem adds_convert {k : Kind} {y : VarId} (h : s.convert v k = .ok (y, s')) :
    s.Adds (.arith k) y s' := by
  unfold convert at h
  cases hc : (s.operand v).convert k with
  | error e => rw [hc] at h; cases h
  | ok r =>
    rw [hc] at h
    cases h
    rw [← convert_kind hc]
    exact adds_fresh _ _ _

end Store

theorem adds_allocInitializerList {c : ClassTy} {vals : List Value} {s s' : Store} {y : VarId}
    (h : Catalog.allocInitializerList c vals s = .ok (y, s')) : s.Adds (.cls c) y s' := by
  unfold Catalog.allocInitializerList at h
  split at h
  · next t _ vs _ _ =>
    cases hr : s.regionFrom t vs with
    | error e => rw [hr] at h; cases h
    | ok p =>
      rw [hr] at h
      obtain ⟨r, u⟩ := p
      cases h
      have hpointer := (Store.builds_regionFrom hr).grows.trans
        (u.grows_fresh (.pointer ((u.regions[r]?.map fun x => x.elem).getD .void))
          ⟨.init, .index r 0, .temporary⟩)
      exact (hpointer.trans (Store.grows_fresh _ _ _)).adds (Store.adds_allocObject _ _ _)
  · cases h

end Overloading
