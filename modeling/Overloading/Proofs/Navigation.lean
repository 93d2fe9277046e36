import Overloading.Proofs.IntegerArithmetic
import Overloading.Proofs.StoreRuns

/-!
# Paths from a constant

From a variable one gets to others by its members and through its address.  A member of a constant
is a constant view of the member.  The address of a variable that holds itself is that variable, so
its constness is still there when the address is dereferenced.  The address of a cell of a region
is a place, and what a place gives back is a new view of the cell, which is not constant.

* `Hop`, `Store.follow`     one step from a variable, and a path of such steps;
* `Store.AtPlace`           a variable that is addressed by its place in a region;
* `Store.isConst_take_iff`  a step keeps constness unless it goes through such an address;
* `constness_along_paths`   so does a path, and behind such an address the cell can be stored to.
-/

namespace Overloading

/-- a step from a variable to another: a member by its name, or what its address points to -/
inductive Hop where
  | member (name : String)
  | throughAddress

def Hop.take (s : Store) (v : VarId) : Hop → Except Fault (VarId × Store)
  | .member name => s.member v name
  | .throughAddress =>
    match s.addressOf v with
    | .error e => .error e
    | .ok (p, s) => s.deref p

namespace Store

variable {s s' s'' : Store} {v w : VarId} {hop : Hop} {hops : List Hop}

/-- where a path of steps leads, and the store it leaves -/
def follow (s : Store) (v : VarId) : List Hop → Except Fault (VarId × Store)
  | [] => .ok (v, s)
  | hop :: hops =>
    match hop.take s v with
    | .error e => .error e
    | .ok (w, s) => s.follow w hops

def IsConst (s : Store) (v : VarId) : Prop := ∃ x, s.vars[v]? = some x ∧ x.const = true

/-- a variable whose cell has a place in a region for its holder -/
def AtPlace (s : Store) (v : VarId) : Prop :=
  ∃ x c r i, s.view v = .ok (x, c) ∧ c.holder = .slot r i

/-- nowhere on a path is the address of a place taken -/
def AvoidsPlaces (s : Store) (v : VarId) : List Hop → Prop
  | [] => True
  | hop :: hops => ¬ (hop = .throughAddress ∧ s.AtPlace v) ∧
      ∀ w s', hop.take s v = .ok (w, s') → s'.AvoidsPlaces w hops

theorem follow_cons : s.follow v (hop :: hops) = .ok (w, s'') ↔
    ∃ u s', hop.take s v = .ok (u, s') ∧ s'.follow u hops = .ok (w, s'') := by
  rw [follow]
  constructor
  · intro h
    cases htake : hop.take s v with
    | error e =>
      rw [htake] at h
      cases h
    | ok p =>
      rw [htake] at h
      exact ⟨p.1, p.2, rfl, h⟩
  · rintro ⟨u, s', htake, hrest⟩
    rw [htake]
    exact hrest

theorem follow_append {more : List Hop} (h : s.follow v hops = .ok (w, s')) :
    s.follow v (hops ++ more) = s'.follow w more := by
  induction hops generalizing s v with
  | nil =>
    cases h
    rfl
  | cons hop hops ih =>
    obtain ⟨u, s₁, htake, hrest⟩ := follow_cons.mp h
    rw [List.cons_append, follow, htake]
    exact ih hrest

/-! ## Through an address -/

theorem Extends.isConst (h : s.Extends s') (hv : s.IsConst v) : s'.IsConst v := by
  obtain ⟨x, hx, hconst⟩ := hv
  exact ⟨x, h.vars v x hx, hconst⟩

theorem readPointer_temp (s : Store) (t : Ty) (p : Pointer) :
    (s.temp t p.raw).2.readPointer (s.temp t p.raw).1 = .ok (t, p) := by
  have hview := s.view_fresh_self t ⟨.init, p.raw, .temporary⟩
  have hread := s.read_fresh_self t (c := ⟨.init, p.raw, .temporary⟩) rfl
  unfold readPointer typeOf temp
  rw [hview, hread]
  cases p <;> rfl

theorem deref_direct (s : Store) (t : Ty) (v : VarId) :
    (s.temp t (.direct (some v))).2.deref (s.temp t (.direct (some v))).1 =
      .ok (v, (s.temp t (.direct (some v))).2) := by
  have hpointer := s.readPointer_temp t (.direct (some v))
  rw [Pointer.raw] at hpointer
  rw [deref, hpointer]

theorem deref_index (s : Store) (t : Ty) (r : RegionId) (i : Int) :
    (s.temp t (.index r i)).2.deref (s.temp t (.index r i)).1 =
      .ok ((s.temp t (.index r i)).2.cellAs t.pointee r i) := by
  have hpointer := s.readPointer_temp t (.index r i)
  rw [Pointer.raw] at hpointer
  rw [deref, hpointer]

theorem take_throughAddress {x : Variable} {c : Cell} (h : s.view v = .ok (x, c)) :
    Hop.throughAddress.take s v = match c.holder with
      | .temporary => .error (.addressOfTemporary x.type)
      | .itself => .ok (v, (s.temp (.pointer x.type) (.direct (some v))).2)
      | .slot r i => .ok ((s.temp (.pointer x.type) (.index r i)).2.cellAs x.type r i) := by
  rw [Hop.take, addressOf, h]
  cases hholder : c.holder with
  | temporary => simp only [hholder]
  | itself =>
    simp only [hholder]
    exact s.deref_direct (.pointer x.type) v
  | slot r i =>
    simp only [hholder]
    exact s.deref_index (.pointer x.type) r i

theorem throughAddress_cases (h : Hop.throughAddress.take s v = .ok (w, s')) :
    ∃ x c, s.view v = .ok (x, c) ∧
      (c.holder = .itself ∧ (w, s') = (v, (s.temp (.pointer x.type) (.direct (some v))).2) ∨
        ∃ r i, c.holder = .slot r i ∧
          (w, s') = (s.temp (.pointer x.type) (.index r i)).2.cellAs x.type r i) := by
  cases hview : s.view v with
  | error e =>
    rw [Hop.take, addressOf, hview] at h
    cases h
  | ok p =>
    obtain ⟨x, c⟩ := p
    refine ⟨x, c, rfl, ?_⟩
    rw [take_throughAddress hview] at h
    cases hholder : c.holder with
    | temporary =>
      rw [hholder] at h
      cases h
    | itself =>
      rw [hholder] at h
      exact .inl ⟨rfl, (Except.ok.inj h).symm⟩
    | slot r i =>
      rw [hholder] at h
      exact .inr ⟨r, i, rfl, (Except.ok.inj h).symm⟩

theorem not_isConst_cellAs (s : Store) (t : Ty) (r : RegionId) (i : Int) :
    ¬ (s.cellAs t r i).2.IsConst (s.cellAs t r i).1 := by
  rintro ⟨x, hx, hconst⟩
  unfold cellAs at hx
  dsimp only at hx
  split at hx
  all_goals
    have hlast := Array.getElem?_push_size.symm.trans hx
    cases hlast
    cases hconst

/-! ## One step -/

theorem builds_take (h : hop.take s v = .ok (w, s')) : s.Builds s' := by
  cases hop with
  | member name => exact builds_member h
  | throughAddress =>
    rw [Hop.take] at h
    split at h
    · cases h
    next p s₁ haddress => exact (builds_addressOf haddress).trans (builds_deref h)

/-- a member of a constant is constant, be it by itself or in a view of its own -/
theorem isConst_member {name : String} (hv : s.IsConst v) (h : s.member v name = .ok (w, s')) :
    s'.IsConst w := by
  obtain ⟨x, hx, hconst⟩ := hv
  unfold member at h
  split at h
  · cases h
  next y c hview =>
  obtain rfl : x = y := Option.some.inj (hx.symm.trans (view_eq_ok.mp hview).1)
  split at h
  · cases h
  · split at h
    · cases h
    split at h
    · cases h
    next m _ mx hm =>
    split at h
    · cases h
      exact ⟨_, Array.getElem?_push_size, rfl⟩
    next hviews =>
    cases h
    refine ⟨mx, hm, ?_⟩
    simpa [hconst] using hviews
  · cases h

/-- **A step** from a constant leads to a constant, unless it goes through the address of a
place -/
theorem isConst_take_iff (hv : s.IsConst v) (h : hop.take s v = .ok (w, s')) :
    s'.IsConst w ↔ ¬ (hop = .throughAddress ∧ s.AtPlace v) := by
  cases hop with
  | member name => simp [isConst_member hv h]
  | throughAddress =>
    obtain ⟨x, c, hview, hcases⟩ := throughAddress_cases h
    have hplace : s.AtPlace v ↔ ∃ r i, c.holder = .slot r i := by
      constructor
      · rintro ⟨x', c', r, i, hview', hholder⟩
        cases hview.symm.trans hview'
        exact ⟨r, i, hholder⟩
      · rintro ⟨r, i, hholder⟩
        exact ⟨x, c, r, i, hview, hholder⟩
    rw [hplace]
    rcases hcases with ⟨hholder, heq⟩ | ⟨r, i, hholder, heq⟩
    · cases heq
      have hextends := s.extends_fresh (.pointer x.type) ⟨.init, .direct (some v), .temporary⟩
      have hkept := hextends.isConst hv
      exact iff_of_true hkept (by simp [hholder])
    · have hnew := not_isConst_cellAs (s.temp (.pointer x.type) (.index r i)).2 x.type r i
      rw [← heq] at hnew
      exact iff_of_false hnew (by simp [hholder])

/-! ## Paths -/

theorem builds_follow (h : s.follow v hops = .ok (w, s')) : s.Builds s' := by
  induction hops generalizing s v with
  | nil =>
    cases h
    exact .refl _
  | cons hop hops ih =>
    obtain ⟨u, s₁, htake, hrest⟩ := follow_cons.mp h
    exact (builds_take htake).trans (ih hrest)

/-- **A path** that avoids places leads from a constant to constants -/
theorem isConst_follow (hv : s.IsConst v) (havoids : s.AvoidsPlaces v hops)
    (h : s.follow v hops = .ok (w, s')) : s'.IsConst w := by
  induction hops generalizing s v with
  | nil =>
    cases h
    exact hv
  | cons hop hops ih =>
    obtain ⟨u, s₁, htake, hrest⟩ := follow_cons.mp h
    exact ih ((isConst_take_iff hv htake).mpr havoids.1) (havoids.2 u s₁ htake) hrest

theorem avoidsPlaces_of_never
    (hnever : ∀ hops w s', s.follow v hops = .ok (w, s') → ¬ s'.AtPlace w) (hops : List Hop) :
    s.AvoidsPlaces v hops := by
  induction hops generalizing s v with
  | nil => trivial
  | cons hop hops ih =>
    refine ⟨fun h => hnever [] v s rfl h.2, fun u s₁ htake => ih fun more w s' hmore => ?_⟩
    exact hnever (hop :: more) w s' (follow_cons.mpr ⟨u, s₁, htake, hmore⟩)

/-- all that is reached is constant exactly if no place is reached -/
theorem isConst_follow_iff (hv : s.IsConst v) :
    (∀ hops w s', s.follow v hops = .ok (w, s') → s'.IsConst w) ↔
      ∀ hops w s', s.follow v hops = .ok (w, s') → ¬ s'.AtPlace w := by
  constructor
  · rintro hall hops w s' hfollow ⟨x, c, r, i, hview, hholder⟩
    let s₁ := (s'.temp (.pointer x.type) (.index r i)).2
    have hmore : s.follow v (hops ++ [.throughAddress]) = .ok (s₁.cellAs x.type r i) := by
      rw [follow_append hfollow, follow, take_throughAddress hview, hholder]
      rfl
    exact not_isConst_cellAs s₁ x.type r i (hall _ _ _ hmore)
  · exact fun hnever hops w s' => isConst_follow hv (avoidsPlaces_of_never hnever hops)

/-! ## Assigning -/

theorem assign_isConst (hv : s.IsConst v) (raw : Raw) :
    ∃ e, s.assign v raw = .error e ∧ (s.isLvalue v = true → ∃ t, e = .constAssign t) := by
  obtain ⟨x, hx, hconst⟩ := hv
  unfold assign isLvalue
  cases hview : s.view v with
  | error e => exact ⟨e, rfl, nofun⟩
  | ok p =>
    obtain ⟨y, c⟩ := p
    obtain rfl : x = y := Option.some.inj (hx.symm.trans (view_eq_ok.mp hview).1)
    by_cases htemp : c.holder = .temporary
    · exact ⟨_, if_pos htemp, by simp [htemp]⟩
    · exact ⟨.constAssign x.type, by simp [htemp, hconst], fun _ => ⟨_, rfl⟩⟩

def InRegion (s : Store) (v : VarId) : Prop :=
  ∃ (x : Variable) (r : RegionId) (reg : Region) (i : Nat), s.vars[v]? = some x ∧
    s.regions[r]? = some reg ∧ reg.cells[i]? = some x.cell

theorem throughAddress_inRegion (hs : s.Held) (hv : s.InRegion v) :
    ∃ x c w s', s.view v = .ok (x, c) ∧ Hop.throughAddress.take s v = .ok (w, s') ∧
      s'.view w = .ok (⟨x.type, false, x.cell⟩, c) ∧ c.holder ≠ .temporary ∧
      c.state ≠ .unbound := by
  obtain ⟨x, r, reg, i, hx, hreg, hcell⟩ := hv
  obtain ⟨c, hc, hholder, hstate⟩ := hs r reg hreg i x.cell hcell
  have hview := view_eq_ok.mpr ⟨hx, hc⟩
  let s₁ := (s.temp (.pointer x.type) (.index r i)).2
  have hnew : s₁.cellAs x.type r i = s₁.addVariable ⟨x.type, false, x.cell⟩ := by
    have hregions : s₁.regions[r]? = some reg := hreg
    simp only [cellAs, hregions, Option.bind_some, hcell]
  refine ⟨x, c, s₁.vars.size, (s₁.addVariable ⟨x.type, false, x.cell⟩).2, hview, ?_, ?_, ?_, hstate⟩
  · rw [take_throughAddress hview, hholder]
    exact congrArg Except.ok hnew
  · exact view_eq_ok.mpr ⟨Array.getElem?_push_size,
      (s.extends_fresh (.pointer x.type) _).cells _ _ hc⟩
  · rw [hholder]
    rintro ⟨⟩

theorem assign_shared {x y : Variable} {c : Cell} (hv : s.view v = .ok (x, c))
    (hw : s.view w = .ok (y, c)) (hcell : y.cell = x.cell) (hconst : y.const = false)
    (hholder : c.holder ≠ .temporary) (hstate : c.state ≠ .unbound) (raw : Raw) :
    ∃ s', s.assign w raw = .ok s' ∧ s'.read v = .ok raw := by
  refine ⟨s.modifyCell x.cell fun c => { c with state := .init, raw := raw }, ?_, ?_⟩
  · unfold assign init
    simp [hw, hholder, hconst, hstate, hcell]
  · obtain ⟨hx, hc⟩ := view_eq_ok.mp hv
    refine read_eq_ok.mpr ⟨x, { c with state := .init, raw := raw },
      view_eq_ok.mpr ⟨hx, ?_⟩, rfl, rfl⟩
    show (s.cells.modify x.cell _)[x.cell]? = _
    simp [Array.getElem?_modify, hc]

end Store

open Store

/-- **Constness along paths** of members and addresses: every variable that is got from a constant
is constant exactly if none of them is at a place of a region.  A path that takes the address of
no place leads to a constant, every assignment to it is refused, and what there was before has
stayed as it was.  Through the address of a cell of a region one gets a mutable view of that cell,
and what is assigned to it is then read from the constant. -/
theorem constness_along_paths {s : Store} (hs : s.Reached) {c : VarId} (hc : s.IsConst c) :
    ((∀ hops w s', s.follow c hops = .ok (w, s') → s'.IsConst w) ↔
      ∀ hops w s', s.follow c hops = .ok (w, s') → ¬ s'.AtPlace w) ∧
    ∀ hops w s', s.follow c hops = .ok (w, s') →
      (s.AvoidsPlaces c hops → s'.IsConst w ∧ ∀ raw,
        (∃ e, s'.assign w raw = .error e ∧
          (s'.isLvalue w = true → ∃ t, e = .constAssign t)) ∧
        ∀ v p, s.view v = .ok p → ((Operation.assign w raw).perform s').2.view v = .ok p) ∧
      (s'.InRegion w → ∃ w' s'', s.follow c (hops ++ [.throughAddress]) = .ok (w', s'') ∧
        ¬ s''.IsConst w' ∧ ∀ raw, ∃ s₁, s''.assign w' raw = .ok s₁ ∧ s₁.read w = .ok raw) := by
  refine ⟨isConst_follow_iff hc, fun hops w s' hfollow => ⟨fun havoids => ?_, fun hregion => ?_⟩⟩
  · have hw := isConst_follow hc havoids hfollow
    refine ⟨hw, fun raw => ?_⟩
    obtain ⟨e, hassign, hlvalue⟩ := assign_isConst hw raw
    refine ⟨⟨e, hassign, hlvalue⟩, fun v p hv => ?_⟩
    have hleaves : ((Operation.assign w raw).perform s').2 = s' := by
      rw [Operation.perform, hassign]
      rfl
    rw [hleaves]
    exact (builds_follow hfollow).view hv
  · obtain ⟨before, rfl⟩ := hs
    have hheld := (builds_follow hfollow).held (keeps_after held_empty before).held
    obtain ⟨x, cell, w', s'', hview, htake, hview', hholder, hstate⟩ :=
      throughAddress_inRegion hheld hregion
    refine ⟨w', s'', ?_, ?_, fun raw => ?_⟩
    · rw [follow_append hfollow, follow, htake]
      rfl
    · rintro ⟨y, hy, hconst⟩
      cases hy.symm.trans (view_eq_ok.mp hview').1
      cases hconst
    · exact assign_shared ((builds_take htake).view hview) hview' rfl rfl hholder hstate raw

/-- a constant class value with a cell of a region for its member: the member cannot be assigned
to, but it can through its address -/
theorem constness_along_paths_member : ∃ (s : Store) (w : VarId) (s' : Store),
    s.Reached ∧ s.IsConst 1 ∧ s.follow 1 [.member "x"] = .ok (w, s') ∧ s'.IsConst w ∧
    (∃ e, s'.assign w (.int 2) = .error e ∧ (s'.isLvalue w = true → ∃ t, e = .constAssign t)) ∧
    ∃ w' s'' s₁, s.follow 1 [.member "x", .throughAddress] = .ok (w', s'') ∧
      s''.assign w' (.int 2) = .ok s₁ ∧ s₁.read w = .ok (.int 2) := by
  let s := empty.after [.allocRegion (.arith .i32) 0, .append 0 (.int 1), .at_ 0 0,
    .allocObject ⟨"S", [], none⟩ [("x", 0)], .setConst 1 true]
  have hs : s.Reached := ⟨_, rfl⟩
  have hconst : s.IsConst 1 := ⟨_, rfl, rfl⟩
  have hfollow : s.follow 1 [.member "x"] =
      .ok (2, (s.addVariable ⟨.arith .i32, true, 0⟩).2) := rfl
  obtain ⟨hkept, hlost⟩ := (constness_along_paths hs hconst).2 _ _ _ hfollow
  obtain ⟨hmember, hrefused⟩ := hkept ⟨nofun, fun _ _ _ => trivial⟩
  obtain ⟨w', s'', hmore, _, hassign⟩ := hlost ⟨_, 0, _, 0, rfl, rfl, rfl⟩
  obtain ⟨s₁, hassigned, hread⟩ := hassign (.int 2)
  exact ⟨s, 2, _, hs, hconst, hfollow, hmember, (hrefused (.int 2)).1, w', s'', s₁, hmore,
    hassigned, hread⟩

end Overloading
