import Overloading.Store.Object
import Overloading.Store.Pointer

/-!
# What operations leave alone

Most operations on a store only add to it: cells, variables, regions, and cells to regions that
were not there before.  The variables that they add view cells of regions, cells that other
variables view, or cells of their own.  There is one lemma for each of these operations, that it
builds; what it leaves alone follows, whatever else is asked.

* `Store.Held`         every cell of every region is held by its place, and is bound;
* `Store.Keeps`        what any operation does to a store in which that is so;
* `Store.Located`      a cell is in a region, or has no place in one;
* `Store.Extends`, `Store.Enlarges`   what is left alone where things are only added;
* `Store.Builds`       what an operation does that only adds: all of these;
* `Store.Rebinds`      what is done where temporaries become locals.
-/

namespace Overloading

/-- what may become of a cell: it stays bound or unbound, and a holder comes only to a temporary -/
structure Cell.Becomes (c c' : Cell) : Prop where
  bound : c'.state = .unbound ↔ c.state = .unbound
  holder : c'.holder = c.holder ∨ c.holder = .temporary ∧ c'.holder = .itself

theorem Cell.Becomes.refl (c : Cell) : c.Becomes c := ⟨Iff.rfl, .inl rfl⟩

theorem Cell.Becomes.trans {c c' c'' : Cell} (h : c.Becomes c') (h' : c'.Becomes c'') :
    c.Becomes c'' := by
  refine ⟨h'.bound.trans h.bound, ?_⟩
  rcases h'.holder with heq' | ⟨ht, hself⟩
  · rw [heq']
    exact h.holder
  · rcases h.holder with heq | ⟨_, hself'⟩
    · exact .inr ⟨heq ▸ ht, hself⟩
    · rw [ht] at hself'
      cases hself'

/-- a cell that no place of a region has, as it is not held by one or is outside -/
def Cell.IsLoose (c : Cell) : Prop := ∀ r i, c.holder = .slot r i → c.state = .unbound

theorem Cell.Becomes.isLoose {c c' : Cell} (h : c.Becomes c') (hc : c.IsLoose) : c'.IsLoose := by
  intro r i hholder
  rcases h.holder with heq | ⟨_, hself⟩
  · exact h.bound.mpr (hc r i (heq ▸ hholder))
  · rw [hself] at hholder
    cases hholder

theorem isLoose_of_holder {c : Cell} (h : ∀ r i, c.holder ≠ .slot r i) : c.IsLoose :=
  fun r i hholder => absurd hholder (h r i)

theorem getElem?_push_of_some {α : Type} {a : Array α} {i : Nat} {x : α} (new : α)
    (h : a[i]? = some x) : (a.push new)[i]? = some x := by
  rw [Array.getElem?_push, if_neg, h]
  exact Nat.ne_of_lt (Array.getElem?_eq_some_iff.mp h).1

theorem size_le_of_getElem? {α : Type} {a b : Array α}
    (h : ∀ (i : Nat) (x : α), a[i]? = some x → ∃ y, b[i]? = some y) : a.size ≤ b.size := by
  refine Nat.le_of_not_lt fun hlt => ?_
  obtain ⟨y, hy⟩ := h _ _ (Array.getElem?_eq_getElem hlt)
  exact Nat.lt_irrefl _ (Array.getElem?_eq_some_iff.mp hy).1

namespace Store

variable {s s' s'' : Store} {id : CellId} {v w : VarId}

theorem view_eq_ok {x : Variable} {c : Cell} :
    s.view v = .ok (x, c) ↔ s.vars[v]? = some x ∧ s.cells[x.cell]? = some c := by
  constructor
  · intro h
    unfold view at h
    cases hx : s.vars[v]? with
    | none =>
      rw [hx] at h
      cases h
    | some y =>
      rw [hx] at h
      dsimp only at h
      cases hc : s.cells[y.cell]? with
      | none =>
        rw [hc] at h
        cases h
      | some d =>
        rw [hc] at h
        cases h
        exact ⟨rfl, hc⟩
  · rintro ⟨hx, hc⟩
    unfold view
    simp only [hx, hc]

theorem read_eq_ok {raw : Raw} : s.read v = .ok raw ↔
    ∃ x c, s.view v = .ok (x, c) ∧ c.state = .init ∧ c.raw = raw := by
  unfold read
  cases hv : s.view v with
  | error e => simp
  | ok p =>
    obtain ⟨x, c⟩ := p
    dsimp only
    constructor
    · intro h
      cases hc : c.state with
      | init =>
        rw [hc] at h
        exact ⟨x, c, rfl, hc, Except.ok.inj h⟩
      | uninit | unbound =>
        rw [hc] at h
        cases h
    · rintro ⟨x', c', heq, hc, rfl⟩
      cases heq
      rw [hc]

theorem view_fresh_self (s : Store) (t : Ty) (c : Cell) :
    (s.fresh t c).2.view (s.fresh t c).1 = .ok (⟨t, false, s.cells.size⟩, c) :=
  view_eq_ok.mpr ⟨Array.getElem?_push_size, Array.getElem?_push_size⟩

theorem read_fresh_self (s : Store) (t : Ty) {c : Cell} (hc : c.state = .init) :
    (s.fresh t c).2.read (s.fresh t c).1 = .ok c.raw :=
  read_eq_ok.mpr ⟨_, c, s.view_fresh_self t c, hc, rfl⟩

theorem getElem?_addCell {c : Cell} (new : Cell) (h : s.cells[id]? = some c) :
    (s.addCell new).2.cells[id]? = some c := getElem?_push_of_some new h

theorem regions_grow (s : Store) (r : RegionId) (state : CellState) (raw : Raw) (q : RegionId) :
    (s.grow r state raw).2.regions[q]? = (s.regions[q]?).map fun x =>
      if r = q then { x with cells := x.cells.push s.cells.size } else x := by
  show (s.regions.modify r _)[q]? = _
  rw [Array.getElem?_modify]
  split <;> simp

/-! ## Where cells are -/

/-- an index of a region at which there is a cell -/
def Inside (s : Store) (r : RegionId) (i : Int) : Prop :=
  ∃ (x : Region) (n : Nat), s.regions[r]? = some x ∧ i = n ∧ n < x.cells.size

/-- a region has a cell at an index -/
def HasAt (s : Store) (r : RegionId) (i : Int) (id : CellId) : Prop :=
  ∃ (x : Region) (n : Nat), s.regions[r]? = some x ∧ i = n ∧ x.cells[n]? = some id

theorem HasAt.unique {r : RegionId} {i : Int} {id' : CellId} (h : s.HasAt r i id)
    (h' : s.HasAt r i id') : id = id' := by
  obtain ⟨x, n, hx, hi, hn⟩ := h
  obtain ⟨x', n', hx', hi', hn'⟩ := h'
  obtain rfl : x = x' := Option.some.inj (hx.symm.trans hx')
  obtain rfl : n = n' := Int.ofNat.inj (hi.symm.trans hi')
  exact Option.some.inj (hn.symm.trans hn')

theorem inside_iff {r : RegionId} {i : Int} : s.Inside r i ↔ ∃ id, s.HasAt r i id := by
  constructor
  · rintro ⟨x, n, hx, hi, hlt⟩
    exact ⟨_, x, n, hx, hi, Array.getElem?_eq_getElem hlt⟩
  · rintro ⟨id, x, n, hx, hi, hn⟩
    exact ⟨x, n, hx, hi, (Array.getElem?_eq_some_iff.mp hn).1⟩

theorem cellAs_of_hasAt {r : RegionId} {i : Int} (h : s.HasAt r i id) (t : Ty) :
    s.cellAs t r i = s.addVariable ⟨t, false, id⟩ := by
  obtain ⟨x, n, hx, rfl, hn⟩ := h
  simp only [cellAs, hx, Option.bind_some, hn]

theorem cellAs_outside {r : RegionId} {i : Int} (h : ¬ s.Inside r i) (t : Ty) :
    s.cellAs t r i = s.fresh t ⟨.unbound, .nothing, .slot r i⟩ := by
  unfold cellAs
  cases hx : s.regions[r]? with
  | none => rfl
  | some x =>
    cases i with
    | negSucc n => rfl
    | ofNat n =>
      have hnone : x.cells[n]? = none :=
        Array.getElem?_eq_none (Nat.le_of_not_lt fun hlt => h ⟨x, n, hx, rfl, hlt⟩)
      simp only [Option.bind_some, hnone]

/-- every cell of every region is held by its place, and is bound -/
def Held (s : Store) : Prop :=
  ∀ (r : RegionId) (x : Region), s.regions[r]? = some x →
    ∀ (i : Nat) (id : CellId), x.cells[i]? = some id →
      ∃ c, s.cells[id]? = some c ∧ c.holder = .slot r i ∧ c.state ≠ .unbound

/-- a cell that is in a region, or that has no place in one -/
def Located (s : Store) (id : CellId) : Prop :=
  (∃ c, s.cells[id]? = some c ∧ c.IsLoose) ∨
    ∃ (r : RegionId) (x : Region) (n : Nat), s.regions[r]? = some x ∧ x.cells[n]? = some id

theorem Located.hasAt (h : s.Located id) (hs : s.Held) {c : Cell} (hc : s.cells[id]? = some c)
    {r : RegionId} {i : Int} (hholder : c.holder = .slot r i) (hstate : c.state ≠ .unbound) :
    s.HasAt r i id := by
  rcases h with ⟨c', hc', hloose⟩ | ⟨r', x, n, hx, hn⟩
  · obtain rfl : c = c' := Option.some.inj (hc.symm.trans hc')
    exact absurd (hloose r i hholder) hstate
  · obtain ⟨c', hc', hplace, _⟩ := hs r' x hx n id hn
    obtain rfl : c = c' := Option.some.inj (hc.symm.trans hc')
    cases hholder.symm.trans hplace
    exact ⟨x, n, hx, rfl, hn⟩

/-! ## What is kept by all -/

/-- the second store has all that the first one has: cells that are bound or not as they were,
variables of the same type that view the same cells, and regions of the same elements that may
have grown; and its regions are in order -/
structure Keeps (s s' : Store) : Prop where
  held : s'.Held
  cells : ∀ (id : CellId) (c : Cell), s.cells[id]? = some c →
    ∃ c', s'.cells[id]? = some c' ∧ c.Becomes c'
  vars : ∀ (v : VarId) (x : Variable), s.vars[v]? = some x →
    ∃ x', s'.vars[v]? = some x' ∧ x'.type = x.type ∧ x'.cell = x.cell
  regions : ∀ (r : RegionId) (x : Region), s.regions[r]? = some x →
    ∃ x', s'.regions[r]? = some x' ∧ x'.elem = x.elem ∧ x.cells.toList <+: x'.cells.toList

theorem Keeps.refl (hs : s.Held) : s.Keeps s :=
  ⟨hs, fun _ c hc => ⟨c, hc, .refl c⟩, fun _ x hx => ⟨x, hx, rfl, rfl⟩,
    fun _ x hx => ⟨x, hx, rfl, List.prefix_rfl⟩⟩

theorem Keeps.trans (h : s.Keeps s') (h' : s'.Keeps s'') : s.Keeps s'' := by
  refine ⟨h'.held, fun id c hc => ?_, fun v x hx => ?_, fun r x hx => ?_⟩
  · obtain ⟨c', hc', hbecomes⟩ := h.cells id c hc
    obtain ⟨c'', hc'', hbecomes'⟩ := h'.cells id c' hc'
    exact ⟨c'', hc'', hbecomes.trans hbecomes'⟩
  · obtain ⟨x', hx', htype, hcell⟩ := h.vars v x hx
    obtain ⟨x'', hx'', htype', hcell'⟩ := h'.vars v x' hx'
    exact ⟨x'', hx'', htype'.trans htype, hcell'.trans hcell⟩
  · obtain ⟨x', hx', helem, hprefix⟩ := h.regions r x hx
    obtain ⟨x'', hx'', helem', hprefix'⟩ := h'.regions r x' hx'
    exact ⟨x'', hx'', helem'.trans helem, hprefix.trans hprefix'⟩

theorem Located.keeps (h : s.Located id) (hk : s.Keeps s') : s'.Located id := by
  rcases h with ⟨c, hc, hloose⟩ | ⟨r, x, n, hx, hn⟩
  · obtain ⟨c', hc', hbecomes⟩ := hk.cells id c hc
    exact .inl ⟨c', hc', hbecomes.isLoose hloose⟩
  · obtain ⟨x', hx', _, hprefix⟩ := hk.regions r x hx
    refine .inr ⟨r, x', n, hx', ?_⟩
    rw [← Array.getElem?_toList] at hn ⊢
    obtain ⟨more, hmore⟩ := hprefix
    rw [← hmore, List.getElem?_append_left (List.getElem?_eq_some_iff.mp hn).1, hn]

/-- where the regions stay as they are, it is enough to look at the cells -/
theorem Held.of_cells (hs : s.Held) (hregions : s'.regions = s.regions)
    (hcells : ∀ (id : CellId) (c : Cell), s.cells[id]? = some c →
      ∃ c', s'.cells[id]? = some c' ∧ c.Becomes c') : s'.Held := by
  intro r x hx i id hid
  rw [hregions] at hx
  obtain ⟨c, hc, hholder, hstate⟩ := hs r x hx i id hid
  obtain ⟨c', hc', hbound, hheld⟩ := hcells id c hc
  refine ⟨c', hc', ?_, fun h => hstate (hbound.mp h)⟩
  rcases hheld with heq | ⟨ht, _⟩
  · exact heq.trans hholder
  · rw [hholder] at ht
    cases ht

theorem Held.addCell (hs : s.Held) (new : Cell) : (s.addCell new).2.Held :=
  hs.of_cells rfl fun _ c hc => ⟨c, getElem?_addCell new hc, .refl c⟩

theorem Held.addRegion (hs : s.Held) (elem : Ty) : (s.addRegion elem).2.Held := by
  intro r x hx i id hid
  have hx : (s.regions.push ⟨elem, #[]⟩)[r]? = some x := hx
  rw [Array.getElem?_push] at hx
  split at hx
  · cases hx
    simp at hid
  · exact hs r x hx i id hid

theorem Held.grow (hs : s.Held) (r : RegionId) {state : CellState} (hstate : state ≠ .unbound)
    (raw : Raw) : (s.grow r state raw).2.Held := by
  intro q y hy i id hid
  rw [regions_grow] at hy
  obtain ⟨x, hx, rfl⟩ := Option.map_eq_some_iff.mp hy
  have hold : ∀ {i : Nat} {id : CellId}, x.cells[i]? = some id →
      ∃ c, (s.grow r state raw).2.cells[id]? = some c ∧ c.holder = .slot q i ∧
        c.state ≠ .unbound := by
    intro i id hid
    obtain ⟨c, hc, hplace⟩ := hs q x hx i id hid
    exact ⟨c, getElem?_addCell _ hc, hplace⟩
  by_cases hq : r = q
  · subst hq
    rw [if_pos rfl, Array.getElem?_push] at hid
    split at hid
    · next hlast =>
      cases hid
      refine ⟨⟨state, raw, .slot r i⟩, ?_, rfl, hstate⟩
      show (s.cells.push ⟨state, raw, .slot r ((s.regions[r]?).map _ |>.getD 0 : Nat)⟩)[_]? = _
      rw [Array.getElem?_push_size, hx, hlast]
      rfl
    · exact hold hid
  · rw [if_neg hq] at hid
    exact hold hid

/-! ## What is only added to -/

/-- all variables and cells are as they were -/
structure Extends (s s' : Store) : Prop where
  vars : ∀ (v : VarId) (x : Variable), s.vars[v]? = some x → s'.vars[v]? = some x
  cells : ∀ (id : CellId) (c : Cell), s.cells[id]? = some c → s'.cells[id]? = some c

theorem Extends.refl (s : Store) : s.Extends s := ⟨fun _ _ h => h, fun _ _ h => h⟩

theorem Extends.trans (h : s.Extends s') (h' : s'.Extends s'') : s.Extends s'' :=
  ⟨fun v x hx => h'.vars v x (h.vars v x hx), fun id c hc => h'.cells id c (h.cells id c hc)⟩

theorem Extends.view (h : s.Extends s') {p : Variable × Cell} (hv : s.view v = .ok p) :
    s'.view v = .ok p := by
  obtain ⟨hx, hc⟩ := view_eq_ok.mp hv
  exact view_eq_ok.mpr ⟨h.vars v _ hx, h.cells _ _ hc⟩

theorem Extends.read (h : s.Extends s') {raw : Raw} (hr : s.read v = .ok raw) :
    s'.read v = .ok raw := by
  obtain ⟨x, c, hview, hstate, hraw⟩ := read_eq_ok.mp hr
  exact read_eq_ok.mpr ⟨x, c, h.view hview, hstate, hraw⟩

theorem extends_addVariable (s : Store) (x : Variable) : s.Extends (s.addVariable x).2 :=
  ⟨fun _ _ => getElem?_push_of_some x, fun _ _ h => h⟩

theorem extends_addCell (s : Store) (c : Cell) : s.Extends (s.addCell c).2 :=
  ⟨fun _ _ h => h, fun _ _ => getElem?_addCell c⟩

theorem extends_fresh (s : Store) (t : Ty) (c : Cell) : s.Extends (s.fresh t c).2 :=
  (s.extends_addCell c).trans (extends_addVariable _ _)

/-- what there is has stayed as it was, and a variable that is new views a cell that is where its
holder says, or one that was viewed before -/
structure Enlarges (s s' : Store) : Prop extends s.Extends s' where
  regions : ∀ (r : RegionId) (x : Region), s.regions[r]? = some x → s'.regions[r]? = some x
  views : ∀ (v : VarId) (x : Variable), s'.vars[v]? = some x →
    s'.Located x.cell ∨ ∃ (w : VarId) (y : Variable), s.vars[w]? = some y ∧ y.cell = x.cell

theorem Located.enlarges (h : s.Located id) (he : s.Enlarges s') : s'.Located id := by
  rcases h with ⟨c, hc, hloose⟩ | ⟨r, x, n, hx, hn⟩
  · exact .inl ⟨c, he.cells id c hc, hloose⟩
  · exact .inr ⟨r, x, n, he.regions r x hx, hn⟩

namespace Enlarges

theorem refl (s : Store) : s.Enlarges s :=
  ⟨.refl s, fun _ _ h => h, fun v x hx => .inr ⟨v, x, hx, rfl⟩⟩

theorem trans (h : s.Enlarges s') (h' : s'.Enlarges s'') : s.Enlarges s'' := by
  refine ⟨h.toExtends.trans h'.toExtends, fun r x hx => h'.regions r x (h.regions r x hx),
    fun v x hx => ?_⟩
  rcases h'.views v x hx with hlocated | ⟨w, y, hy, hcell⟩
  · exact .inl hlocated
  · rcases h.views w y hy with hlocated | ⟨u, z, hz, hcell'⟩
    · exact .inl (hcell ▸ hlocated.enlarges h')
    · exact .inr ⟨u, z, hz, hcell'.trans hcell⟩

theorem regions_size (h : s.Enlarges s') : s.regions.size ≤ s'.regions.size :=
  size_le_of_getElem? fun r x hx => ⟨x, h.regions r x hx⟩

/-- a region that was not there before may grow -/
theorem grow (h : s.Enlarges s') {r : RegionId} (hr : s.regions.size ≤ r) (state : CellState)
    (raw : Raw) : s.Enlarges (s'.grow r state raw).2 := by
  have hregion := s'.regions_grow r state raw
  have hcells : ∀ (id : CellId) (c : Cell), s'.cells[id]? = some c →
      (s'.grow r state raw).2.cells[id]? = some c := fun _ _ => getElem?_addCell _
  refine ⟨h.toExtends.trans ⟨fun _ _ h => h, hcells⟩, fun q x hx => ?_, fun v x hx => ?_⟩
  · have hq : r ≠ q := by
      rintro rfl
      exact Nat.not_lt.mpr hr (Array.getElem?_eq_some_iff.mp hx).1
    rw [hregion, h.regions q x hx]
    exact congrArg some (if_neg hq)
  · rcases h.views v x hx with (⟨c, hc, hloose⟩ | ⟨q, y, n, hy, hn⟩) | hold
    · exact .inl (.inl ⟨c, hcells _ c hc, hloose⟩)
    · refine .inl (.inr ⟨q, _, n, (hregion q).trans (congrArg _ hy), ?_⟩)
      dsimp only
      split
      · exact getElem?_push_of_some _ hn
      · exact hn
    · exact .inr hold

theorem of_vars (hvars : s'.vars = s.vars) (hcells : s.Extends s')
    (hregions : ∀ (r : RegionId) (x : Region), s.regions[r]? = some x → s'.regions[r]? = some x) :
    s.Enlarges s' :=
  ⟨hcells, hregions, fun v x hx => .inr ⟨v, x, hvars ▸ hx, rfl⟩⟩

end Enlarges

/-- things have only been added, and regions that were in order are so still -/
structure Builds (s s' : Store) : Prop extends s.Enlarges s' where
  held : s.Held → s'.Held

namespace Builds

theorem refl (s : Store) : s.Builds s := ⟨.refl s, id⟩

theorem trans (h : s.Builds s') (h' : s'.Builds s'') : s.Builds s'' :=
  ⟨h.toEnlarges.trans h'.toEnlarges, fun hs => h'.held (h.held hs)⟩

theorem keeps (h : s.Builds s') (hs : s.Held) : s.Keeps s' :=
  ⟨h.held hs, fun id c hc => ⟨c, h.cells id c hc, .refl c⟩,
    fun v x hx => ⟨x, h.vars v x hx, rfl, rfl⟩,
    fun r x hx => ⟨x, h.regions r x hx, rfl, List.prefix_rfl⟩⟩

/-! ## Additions -/

theorem addVariable (h : s.Builds s') {x : Variable}
    (hx : s'.Located x.cell ∨
      ∃ (w : VarId) (y : Variable), s'.vars[w]? = some y ∧ y.cell = x.cell) :
    s.Builds (s'.addVariable x).2 := by
  refine h.trans ⟨⟨s'.extends_addVariable x, fun _ _ h => h, fun v y hy => ?_⟩, fun hs => hs⟩
  have hy : (s'.vars.push x)[v]? = some y := hy
  rw [Array.getElem?_push] at hy
  split at hy
  · cases hy
    exact hx
  · exact .inr ⟨v, y, hy, rfl⟩

theorem addCell (h : s.Builds s') (c : Cell) : s.Builds (s'.addCell c).2 :=
  h.trans ⟨.of_vars rfl (s'.extends_addCell c) fun _ _ h => h, fun hs => hs.addCell c⟩

theorem addRegion (h : s.Builds s') (elem : Ty) : s.Builds (s'.addRegion elem).2 :=
  h.trans ⟨.of_vars rfl ⟨fun _ _ h => h, fun _ _ h => h⟩ fun _ _ => getElem?_push_of_some _,
    fun hs => hs.addRegion elem⟩

theorem grow (h : s.Builds s') {r : RegionId} (hr : s.regions.size ≤ r) {state : CellState}
    (hstate : s.Held → state ≠ .unbound) (raw : Raw) : s.Builds (s'.grow r state raw).2 :=
  ⟨h.toEnlarges.grow hr state raw, fun hs => (h.held hs).grow r (hstate hs) raw⟩

theorem fresh (h : s.Builds s') (t : Ty) {c : Cell} (hc : c.IsLoose) :
    s.Builds (s'.fresh t c).2 :=
  (h.addCell c).addVariable (.inl (.inl ⟨c, Array.getElem?_push_size, hc⟩))

theorem temp (h : s.Builds s') (t : Ty) (raw : Raw) : s.Builds (s'.temp t raw).2 :=
  h.fresh t (isLoose_of_holder (by rintro _ _ ⟨⟩))

theorem allocLocal (h : s.Builds s') (t : Ty) (raw : Raw) : s.Builds (s'.allocLocal t raw).2 :=
  h.fresh t (isLoose_of_holder (by rintro _ _ ⟨⟩))

theorem growBy (h : s.Builds s') {r : RegionId} (hr : s.regions.size ≤ r) (n : Nat) :
    s.Builds (s'.growBy r n) := by
  induction n generalizing s' with
  | zero => exact h
  | succ n ih =>
    have hbound : CellState.uninit ≠ .unbound := by decide
    exact ih (h.grow hr (fun _ => hbound) .nothing)

theorem appendAll (h : s.Builds s') {r : RegionId} (hr : s.regions.size ≤ r) {vs : List VarId}
    (hall : s'.appendAll r vs = .ok s'') : s.Builds s'' := by
  induction vs generalizing s' with
  | nil =>
    cases hall
    exact h
  | cons v vs ih =>
    rw [Store.appendAll] at hall
    split at hall
    · cases hall
    · next raw _ =>
      have hbound : CellState.init ≠ .unbound := by decide
      exact ih (h.grow hr (fun _ => hbound) raw) hall

end Builds

/-! ## Regions -/

theorem builds_allocRegion (s : Store) (elem : Ty) (n : Nat) :
    s.Builds (s.allocRegion elem n).2 :=
  ((Builds.refl s).addRegion elem).growBy (Nat.le_refl _) n

theorem builds_allocArray (s : Store) (elem : Ty) (n : Nat) : s.Builds (s.allocArray elem n).2 :=
  (s.builds_allocRegion elem n).allocLocal _ _

theorem builds_regionFrom {elem : Ty} {vs : List VarId} {r : RegionId}
    (h : s.regionFrom elem vs = .ok (r, s')) : s.Builds s' := by
  unfold regionFrom at h
  cases hall : (s.addRegion elem).2.appendAll (s.addRegion elem).1 vs with
  | error e =>
    simp only [hall] at h
    cases h
  | ok u =>
    simp only [hall] at h
    cases h
    exact ((Builds.refl s).addRegion elem).appendAll (Nat.le_refl _) hall

/-! ## Views, members and pointers -/

theorem builds_cellAs (s : Store) (t : Ty) (r : RegionId) (i : Int) :
    s.Builds (s.cellAs t r i).2 := by
  by_cases hinside : s.Inside r i
  · obtain ⟨id, hid⟩ := inside_iff.mp hinside
    rw [cellAs_of_hasAt hid]
    obtain ⟨x, n, hx, _, hn⟩ := hid
    exact (Builds.refl s).addVariable (.inl (.inr ⟨r, x, n, hx, hn⟩))
  · rw [cellAs_outside hinside]
    exact (Builds.refl s).fresh t fun _ _ _ => rfl

theorem builds_member {name : String} (h : s.member v name = .ok (w, s')) : s.Builds s' := by
  unfold member at h
  split at h
  · cases h
  split at h
  · cases h
  · split at h
    · cases h
    split at h
    · cases h
    next mx hm =>
    split at h
    · cases h
      exact (Builds.refl s).addVariable (.inr ⟨_, mx, hm, rfl⟩)
    · cases h
      exact .refl s
  · cases h

theorem builds_addressOf {p : VarId} (h : s.addressOf v = .ok (p, s')) : s.Builds s' := by
  unfold addressOf at h
  split at h
  · cases h
  split at h
  · cases h
  · cases h
    exact (Builds.refl s).temp _ _
  · cases h
    exact (Builds.refl s).temp _ _

theorem builds_deref {p : VarId} (h : s.deref p = .ok (v, s')) : s.Builds s' := by
  unfold deref at h
  split at h
  · cases h
  · cases h
  · cases h
    exact .refl s
  · next t r i _ =>
    have hcell := s.builds_cellAs t.pointee r i
    rw [Except.ok.inj h] at hcell
    exact hcell

theorem builds_offset {p q : VarId} {n : Int} (h : s.offset p n = .ok (q, s')) : s.Builds s' := by
  unfold offset at h
  split at h
  · cases h
  · split at h
    · cases h
      exact (Builds.refl s).temp _ _
    · cases h
  · cases h
    exact (Builds.refl s).temp _ _

theorem builds_decay (h : s.decay v = .ok (w, s')) : s.Builds s' := by
  unfold decay at h
  split at h
  · cases h
  split at h
  · cases h
    exact (Builds.refl s).temp _ _
  · cases h
    exact .refl s
  · cases hp : s.readPointer v with
    | error e =>
      rw [hp] at h
      cases h
    | ok p =>
      rw [hp] at h
      cases h
      exact (Builds.refl s).temp _ _
  · cases h

/-! ## Copies -/

/-- what each turn of an operation keeps, all of them keep -/
theorem mapStore_invariant {α β : Type} {f : α → Store → β × Store} {P : Store → Prop}
    {as : List α} (hf : ∀ a ∈ as, ∀ s : Store, P s → P (f a s).2) (hs : P s) :
    P (mapStore f as s).2 := by
  induction as generalizing s with
  | nil => exact hs
  | cons a as ih =>
    exact ih (fun b hb => hf b (List.mem_cons_of_mem _ hb)) (hf a List.mem_cons_self s hs)

section Copy

variable {copy : Ty → Raw → Store → Raw × Store}
  (hcopy : ∀ (t : Ty) (raw : Raw) (s : Store), s.Builds (copy t raw s).2)
include hcopy

theorem builds_copyIf {p : Prop} [Decidable p] (t : Ty) (raw : Raw) (h : s.Builds s') :
    s.Builds (if p then copy t raw s' else (.nothing, s')).2 := by
  split
  · exact h.trans (hcopy t raw s')
  · exact h

theorem builds_cloneVariable (v : VarId) (h : s.Builds s') :
    s.Builds (cloneVariable copy v s').2 := by
  unfold cloneVariable
  split
  · exact h
  · next x c _ =>
    have hpayload := builds_copyIf hcopy (p := c.state = .init) x.type c.raw h
    exact (hpayload.addCell _).addVariable
      (.inl (.inl ⟨_, Array.getElem?_push_size, isLoose_of_holder (by rintro _ _ ⟨⟩)⟩))

theorem builds_cloneCell (elem : Ty) {r : RegionId} (hr : s.regions.size ≤ r)
    (hid : s.Held → ∃ c, s'.cells[id]? = some c ∧ c.state ≠ .unbound) (h : s.Builds s') :
    s.Builds (cloneCell copy elem r id s').2 := by
  unfold cloneCell
  split
  · exact h.grow hr (fun _ => (by decide : CellState.uninit ≠ .unbound)) _
  · next c hc =>
    have hpayload := builds_copyIf hcopy (p := c.state = .init) elem c.raw h
    refine hpayload.grow hr (fun hs => ?_) _
    obtain ⟨c', hc', hstate⟩ := hid hs
    cases hc.symm.trans hc'
    exact hstate

end Copy

theorem builds_clonePayload (n : Nat) (t : Ty) (raw : Raw) (s : Store) :
    s.Builds (clonePayload n t raw s).2 := by
  induction n generalizing t raw s with
  | zero => exact .refl s
  | succ n ih =>
    rw [clonePayload.eq_def]
    dsimp only
    split
    · exact mapStore_invariant (fun m _ _ => builds_cloneVariable ih m.2) (.refl s)
    · exact mapStore_invariant (fun v _ _ => builds_cloneVariable ih v) (.refl s)
    · next r i =>
      split
      · next elem _ x hx =>
        refine mapStore_invariant (P := s.Builds) (fun id hid u hu => ?_)
          ((Builds.refl s).addRegion elem)
        refine builds_cloneCell ih elem (Nat.le_refl _) (fun hs => ?_) hu
        obtain ⟨j, hj⟩ := List.getElem?_of_mem hid
        rw [Array.getElem?_toList] at hj
        obtain ⟨c, hc, _, hstate⟩ := hs r x hx j id hj
        exact ⟨c, hu.cells id c hc, hstate⟩
      · exact .refl s
    · exact .refl s

theorem builds_clone (h : s.clone v = .ok (w, s')) : s.Builds s' := by
  unfold clone at h
  split at h
  · cases h
  next t _ =>
  split at h
  · cases h
  next raw _ =>
  have hcopy := builds_clonePayload (s.nesting + 1) t raw s
  cases h
  exact hcopy.allocLocal _ _

/-! ## Temporaries that become locals -/

/-- some temporaries have come to hold themselves, and nothing else has changed -/
structure Rebinds (s s' : Store) : Prop where
  vars : s'.vars = s.vars
  regions : s'.regions = s.regions
  cells : ∀ (id : CellId) (c : Cell), s.cells[id]? = some c → s'.cells[id]? = some c ∨
    c.holder = .temporary ∧ s'.cells[id]? = some { c with holder := .itself }

namespace Rebinds

theorem refl (s : Store) : s.Rebinds s := ⟨rfl, rfl, fun _ _ h => .inl h⟩

theorem trans (h : s.Rebinds s') (h' : s'.Rebinds s'') : s.Rebinds s'' := by
  refine ⟨h'.vars.trans h.vars, h'.regions.trans h.regions, fun id c hc => ?_⟩
  rcases h.cells id c hc with hc' | ⟨htemporary, hc'⟩
  · exact h'.cells id c hc'
  · rcases h'.cells id _ hc' with hc'' | ⟨hcontra, _⟩
    · exact .inr ⟨htemporary, hc''⟩
    · cases hcontra

theorem keeps (h : s.Rebinds s') (hs : s.Held) : s.Keeps s' := by
  have hcells : ∀ (id : CellId) (c : Cell), s.cells[id]? = some c →
      ∃ c', s'.cells[id]? = some c' ∧ c.Becomes c' := by
    intro id c hc
    rcases h.cells id c hc with hc' | ⟨htemporary, hc'⟩
    · exact ⟨c, hc', .refl c⟩
    · exact ⟨_, hc', Iff.rfl, .inr ⟨htemporary, rfl⟩⟩
  exact ⟨hs.of_cells h.regions hcells, hcells, fun v x hx => ⟨x, h.vars ▸ hx, rfl, rfl⟩,
    fun r x hx => ⟨x, h.regions ▸ hx, rfl, List.prefix_rfl⟩⟩

end Rebinds

theorem rebinds_makeLocal (s : Store) (v : VarId) : s.Rebinds (s.makeLocal v) := by
  unfold makeLocal
  split
  · exact .refl s
  next x _ =>
  refine ⟨rfl, rfl, fun id c hc => ?_⟩
  show (s.cells.modify x.cell _)[id]? = _ ∨ _ ∧ (s.cells.modify x.cell _)[id]? = _
  rw [Array.getElem?_modify, hc]
  by_cases hid : x.cell = id
  · by_cases htemporary : c.holder = .temporary
    · exact .inr ⟨htemporary, by simp [hid, htemporary]⟩
    · exact .inl (by simp [hid, htemporary])
  · exact .inl (if_neg hid)

theorem rebinds_makeLocals (s : Store) (members : List (String × VarId)) :
    s.Rebinds (members.foldl (fun s m => s.makeLocal m.2) s) := by
  induction members generalizing s with
  | nil => exact .refl s
  | cons m ms ih => exact (s.rebinds_makeLocal m.2).trans (ih _)

end Store

end Overloading
