import Overloading.Proofs.ConstReferences
import Overloading.Proofs.Navigation

/-!
# Addresses and storage

There are two sorts of addresses: a variable, where the cell of it holds itself, and a region with
an index, where the cell has its place there.  As a bound cell that is held by a place is the cell
of that place, and stays so, the two sorts do not get in each other's way: addresses are equal
exactly if they are of views of one cell.

* `Store.Designates`   a variable that designates storage, and is bound;
* `Store.Names`        a pointer that is the address of a variable, however the store has changed
                       since it was taken;
* `Store.Carries`      what is stored through one variable is read through another;
* `addresses_identify_storage`   what dereferencing an address and comparing two of them give.
-/

namespace Overloading

/-- the address of a variable that views a cell -/
def Cell.address (c : Cell) (v : VarId) : Option Pointer :=
  match c.holder with
  | .temporary => none
  | .slot r i => some (.index r i)
  | .itself => some (.direct (some v))

theorem Cell.address_eq_some {c : Cell} {v : VarId} {a : Pointer} :
    c.address v = some a ↔ c.holder = .itself ∧ a = .direct (some v) ∨
      ∃ r i, c.holder = .slot r i ∧ a = .index r i := by
  unfold address
  cases c.holder <;> simp [eq_comm]

namespace Store

variable {s s' : Store} {v w p q : VarId}

/-- a variable that designates storage, and that is bound -/
def Designates (s : Store) (v : VarId) : Prop :=
  ∃ x c, s.view v = .ok (x, c) ∧ c.holder ≠ .temporary ∧ c.state ≠ .unbound

/-- a variable holds the address of another that designates storage and is bound -/
def Names (s : Store) (p v : VarId) : Prop :=
  ∃ x c a, s.view v = .ok (x, c) ∧ c.state ≠ .unbound ∧ c.address v = some a ∧
    s.readPointer p = .ok (.pointer x.type, a)

/-! ## Taking an address -/

theorem exists_address {c : Cell} (h : c.holder ≠ .temporary) (v : VarId) :
    ∃ a, c.address v = some a := by
  unfold Cell.address
  cases hholder : c.holder with
  | temporary => exact absurd hholder h
  | itself | slot r i => exact ⟨_, rfl⟩

theorem addressOf_eq {x : Variable} {c : Cell} {a : Pointer} (hview : s.view v = .ok (x, c))
    (ha : c.address v = some a) : s.addressOf v = .ok (s.temp (.pointer x.type) a.raw) := by
  unfold addressOf
  rw [hview]
  rcases Cell.address_eq_some.mp ha with ⟨hholder, rfl⟩ | ⟨r, i, hholder, rfl⟩
  · simp only [hholder, Pointer.raw]
  · simp only [hholder, Pointer.raw]

theorem exists_addressOf (hv : s.Designates v) :
    ∃ p s', s.addressOf v = .ok (p, s') ∧ s.Enlarges s' ∧ s'.Names p v := by
  obtain ⟨x, c, hview, hholder, hstate⟩ := hv
  obtain ⟨a, ha⟩ := exists_address hholder v
  have henlarges := ((Builds.refl s).temp (.pointer x.type) a.raw).toEnlarges
  exact ⟨_, _, addressOf_eq hview ha, henlarges, x, c, a, henlarges.view hview, hstate, ha,
    s.readPointer_temp _ a⟩

theorem Names.keeps (h : s.Names p v) (hk : s.Keeps s')
    (hp : s'.readPointer p = s.readPointer p) : s'.Names p v := by
  obtain ⟨x, c, a, hview, hstate, ha, hpointer⟩ := h
  obtain ⟨hx, hc⟩ := view_eq_ok.mp hview
  obtain ⟨x', hx', htype, hcell⟩ := hk.vars v x hx
  obtain ⟨c', hc', hbecomes⟩ := hk.cells x.cell c hc
  rw [← hcell] at hc'
  have hholder : c'.holder = c.holder := by
    rcases hbecomes.holder with heq | ⟨htemp, _⟩
    · exact heq
    · rw [Cell.address, htemp] at ha
      cases ha
  refine ⟨x', c', a, view_eq_ok.mpr ⟨hx', hc'⟩, fun h => hstate (hbecomes.bound.mp h), ?_, ?_⟩
  · rw [Cell.address, hholder]
    exact ha
  · rw [hp, hpointer, htype]

/-! ## Dereferencing -/

/-- **Behind an address** is the variable, or another view of its cell with its type -/
theorem Names.deref (h : s.Names p v) (hheld : s.Held) (hs : s.Sound) :
    ∃ w s', s.deref p = .ok (w, s') ∧ s'.Shares v w ∧ s'.typeOf w = s.typeOf v := by
  obtain ⟨x, c, a, hview, hstate, ha, hpointer⟩ := h
  obtain ⟨hx, hc⟩ := view_eq_ok.mp hview
  have htype : s.typeOf v = .ok x.type := by
    rw [typeOf, hview]
    rfl
  rw [Store.deref, hpointer, htype]
  rcases Cell.address_eq_some.mp ha with ⟨_, rfl⟩ | ⟨r, i, hholder, rfl⟩
  · have hcell := cellOf_eq_some.mpr ⟨x, hx, rfl⟩
    exact ⟨v, s, rfl, ⟨x.cell, hcell, hcell⟩, htype⟩
  · have hcell := cellAs_of_hasAt ((hs v x hx).hasAt hheld hc hholder hstate) x.type
    refine ⟨_, _, congrArg Except.ok hcell, ⟨x.cell, ?_, ?_⟩, ?_⟩
    · exact cellOf_eq_some.mpr ⟨x, getElem?_push_of_some _ hx, rfl⟩
    · exact cellOf_eq_some.mpr ⟨_, Array.getElem?_push_size, rfl⟩
    · exact typeOf_addVariable (Array.getElem?_eq_some_iff.mp hc).1

/-! ## Comparing -/

theorem shares_iff {x y : Variable} (hx : s.vars[v]? = some x) (hy : s.vars[w]? = some y) :
    s.Shares v w ↔ x.cell = y.cell := by
  unfold Shares
  rw [show s.cellOf v = some x.cell from cellOf_eq_some.mpr ⟨x, hx, rfl⟩,
    show s.cellOf w = some y.cell from cellOf_eq_some.mpr ⟨y, hy, rfl⟩]
  constructor
  · rintro ⟨id, hid, hid'⟩
    exact Option.some.inj (hid.trans hid'.symm)
  · exact fun h => ⟨x.cell, rfl, congrArg some h.symm⟩

/-- **Two addresses** are equal exactly if they are of views of one cell -/
theorem Names.samePointer (hp : s.Names p v) (hq : s.Names q w) (hheld : s.Held) (hs : s.Sound) :
    ∃ b, s.samePointer p q = .ok b ∧ (b = true ↔ s.Shares v w) := by
  obtain ⟨x, c, a, hview, hstate, ha, hpointer⟩ := hp
  obtain ⟨y, d, b, hview', hstate', hb, hpointer'⟩ := hq
  obtain ⟨hx, hc⟩ := view_eq_ok.mp hview
  obtain ⟨hy, hd⟩ := view_eq_ok.mp hview'
  have hholders : x.cell = y.cell → c.holder = d.holder := fun h => by
    rw [h] at hc
    rw [Option.some.inj (hc.symm.trans hd)]
  rw [Store.samePointer, hpointer, hpointer', shares_iff hx hy]
  rcases Cell.address_eq_some.mp ha with ⟨hitself, rfl⟩ | ⟨r, i, hslot, rfl⟩
  all_goals rcases Cell.address_eq_some.mp hb with ⟨hitself', rfl⟩ | ⟨r', i', hslot', rfl⟩
  · refine ⟨_, rfl, ?_⟩
    rw [cellOf, cellOf, hx, hy]
    simp
  · refine ⟨false, rfl, iff_of_false nofun fun h => ?_⟩
    cases hitself.symm.trans ((hholders h).trans hslot')
  · refine ⟨false, rfl, iff_of_false nofun fun h => ?_⟩
    cases hslot.symm.trans ((hholders h).trans hitself')
  · refine ⟨_, rfl, ?_⟩
    rw [Bool.and_eq_true, beq_iff_eq, beq_iff_eq]
    constructor
    · rintro ⟨rfl, rfl⟩
      exact ((hs v x hx).hasAt hheld hc hslot hstate).unique
        ((hs w y hy).hasAt hheld hd hslot' hstate')
    · intro h
      cases hslot.symm.trans ((hholders h).trans hslot')
      exact ⟨rfl, rfl⟩

/-! ## Storing through one and reading through the other -/

/-- whatever is stored through the first variable is read through the second -/
def Carries (s : Store) (v w : VarId) : Prop :=
  ∀ raw, ∃ s', s.init v raw = .ok s' ∧ s'.read w = .ok raw

theorem assign_eq {x : Variable} {c : Cell} (hview : s.view v = .ok (x, c))
    (hholder : c.holder ≠ .temporary) (raw : Raw) :
    s.assign v raw = if x.const then .error (.constAssign x.type) else s.init v raw := by
  unfold assign
  rw [hview]
  exact if_neg hholder

theorem read_modifyCell_self {y : Variable} {d : Cell} (hview : s.view w = .ok (y, d)) (raw : Raw) :
    (s.modifyCell y.cell fun c => { c with state := .init, raw := raw }).read w = .ok raw := by
  obtain ⟨hy, hd⟩ := view_eq_ok.mp hview
  refine read_eq_ok.mpr ⟨y, { d with state := .init, raw := raw }, view_eq_ok.mpr ⟨hy, ?_⟩, rfl,
    rfl⟩
  show (s.cells.modify y.cell _)[y.cell]? = _
  simp [Array.getElem?_modify, hd]

theorem read_modifyCell {y : Variable} {id : CellId} {f : Cell → Cell}
    (hy : s.vars[w]? = some y) (hne : id ≠ y.cell) : (s.modifyCell id f).read w = s.read w := by
  have hcell : (s.modifyCell id f).cells[y.cell]? = s.cells[y.cell]? := by
    show (s.cells.modify id f)[y.cell]? = _
    rw [Array.getElem?_modify, if_neg hne]
  have hvars : (s.modifyCell id f).vars[w]? = some y := hy
  have hview : (s.modifyCell id f).view w = s.view w := by
    unfold view
    rw [hvars, hy]
    dsimp only
    rw [hcell]
  unfold read
  rw [hview]
  rfl

/-- **Storing** through one of two variables that are bound shows through the other if they view one
cell, and else leaves it alone -/
theorem read_after_init (hv : s.Designates v) (hw : s.Designates w) (raw : Raw) :
    ∃ s', s.init v raw = .ok s' ∧ (s.Shares v w → s'.read w = .ok raw) ∧
      (¬ s.Shares v w → s'.read w = s.read w) := by
  obtain ⟨x, c, hview, _, hstate⟩ := hv
  obtain ⟨y, d, hview', _, _⟩ := hw
  have hx := (view_eq_ok.mp hview).1
  have hy := (view_eq_ok.mp hview').1
  rw [shares_iff hx hy]
  refine ⟨_, init_eq_ok.mpr ⟨x, c, hview, hstate, rfl⟩, fun h => ?_, read_modifyCell hy⟩
  rw [h]
  exact read_modifyCell_self hview' raw

theorem shares_iff_carries (hv : s.Designates v) (hw : s.Designates w) :
    s.Shares v w ↔ s.Carries v w := by
  constructor
  · intro h raw
    obtain ⟨s', hinit, hread, _⟩ := read_after_init hv hw raw
    exact ⟨s', hinit, hread h⟩
  · intro h
    by_contra hapart
    have hsame : ∀ raw, s.read w = .ok raw := by
      intro raw
      obtain ⟨s', hinit, hread⟩ := h raw
      obtain ⟨s'', hinit', _, hkept⟩ := read_after_init hv hw raw
      cases hinit.symm.trans hinit'
      exact (hkept hapart).symm.trans hread
    cases (hsame .nothing).symm.trans (hsame (.int 0))

theorem Names.designates (h : s.Names p v) : s.Designates v := by
  obtain ⟨x, c, a, hview, hstate, ha, _⟩ := h
  refine ⟨x, c, hview, fun htemp => ?_, hstate⟩
  rw [Cell.address, htemp] at ha
  cases ha

/-! ## Two addresses and their variables -/

/-- what two addresses tell of the variables that they were taken of -/
structure Identifies (s : Store) (p q x y : VarId) : Prop where
  deref : ∃ w s', s.deref p = .ok (w, s') ∧ s'.Shares x w ∧ s'.typeOf w = s.typeOf x
  samePointer : ∃ b, s.samePointer p q = .ok b ∧ (b = true ↔ s.Shares x y)
  carries : s.Shares x y ↔ s.Carries x y
  apart : ¬ s.Shares x y → ∀ raw s', s.init x raw = .ok s' → s'.read y = s.read y
  assign : ¬ s.IsConst x → ∀ raw, s.assign x raw = s.init x raw

theorem Names.identifies {x y : VarId} (hp : s.Names p x) (hq : s.Names q y) (hheld : s.Held)
    (hs : s.Sound) : s.Identifies p q x y := by
  refine ⟨hp.deref hheld hs, hp.samePointer hq hheld hs,
    shares_iff_carries hp.designates hq.designates, fun hapart raw s' hinit => ?_,
    fun hmutable raw => ?_⟩
  · obtain ⟨s'', hinit', _, hkept⟩ := read_after_init hp.designates hq.designates raw
    cases hinit.symm.trans hinit'
    exact hkept hapart
  · obtain ⟨v, c, hview, hholder, _⟩ := hp.designates
    rw [assign_eq hview hholder]
    exact if_neg fun hconst => hmutable ⟨v, (view_eq_ok.mp hview).1, hconst⟩

end Store

open Store

/-- **Addresses identify storage.**  The address can be taken of every variable that designates
storage and is bound.  For as long as it is held, whatever else happens and however the regions
grow, it leads back to the cell of the variable, with its type.  With the address of another such
variable, taken then or later, it is equal exactly if both variables view one cell, which is so
exactly if all that is stored through the one is read through the other. -/
theorem addresses_identify_storage {s : Store} (hs : s.Reached) {x : VarId}
    (hx : s.Designates x) :
    ∃ p s₁, s.addressOf x = .ok (p, s₁) ∧
      ∀ since y, (s₁.after since).Designates y →
        ∃ q s₂, (s₁.after since).addressOf y = .ok (q, s₂) ∧
          ∀ more, (s₂.after more).readPointer p = s₁.readPointer p →
            (s₂.after more).readPointer q = s₂.readPointer q →
              (s₂.after more).Identifies p q x y := by
  obtain ⟨hheld, hsound⟩ := hs.held_sound
  obtain ⟨p, s₁, haddress, henlarges, hp⟩ := exists_addressOf hx
  refine ⟨p, s₁, haddress, fun since y hy => ?_⟩
  have hheld₁ := (builds_addressOf haddress).held hheld
  have hsince := keeps_after hheld₁ since
  have hsound₁ := (held_sound_after hheld₁ (hsound.enlarges henlarges) since).2
  obtain ⟨q, s₂, haddress', henlarges', hq⟩ := exists_addressOf hy
  refine ⟨q, s₂, haddress', fun more hkept hkept' => ?_⟩
  have htaken := (builds_addressOf haddress').keeps hsince.held
  have hmore := keeps_after htaken.held more
  obtain ⟨hheld₂, hsound₂⟩ := held_sound_after htaken.held (hsound₁.enlarges henlarges') more
  have hp' := hp.keeps (hsince.trans (htaken.trans hmore)) hkept
  exact hp'.identifies (hq.keeps hmore hkept') hheld₂ hsound₂

/-- two views of one cell of a region that grows after the first address has been taken, and again
after the second -/
theorem addresses_identify_storage_grown : ∃ (p q : VarId) (s : Store),
    s.Inside 0 2 ∧ s.Identifies p q 0 1 ∧ s.Shares 0 1 ∧ s.samePointer p q = .ok true := by
  let word : Ty := .arith .i32
  let s : Store := ⟨#[⟨.uninit, .nothing, .slot 0 0⟩], #[⟨word, false, 0⟩, ⟨word, false, 0⟩],
    #[⟨word, #[0]⟩]⟩
  have hs : s.Reached := ⟨[.allocRegion word 1, .at_ 0 0, .at_ 0 0], rfl⟩
  obtain ⟨p, s₁, haddress, hlater⟩ := addresses_identify_storage hs (x := 0)
    ⟨_, _, rfl, nofun, nofun⟩
  cases haddress
  obtain ⟨q, s₂, haddress', hmore⟩ := hlater [.append 0 (.int 7)] 1 ⟨_, _, rfl, nofun, nofun⟩
  cases haddress'
  have hidentifies := hmore [.append 0 (.int 7)] rfl rfl
  obtain ⟨b, hb, hequal⟩ := hidentifies.samePointer
  obtain rfl : b = true := hequal.mpr ⟨0, rfl, rfl⟩
  exact ⟨_, _, _, inside_iff.mpr ⟨_, _, 2, rfl, rfl, rfl⟩, hidentifies, hequal.mp rfl, hb⟩

end Overloading
