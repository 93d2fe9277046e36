import Overloading.Proofs.StoreFrames

/-!
# Stores along their runs

Cells come from three places: a region grows, a variable gets a cell of its own, and a copy of an
array fills a region of its own.  They are then shared by views and by pointers, and stored to
through any of them.

* `builds_perform`     all operations only add, but those that store, that rebind a temporary, that
                       mark a variable, and that make a region longer;
* `keeps_perform`      all operations keep what there is, whether they fault or not;
* `result_initInPlace`, `result_assignInPlace`   accesses made in place, assignment by assignment,
                       have the outcome they should have, and leave the same;
* `store_invariants`   any run from the empty store;
* `Reached.held_sound`   in every store that is reached, what is viewed is where its holder says.
-/

namespace Overloading

namespace Store

variable {s s' s'' : Store} {v w : VarId}

/-! ## Operations that change what there is -/

theorem keeps_modifyCell (hs : s.Held) (id : CellId) {f : Cell → Cell}
    (hf : ∀ c, s.cells[id]? = some c → c.Becomes (f c)) : s.Keeps (s.modifyCell id f) := by
  have hrefl := Keeps.refl hs
  have hcells : ∀ (j : CellId) (c : Cell), s.cells[j]? = some c →
      ∃ c', (s.modifyCell id f).cells[j]? = some c' ∧ c.Becomes c' := by
    intro j c hc
    show ∃ c', (s.cells.modify id f)[j]? = some c' ∧ _
    rw [Array.getElem?_modify]
    by_cases h : id = j
    · subst h
      exact ⟨f c, by simp [hc], hf c hc⟩
    · exact ⟨c, by simp [h, hc], .refl c⟩
  exact ⟨hs.of_cells rfl hcells, hcells, hrefl.vars, hrefl.regions⟩

theorem keeps_setConst (hs : s.Held) (v : VarId) (b : Bool) : s.Keeps (s.setConst v b) := by
  have hrefl := Keeps.refl hs
  refine ⟨hs, hrefl.cells, fun w x hx => ?_, hrefl.regions⟩
  show ∃ x', (s.vars.modify v fun x => { x with const := b })[w]? = some x' ∧ _
  rw [Array.getElem?_modify, hx]
  by_cases h : v = w
  · exact ⟨{ x with const := b }, by simp [h], rfl, rfl⟩
  · exact ⟨x, by simp [h], rfl, rfl⟩

theorem keeps_append (hs : s.Held) (r : RegionId) (raw : Raw) : s.Keeps (s.append r raw).2 := by
  have hrefl := Keeps.refl hs
  refine ⟨hs.grow r (by decide : CellState.init ≠ .unbound) raw,
    fun id c hc => ⟨c, getElem?_addCell _ hc, .refl c⟩, hrefl.vars, fun q x hx => ?_⟩
  rw [append, regions_grow, hx]
  refine ⟨_, rfl, ?_, ?_⟩
  · split <;> rfl
  · split
    · rw [Array.toList_push]
      exact List.prefix_append _ _
    · exact List.prefix_rfl

theorem keeps_allocObject (hs : s.Held) (c : ClassTy) (members : List (String × VarId)) :
    s.Keeps (s.allocObject c members).2 := by
  have hlocals := (s.rebinds_makeLocals members).keeps hs
  exact hlocals.trans (((Builds.refl _).temp _ _).keeps hlocals.held)

theorem init_eq_ok {v : VarId} {raw : Raw} : s.init v raw = .ok s' ↔
    ∃ x c, s.view v = .ok (x, c) ∧ c.state ≠ .unbound ∧
      s.modifyCell x.cell (fun c => { c with state := .init, raw := raw }) = s' := by
  constructor
  · intro h
    unfold init at h
    split at h
    · cases h
    next x c hview =>
    split at h
    · cases h
    next hbound => exact ⟨x, c, hview, hbound, Except.ok.inj h⟩
  · rintro ⟨x, c, hview, hbound, rfl⟩
    unfold init
    rw [hview]
    exact if_neg hbound

theorem init_of_assign {v : VarId} {raw : Raw} (h : s.assign v raw = .ok s') :
    s.init v raw = .ok s' := by
  unfold assign at h
  split at h
  · cases h
  split at h
  · cases h
  split at h
  · cases h
  · exact h

theorem keeps_init (hs : s.Held) {v : VarId} {raw : Raw} (h : s.init v raw = .ok s') :
    s.Keeps s' := by
  obtain ⟨x, c, hview, hbound, rfl⟩ := init_eq_ok.mp h
  refine keeps_modifyCell hs _ fun c' hc' => ⟨?_, .inl rfl⟩
  obtain rfl : c = c' := Option.some.inj ((view_eq_ok.mp hview).2.symm.trans hc')
  exact iff_of_false nofun hbound

/-! ## Operations -/

inductive Operation where
  | allocRegion (elem : Ty) (n : Nat)
  | regionFrom (elem : Ty) (items : List VarId)
  | allocArray (elem : Ty) (n : Nat)
  | append (r : RegionId) (raw : Raw)
  | at_ (r : RegionId) (i : Int)
  | temp (t : Ty) (raw : Raw)
  | declare (t : Ty)
  | allocLocal (t : Ty) (raw : Raw)
  | makeLocal (v : VarId)
  | setConst (v : VarId) (b : Bool)
  | addressOf (v : VarId)
  | pointerInto (r : RegionId) (i : Int)
  | offset (p : VarId) (n : Int)
  | deref (p : VarId)
  | decay (v : VarId)
  | allocObject (c : ClassTy) (members : List (String × VarId))
  | member (v : VarId) (name : String)
  | allocList (items : List VarId)
  | clone (v : VarId)
  | read (v : VarId)
  | init (v : VarId) (raw : Raw)
  | assign (v : VarId) (raw : Raw)

/-- the outcome of an operation that may fault, and the store it leaves -/
def left (s : Store) : Except Fault Store → Except Fault Unit × Store
  | .ok s' => (.ok (), s')
  | .error e => (.error e, s)

def Operation.perform (s : Store) : Operation → Except Fault Unit × Store
  | allocRegion elem n => s.left (.ok (s.allocRegion elem n).2)
  | regionFrom elem items => s.left ((s.regionFrom elem items).map Prod.snd)
  | allocArray elem n => s.left (.ok (s.allocArray elem n).2)
  | append r raw => s.left (.ok (s.append r raw).2)
  | at_ r i => s.left (.ok (s.at_ r i).2)
  | temp t raw => s.left (.ok (s.temp t raw).2)
  | declare t => s.left (.ok (s.declare t).2)
  | allocLocal t raw => s.left (.ok (s.allocLocal t raw).2)
  | makeLocal v => s.left (.ok (s.makeLocal v))
  | setConst v b => s.left (.ok (s.setConst v b))
  | addressOf v => s.left ((s.addressOf v).map Prod.snd)
  | pointerInto r i => s.left (.ok (s.pointerInto r i).2)
  | offset p n => s.left ((s.offset p n).map Prod.snd)
  | deref p => s.left ((s.deref p).map Prod.snd)
  | decay v => s.left ((s.decay v).map Prod.snd)
  | allocObject c members => s.left (.ok (s.allocObject c members).2)
  | member v name => s.left ((s.member v name).map Prod.snd)
  | allocList items => s.left (.ok (s.allocList items).2)
  | clone v => s.left ((s.clone v).map Prod.snd)
  | read v => s.left ((s.read v).map fun _ => s)
  | init v raw => s.left (s.init v raw)
  | assign v raw => s.left (s.assign v raw)

theorem left_of {P : Store → Prop} (hs : P s) {x : Except Fault Store}
    (h : ∀ s', x = .ok s' → P s') : P (s.left x).2 := by
  cases x with
  | error e => exact hs
  | ok s' => exact h s' rfl

theorem left_snd_of {P : Store → Prop} (hs : P s) {α : Type} {x : Except Fault (α × Store)}
    (h : ∀ a s', x = .ok (a, s') → P s') : P (s.left (x.map Prod.snd)).2 := by
  cases x with
  | error e => exact hs
  | ok res => exact h res.1 res.2 rfl

theorem perform_read (s : Store) (v : VarId) : ((Operation.read v).perform s).2 = s := by
  rw [Operation.perform]
  cases s.read v <;> rfl

/-- an operation that neither stores, nor rebinds a temporary, nor marks a variable, nor makes a
region longer -/
def Operation.isQuiet : Operation → Bool
  | append .. | makeLocal .. | setConst .. | allocObject .. | init .. | assign .. => false
  | _ => true

/-- **Every quiet operation** only adds, also where it faults -/
theorem builds_perform (s : Store) {op : Operation} (hquiet : op.isQuiet = true) :
    s.Builds (op.perform s).2 := by
  cases op with
  | append | makeLocal | setConst | allocObject | init | assign => cases hquiet
  | allocRegion elem n => exact s.builds_allocRegion elem n
  | regionFrom elem items => exact left_snd_of (.refl s) fun _ _ => builds_regionFrom
  | allocArray elem n => exact s.builds_allocArray elem n
  | at_ r i => exact s.builds_cellAs _ r i
  | temp t raw | declare t | allocLocal t raw | pointerInto r i | allocList items =>
    exact (Builds.refl s).fresh _ (isLoose_of_holder (by rintro _ _ ⟨⟩))
  | addressOf v => exact left_snd_of (.refl s) fun _ _ => builds_addressOf
  | offset p n => exact left_snd_of (.refl s) fun _ _ => builds_offset
  | deref p => exact left_snd_of (.refl s) fun _ _ => builds_deref
  | decay v => exact left_snd_of (.refl s) fun _ _ => builds_decay
  | member v name => exact left_snd_of (.refl s) fun _ _ => builds_member
  | clone v => exact left_snd_of (.refl s) fun _ _ => builds_clone
  | read v =>
    rw [perform_read]
    exact .refl s

/-- **Every operation** leaves the regions in order and keeps what there is, also where it faults -/
theorem keeps_perform (hs : s.Held) (op : Operation) : s.Keeps (op.perform s).2 := by
  cases op with
  | append r raw => exact keeps_append hs r raw
  | makeLocal v => exact (s.rebinds_makeLocal v).keeps hs
  | setConst v b => exact keeps_setConst hs v b
  | allocObject c members => exact keeps_allocObject hs c members
  | init v raw => exact left_of (.refl hs) fun _ => keeps_init hs
  | assign v raw => exact left_of (.refl hs) fun _ h => keeps_init hs (init_of_assign h)
  | _ => exact (s.builds_perform rfl).keeps hs

/-! ## Runs -/

/-- a store after some operations, whether they fault or not -/
def after (s : Store) (ops : List Operation) : Store := ops.foldl (fun s op => (op.perform s).2) s

theorem keeps_after (hs : s.Held) (ops : List Operation) : s.Keeps (s.after ops) := by
  induction ops generalizing s with
  | nil => exact .refl hs
  | cons op ops ih =>
    have hone := keeps_perform hs op
    exact hone.trans (ih hone.held)

theorem held_empty : empty.Held := by
  intro r x hx
  simp [empty] at hx

/-! ## Outside a region -/

def IsUnbound (s : Store) (v : VarId) : Prop :=
  ∃ x c, s.view v = .ok (x, c) ∧ c.state = .unbound

theorem Keeps.isUnbound (h : s.Keeps s') {v : VarId} (hv : s.IsUnbound v) : s'.IsUnbound v := by
  obtain ⟨x, c, hview, hstate⟩ := hv
  obtain ⟨hx, hc⟩ := view_eq_ok.mp hview
  obtain ⟨x', hx', _, hcell⟩ := h.vars v x hx
  obtain ⟨c', hc', hbecomes⟩ := h.cells x.cell c hc
  rw [← hcell] at hc'
  exact ⟨x', c', view_eq_ok.mpr ⟨hx', hc'⟩, hbecomes.bound.mpr hstate⟩

theorem isUnbound_cellAs {r : RegionId} {i : Int} (h : ¬ s.Inside r i) (t : Ty) :
    (s.cellAs t r i).2.IsUnbound (s.cellAs t r i).1 := by
  rw [cellAs_outside h]
  exact ⟨_, _, s.view_fresh_self t ⟨.unbound, .nothing, .slot r i⟩, rfl⟩

/-! ## Accesses in place -/

/-- an access to a store in place: what has been assigned stays so, also where a fault follows -/
abbrev Access (α : Type) := ExceptT Fault (StateM Store) α

def Access.result {α : Type} (c : Access α) (s : Store) : Except Fault α × Store := c.run.run s

def readInPlace (v : VarId) : Access Raw := do
  let s ← get
  match s.view v with
  | .error e => throw e
  | .ok (x, c) =>
    match c.state with
    | .uninit => throw (.uninitialized x.type)
    | .unbound => throw (s.boundsFault c.holder)
    | .init => pure c.raw

def initInPlace (v : VarId) (raw : Raw) : Access Unit := do
  let s ← get
  match s.view v with
  | .error e => throw e
  | .ok (x, c) =>
    if c.state = .unbound then throw (s.boundsFault c.holder)
    else do
      modify fun s => s.modifyCell x.cell fun c => { c with raw := raw }
      modify fun s => s.modifyCell x.cell fun c => { c with state := .init }

def assignInPlace (v : VarId) (raw : Raw) : Access Unit := do
  let s ← get
  match s.view v with
  | .error e => throw e
  | .ok (x, c) =>
    if c.holder = .temporary then throw (.assignTemporary x.type)
    else if x.const then throw (.constAssign x.type)
    else initInPlace v raw

theorem result_readInPlace (v : VarId) (s : Store) : (readInPlace v).result s = (s.read v, s) := by
  unfold read
  show Access.result (match s.view v with
    | .error e => _
    | .ok (x, c) => _) s = _
  rcases s.view v with e | ⟨x, c⟩
  · rfl
  · cases hc : c.state <;> simp only [hc] <;> rfl

theorem modifyCell_modifyCell (s : Store) (id : CellId) (f g : Cell → Cell) :
    (s.modifyCell id f).modifyCell id g = s.modifyCell id fun c => g (f c) := by
  unfold modifyCell
  congr 1
  apply Array.ext_getElem?
  intro j
  simp only [Array.getElem?_modify]
  split
  · rw [Option.map_map]
    rfl
  · rfl

theorem result_initInPlace (v : VarId) (raw : Raw) (s : Store) :
    (initInPlace v raw).result s = s.left (s.init v raw) := by
  unfold init
  show Access.result (match s.view v with
    | .error e => _
    | .ok (x, c) => _) s = _
  rcases s.view v with e | ⟨x, c⟩
  · rfl
  · dsimp only
    by_cases h : c.state = .unbound
    · rw [if_pos h, if_pos h]
      rfl
    · rw [if_neg h, if_neg h]
      show (Except.ok (), (s.modifyCell x.cell _).modifyCell x.cell _) = _
      rw [modifyCell_modifyCell]
      rfl

theorem result_assignInPlace (v : VarId) (raw : Raw) (s : Store) :
    (assignInPlace v raw).result s = s.left (s.assign v raw) := by
  unfold assign
  show Access.result (match s.view v with
    | .error e => _
    | .ok (x, c) => _) s = _
  rcases s.view v with e | ⟨x, c⟩
  · rfl
  · dsimp only
    by_cases htemporary : c.holder = .temporary
    · rw [if_pos htemporary, if_pos htemporary]
      rfl
    rw [if_neg htemporary, if_neg htemporary]
    by_cases hconst : x.const = true
    · rw [if_pos hconst, if_pos hconst]
      rfl
    · rw [if_neg hconst, if_neg hconst]
      exact result_initInPlace v raw s

theorem left_of_error {x : Except Fault Store} {e : Fault} (h : (s.left x).1 = .error e) :
    (s.left x).2 = s := by
  cases x with
  | error e => rfl
  | ok s' => cases h

/-- the stores that operations make of the empty one -/
def Reached (s : Store) : Prop := ∃ ops, empty.after ops = s

/-! ## Views of stores that are reached -/

/-- every variable views a cell that is where its holder says -/
def Sound (s : Store) : Prop :=
  ∀ (v : VarId) (x : Variable), s.vars[v]? = some x → s.Located x.cell

theorem Sound.enlarges (hs : s.Sound) (h : s.Enlarges s') : s'.Sound := by
  intro v x hx
  rcases h.views v x hx with hlocated | ⟨w, y, hy, hcell⟩
  · exact hlocated
  · exact hcell ▸ (hs w y hy).enlarges h

/-- where no variable views another cell than one did before, it is enough that all is kept -/
theorem Sound.keeps (hs : s.Sound) (hk : s.Keeps s')
    (hviews : ∀ (v : VarId) (x : Variable), s'.vars[v]? = some x →
      ∃ y, s.vars[v]? = some y ∧ y.cell = x.cell) : s'.Sound := by
  intro v x hx
  obtain ⟨y, hy, hcell⟩ := hviews v x hx
  exact hcell ▸ (hs v y hy).keeps hk

theorem vars_setConst {x : Variable} {b : Bool} (hx : (s.setConst v b).vars[w]? = some x) :
    ∃ y, s.vars[w]? = some y ∧ y.cell = x.cell := by
  have hx : (s.vars.modify v fun x => { x with const := b })[w]? = some x := hx
  rw [Array.getElem?_modify] at hx
  split at hx
  · obtain ⟨y, hy, rfl⟩ := Option.map_eq_some_iff.mp hx
    exact ⟨y, hy, rfl⟩
  · exact ⟨x, hx, rfl⟩

theorem vars_init {raw : Raw} (h : s.init v raw = .ok s') : s'.vars = s.vars := by
  obtain ⟨x, c, _, _, rfl⟩ := init_eq_ok.mp h
  rfl

/-- an operation that is not quiet lets every variable view what it viewed -/
theorem sound_perform (hheld : s.Held) (hs : s.Sound) (op : Operation) :
    (op.perform s).2.Sound := by
  have hsame : ∀ s', s.Keeps s' → s'.vars = s.vars → s'.Sound := fun s' hkeeps hvars =>
    hs.keeps hkeeps fun v x hx => ⟨x, hvars ▸ hx, rfl⟩
  have hrebinds : ∀ s', s.Rebinds s' → s'.Sound := fun s' h => hsame s' (h.keeps hheld) h.vars
  have hinit : ∀ {v raw} s', s.init v raw = .ok s' → s'.Sound := fun s' h =>
    hsame s' (keeps_init hheld h) (vars_init h)
  cases op with
  | append r raw => exact hsame _ (keeps_append hheld r raw) rfl
  | makeLocal v => exact hrebinds _ (s.rebinds_makeLocal v)
  | setConst v b => exact hs.keeps (keeps_setConst hheld v b) fun w x => vars_setConst
  | allocObject c members =>
    exact (hrebinds _ (s.rebinds_makeLocals members)).enlarges ((Builds.refl _).temp _ _).toEnlarges
  | init v raw => exact left_of hs hinit
  | assign v raw => exact left_of hs fun s' h => hinit s' (init_of_assign h)
  | _ => exact hs.enlarges (s.builds_perform rfl).toEnlarges

theorem held_sound_after (hheld : s.Held) (hs : s.Sound) (ops : List Operation) :
    (s.after ops).Held ∧ (s.after ops).Sound := by
  induction ops generalizing s with
  | nil => exact ⟨hheld, hs⟩
  | cons op ops ih => exact ih (keeps_perform hheld op).held (sound_perform hheld hs op)

/-- **What is viewed** in a store that is reached is where its holder says -/
theorem Reached.held_sound (hs : s.Reached) : s.Held ∧ s.Sound := by
  obtain ⟨ops, rfl⟩ := hs
  refine held_sound_after held_empty (fun v x hx => ?_) ops
  simp [empty] at hx

end Store

open Store

/-- **Places are kept** in every store that is reached, whatever happened to it and happens then:
the cells of a region are held by their places and are bound; a region keeps its cells, their order
and the type of its elements; what is obtained outside a region is unbound for good, also when the
region has grown over it; and an access that faults undoes nothing, for it has done nothing. -/
theorem store_invariants {s : Store} (hs : s.Reached) (ops : List Operation) :
    s.Held ∧
    (∀ (r : RegionId) (x : Region), s.regions[r]? = some x →
      ∃ x', (s.after ops).regions[r]? = some x' ∧ x'.elem = x.elem ∧
        x.cells.toList <+: x'.cells.toList) ∧
    (∀ (r : RegionId) (i : Int), ¬ s.Inside r i →
      ((s.at_ r i).2.after ops).IsUnbound (s.at_ r i).1 ∧
        ∀ p t, s.readPointer p = .ok (t, .index r i) →
          ∃ v s', s.deref p = .ok (v, s') ∧ (s'.after ops).IsUnbound v) ∧
    ∀ (v : VarId) (raw : Raw),
      ((readInPlace v).result s = (s.read v, s) ∧
        (initInPlace v raw).result s = (Operation.init v raw).perform s ∧
        (assignInPlace v raw).result s = (Operation.assign v raw).perform s) ∧
      ∀ e, (((initInPlace v raw).result s).1 = .error e → ((initInPlace v raw).result s).2 = s) ∧
        (((assignInPlace v raw).result s).1 = .error e →
          ((assignInPlace v raw).result s).2 = s) := by
  obtain ⟨before, rfl⟩ := hs
  have hheld : (empty.after before).Held := (keeps_after held_empty before).held
  refine ⟨hheld, (keeps_after hheld ops).regions, fun r i hi => ?_, fun v raw => ?_⟩
  · have hunbound : ∀ t, (((empty.after before).cellAs t r i).2.after ops).IsUnbound
        ((empty.after before).cellAs t r i).1 := fun t =>
      (keeps_after ((builds_cellAs _ t r i).held hheld) ops).isUnbound (isUnbound_cellAs hi t)
    refine ⟨hunbound _, fun p t hp => ⟨_, _, ?_, hunbound t.pointee⟩⟩
    unfold deref
    rw [hp]
  · rw [result_initInPlace, result_assignInPlace]
    exact ⟨⟨result_readInPlace v _, rfl, rfl⟩, fun e => ⟨left_of_error, left_of_error⟩⟩

/-- an index outside a region of one cell, which the region grows over afterwards -/
theorem store_invariants_overgrown :
    ((((empty.after [.allocRegion (.arith .i32) 1]).at_ 0 3).2.after
        [.append 0 (.int 7), .append 0 (.int 7), .append 0 (.int 7)]).IsUnbound
      ((empty.after [.allocRegion (.arith .i32) 1]).at_ 0 3).1) ∧
    (((empty.after [.allocRegion (.arith .i32) 1]).at_ 0 3).2.after
        [.append 0 (.int 7), .append 0 (.int 7), .append 0 (.int 7)]).Inside 0 3 := by
  have hreached : (empty.after [.allocRegion (.arith .i32) 1]).Reached := ⟨_, rfl⟩
  have houtside : ¬ (empty.after [.allocRegion (.arith .i32) 1]).Inside 0 3 := by
    rintro ⟨x, n, hx, hn, hlt⟩
    cases hx
    have hlt : n < 1 := hlt
    omega
  refine ⟨((store_invariants hreached _).2.2.1 0 3 houtside).1, _, 3, rfl, rfl, ?_⟩
  exact Nat.lt_succ_self 3

end Overloading
