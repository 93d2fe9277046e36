import Overloading.Proofs.DefaultConstructors
import Overloading.Proofs.StoreTypes

/-!
# Default values

The default of a type is its zero value: zero for arithmetic types, null for pointers, and for
arrays and classes the defaults of what they are made of.

* `Catalog.Defaultable`   types that have one;
* `Catalog.IsDefault`     the payloads that are one;
* `Store.Retains`         making a value leaves what there was, so a default stays one;
* `exists_defaultArray`, `holdsDefault_allocObject`   what is made of defaults is a default;
* `Settles`               from some depth on a computation comes to its end at once, whatever the
                          depth; `Settles.andThen` and `settles_each` compose;
* `default_values_built`  every defaultable type is given its zero value; a class of a template with
                          another number of arguments is refused.
-/

namespace Overloading

open Grammar

variable {τ : Type}

/-! ## Zero values -/

def Template.fields (t : Template) (c : ClassTy) : List Field := (t.layout c).getD []

namespace Catalog

/-- the types that have a default: arithmetic types, pointers, arrays of such types, and classes of
templates with members of such types -/
inductive Defaultable (r : Catalog τ) : Ty → Prop
  | arith (k : Kind) : Defaultable r (.arith k)
  | pointer (e : Ty) : Defaultable r (.pointer e)
  | array {e : Ty} (n : Nat) (elem : Defaultable r e) : Defaultable r (.array e n)
  | cls {c : ClassTy} {t : Template} (wellFormed : c.WellFormed)
      (template : r.template? c.domain = some t) (arity : c.args.length = t.arity)
      (distinct : ((t.fields c).map Field.name).Nodup)
      (members : ∀ f ∈ t.fields c, Defaultable r f.type) : Defaultable r (.cls c)

/-- the zero value of a type: an array is a region of as many initialized cells, a class value has
just the members of its template, and the cells and the members are zero again -/
inductive IsDefault (r : Catalog τ) (s : Store) : Ty → Raw → Prop
  | int {k : Kind} (integral : k.isFloat = false) : IsDefault r s (.arith k) (.int 0)
  | float {k : Kind} (float : k.isFloat = true) : IsDefault r s (.arith k) (.float 0.0)
  | null (e : Ty) : IsDefault r s (.pointer e) (.direct none)
  | region {e : Ty} {n : Nat} {reg : RegionId} {x : Region} (get : s.regions[reg]? = some x)
      (elem_eq : x.elem = e) (size_eq : x.cells.size = n)
      (inits : ∀ id ∈ x.cells, ∃ c, s.cells[id]? = some c ∧ c.state = .init)
      (defaults : ∀ id ∈ x.cells, ∀ c, s.cells[id]? = some c → IsDefault r s e c.raw) :
      IsDefault r s (.array e n) (.index reg 0)
  | object {c : ClassTy} {t : Template} {members : List (String × VarId)}
      (template : r.template? c.domain = some t)
      (names : (members.map Prod.fst).Perm ((t.fields c).map Field.name))
      (held : ∀ f ∈ t.fields c, ∃ v raw, members.lookup f.name = some v ∧
        s.typeOf v = .ok f.type ∧ s.read v = .ok raw)
      (defaults : ∀ f ∈ t.fields c, ∀ v raw, members.lookup f.name = some v →
        s.read v = .ok raw → IsDefault r s f.type raw) : IsDefault r s (.cls c) (.object members)

/-- a variable of a type with its zero value -/
def HoldsDefault (r : Catalog τ) (s : Store) (ty : Ty) (v : VarId) : Prop :=
  s.typeOf v = .ok ty ∧ ∃ raw, s.read v = .ok raw ∧ r.IsDefault s ty raw

end Catalog

/-! ## What stays -/

namespace Store

variable {s s' s'' : Store} {v : VarId}

/-- what one store has the other has too; only who holds a cell may have changed -/
structure Retains (s s' : Store) : Prop where
  vars : ∀ (v : VarId) (x : Variable), s.vars[v]? = some x → s'.vars[v]? = some x
  cells : ∀ (id : CellId) (c : Cell), s.cells[id]? = some c →
    ∃ c', s'.cells[id]? = some c' ∧ c'.state = c.state ∧ c'.raw = c.raw
  regions : ∀ (r : RegionId) (x : Region), s.regions[r]? = some x → s'.regions[r]? = some x

theorem Retains.refl (s : Store) : s.Retains s :=
  ⟨fun _ _ h => h, fun _ c h => ⟨c, h, rfl, rfl⟩, fun _ _ h => h⟩

theorem Retains.trans (h : s.Retains s') (h' : s'.Retains s'') : s.Retains s'' := by
  refine ⟨fun v x hx => h'.vars v x (h.vars v x hx), fun id c hc => ?_,
    fun r x hx => h'.regions r x (h.regions r x hx)⟩
  obtain ⟨c₁, hc₁, hstate₁, hraw₁⟩ := h.cells id c hc
  obtain ⟨c₂, hc₂, hstate₂, hraw₂⟩ := h'.cells id c₁ hc₁
  exact ⟨c₂, hc₂, hstate₂.trans hstate₁, hraw₂.trans hraw₁⟩

theorem Enlarges.retains (h : s.Enlarges s') : s.Retains s' :=
  ⟨h.vars, fun id c hc => ⟨c, h.cells id c hc, rfl, rfl⟩, h.regions⟩

theorem Retains.typeOf (h : s.Retains s') {t : Ty} (ht : s.typeOf v = .ok t) :
    s'.typeOf v = .ok t := by
  obtain ⟨x, hx, hlt, rfl⟩ := typeOf_eq_ok.mp ht
  obtain ⟨c', hc', _⟩ := h.cells x.cell _ (Array.getElem?_eq_getElem hlt)
  exact typeOf_eq_ok.mpr ⟨x, h.vars v x hx, (Array.getElem?_eq_some_iff.mp hc').1, rfl⟩

theorem Retains.read (h : s.Retains s') {raw : Raw} (hr : s.read v = .ok raw) :
    s'.read v = .ok raw := by
  obtain ⟨x, c, hview, hstate, rfl⟩ := read_eq_ok.mp hr
  obtain ⟨hx, hc⟩ := view_eq_ok.mp hview
  obtain ⟨c', hc', hstate', hraw'⟩ := h.cells x.cell c hc
  exact read_eq_ok.mpr
    ⟨x, c', view_eq_ok.mpr ⟨h.vars v x hx, hc'⟩, hstate'.trans hstate, hraw'⟩

theorem Rebinds.retains (h : s.Rebinds s') : s.Retains s' := by
  refine ⟨fun v x hx => h.vars ▸ hx, fun id c hc => ?_, fun r x hx => h.regions ▸ hx⟩
  rcases h.cells id c hc with hc' | ⟨_, hc'⟩
  · exact ⟨c, hc', rfl, rfl⟩
  · exact ⟨_, hc', rfl, rfl⟩

theorem retains_allocObject (s : Store) (c : ClassTy) (members : List (String × VarId)) :
    s.Retains (s.allocObject c members).2 :=
  (s.rebinds_makeLocals members).retains.trans ((Builds.refl _).temp _ _).retains

end Store

theorem Catalog.IsDefault.retains {r : Catalog τ} {s s' : Store} (h : s.Retains s') {ty : Ty}
    {raw : Raw} (hd : r.IsDefault s ty raw) : r.IsDefault s' ty raw := by
  induction hd with
  | int integral => exact .int integral
  | float float => exact .float float
  | null e => exact .null e
  | @region e n reg x get elem_eq size_eq inits _ ih =>
    refine .region (h.regions reg x get) elem_eq size_eq (fun id hid => ?_) fun id hid c' hc' => ?_
    · obtain ⟨c, hc, hstate⟩ := inits id hid
      obtain ⟨c', hc', hstate', _⟩ := h.cells id c hc
      exact ⟨c', hc', hstate'.trans hstate⟩
    · obtain ⟨c, hc, _⟩ := inits id hid
      obtain ⟨c'', hc'', _, hraw⟩ := h.cells id c hc
      cases hc'.symm.trans hc''
      rw [hraw]
      exact ih id hid c hc
  | @object c t members template names held _ ih =>
    refine .object template names (fun f hf => ?_) fun f hf v raw hv hread => ?_
    · obtain ⟨v, raw, hv, htype, hread⟩ := held f hf
      exact ⟨v, raw, hv, h.typeOf htype, h.read hread⟩
    · obtain ⟨v', raw', hv', _, hread'⟩ := held f hf
      cases hv.symm.trans hv'
      cases hread.symm.trans (h.read hread')
      exact ih f hf v raw hv hread'

theorem Catalog.HoldsDefault.retains {r : Catalog τ} {s s' : Store} {ty : Ty} {v : VarId}
    (hd : r.HoldsDefault s ty v) (h : s.Retains s') : r.HoldsDefault s' ty v := by
  obtain ⟨htype, raw, hread, hdefault⟩ := hd
  exact ⟨h.typeOf htype, raw, h.read hread, hdefault.retains h⟩

/-! ## Arrays -/

namespace Store

variable {s s' : Store}

/-- a region of so many cells, each of them initialized and with a payload of some sort -/
def Filled (s : Store) (Q : Raw → Prop) (reg : RegionId) (elem : Ty) (n : Nat) : Prop :=
  ∃ x, s.regions[reg]? = some x ∧ x.elem = elem ∧ x.cells.size = n ∧
    ∀ id ∈ x.cells, ∃ c, s.cells[id]? = some c ∧ c.state = .init ∧ Q c.raw

variable {Q : Raw → Prop} {reg : RegionId} {elem : Ty} {n : Nat} {raw : Raw} {vs : List VarId}

theorem filled_addRegion (s : Store) (Q : Raw → Prop) (elem : Ty) :
    (s.addRegion elem).2.Filled Q (s.addRegion elem).1 elem 0 :=
  ⟨⟨elem, #[]⟩, Array.getElem?_push_size, rfl, rfl, fun _ hid => by simp at hid⟩

theorem Filled.append (h : s.Filled Q reg elem n) (hraw : Q raw) :
    (s.append reg raw).2.Filled Q reg elem (n + 1) := by
  obtain ⟨x, hx, helem, hsize, hcells⟩ := h
  refine ⟨{ x with cells := x.cells.push s.cells.size }, ?_, helem, ?_, fun id hid => ?_⟩
  · rw [Store.append, regions_grow, hx]
    exact congrArg some (if_pos rfl)
  · rw [Array.size_push, hsize]
  · rcases Array.mem_push.mp hid with hid | rfl
    · obtain ⟨c, hc, hrest⟩ := hcells id hid
      exact ⟨c, getElem?_addCell _ hc, hrest⟩
    · exact ⟨_, Array.getElem?_push_size, rfl, hraw⟩

theorem Filled.appendAll (h : s.Filled Q reg elem n)
    (hvs : ∀ v ∈ vs, ∃ raw, s.read v = .ok raw ∧ Q raw) :
    ∃ s', s.appendAll reg vs = .ok s' ∧ s'.Filled Q reg elem (n + vs.length) := by
  induction vs generalizing s n with
  | nil => exact ⟨s, rfl, h⟩
  | cons v vs ih =>
    obtain ⟨raw, hread, hraw⟩ := hvs v List.mem_cons_self
    have hextends : s.Extends (s.append reg raw).2 :=
      ⟨fun _ _ h => h, fun _ _ => getElem?_addCell _⟩
    obtain ⟨s', hall, hfilled⟩ := ih (h.append hraw) fun u hu => by
      obtain ⟨raw', hread', hraw'⟩ := hvs u (List.mem_cons_of_mem _ hu)
      exact ⟨raw', hextends.read hread', hraw'⟩
    refine ⟨s', ?_, ?_⟩
    · rw [Store.appendAll, hread]
      exact hall
    · rw [List.length_cons, Nat.add_comm vs.length, ← Nat.add_assoc]
      exact hfilled

theorem exists_regionFrom (elem : Ty) (hvs : ∀ v ∈ vs, ∃ raw, s.read v = .ok raw ∧ Q raw) :
    ∃ reg s', s.regionFrom elem vs = .ok (reg, s') ∧ s'.Filled Q reg elem vs.length := by
  have hextends : s.Extends (s.addRegion elem).2 := ⟨fun _ _ h => h, fun _ _ h => h⟩
  have hreads : ∀ v ∈ vs, ∃ raw, (s.addRegion elem).2.read v = .ok raw ∧ Q raw := by
    intro v hv
    obtain ⟨raw, hread, hraw⟩ := hvs v hv
    exact ⟨raw, hextends.read hread, hraw⟩
  obtain ⟨s', hall, hfilled⟩ := (s.filled_addRegion Q elem).appendAll hreads
  refine ⟨(s.addRegion elem).1, s', ?_, ?_⟩
  · show (((s.addRegion elem).2.appendAll (s.addRegion elem).1 vs).map fun s => _) = _
    rw [hall]
    rfl
  · rw [Nat.zero_add] at hfilled
    exact hfilled

end Store

namespace Catalog

variable {r : Catalog τ} {s s' : Store}

theorem holdsDefault_temp {ty : Ty} {raw : Raw} (h : r.IsDefault s ty raw) :
    r.HoldsDefault (s.temp ty raw).2 ty (s.temp ty raw).1 :=
  ⟨s.typeOf_fresh _ _, raw, s.read_fresh_self _ rfl,
    h.retains ((Store.Builds.refl s).temp ty raw).retains⟩

theorem isDefault_region {reg : RegionId} {elem : Ty} {n : Nat} (hs : s.Retains s')
    (h : s'.Filled (r.IsDefault s elem) reg elem n) :
    r.IsDefault s' (.array elem n) (.index reg 0) := by
  obtain ⟨x, hx, helem, hsize, hcells⟩ := h
  refine .region hx helem hsize (fun id hid => ?_) fun id hid c hc => ?_
  · obtain ⟨c, hc, hstate, _⟩ := hcells id hid
    exact ⟨c, hc, hstate⟩
  · obtain ⟨c', hc', _, hdefault⟩ := hcells id hid
    cases hc.symm.trans hc'
    exact hdefault.retains hs

theorem exists_defaultArray {elem : Ty} {vs : List VarId}
    (hvs : ∀ v ∈ vs, r.HoldsDefault s elem v) :
    ∃ reg s', s.regionFrom elem vs = .ok (reg, s') ∧ s.Retains s' ∧
      r.IsDefault s' (.array elem vs.length) (.index reg 0) := by
  obtain ⟨reg, s', hregion, hfilled⟩ :=
    Store.exists_regionFrom (Q := r.IsDefault s elem) elem fun v hv => (hvs v hv).2
  have hretains := (Store.builds_regionFrom hregion).retains
  exact ⟨reg, s', hregion, hretains, isDefault_region hretains hfilled⟩

end Catalog

/-! ## Class values -/

theorem perm_putMember {name : String} {v : VarId} {members : List (String × VarId)}
    (h : name ∉ members.map Prod.fst) :
    (putMember name v members).Perm ((name, v) :: members) := by
  induction members with
  | nil => exact .refl _
  | cons m ms ih =>
    obtain ⟨n, w⟩ := m
    rw [List.map_cons, List.mem_cons, not_or] at h
    rw [putMember, if_neg h.1]
    split
    · exact .refl _
    · exact ((ih h.2).cons _).trans (.swap _ _ _)

theorem perm_sortMembers {members : List (String × VarId)}
    (h : (members.map Prod.fst).Nodup) : (sortMembers members).Perm members := by
  have hfold : ∀ acc : List (String × VarId), ((acc ++ members).map Prod.fst).Nodup →
      (members.foldl (fun acc m => putMember m.1 m.2 acc) acc).Perm (acc ++ members) := by
    clear h
    induction members with
    | nil => exact fun acc _ => by rw [List.append_nil]; exact .refl _
    | cons m ms ih =>
      intro acc h
      have hput : (putMember m.1 m.2 acc).Perm (m :: acc) := by
        refine perm_putMember fun hmem => ?_
        rw [List.map_append, List.nodup_append] at h
        exact h.2.2 _ hmem m.1 List.mem_cons_self rfl
      have hperm : (putMember m.1 m.2 acc ++ ms).Perm (acc ++ m :: ms) :=
        (hput.append_right ms).trans List.perm_middle.symm
      exact (ih _ ((hperm.map _).nodup_iff.mpr h)).trans hperm
  exact hfold [] h

theorem lookup_of_mem {members : List (String × VarId)} (h : (members.map Prod.fst).Nodup)
    {name : String} {v : VarId} (hm : (name, v) ∈ members) : members.lookup name = some v := by
  induction members with
  | nil => cases hm
  | cons m ms ih =>
    obtain ⟨n, w⟩ := m
    rw [List.map_cons, List.nodup_cons] at h
    rcases List.mem_cons.mp hm with heq | hmem
    · cases heq
      exact List.lookup_cons_self
    · have hne : name ≠ n := by
        rintro rfl
        exact h.1 (List.mem_map.mpr ⟨_, hmem, rfl⟩)
      rw [List.lookup_cons, beq_false_of_ne hne]
      exact ih h.2 hmem

theorem Catalog.holdsDefault_allocObject {r : Catalog τ} {s : Store} {c : ClassTy} {t : Template}
    {vs : List VarId} (htemplate : r.template? c.domain = some t)
    (hdistinct : ((t.fields c).map Field.name).Nodup)
    (hvs : List.Forall₂ (fun f v => r.HoldsDefault s f.type v) (t.fields c) vs) :
    r.HoldsDefault (s.allocObject c (((t.fields c).map Field.name).zip vs)).2 (.cls c)
      (s.allocObject c (((t.fields c).map Field.name).zip vs)).1 := by
  obtain ⟨hlength, hheld⟩ := List.forall₂_iff_zip.mp hvs
  let members := ((t.fields c).map Field.name).zip vs
  have hnames : members.map Prod.fst = (t.fields c).map Field.name :=
    List.map_fst_zip (by rw [List.length_map, hlength])
  have hnodup : (members.map Prod.fst).Nodup := hnames ▸ hdistinct
  have hperm := perm_sortMembers hnodup
  have hretains := s.retains_allocObject c members
  have hlookup : ∀ f ∈ t.fields c, ∃ v, (sortMembers members).lookup f.name = some v ∧
      r.HoldsDefault s f.type v := by
    intro f hf
    rw [← List.map_fst_zip (Nat.le_of_eq hlength)] at hf
    obtain ⟨⟨f, v⟩, hpair, rfl⟩ := List.mem_map.mp hf
    have hmem : (f.name, v) ∈ members := by
      show (f.name, v) ∈ ((t.fields c).map Field.name).zip vs
      rw [List.zip_map_left]
      exact List.mem_map_of_mem (f := Prod.map Field.name id) hpair
    exact ⟨v, lookup_of_mem ((hperm.map _).nodup_iff.mpr hnodup) (hperm.mem_iff.mpr hmem),
      hheld hpair⟩
  have hdefault : r.IsDefault s (.cls c) (.object (sortMembers members)) := by
    refine .object htemplate (hnames ▸ hperm.map _) (fun f hf => ?_) fun f hf v raw hv hread => ?_
    · obtain ⟨v, hv, htype, raw, hread, _⟩ := hlookup f hf
      exact ⟨v, raw, hv, htype, hread⟩
    · obtain ⟨v', hv', _, raw', hread', hdefault⟩ := hlookup f hf
      cases hv.symm.trans hv'
      cases hread.symm.trans hread'
      exact hdefault
  exact ⟨(s.adds_allocObject c members).typeOf, _, Store.read_fresh_self _ _ rfl,
    hdefault.retains (s.retains_allocObject c members)⟩

/-! ## Runs that settle -/

/-- the trays that were there and the host are as they were, and the store retains what it had -/
structure Engine.Preserves (w v : Engine τ) : Prop where
  size_le : w.trays.size ≤ v.trays.size
  tray_eq : ∀ i, i < w.trays.size → v.trays[i]? = w.trays[i]?
  host_eq : v.state.host = w.state.host
  store : w.state.store.Retains v.state.store

namespace Engine.Preserves

variable {u v w : Engine τ}

theorem refl (w : Engine τ) : w.Preserves w := ⟨Nat.le_refl _, fun _ _ => rfl, rfl, .refl _⟩

theorem trans (h : u.Preserves v) (h' : v.Preserves w) : u.Preserves w :=
  ⟨Nat.le_trans h.size_le h'.size_le,
    fun i hi => (h'.tray_eq i (Nat.lt_of_lt_of_le hi h.size_le)).trans (h.tray_eq i hi),
    h'.host_eq.trans h.host_eq, h.store.trans h'.store⟩

theorem note (h : u.Preserves w) (records : List Record) : u.Preserves (w.note records) :=
  ⟨h.size_le, h.tray_eq, h.host_eq, h.store⟩

theorem addTray (h : u.Preserves w) : u.Preserves w.addTray.2 := by
  refine ⟨?_, fun i hi => ?_, h.host_eq, h.store⟩
  · rw [World.size_addTray]
    exact Nat.le_succ_of_le h.size_le
  · rw [World.getElem?_addTray (Nat.lt_of_lt_of_le hi h.size_le)]
    exact h.tray_eq i hi

theorem put (h : u.Preserves w) {tray : Nat} (htray : u.trays.size ≤ tray) (b : Value) :
    u.Preserves (w.put tray b) := by
  refine ⟨?_, fun i hi => ?_, h.host_eq, h.store⟩
  · rw [World.size_put]
    exact h.size_le
  · rw [World.getElem?_put_ne (Nat.ne_of_lt (Nat.lt_of_lt_of_le hi htray))]
    exact h.tray_eq i hi

theorem onStore (w : Engine τ) {s : Store} (hs : w.state.store.Retains s) :
    w.Preserves { w with state := { w.state with store := s } } :=
  ⟨Nat.le_refl _, fun _ _ => rfl, rfl, hs⟩

end Engine.Preserves

/-- from some depth on a computation comes to its end without stopping on the way, in one and the
same world whatever the depth; it preserves what there was and its value is good -/
def Settles {α : Type} (c : Nat → Comp (Engine τ) α) (N : Nat) (P : Store → α → Prop) : Prop :=
  ∀ w, ∃ w' a, (∀ n, N ≤ n → c n w = .done w' a) ∧ w.Preserves w' ∧ P w'.state.store a

section Settles

variable {α β ι : Type} {c : Nat → Comp (Engine τ) α} {M N : Nat} {P : Store → α → Prop}
  {Q : Store → β → Prop}

theorem Settles.mono (h : Settles c M P) (hMN : M ≤ N) : Settles c N P := by
  intro w
  obtain ⟨w', a, hrun, hrest⟩ := h w
  exact ⟨w', a, fun n hn => hrun n (Nat.le_trans hMN hn), hrest⟩

/-- what goes on after a computation that settles, at no depth of its own -/
theorem Settles.andThen (h : Settles c N P) {f : α → Comp (Engine τ) β}
    (hf : ∀ a w, P w.state.store a →
      ∃ w' b, f a w = .done w' b ∧ w.Preserves w' ∧ Q w'.state.store b) :
    Settles (fun n => (c n).andThen f) N Q := by
  intro w
  obtain ⟨v, a, hrun, hv, ha⟩ := h w
  obtain ⟨w', b, hdone, hw', hb⟩ := hf a v ha
  refine ⟨w', b, fun n hn => ?_, hv.trans hw', hb⟩
  show (c n w).andThen f = _
  rw [hrun n hn, Step.andThen_done, hdone]

/-- bounds for each of some items have a common one -/
theorem exists_common_bound {p : ι → Nat → Prop} (hp : ∀ x m n, m ≤ n → p x m → p x n)
    {xs : List ι} (h : ∀ x ∈ xs, ∃ n, p x n) : ∃ n, ∀ x ∈ xs, p x n := by
  induction xs with
  | nil => exact ⟨0, List.forall_mem_nil _⟩
  | cons x xs ih =>
    obtain ⟨m, hm⟩ := h x List.mem_cons_self
    obtain ⟨n, hn⟩ := ih fun y hy => h y (List.mem_cons_of_mem _ hy)
    refine ⟨max m n, List.forall_mem_cons.mpr ⟨hp x m _ (Nat.le_max_left _ _) hm, fun y hy => ?_⟩⟩
    exact hp y n _ (Nat.le_max_right _ _) (hn y hy)

variable {f : Nat → Nat → ι → Comp (Engine τ) Value} {P : ι → Store → Value → Prop}
  (hP : ∀ x s s' b, s.Retains s' → P x s b → P x s' b)
include hP

/-- the tray is the run's own: every item leaves it as it was, and adds one value -/
theorem settles_eachFrom {u w : Engine τ} {tray : Nat} (hu : u.trays.size ≤ tray) (i : Nat)
    (xs front : List ι) (bs : List Value) (hf : ∀ x ∈ xs, ∀ i, Settles (fun n => f n i x) N (P x))
    (hw : u.Preserves w) (htray : tray < w.trays.size) (hbs : w.contents tray = bs)
    (hfront : List.Forall₂ (fun x b => P x w.state.store b) front bs) :
    ∃ w' bs', (∀ n, N ≤ n → Comp.eachFrom (f n) tray i xs w = .done w' bs') ∧ u.Preserves w' ∧
      List.Forall₂ (fun x b => P x w'.state.store b) (front ++ xs) bs' := by
  induction xs generalizing i front bs w with
  | nil =>
    refine ⟨w, bs, fun n _ => ?_, hw, ?_⟩
    · rw [Comp.eachFrom, hbs]
    · rw [List.append_nil]
      exact hfront
  | cons x xs ih =>
    obtain ⟨v, b, hrun, hv, hb⟩ := hf x List.mem_cons_self i w
    have hlt : tray < v.trays.size := Nat.lt_of_lt_of_le htray hv.size_le
    have hcontents : (v.put tray b).contents tray = bs ++ [b] := by
      rw [World.contents_put hlt, World.contents_congr (hv.tray_eq tray htray), hbs]
    have hfront' : List.Forall₂ (fun y c => P y v.state.store c) (front ++ [x]) (bs ++ [b]) :=
      List.rel_append (hfront.imp fun y c hc => hP y _ _ c hv.store hc) (.cons hb .nil)
    obtain ⟨w', bs', hrest, hw', hall⟩ := ih (i + 1) (front ++ [x]) (bs ++ [b])
      (fun y hy => hf y (List.mem_cons_of_mem _ hy)) ((hw.trans hv).put hu b)
      (by rw [World.size_put]; exact hlt) hcontents hfront'
    refine ⟨w', bs', fun n hn => ?_, hw', ?_⟩
    · have hitem : f n i x w = .done v b := hrun n hn
      rw [Comp.eachFrom_cons, hitem]
      exact hrest n hn
    · rw [List.append_assoc] at hall
      exact hall

/-- **Collecting settles** if each item does: with one value for each, good still at the end. -/
theorem settles_each (xs : List ι) (hf : ∀ x ∈ xs, ∀ i, Settles (fun n => f n i x) N (P x)) :
    Settles (fun n => Comp.each xs (f n)) N
      fun s bs => List.Forall₂ (fun x b => P x s b) xs bs := fun w =>
  settles_eachFrom hP (Nat.le_refl _) 0 xs [] [] hf (Engine.Preserves.refl w).addTray
    (Nat.lt_of_lt_of_eq (Nat.lt_succ_self _) (World.size_addTray w).symm)
    (World.contents_addTray w) .nil

end Settles

/-! ## Making defaults -/

namespace Catalog

variable {r : Catalog τ}

/-- a value is there and is the default of a type -/
def Gives (r : Catalog τ) (ty : Ty) (s : Store) (val : Value) : Prop :=
  ∃ v, val = some v ∧ r.HoldsDefault s ty v

theorem Gives.retains {ty : Ty} {s s' : Store} {val : Value} (h : r.Gives ty s val)
    (hs : s.Retains s') : r.Gives ty s' val := by
  obtain ⟨v, hv, hdefault⟩ := h
  exact ⟨v, hv, hdefault.retains hs⟩

theorem exists_present {ι : Type} (ty : ι → Ty) {s : Store} {xs : List ι} {vals : List Value}
    (h : List.Forall₂ (fun x val => r.Gives (ty x) s val) xs vals) :
    ∃ vs : List VarId, vals = vs.map some ∧
      List.Forall₂ (fun x v => r.HoldsDefault s (ty x) v) xs vs := by
  induction h with
  | nil => exact ⟨[], rfl, .nil⟩
  | cons hx _ ih =>
    obtain ⟨v, rfl, hv⟩ := hx
    obtain ⟨vs, rfl, hvs⟩ := ih
    exact ⟨v :: vs, rfl, .cons hv hvs⟩

theorem present_map_some (vs : List VarId) : present (vs.map some) = some vs := by
  unfold present
  rw [List.mapM_map]
  exact (List.mapM_pure (m := Option) (f := id)).trans (congrArg some (List.map_id vs))

theorem mapM_zip_some (names : List String) (vs : List VarId) :
    ((names.zip (vs.map some)).mapM fun p => p.2.map fun v => (p.1, v)) = some (names.zip vs) := by
  rw [List.zip_map_right, List.mapM_map]
  exact (List.mapM_pure (m := Option) (f := id)).trans (congrArg some (List.map_id _))

theorem tryStore_of_ok {α : Type} {f : Store → Except Fault (α × Store)} {w : Engine τ} {a : α}
    {s : Store} (h : f w.state.store = .ok (a, s)) :
    Comp.tryStore f w = .done { w with state := { w.state with store := s } } a := by
  unfold Comp.tryStore
  rw [h]

theorem settles_temp {c : Nat → Comp (Engine τ) Value} {ty : Ty} (raw : Raw)
    (hraw : ∀ s, r.IsDefault s ty raw)
    (hc : ∀ n, c n = Comp.onStore fun s => (some (s.temp ty raw).1, (s.temp ty raw).2)) :
    Settles c 0 (r.Gives ty) := by
  intro w
  refine ⟨_, _, fun n _ => by rw [hc]; rfl, .onStore w ?_, _, rfl, holdsDefault_temp (hraw _)⟩
  exact ((Store.Builds.refl _).temp ty raw).retains

theorem settles_array {elem : Ty} {n N : Nat}
    (h : Settles (fun depth => r.defaultIn (r.services depth) elem) N (r.Gives elem)) :
    Settles (fun depth => r.defaultIn (r.services depth) (.array elem n)) N
      (r.Gives (.array elem n)) := by
  have hcells := settles_each (ι := Unit) (P := fun _ => r.Gives elem)
    (fun _ _ _ _ hs hb => hb.retains hs) (List.replicate n ()) fun _ _ _ => h
  refine hcells.andThen fun vals w hvals => ?_
  obtain ⟨vs, rfl, hvs⟩ := exists_present (fun _ => elem) hvals
  obtain ⟨hlength, hheld⟩ := List.forall₂_iff_zip.mp hvs
  have hdefaults : ∀ v ∈ vs, r.HoldsDefault w.state.store elem v := by
    intro v hv
    rw [← List.map_snd_zip (Nat.le_of_eq hlength.symm)] at hv
    obtain ⟨p, hp, rfl⟩ := List.mem_map.mp hv
    exact hheld hp
  obtain ⟨reg, s, hregion, hs, hdefault⟩ := exists_defaultArray hdefaults
  rw [List.length_replicate] at hlength
  rw [← hlength] at hdefault
  refine ⟨_, _, ?_, .onStore w (hs.trans ((Store.Builds.refl s).temp _ _).retains), _, rfl,
    holdsDefault_temp hdefault⟩
  rw [present_map_some]
  refine tryStore_of_ok ?_
  rw [hregion]
  rfl

theorem settles_object {c : ClassTy} {t : Template} {N : Nat}
    {run : Nat → Comp (Engine τ) (List Value)} (htemplate : r.template? c.domain = some t)
    (hdistinct : ((t.fields c).map Field.name).Nodup)
    (h : Settles run N fun s vals =>
      List.Forall₂ (fun (f : Field) val => r.Gives f.type s val) (t.fields c) vals) :
    Settles (fun depth => (run depth).andThen (objectOf c ((t.fields c).map Field.name))) N
      (r.Gives (.cls c)) := by
  refine h.andThen fun vals w hvals => ?_
  obtain ⟨vs, rfl, hvs⟩ := exists_present Field.type hvals
  refine ⟨_, _, ?_, .onStore w (w.state.store.retains_allocObject _ _), _, rfl,
    holdsDefault_allocObject htemplate hdistinct hvs⟩
  unfold objectOf
  rw [mapM_zip_some]

theorem settles_services {ty : Ty} {N : Nat}
    (h : Settles (fun depth => r.defaultIn (r.services depth) ty) N (r.Gives ty)) :
    Settles (fun depth => (r.services depth).default ty) (N + 1) (r.Gives ty) := by
  intro w
  obtain ⟨w', val, hrun, hrest⟩ := h w
  refine ⟨w', val, fun depth hdepth => ?_, hrest⟩
  obtain ⟨n, rfl⟩ := Nat.exists_eq_add_of_le' hdepth
  exact hrun (n + N) (Nat.le_add_left N n)

theorem settles_class {c : ClassTy} {t : Template} {o : Overload τ} {i N : Nat}
    (hbuilds : r.Builds t o i) (hdomain : t.domain = c.domain) (hc : c.WellFormed)
    (htemplate : r.template? c.domain = some t) (harity : c.args.length = t.arity)
    (hdistinct : ((t.fields c).map Field.name).Nodup)
    (h : ∀ f ∈ t.fields c, Settles (fun depth => r.defaultIn (r.services depth) f.type) N
      (r.Gives f.type)) :
    Settles (fun depth => r.defaultIn (r.services depth) (.cls c)) (N + 1) (r.Gives (.cls c)) := by
  have hobject := settles_object htemplate hdistinct <|
    settles_each (P := fun (f : Field) => r.Gives f.type) (fun _ _ _ _ hs hb => hb.retains hs)
      (f := fun depth _ f => (r.services depth).default f.type) (t.fields c)
      fun f hf _ => settles_services (h f hf)
  obtain ⟨call, records, hreturns, hconstruct⟩ := constructDefault_eq hbuilds hc hdomain harity
  intro w
  obtain ⟨w', val, hrun, hw', hval⟩ := hobject (w.note records).addTray.2
  have hstart : w.Preserves (w.note records).addTray.2 := ((Engine.Preserves.refl w).note _).addTray
  refine ⟨w', val, fun depth hdepth => ?_, hstart.trans hw', hval⟩
  show r.defaultIn (r.services depth) (.cls c) w = _
  rw [defaultIn, htemplate]
  dsimp only
  rw [if_neg (not_not_intro harity), hconstruct, memberwiseDefault, hreturns]
  exact hrun depth hdepth

/-- **Every defaultable type is given its zero value**: by induction on what it is made of -/
theorem exists_settles
    (hbuilds : ∀ domain t, r.template? domain = some t → t.domain = domain ∧ ∃ o i, r.Builds t o i)
    {ty : Ty} (h : r.Defaultable ty) :
    ∃ N, Settles (fun depth => r.defaultIn (r.services depth) ty) N (r.Gives ty) := by
  induction h with
  | arith k =>
    refine ⟨0, settles_temp (if k.isFloat then .float 0.0 else .int 0) (fun s => ?_)
      fun _ => rfl⟩
    cases hk : k.isFloat with
    | false => exact .int hk
    | true => exact .float hk
  | pointer e => exact ⟨0, settles_temp (.direct none) (fun s => .null e) fun _ => rfl⟩
  | array n _ ih =>
    obtain ⟨N, hN⟩ := ih
    exact ⟨N, settles_array hN⟩
  | @cls c t wellFormed template arity distinct _ ih =>
    obtain ⟨hdomain, o, i, hbuild⟩ := hbuilds _ t template
    obtain ⟨N, hN⟩ := exists_common_bound (fun _ _ _ hmn h => h.mono hmn) ih
    exact ⟨N + 1, settles_class hbuild hdomain wellFormed template arity distinct hN⟩

end Catalog

/-- **Defaults are zero values.** However a catalog came about, if only templates have declared
default constructors: a type that has a default is given it without a stop, whatever else is in the
store, from some depth of calls on; and a class of a template with another number of arguments is
refused. -/
theorem default_values_built {config : Config} {r₀ : Catalog τ} {records : List Record}
    (h : Catalog.new config = .ok (r₀, records)) {es : List (Edit τ)}
    (hes : ∀ e ∈ es, ¬ e.Declares defaultConstructorName) :
    (∀ ty, (r₀.after es).Defaultable ty → ∃ N, ∀ w, ∃ w' v,
      (∀ depth, N ≤ depth →
        (r₀.after es).defaultIn ((r₀.after es).services depth) ty w = .done w' (some v)) ∧
      w.Preserves w' ∧ (r₀.after es).HoldsDefault w'.state.store ty v) ∧
    ∀ (c : ClassTy) (t : Template), (r₀.after es).template? c.domain = some t →
      c.args.length ≠ t.arity → ∀ services w, ∃ e,
        (r₀.after es).defaultIn services (.cls c) w = .fail w e ∧ e.code = some .templateArity := by
  have hconsistent := (Catalog.sound_after (Catalog.consistent_new h) es).1
  have hcompiled := (Catalog.reachable_after (.new h) es).compiled
  have htemplated := Catalog.templated_after (Catalog.templated_new h) hes
  refine ⟨fun ty hty => ?_, fun c t htemplate harity services w => ?_⟩
  · obtain ⟨N, hsettles⟩ := Catalog.exists_settles
      (fun domain t => Catalog.exists_builds hconsistent hcompiled htemplated) hty
    refine ⟨N, fun w => ?_⟩
    obtain ⟨w', _, hrun, hw', v, rfl, hv⟩ := hsettles w
    exact ⟨w', v, hrun, hw', hv⟩
  · refine ⟨.templateArity t.name t.arity c.args.length, ?_, rfl⟩
    rw [Catalog.defaultIn, htemplate]
    dsimp only
    rw [if_pos harity]
    rfl

def intList : ClassTy := ⟨initializerListName, [.arith .i32], none⟩

/-- an array of lists, each of them empty, in a catalog that has got a list shape as well; lists of
nothing have no default -/
theorem default_values_built_lists : ∃ r : Catalog Unit, r.Defaultable (.array (.cls intList) 3) ∧
    (∃ N, ∀ w, ∃ w' v, (∀ depth, N ≤ depth →
        r.defaultIn (r.services depth) (.array (.cls intList) 3) w = .done w' (some v)) ∧
      w.Preserves w' ∧ r.HoldsDefault w'.state.store (.array (.cls intList) 3) v) ∧
    ∀ services w, ∃ e, r.defaultIn services (.cls ⟨initializerListName, [], none⟩) w = .fail w e ∧
      e.code = some .templateArity := by
  obtain ⟨r₀, _, h⟩ := Catalog.exists_new Unit
  let es : List (Edit Unit) := [.shape "C" ⟨initializerListLayout, -1⟩]
  have hes : ∀ e ∈ es, ¬ e.Declares defaultConstructorName := fun e he => by
    rw [List.mem_singleton.mp he]
    exact not_false
  have hwell : intList.WellFormed :=
    ⟨classify_name (by decide) (by decide) (by decide) (by decide) (by decide),
      ⟨trivial, trivial⟩, trivial⟩
  have htemplate := Catalog.template?_new h
  have hclass : (r₀.after es).Defaultable (.cls intList) := by
    refine .cls hwell htemplate rfl (by decide) fun f hf => ?_
    rcases List.mem_cons.mp hf with rfl | hf
    · exact .pointer _
    · rw [List.mem_singleton.mp hf]
      exact .arith _
  obtain ⟨hbuilt, hrefused⟩ := default_values_built h hes
  exact ⟨r₀.after es, .array 3 hclass, hbuilt _ (.array 3 hclass),
    hrefused ⟨initializerListName, [], none⟩ _ htemplate (by decide)⟩

end Overloading
