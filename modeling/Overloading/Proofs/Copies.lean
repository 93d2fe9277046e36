import Overloading.Proofs.OwnedStorage

/-!
# Copies own what is theirs

A copy of a variable goes through what the variable owns, and makes every holding anew.  So what
the copy owns is the same tree as before, at spots where nothing was; and as nothing else is
touched, what is stored at the spots of one of the two does not show in the other.

* `Store.Copied`      some holdings that have been made since, each at a spot of its own;
* `Store.CopiesVariables`, `Store.CopiesCells`   the two ways in which holdings are copied: as
                      variables, and as cells of a region;
* `Owns.copied`       both give the trees there were, if they may go as deep as these are high;
* `Store.Confined`    operations that add, and that store at some spots only;
* `clone_isolated`    a clone and its original.
-/

namespace Overloading

namespace Store

variable {s u u₁ u₂ u₃ : Store} {v : VarId} {vs : List VarId} {t : Ty} {raw : Raw} {o : Outline}
  {xs ys : List Variable} {rs : List RegionId} {F inner rest : Forest} {fp gp : List Spot}
  {E : Estate}

/-! ## What stays -/

theorem Enlarges.has (h : s.Enlarges u) {p : Spot} (hp : s.Has p) : u.Has p := by
  cases p with
  | cell id =>
    have hkept := h.cells id _ (Array.getElem?_eq_getElem hp)
    exact (Array.getElem?_eq_some_iff.mp hkept).1
  | region r => exact Nat.lt_of_lt_of_le hp h.regions_size

theorem Enlarges.agreesOn (h : s.Enlarges u) (fp : List Spot) : AgreesOn fp s u :=
  ⟨h.vars, fun id c _ => h.cells id c, fun r x _ => h.regions r x⟩

theorem AgreesOn.trans (h : AgreesOn fp s u) (h' : AgreesOn fp u u₁) : AgreesOn fp s u₁ :=
  ⟨fun v x hx => h'.vars v x (h.vars v x hx),
    fun id c hid hc => h'.cells id c hid (h.cells id c hid hc),
    fun r x hr hx => h'.regions r x hr (h.regions r x hr hx)⟩

theorem regions_grow_self {r : RegionId} {y : Region} (hy : s.regions[r]? = some y)
    (state : CellState) (raw : Raw) : (s.grow r state raw).2.regions[r]? =
      some { y with cells := y.cells.push s.cells.size } := by
  rw [regions_grow, hy]
  exact congrArg some (if_pos rfl)

theorem has_grow {r : RegionId} {state : CellState} {p : Spot} (hp : s.Has p) :
    (s.grow r state raw).2.Has p := by
  cases p with
  | cell id =>
    show id < (s.cells.push _).size
    rw [Array.size_push]
    exact Nat.lt_succ_of_lt hp
  | region q =>
    show q < (s.regions.modify r _).size
    rw [Array.size_modify]
    exact hp

theorem agreesOn_grow {r : RegionId} (hr : .region r ∉ fp) (state : CellState) (raw : Raw) :
    AgreesOn fp s (s.grow r state raw).2 := by
  refine ⟨fun _ _ h => h, fun id c _ => getElem?_addCell _, fun q x hq hx => ?_⟩
  have hne : r ≠ q := by
    rintro rfl
    exact hr hq
  rw [regions_grow, hx]
  exact congrArg some (if_neg hne)

theorem agreesOn_cloneCell {n : Nat} {elem : Ty} {r : RegionId} (hr : .region r ∉ fp)
    (id : CellId) : AgreesOn fp s (cloneCell (clonePayload n) elem r id s).2 := by
  unfold cloneCell
  split
  · exact agreesOn_grow hr _ _
  · next c _ =>
    have hcopy := builds_copyIf (builds_clonePayload n) (p := c.state = .init) elem c.raw
      (.refl s)
    exact (hcopy.agreesOn fp).trans (agreesOn_grow hr _ _)

theorem agreesOn_cloneCells {n : Nat} {elem : Ty} {r : RegionId} (hr : .region r ∉ fp)
    (ids : List CellId) : AgreesOn fp s (mapStore (cloneCell (clonePayload n) elem r) ids s).2 :=
  mapStore_invariant (P := AgreesOn fp s) (fun id _ _ h => h.trans (agreesOn_cloneCell hr id))
    ((Enlarges.refl s).agreesOn fp)

/-! ## Holdings that are new -/

/-- some holdings have been made between two stores, each at a spot of its own -/
structure Copied (u u' : Store) (xs : List Variable) (F : Forest) (fp : List Spot) : Prop where
  owns : u'.Owns xs F fp
  new : ∀ p ∈ fp, ¬ u.Has p
  apart : fp.Nodup

/-- what a payload owns has been made between two stores, each holding at a spot of its own -/
structure Repacked (u u' : Store) (t : Ty) (raw : Raw) (o : Outline) (F : Forest)
    (ys : List Variable) (rs : List RegionId) (fp : List Spot) : Prop where
  unpacks : u'.Unpacks t raw o ys rs
  owns : u'.Owns ys F fp
  new : ∀ p ∈ rs.map .region ++ fp, ¬ u.Has p
  apart : (rs.map Spot.region ++ fp).Nodup

theorem Copied.nil (u : Store) : Copied u u [] .nil [] :=
  ⟨.nil, List.forall_mem_nil _, List.nodup_nil⟩

theorem Repacked.has (h : Repacked u u₁ t raw o F ys rs fp) :
    ∀ p ∈ rs.map .region ++ fp, u₁.Has p :=
  List.forall_mem_append.mpr ⟨List.forall_mem_map.mpr h.unpacks.has, h.owns.has⟩

theorem nodup_append_of_has {l l' : List Spot} (hl : l.Nodup) (hl' : l'.Nodup)
    (h : ∀ p ∈ l, u.Has p) (h' : ∀ p ∈ l', ¬ u.Has p) : (l ++ l').Nodup :=
  List.nodup_append.mpr ⟨hl, hl', fun p hp q hq heq => h' q hq (heq ▸ h p hp)⟩

/-- a payload that was repacked, put into the next cell, and then the copies of further holdings -/
theorem Repacked.cons {k : Bool} {c : Cell} (h : Repacked u u₁ t raw o inner ys rs fp)
    (hgrows : ∀ p, u.Has p → u₁.Has p) (hgrows₁ : ∀ p, u₁.Has p → u₂.Has p)
    (hagrees₁ : AgreesOn (rs.map .region ++ fp) u₁ u₂)
    (hc : u₂.cells[u₁.cells.size]? = some c) (hpayload : c.payload = raw)
    (hrest : Copied u₂ u₃ xs rest gp)
    (hagrees₂ : AgreesOn (.cell u₁.cells.size :: (rs.map .region ++ fp)) u₂ u₃) :
    Copied u u₃ (⟨t, k, u₁.cells.size⟩ :: xs) (.tree ⟨t, k, c.state, o⟩ inner rest)
      (.cell u₁.cells.size :: (rs.map .region ++ fp ++ gp)) := by
  have hhere : u₂.Has (.cell u₁.cells.size) := (Array.getElem?_eq_some_iff.mp hc).1
  have hagrees₃ : AgreesOn (rs.map .region ++ fp) u₁ u₃ :=
    hagrees₁.trans (hagrees₂.mono fun p => List.mem_cons_of_mem _)
  have hunpacks : u₃.Unpacks t raw o ys rs :=
    h.unpacks.transport (hagrees₃.mono fun p => List.mem_append_left _)
  have howns : u₃.Owns ys inner fp :=
    h.owns.transport (hagrees₃.mono fun p => List.mem_append_right _)
  rw [← hpayload] at hunpacks
  refine ⟨?_, ?_, ?_⟩
  · exact Owns.cons (x := ⟨t, k, u₁.cells.size⟩) (hagrees₂.cells _ _ List.mem_cons_self hc) hunpacks
      howns hrest.owns
  · refine List.forall_mem_cons.mpr ⟨fun hin => ?_, List.forall_mem_append.mpr ⟨h.new, ?_⟩⟩
    · exact Nat.lt_irrefl _ (hgrows _ hin)
    · exact fun p hp hin => hrest.new p hp (hgrows₁ p (hgrows p hin))
  · rw [← List.cons_append]
    refine nodup_append_of_has (List.nodup_cons.mpr ⟨fun hin => ?_, h.apart⟩) hrest.apart
      (List.forall_mem_cons.mpr ⟨hhere, fun p hp => hgrows₁ p (h.has p hp)⟩) hrest.new
    exact Nat.lt_irrefl _ (h.has _ hin)

/-! ## Copying payloads -/

/-- variables with some holdings are copied to variables with the same trees -/
def CopiesVariables (s : Store) (xs : List Variable) (F : Forest) : Prop :=
  ∀ n u vs, F.height ≤ n → s.Enlarges u → s.Lists vs xs →
    ∃ ws u' ys fp, mapStore (cloneVariable (clonePayload n)) vs u = (ws, u') ∧ u'.Lists ws ys ∧
      Copied u u' ys F fp

/-- cells with some holdings are copied into a region, to cells with the same trees -/
def CopiesCells (s : Store) (xs : List Variable) (F : Forest) : Prop :=
  ∀ n u elem ids r y, F.height ≤ n → s.Enlarges u →
    xs = ids.map (fun id => ⟨elem, false, id⟩) → s.regions.size ≤ r → u.regions[r]? = some y →
    ∃ ns u' y' new fp, mapStore (cloneCell (clonePayload n) elem r) ids u = (ns, u') ∧
      u'.regions[r]? = some y' ∧ y'.cells.toList = y.cells.toList ++ new ∧
      Copied u u' (new.map fun id => ⟨elem, false, id⟩) F fp

theorem mapStore_map {α β γ : Type} (f : β → Store → γ × Store) (g : α → β) (as : List α)
    (s : Store) : mapStore (fun a s => f (g a) s) as s = mapStore f (as.map g) s := by
  induction as generalizing s with
  | nil => rfl
  | cons a as ih => simp only [mapStore, List.map_cons, ih]

theorem mapStore_cons {α β : Type} {f : α → Store → β × Store} {a : α} {as : List α} {b : β}
    {bs : List β} (h : f a u = (b, u₁)) (h' : mapStore f as u₁ = (bs, u₂)) :
    mapStore f (a :: as) u = (b :: bs, u₂) := by
  rw [mapStore, h]
  simp only [h']

theorem length_mapStore {α β : Type} (f : α → Store → β × Store) (as : List α) (s : Store) :
    (mapStore f as s).1.length = as.length := by
  induction as generalizing s with
  | nil => rfl
  | cons a as ih => exact congrArg Nat.succ (ih _)

/-! ## What is copied of a payload -/

theorem clonePayload_object (n : Nat) (t : Ty) (members : List (String × VarId)) (u : Store) :
    clonePayload (n + 1) t (.object members) u =
      (.object ((members.map fun m => m.1).zip
          (mapStore (cloneVariable (clonePayload n)) (members.map Prod.snd) u).1),
        (mapStore (cloneVariable (clonePayload n)) (members.map Prod.snd) u).2) := by
  rw [clonePayload.eq_def, ← mapStore_map (cloneVariable (clonePayload n)) Prod.snd]

theorem clonePayload_elems (n : Nat) (t : Ty) (items : List VarId) (u : Store) :
    clonePayload (n + 1) t (.elems items) u =
      (.elems (mapStore (cloneVariable (clonePayload n)) items u).1,
        (mapStore (cloneVariable (clonePayload n)) items u).2) := by
  rw [clonePayload.eq_def]

theorem clonePayload_array {r : RegionId} {x : Region} (h : u.regions[r]? = some x) (n : Nat)
    (elem : Ty) (m : Nat) (i : Int) : clonePayload (n + 1) (.array elem m) (.index r i) u =
      (.index u.regions.size i, (mapStore (cloneCell (clonePayload n) elem u.regions.size)
        x.cells.toList (u.addRegion elem).2).2) := by
  rw [clonePayload.eq_def]
  simp only [h]
  rfl

theorem clonePayload_plain {n : Nat} (h : raw.isPlain t = true) :
    clonePayload (n + 1) t raw u = (raw, u) := by
  cases raw with
  | object | elems => cases h
  | index r i =>
    cases t with
    | array elem m => cases h
    | _ => rfl
  | _ => rfl

theorem Owns.eq_nil (h : s.Owns [] F fp) : F = .nil ∧ fp = [] := by
  cases h
  exact ⟨rfl, rfl⟩

theorem Copied.repacked (h : Copied u u₁ ys F fp) (hunpacks : u₁.Unpacks t raw o ys []) :
    Repacked u u₁ t raw o F ys [] fp := ⟨hunpacks, h.owns, h.new, h.apart⟩

theorem unpacks_zip {names : List String} (h : u.Lists vs ys) (hlength : vs.length = names.length)
    (t : Ty) : u.Unpacks t (.object (names.zip vs)) (.object names) ys [] := by
  have hvalues : (names.zip vs).map (fun m => m.2) = vs := List.map_snd_zip (Nat.le_of_eq hlength)
  have hnames : (names.zip vs).map (fun m => m.1) = names :=
    List.map_fst_zip (Nat.le_of_eq hlength.symm)
  have hunpacks : u.Unpacks t (.object (names.zip vs))
      (.object ((names.zip vs).map fun m => m.1)) ys [] := .object (hvalues.symm ▸ h)
  rwa [hnames] at hunpacks

theorem repacked_array {n m : Nat} {elem : Ty} {r : RegionId} {i : Int} {x : Region}
    (hcells : s.CopiesCells (x.cells.toList.map fun id => ⟨elem, false, id⟩) inner)
    (hheight : inner.height ≤ n) (hu : s.Enlarges u) (hx : s.regions[r]? = some x) :
    ∃ ys rs fp, Repacked u (clonePayload (n + 1) (.array elem m) (.index r i) u).2 (.array elem m)
      (clonePayload (n + 1) (.array elem m) (.index r i) u).1 (.array i) inner ys rs fp := by
  have hadded := (Builds.refl u).addRegion elem
  have hregion : (u.addRegion elem).2.regions[u.regions.size]? = some ⟨elem, #[]⟩ :=
    Array.getElem?_push_size
  obtain ⟨ns, u', y, new, fp, hmap, hy, hcontents, hcopied⟩ := hcells n (u.addRegion elem).2 elem
    x.cells.toList u.regions.size ⟨elem, #[]⟩ hheight (hu.trans hadded.toEnlarges) rfl
    hu.regions_size hregion
  have hgrows : ∀ p, u.Has p → (u.addRegion elem).2.Has p := fun p => hadded.has
  have hunpacks : u'.Unpacks (.array elem m) (.index u.regions.size i) (.array i) _ _ := .array hy
  rw [hcontents] at hunpacks
  rw [clonePayload_array (hu.regions r x hx), hmap]
  refine ⟨_, _, fp, hunpacks, hcopied.owns, ?_, ?_⟩
  · refine List.forall_mem_cons.mpr ⟨Nat.lt_irrefl _, fun p hp hin => ?_⟩
    exact hcopied.new p hp (hgrows p hin)
  · refine List.nodup_cons.mpr ⟨fun hin => hcopied.new _ hin ?_, hcopied.apart⟩
    exact (Array.getElem?_eq_some_iff.mp hregion).1

/-- **A payload** is repacked if what it owns is copied -/
theorem repacked_clonePayload {n : Nat} (hunpacks : s.Unpacks t raw o ys rs)
    (howns : s.Owns ys inner fp) (hvariables : s.CopiesVariables ys inner)
    (hcells : s.CopiesCells ys inner) (hheight : inner.height ≤ n) (hu : s.Enlarges u) :
    ∃ ys' rs' fp', Repacked u (clonePayload (n + 1) t raw u).2 t (clonePayload (n + 1) t raw u).1 o
      inner ys' rs' fp' := by
  cases hunpacks with
  | @object t members ys h =>
    obtain ⟨ws, u', ys', fp', hmap, hlists, hcopied⟩ := hvariables n u _ hheight hu h
    have hlength : ws.length = (members.map fun m => m.1).length := by
      have hmapped := length_mapStore (cloneVariable (clonePayload n)) (members.map Prod.snd) u
      rwa [hmap, List.length_map, ← List.length_map Prod.fst] at hmapped
    rw [clonePayload_object, hmap]
    exact ⟨ys', [], fp', hcopied.repacked (unpacks_zip hlists hlength t)⟩
  | @elems t items ys h =>
    obtain ⟨ws, u', ys', fp', hmap, hlists, hcopied⟩ := hvariables n u _ hheight hu h
    rw [clonePayload_elems, hmap]
    exact ⟨ys', [], fp', hcopied.repacked (.elems hlists)⟩
  | array hx => exact repacked_array hcells hheight hu hx
  | plain h =>
    obtain ⟨rfl, rfl⟩ := howns.eq_nil
    rw [clonePayload_plain h]
    exact ⟨[], [], [], (Copied.nil u).repacked (.plain h)⟩

/-! ## Copying variables and cells -/

theorem copyIf_eq {n : Nat} (c : Cell) :
    (if c.state = .init then clonePayload (n + 1) t c.raw u else (.nothing, u)) =
      clonePayload (n + 1) t c.payload u := by
  unfold Cell.payload
  split
  · rfl
  · rw [clonePayload_plain rfl]

theorem payload_eq {c : Cell} (h : c.state ≠ .init) : c.payload = .nothing := if_neg h

theorem payload_copied {n : Nat} {c : Cell} {h : Holder} :
    Cell.payload ⟨c.state, (clonePayload (n + 1) t c.payload u).1, h⟩ =
      (clonePayload (n + 1) t c.payload u).1 := by
  by_cases hstate : c.state = .init
  · exact payload_of_init hstate
  · rw [payload_eq hstate, clonePayload_plain rfl]
    exact if_neg hstate

theorem cloneVariable_eq {n : Nat} {x : Variable} {c : Cell} (hview : u.view v = .ok (x, c)) :
    cloneVariable (clonePayload (n + 1)) v u =
      (((clonePayload (n + 1) x.type c.payload u).2.addCell
        ⟨c.state, (clonePayload (n + 1) x.type c.payload u).1, .itself⟩).2.addVariable
          ⟨x.type, x.const, (clonePayload (n + 1) x.type c.payload u).2.cells.size⟩) := by
  unfold cloneVariable
  rw [hview]
  simp only [copyIf_eq]
  rfl

theorem cloneCell_eq {n : Nat} {id : CellId} {c : Cell} (hc : u.cells[id]? = some c) (elem : Ty)
    (r : RegionId) : cloneCell (clonePayload (n + 1)) elem r id u =
      (clonePayload (n + 1) elem c.payload u).2.grow r c.state
        (clonePayload (n + 1) elem c.payload u).1 := by
  unfold cloneCell
  rw [hc]
  simp only [copyIf_eq]

theorem copiesVariables_nil (s : Store) : s.CopiesVariables [] .nil := by
  intro n u vs _ _ hlists
  cases hlists
  exact ⟨[], u, [], [], rfl, .nil, .nil u⟩

theorem copiesCells_nil (s : Store) : s.CopiesCells [] .nil := by
  intro n u elem ids r y _ _ hids _ hy
  obtain rfl := List.map_eq_nil_iff.mp hids.symm
  exact ⟨[], u, y, [], [], rfl, hy, (List.append_nil _).symm, .nil u⟩

theorem height_tree_le {l : Label} {n : Nat} (h : (Forest.tree l inner rest).height ≤ n) :
    (∃ m, n = m + 1 ∧ inner.height ≤ m) ∧ rest.height ≤ n := by
  simp only [Forest.height] at h
  exact ⟨⟨n - 1, by omega, by omega⟩, by omega⟩

section Cons

variable {x : Variable} {c : Cell} (hc : s.cells[x.cell]? = some c)
  (hunpacks : s.Unpacks x.type c.payload o ys rs) (howns : s.Owns ys inner fp)
  (hvariables : s.CopiesVariables ys inner) (hcells : s.CopiesCells ys inner)
include hc hunpacks howns hvariables hcells

theorem copiesVariables_cons (hrest : s.CopiesVariables xs rest) :
    s.CopiesVariables (x :: xs) (.tree ⟨x.type, x.const, c.state, o⟩ inner rest) := by
  intro n u vs hheight hu hlists
  cases hlists with
  | @cons v _ vs _ hv hvs =>
    obtain ⟨⟨m, rfl, hinner⟩, hbeside⟩ := height_tree_le hheight
    obtain ⟨ys', rs', gp, hrepacked⟩ :=
      repacked_clonePayload hunpacks howns hvariables hcells hinner hu
    have hview : u.view v = .ok (x, c) :=
      view_eq_ok.mpr ⟨hu.vars v x hv, hu.cells x.cell c hc⟩
    have hone := cloneVariable_eq (n := m) hview
    have hpayload := (builds_clonePayload (m + 1) x.type c.payload u).toEnlarges
    let u₁ := (clonePayload (m + 1) x.type c.payload u).2
    let c' : Cell := ⟨c.state, (clonePayload (m + 1) x.type c.payload u).1, .itself⟩
    let x' : Variable := ⟨x.type, x.const, u₁.cells.size⟩
    let u₂ := ((u₁.addCell c').2.addVariable x').2
    have hc' : u₂.cells[u₁.cells.size]? = some c' := Array.getElem?_push_size
    have hplaced : u₁.Builds u₂ := ((Builds.refl u₁).addCell c').addVariable
      (.inl (.inl ⟨c', Array.getElem?_push_size, isLoose_of_holder (by rintro _ _ ⟨⟩)⟩))
    obtain ⟨ws, u₃, zs, gp', hmap, hws, hcopied⟩ :=
      hrest (m + 1) u₂ vs hbeside ((hu.trans hpayload).trans hplaced.toEnlarges) hvs
    have hlater : u₂.Builds u₃ := by
      have hall := mapStore_invariant (P := u₂.Builds)
        (fun v (_ : v ∈ vs) _ => builds_cloneVariable (builds_clonePayload (m + 1)) v) (.refl u₂)
      rwa [hmap] at hall
    have hthere : u₃.vars[u₁.vars.size]? = some x' := hlater.vars _ _ Array.getElem?_push_size
    have hall := hrepacked.cons (k := x.const) (fun p => hpayload.has) (fun p => hplaced.has)
      (hplaced.agreesOn _) hc' payload_copied hcopied (hlater.agreesOn _)
    exact ⟨_, u₃, x' :: zs, _, mapStore_cons hone hmap, .cons hthere hws, hall⟩

theorem copiesCells_cons (hrest : s.CopiesCells xs rest) :
    s.CopiesCells (x :: xs) (.tree ⟨x.type, x.const, c.state, o⟩ inner rest) := by
  intro n u elem ids r y hheight hu hids hr hy
  cases ids with
  | nil => cases hids
  | cons id ids =>
    rw [List.map_cons] at hids
    obtain ⟨rfl, htail⟩ := List.cons.inj hids
    obtain ⟨⟨m, rfl, hinner⟩, hbeside⟩ := height_tree_le hheight
    obtain ⟨ys', rs', gp, hrepacked⟩ :=
      repacked_clonePayload hunpacks howns hvariables hcells hinner hu
    have hone := cloneCell_eq (n := m) (hu.cells id c hc) elem r
    have hpayload := (builds_clonePayload (m + 1) elem c.payload u).toEnlarges
    let u₁ := (clonePayload (m + 1) elem c.payload u).2
    let u₂ := (u₁.grow r c.state (clonePayload (m + 1) elem c.payload u).1).2
    obtain ⟨holder, hc'⟩ : ∃ h, u₂.cells[u₁.cells.size]? =
        some ⟨c.state, (clonePayload (m + 1) elem c.payload u).1, h⟩ :=
      ⟨_, Array.getElem?_push_size⟩
    have hy₂ := regions_grow_self (hpayload.regions r y hy) c.state
      (clonePayload (m + 1) elem c.payload u).1
    obtain ⟨ns, u₃, y', new, gp', hmap, hy', hcontents, hcopied⟩ := hrest (m + 1) u₂ elem ids r _
      hbeside ((hu.trans hpayload).grow hr _ _) htail hr hy₂
    -- the region was there before, so it is no spot of the copy
    have hother : .region r ∉ rs'.map .region ++ gp := fun hin =>
      hrepacked.new _ hin (Array.getElem?_eq_some_iff.mp hy).1
    have hlater : AgreesOn (.cell u₁.cells.size :: (rs'.map .region ++ gp)) u₂ u₃ := by
      have hagrees : AgreesOn (.cell u₁.cells.size :: (rs'.map .region ++ gp)) u₂
          (mapStore (cloneCell (clonePayload (m + 1)) elem r) ids u₂).2 :=
        agreesOn_cloneCells (by simpa using hother) ids
      rwa [hmap] at hagrees
    have hall := hrepacked.cons (k := false) (fun p => hpayload.has) (fun p => has_grow)
      (agreesOn_grow hother _ _) hc' payload_copied hcopied hlater
    refine ⟨_, u₃, y', u₁.cells.size :: new, _, mapStore_cons hone hmap, hy', ?_, hall⟩
    rw [hcontents, Array.toList_push, List.append_assoc]
    rfl

end Cons

/-- **What is owned** is copied in both ways -/
theorem Owns.copied (h : s.Owns xs F fp) : s.CopiesVariables xs F ∧ s.CopiesCells xs F := by
  induction h with
  | nil => exact ⟨copiesVariables_nil s, copiesCells_nil s⟩
  | cons hc hunpacks howns _ ihinner ihrest =>
    obtain ⟨hvariables, hcells⟩ := ihinner
    exact ⟨copiesVariables_cons hc hunpacks howns hvariables hcells ihrest.1,
      copiesCells_cons hc hunpacks howns hvariables hcells ihrest.2⟩

/-! ## Storing at some spots only -/

/-- an operation that only adds, or that stores at some spots -/
def Operation.StaysAt (fp : List Spot) (s : Store) : Operation → Prop
  | .init v _ | .assign v _ => ∀ id, s.cellOf v = some id → .cell id ∈ fp
  | .append r _ => .region r ∈ fp
  | op => op.isQuiet = true

/-- operations one after another that only add, or store at some spots -/
def Confined (fp : List Spot) : Store → List Operation → Prop
  | _, [] => True
  | s, op :: ops => op.StaysAt fp s ∧ Confined fp (op.perform s).2 ops

theorem agreesOn_init (hapart : ∀ p ∈ gp, p ∉ fp) (hv : ∀ id, s.cellOf v = some id → .cell id ∈ fp)
    (h : s.init v raw = .ok u) : AgreesOn gp s u := by
  obtain ⟨x, c, hview, _, rfl⟩ := init_eq_ok.mp h
  refine ⟨fun _ _ h => h, fun id d hid hd => ?_, fun _ _ _ h => h⟩
  have hcell : s.cellOf v = some x.cell := congrArg _ (view_eq_ok.mp hview).1
  have hne : x.cell ≠ id := by
    rintro rfl
    exact hapart _ hid (hv _ hcell)
  show (s.cells.modify x.cell _)[id]? = some d
  rw [Array.getElem?_modify, if_neg hne, hd]

/-- **Other spots** are left alone -/
theorem agreesOn_perform (hapart : ∀ p ∈ gp, p ∉ fp) {op : Operation} (h : op.StaysAt fp s) :
    AgreesOn gp s (op.perform s).2 := by
  have hrefl := (Enlarges.refl s).agreesOn gp
  cases op with
  | init v raw => exact left_of hrefl fun _ => agreesOn_init hapart h
  | assign v raw =>
    exact left_of hrefl fun _ hassign => agreesOn_init hapart h (init_of_assign hassign)
  | append r raw => exact agreesOn_grow (fun hr => hapart _ hr h) .init raw
  | makeLocal | setConst | allocObject => cases h
  | _ => exact (s.builds_perform rfl).agreesOn gp

theorem HasEstate.after (h : s.HasEstate v E gp) (hapart : ∀ p ∈ gp, p ∉ fp)
    {ops : List Operation} (hops : Confined fp s ops) : (s.after ops).HasEstate v E gp := by
  induction ops generalizing s with
  | nil => exact h
  | cons op ops ih => exact ih (h.transport (agreesOn_perform hapart hops.1)) hops.2

/-! ## Clones -/

/-- **A clone** holds what the original does, at spots of its own where nothing was -/
theorem exists_clone (h : s.HasEstate v E fp) :
    ∃ w u x c gp, s.clone v = .ok (w, u) ∧ u.view w = .ok (x, c) ∧ x.const = false ∧
      c.holder = .itself ∧ u.HasEstate w E gp ∧ (∀ p ∈ gp, ¬ s.Has p) ∧ gp.Nodup := by
  have hheight := Nat.le_of_lt h.height_lt
  obtain ⟨x, c, ys, rs, fp', hview, hstate, htype, hunpacks, howns, rfl⟩ := h
  obtain ⟨hvariables, hcells⟩ := howns.copied
  obtain ⟨ys', rs', gp, hrepacked⟩ :=
    repacked_clonePayload hunpacks howns hvariables hcells hheight (.refl s)
  have hpayload := builds_clonePayload (s.nesting + 1) x.type c.raw s
  let raw' := (clonePayload (s.nesting + 1) x.type c.raw s).1
  let u := (clonePayload (s.nesting + 1) x.type c.raw s).2
  have hclone : s.clone v = .ok (u.allocLocal x.type raw') := by
    have hread : s.read v = .ok c.raw := read_eq_ok.mpr ⟨x, c, hview, hstate, rfl⟩
    rw [clone, typeOf, hview, hread]
    rfl
  have hnew := u.view_fresh_self x.type ⟨.init, raw', .itself⟩
  have hagrees := ((Builds.refl u).allocLocal x.type raw').agreesOn (rs'.map .region ++ gp)
  refine ⟨_, _, _, _, .cell u.cells.size :: (rs'.map .region ++ gp), hclone, hnew, rfl, rfl,
    ⟨_, _, ys', rs', gp, hnew, rfl, htype, ?_, ?_, rfl⟩, ?_, ?_⟩
  · exact hrepacked.unpacks.transport (hagrees.mono fun p => List.mem_append_left _)
  · exact hrepacked.owns.transport (hagrees.mono fun p => List.mem_append_right _)
  · refine List.forall_mem_cons.mpr ⟨fun hin => ?_, hrepacked.new⟩
    exact Nat.lt_irrefl _ (hpayload.has (p := .cell u.cells.size) hin)
  · exact List.nodup_cons.mpr ⟨fun hin => Nat.lt_irrefl _ (hrepacked.has _ hin), hrepacked.apart⟩

end Store

open Store

/-- **A clone is apart from its original.**  An initialized variable that owns a finite tree can be
cloned.  The clone is a mutable variable with a cell that it holds itself, of the same type, and
holds the same: the same tree with the same types, constness and states, and the same payloads where
these own nothing.  Each of its holdings lies at a spot of its own where nothing was before, and all
that there was stays as it was.  From then on, whatever is done that only adds, or that stores at
the spots of one of the two, the other holds what it held. -/
theorem clone_isolated {s : Store} {v : VarId} {E : Estate} {fp : List Spot}
    (h : s.HasEstate v E fp) :
    ∃ w s' x c gp, s.clone v = .ok (w, s') ∧
      (s'.view w = .ok (x, c) ∧ x.type = E.type ∧ x.const = false ∧ c.holder = .itself) ∧
      (s'.HasEstate w E gp ∧ (∀ p ∈ gp, ¬ s.Has p ∧ p ∉ fp) ∧ gp.Nodup) ∧
      (s.Enlarges s' ∧ s'.HasEstate v E fp) ∧
      ∀ ops, (Confined fp s' ops → (s'.after ops).HasEstate w E gp) ∧
        (Confined gp s' ops → (s'.after ops).HasEstate v E fp) := by
  obtain ⟨w, s', x, c, gp, hclone, hview, hconst, hholder, hw, hnew, hnodup⟩ := exists_clone h
  have henlarges := (builds_clone hclone).toEnlarges
  have hv := h.transport (henlarges.agreesOn fp)
  have hapart : ∀ p ∈ gp, p ∉ fp := fun p hp hin => hnew p hp (h.has p hin)
  have htype : x.type = E.type := by
    obtain ⟨x', c', _, _, _, hview', _, htype', _⟩ := hw
    cases hview.symm.trans hview'
    exact htype'
  refine ⟨w, s', x, c, gp, hclone, ⟨hview, htype, hconst, hholder⟩,
    ⟨hw, fun p hp => ⟨hnew p hp, hapart p hp⟩, hnodup⟩, ⟨henlarges, hv⟩, fun ops => ⟨?_, ?_⟩⟩
  · exact hw.after hapart
  · exact hv.after fun p hp hin => hapart p hin hp

/-- a class value with a brace list of a fixed array and a constant without a value: what is
assigned to the cell of the array does not show in the clone -/
theorem clone_isolated_nested : ∃ (s s' : Store) (w : VarId) (E : Estate) (fp gp : List Spot),
    s.Reached ∧ s.HasEstate 3 E fp ∧ s.clone 3 = .ok (w, s') ∧ s'.HasEstate w E gp ∧
      Confined fp s' [.assign 4 (.int 5)] ∧
      (s'.after [.assign 4 (.int 5)]).HasEstate w E gp := by
  let word : Ty := .arith .i32
  let items : Ty := .list [.array word 1, word]
  let s : Store := ⟨#[⟨.uninit, .nothing, .slot 0 0⟩, ⟨.init, .index 0 0, .itself⟩,
      ⟨.uninit, .nothing, .itself⟩, ⟨.init, .elems [0, 1], .itself⟩,
      ⟨.init, .object [("items", 2)], .temporary⟩],
    #[⟨.array word 1, false, 1⟩, ⟨word, true, 2⟩, ⟨items, false, 3⟩,
      ⟨.cls ⟨"S", [], none⟩, false, 4⟩, ⟨word, false, 0⟩],
    #[⟨word, #[0]⟩]⟩
  have hs : s.Reached := ⟨[.allocArray word 1, .declare word, .setConst 1 true, .allocList [0, 1],
    .allocObject ⟨"S", [], none⟩ [("items", 2)], .at_ 0 0], rfl⟩
  let F : Forest := .tree ⟨.array word 1, false, .init, .array 0⟩
    (.tree ⟨word, false, .uninit, .plain .nothing⟩ .nil .nil)
    (.tree ⟨word, true, .uninit, .plain .nothing⟩ .nil .nil)
  let E : Estate := ⟨.cls ⟨"S", [], none⟩, .object ["items"],
    .tree ⟨items, false, .init, .elems⟩ F .nil⟩
  have hword : ∀ k id h, s.cells[id]? = some ⟨.uninit, .nothing, h⟩ →
      s.Owns [⟨word, k, id⟩] (.tree ⟨word, k, .uninit, .plain .nothing⟩ .nil .nil) [.cell id] :=
    fun k id h hid => .cons (x := ⟨word, k, id⟩) (c := ⟨.uninit, .nothing, h⟩) hid (.plain rfl) .nil
      .nil
  have hitems : s.Owns [⟨.array word 1, false, 1⟩, ⟨word, true, 2⟩] F
      [.cell 1, .region 0, .cell 0, .cell 2] :=
    .cons (x := ⟨.array word 1, false, 1⟩) (c := ⟨.init, .index 0 0, .itself⟩) rfl (.array rfl)
      (hword false 0 (.slot 0 0) rfl) (hword true 2 .itself rfl)
  have hlist : s.Owns [⟨items, false, 3⟩] E.inner
      [.cell 3, .cell 1, .region 0, .cell 0, .cell 2] :=
    .cons (x := ⟨items, false, 3⟩) (c := ⟨.init, .elems [0, 1], .itself⟩) rfl
      (.elems (.cons rfl (.cons rfl .nil))) hitems .nil
  have hestate : s.HasEstate 3 E [.cell 4, .cell 3, .cell 1, .region 0, .cell 0, .cell 2] :=
    ⟨_, _, _, _, _, rfl, rfl, rfl, .object (.cons rfl .nil), hlist, rfl⟩
  obtain ⟨w, s', x, c, gp, hclone, -, ⟨hw, -, -⟩, ⟨henlarges, -⟩, hlater⟩ := clone_isolated hestate
  have hview : s.vars[4]? = some ⟨word, false, 0⟩ := rfl
  have hcell : s'.cellOf 4 = some 0 := by
    rw [cellOf, henlarges.vars 4 _ hview]
    rfl
  have hconfined : Confined [.cell 4, .cell 3, .cell 1, .region 0, .cell 0, .cell 2] s'
      [.assign 4 (.int 5)] := by
    refine ⟨fun id hid => ?_, trivial⟩
    obtain rfl : 0 = id := Option.some.inj (hcell.symm.trans hid)
    simp
  exact ⟨s, s', w, E, _, gp, hs, hestate, hclone, hw, hconfined, (hlater _).1 hconfined⟩

end Overloading
