import Mathlib.Data.List.Forall2
import Overloading.Proofs.StoreRuns

/-!
# What a variable owns

A class value owns its members, a brace list its items and a fixed array the cells of its region,
and each of them owns what its own payload does.  Pointers and functions own nothing.  Where this
comes to an end, it is a tree: each holding with its type, its constness, its state and what of its
payload is not owned.

* `Store.Unpacks`     what a payload of some type owns, and what it is apart from that;
* `Store.Owns`        the trees of what some variables own, and the spots where they lie;
* `Store.HasEstate`   all that an initialized variable holds;
* `HasEstate.unique`  a variable has one estate at most, and it lies at one place;
* `HasEstate.transport`   what happens at other spots does not matter to it;
* `HasEstate.height_lt`   no tree is as high as the number by which copies are bounded.
-/

namespace Overloading

/-! ## Trees -/

/-- what a payload is apart from what it owns -/
inductive Outline where
  | object (names : List String)
  | elems
  /-- a fixed array, at an index of its region -/
  | array (i : Int)
  | plain (raw : Raw)

/-- what a holding is apart from what it owns -/
structure Label where
  type : Ty
  const : Bool
  state : CellState
  outline : Outline

/-- trees side by side, each a label with the trees below it -/
inductive Forest where
  | nil
  | tree (label : Label) (inner rest : Forest)

namespace Forest

def height : Forest → Nat
  | nil => 0
  | tree _ inner rest => max (inner.height + 1) rest.height

def size : Forest → Nat
  | nil => 0
  | tree _ inner rest => inner.size + 1 + rest.size

end Forest

/-- where something lies: a cell, or a region with its sequence of cells -/
inductive Spot where
  | cell (id : CellId)
  | region (r : RegionId)

/-- all that a variable holds, its own constness apart -/
structure Estate where
  type : Ty
  outline : Outline
  inner : Forest

/-- the payload of a cell if it is initialized -/
def Cell.payload (c : Cell) : Raw := if c.state = .init then c.raw else .nothing

/-- a payload that owns nothing if it has a given type -/
def Raw.isPlain : Raw → Ty → Bool
  | .object _, _ => false
  | .elems _, _ => false
  | .index _ _, .array _ _ => false
  | _, _ => true

namespace Store

/-! ## Payloads -/

def Lists (s : Store) (vs : List VarId) (ys : List Variable) : Prop :=
  List.Forall₂ (fun v y => s.vars[v]? = some y) vs ys

/-- what a payload of some type is apart from what it owns, the variables that it owns, and the
region if it is a fixed array -/
inductive Unpacks (s : Store) : Ty → Raw → Outline → List Variable → List RegionId → Prop
  | object {t members ys} (h : s.Lists (members.map fun m => m.2) ys) :
      s.Unpacks t (.object members) (.object (members.map fun m => m.1)) ys []
  | elems {t items ys} (h : s.Lists items ys) : s.Unpacks t (.elems items) .elems ys []
  | array {elem n r i x} (h : s.regions[r]? = some x) :
      s.Unpacks (.array elem n) (.index r i) (.array i)
        (x.cells.toList.map fun id => ⟨elem, false, id⟩) [r]
  | plain {t raw} (h : raw.isPlain t = true) : s.Unpacks t raw (.plain raw) [] []

/-! ## Holdings -/

/-- the trees of what some variables own, and the spots where they lie -/
inductive Owns (s : Store) : List Variable → Forest → List Spot → Prop
  | nil : s.Owns [] .nil []
  | cons {x c o ys rs xs inner rest fp gp} (hc : s.cells[x.cell]? = some c)
      (hpayload : s.Unpacks x.type c.payload o ys rs) (hinner : s.Owns ys inner fp)
      (hrest : s.Owns xs rest gp) :
      s.Owns (x :: xs) (.tree ⟨x.type, x.const, c.state, o⟩ inner rest)
        (.cell x.cell :: (rs.map .region ++ fp ++ gp))

/-- all that an initialized variable holds, and the spots where it lies -/
def HasEstate (s : Store) (v : VarId) (E : Estate) (fp : List Spot) : Prop :=
  ∃ x c ys rs gp, s.view v = .ok (x, c) ∧ c.state = .init ∧ x.type = E.type ∧
    s.Unpacks x.type c.raw E.outline ys rs ∧ s.Owns ys E.inner gp ∧
    fp = .cell x.cell :: (rs.map .region ++ gp)

variable {s s' : Store} {v : VarId} {vs : List VarId} {t : Ty} {raw : Raw} {o o' : Outline}
  {x : Variable} {xs ys ys' : List Variable} {rs rs' : List RegionId} {F G : Forest}
  {fp gp : List Spot} {E : Estate}

/-! ## One tree at most -/

theorem Lists.unique (h : s.Lists vs ys) (h' : s.Lists vs ys') : ys = ys' := by
  induction h generalizing ys' with
  | nil =>
    cases h'
    rfl
  | cons hv _ ih =>
    cases h' with
    | cons hv' hvs' => rw [Option.some.inj (hv.symm.trans hv'), ih hvs']

theorem Unpacks.unique (h : s.Unpacks t raw o ys rs) (h' : s.Unpacks t raw o' ys' rs') :
    o = o' ∧ ys = ys' ∧ rs = rs' := by
  cases h with
  | object h =>
    cases h' with
    | object h' => exact ⟨rfl, h.unique h', rfl⟩
    | plain hplain => cases hplain
  | elems h =>
    cases h' with
    | elems h' => exact ⟨rfl, h.unique h', rfl⟩
    | plain hplain => cases hplain
  | array h =>
    cases h' with
    | array h' =>
      cases h.symm.trans h'
      exact ⟨rfl, rfl, rfl⟩
    | plain hplain => cases hplain
  | plain hplain =>
    cases h' with
    | object | elems | array => cases hplain
    | plain => exact ⟨rfl, rfl, rfl⟩

theorem Owns.unique (h : s.Owns xs F fp) (h' : s.Owns xs G gp) : F = G ∧ fp = gp := by
  induction h generalizing G gp with
  | nil =>
    cases h'
    exact ⟨rfl, rfl⟩
  | cons hc hpayload _ _ ihinner ihrest =>
    cases h' with
    | cons hc' hpayload' hinner' hrest' =>
      cases hc.symm.trans hc'
      obtain ⟨rfl, rfl, rfl⟩ := hpayload.unique hpayload'
      obtain ⟨rfl, rfl⟩ := ihinner hinner'
      obtain ⟨rfl, rfl⟩ := ihrest hrest'
      exact ⟨rfl, rfl⟩

theorem HasEstate.unique {E' : Estate} (h : s.HasEstate v E fp) (h' : s.HasEstate v E' gp) :
    E = E' ∧ fp = gp := by
  obtain ⟨x, c, ys, rs, fp, hview, _, htype, hpayload, hinner, rfl⟩ := h
  obtain ⟨x', c', ys', rs', gp, hview', _, htype', hpayload', hinner', rfl⟩ := h'
  cases hview.symm.trans hview'
  obtain ⟨houtline, rfl, rfl⟩ := hpayload.unique hpayload'
  obtain ⟨hforest, rfl⟩ := hinner.unique hinner'
  obtain ⟨t, o, F⟩ := E
  obtain ⟨t', o', F'⟩ := E'
  dsimp only at htype htype' houtline hforest
  subst htype htype' houtline hforest
  exact ⟨rfl, rfl⟩

theorem payload_of_init {c : Cell} (h : c.state = .init) : c.payload = c.raw := if_pos h

theorem HasEstate.owns (h : s.HasEstate v E fp) : ∃ x l, s.vars[v]? = some x ∧
    s.Owns [x] (.tree l E.inner .nil) fp := by
  obtain ⟨x, c, ys, rs, gp, hview, hstate, _, hpayload, hinner, rfl⟩ := h
  obtain ⟨hx, hc⟩ := view_eq_ok.mp hview
  rw [← payload_of_init hstate] at hpayload
  have howns := Owns.cons hc hpayload hinner .nil
  rw [List.append_nil] at howns
  exact ⟨x, _, hx, howns⟩

/-! ## Spots -/

def Has (s : Store) : Spot → Prop
  | .cell id => id < s.cells.size
  | .region r => r < s.regions.size

theorem Unpacks.has (h : s.Unpacks t raw o ys rs) : ∀ r ∈ rs, s.Has (.region r) := by
  cases h with
  | array h => exact List.forall_mem_singleton.mpr (Array.getElem?_eq_some_iff.mp h).1
  | object | elems | plain => exact List.forall_mem_nil _

theorem Owns.has (h : s.Owns xs F fp) : ∀ p ∈ fp, s.Has p := by
  induction h with
  | nil => exact List.forall_mem_nil _
  | cons hc hpayload _ _ ihinner ihrest =>
    refine List.forall_mem_cons.mpr ⟨(Array.getElem?_eq_some_iff.mp hc).1, ?_⟩
    refine List.forall_mem_append.mpr ⟨List.forall_mem_append.mpr ⟨?_, ihinner⟩, ihrest⟩
    exact List.forall_mem_map.mpr hpayload.has

theorem HasEstate.has (h : s.HasEstate v E fp) : ∀ p ∈ fp, s.Has p := by
  obtain ⟨x, l, _, howns⟩ := h.owns
  exact howns.has

/-- a store has the variables of another, and the same at some spots -/
structure AgreesOn (fp : List Spot) (s s' : Store) : Prop where
  vars : ∀ (v : VarId) (x : Variable), s.vars[v]? = some x → s'.vars[v]? = some x
  cells : ∀ (id : CellId) (c : Cell), .cell id ∈ fp → s.cells[id]? = some c →
    s'.cells[id]? = some c
  regions : ∀ (r : RegionId) (x : Region), .region r ∈ fp → s.regions[r]? = some x →
    s'.regions[r]? = some x

theorem AgreesOn.mono (h : AgreesOn fp s s') (hsub : ∀ p ∈ gp, p ∈ fp) : AgreesOn gp s s' :=
  ⟨h.vars, fun id c hid => h.cells id c (hsub _ hid), fun r x hr => h.regions r x (hsub _ hr)⟩

theorem Lists.transport (h : s.Lists vs ys)
    (hvars : ∀ (v : VarId) (x : Variable), s.vars[v]? = some x → s'.vars[v]? = some x) :
    s'.Lists vs ys := h.imp fun v y => hvars v y

theorem Unpacks.transport (h : s.Unpacks t raw o ys rs)
    (hagrees : AgreesOn (rs.map .region) s s') : s'.Unpacks t raw o ys rs := by
  cases h with
  | object h => exact .object (h.transport hagrees.vars)
  | elems h => exact .elems (h.transport hagrees.vars)
  | array h => exact .array (hagrees.regions _ _ (List.mem_singleton_self _) h)
  | plain h => exact .plain h

/-- **What happens elsewhere** does not matter -/
theorem Owns.transport (h : s.Owns xs F fp) (hagrees : AgreesOn fp s s') : s'.Owns xs F fp := by
  induction h with
  | nil => exact .nil
  | cons hc hpayload _ _ ihinner ihrest =>
    refine .cons (hagrees.cells _ _ List.mem_cons_self hc)
      (hpayload.transport (hagrees.mono fun p hp => ?_)) (ihinner (hagrees.mono fun p hp => ?_))
      (ihrest (hagrees.mono fun p hp => ?_))
    · exact List.mem_cons_of_mem _ (List.mem_append_left _ (List.mem_append_left _ hp))
    · exact List.mem_cons_of_mem _ (List.mem_append_left _ (List.mem_append_right _ hp))
    · exact List.mem_cons_of_mem _ (List.mem_append_right _ hp)

theorem HasEstate.transport (h : s.HasEstate v E fp) (hagrees : AgreesOn fp s s') :
    s'.HasEstate v E fp := by
  obtain ⟨x, c, ys, rs, gp, hview, hstate, htype, hpayload, hinner, rfl⟩ := h
  obtain ⟨hx, hc⟩ := view_eq_ok.mp hview
  refine ⟨x, c, ys, rs, gp, view_eq_ok.mpr ⟨hagrees.vars v x hx, ?_⟩, hstate, htype,
    hpayload.transport (hagrees.mono fun p hp => ?_),
    hinner.transport (hagrees.mono fun p hp => ?_), rfl⟩
  · exact hagrees.cells _ _ List.mem_cons_self hc
  · exact List.mem_cons_of_mem _ (List.mem_append_left _ hp)
  · exact List.mem_cons_of_mem _ (List.mem_append_right _ hp)

/-! ## How high a tree is -/

theorem Owns.exists_mem (h : s.Owns xs F fp) (hx : x ∈ xs) :
    ∃ G gp, s.Owns [x] G gp ∧ G.size ≤ F.size := by
  induction h with
  | nil => cases hx
  | cons hc hpayload hinner _ _ ihrest =>
    rcases List.mem_cons.mp hx with rfl | hx
    · refine ⟨_, _, .cons hc hpayload hinner .nil, ?_⟩
      simp only [Forest.size]
      omega
    · obtain ⟨G, gp, hG, hsize⟩ := ihrest hx
      refine ⟨G, gp, hG, ?_⟩
      simp only [Forest.size]
      omega

theorem Owns.size_pos (h : s.Owns [x] F fp) : 0 < F.size := by
  cases h
  simp only [Forest.size]
  omega

/-- a variable that owns a tree of some size at most -/
def OwnsUpTo (s : Store) (k : Nat) (x : Variable) : Prop :=
  ∃ F fp, s.Owns [x] F fp ∧ F.size ≤ k

open Classical in
/-- how far one gets through the variables with a property, and the arrays of each -/
noncomputable def reach (P : Variable → Prop) (xs : List Variable) : Nat :=
  xs.foldr (fun x n => if P x then x.type.arrayDepth + 1 + n else n) 0

theorem reach_mono {P Q : Variable → Prop} (h : ∀ x, P x → Q x) (xs : List Variable) :
    reach P xs ≤ reach Q xs := by
  induction xs with
  | nil => exact Nat.le_refl _
  | cons x xs ih =>
    simp only [reach, List.foldr_cons] at ih ⊢
    by_cases hP : P x
    · rw [if_pos hP, if_pos (h x hP)]
      omega
    · rw [if_neg hP]
      split <;> omega

/-- a variable that comes in addition takes its arrays and itself -/
theorem reach_lt {P Q : Variable → Prop} (h : ∀ x, P x → Q x) (hx : x ∈ xs) (hQ : Q x)
    (hP : ¬ P x) : x.type.arrayDepth + 1 + reach P xs ≤ reach Q xs := by
  induction xs with
  | nil => cases hx
  | cons y ys ih =>
    have hmono := reach_mono h ys
    simp only [reach, List.foldr_cons] at ih hmono ⊢
    rcases List.mem_cons.mp hx with rfl | hx
    · rw [if_neg hP, if_pos hQ]
      omega
    · have hrest := ih hx
      by_cases hPy : P y
      · rw [if_pos hPy, if_pos (h y hPy)]
        omega
      · rw [if_neg hPy]
        split <;> omega

theorem reach_le_nesting (s : Store) (P : Variable → Prop) :
    reach P s.vars.toList ≤ s.nesting := by
  have hall : reach (fun _ => True) s.vars.toList = s.nesting := by
    simp only [reach, nesting, if_true]
  exact hall ▸ reach_mono (fun _ _ => trivial) _

theorem mem_of_lists (h : s.Lists vs ys) : ∀ y ∈ ys, y ∈ s.vars.toList := by
  induction h with
  | nil => exact List.forall_mem_nil _
  | cons hv _ ih =>
    refine List.forall_mem_cons.mpr ⟨?_, ih⟩
    rw [← Array.getElem?_toList] at hv
    exact List.mem_of_getElem? hv

theorem Unpacks.mem_cases (h : s.Unpacks t raw o ys rs) {y : Variable} (hy : y ∈ ys) :
    y ∈ s.vars.toList ∨ t.arrayDepth = y.type.arrayDepth + 1 := by
  cases h with
  | object h => exact .inl (mem_of_lists h y hy)
  | elems h => exact .inl (mem_of_lists h y hy)
  | array h =>
    obtain ⟨id, _, rfl⟩ := List.mem_map.mp hy
    exact .inr rfl
  | plain => cases hy

/-- a path through a tree goes through the arrays of a variable, and then to variables whose trees
are smaller: it never returns to a variable -/
theorem Owns.height_le (h : s.Owns xs F fp) : ∀ B,
    (∀ x ∈ xs, ∀ G gp, s.Owns [x] G gp →
      x.type.arrayDepth + 1 + reach (s.OwnsUpTo (G.size - 1)) s.vars.toList ≤ B) →
    F.height ≤ B := by
  induction h with
  | nil => exact fun _ _ => Nat.zero_le _
  | @cons x c o ys rs xs inner rest fp gp hc hpayload hinner _ ihinner ihrest =>
    intro B hB
    have hx := hB x List.mem_cons_self _ _ (.cons hc hpayload hinner .nil)
    simp only [Forest.size] at hx
    have hbelow : inner.height ≤ B - 1 := by
      refine ihinner (B - 1) fun y hy G gp hG => ?_
      obtain ⟨G', gp', hG', hsize⟩ := hinner.exists_mem hy
      obtain ⟨rfl, rfl⟩ := hG.unique hG'
      have hpos := hG.size_pos
      have hsmaller : ∀ z, s.OwnsUpTo (G.size - 1) z → s.OwnsUpTo inner.size z := by
        rintro z ⟨H, hp, hH, hle⟩
        exact ⟨H, hp, hH, by omega⟩
      rcases hpayload.mem_cases hy with hvar | hdepth
      · -- the variable is new: its own tree is the only one it has
        have hnew : ¬ s.OwnsUpTo (G.size - 1) y := by
          rintro ⟨H, hp, hH, hle⟩
          obtain ⟨rfl, _⟩ := hG.unique hH
          omega
        have hstep := reach_lt hsmaller hvar ⟨G, gp, hG, hsize⟩ hnew
        simp only [Nat.add_zero, Nat.add_sub_cancel] at hx
        omega
      · have hmono := reach_mono hsmaller s.vars.toList
        simp only [Nat.add_zero, Nat.add_sub_cancel] at hx
        omega
    have hbeside : rest.height ≤ B :=
      ihrest B fun y hy => hB y (List.mem_cons_of_mem _ hy)
    have hpos : 1 ≤ B := by omega
    simp only [Forest.height]
    omega

/-- **No tree** that a variable owns is as high as one gets through the whole store -/
theorem HasEstate.height_lt (h : s.HasEstate v E fp) : E.inner.height < s.nesting := by
  obtain ⟨x, l, hx, howns⟩ := h.owns
  have hheight : (Forest.tree l E.inner .nil).height ≤ s.nesting := by
    refine howns.height_le _ (List.forall_mem_singleton.mpr fun G gp hG => ?_)
    have hpos := hG.size_pos
    have hmem : x ∈ s.vars.toList := by
      rw [← Array.getElem?_toList] at hx
      exact List.mem_of_getElem? hx
    have hnew : ¬ s.OwnsUpTo (G.size - 1) x := by
      rintro ⟨H, hp, hH, hle⟩
      obtain ⟨rfl, _⟩ := hG.unique hH
      omega
    exact Nat.le_trans (reach_lt (fun _ _ => trivial) hmem trivial hnew)
      (s.reach_le_nesting fun _ => True)
  simp only [Forest.height] at hheight
  omega

end Store

end Overloading
