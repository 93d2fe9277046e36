import Overloading.Proofs.AdmissionFaults
import Overloading.Proofs.CatalogRuns

/-!
# Looking overloads up

A lookup tries the overloads of a name in order.  A mismatch goes on to the next one; a fault ends
the search, and hides whatever comes after it.

* `firstAdmitting_spec`   the search finds the first overload that admits the call, finds that
                          none does, or stops at the fault of one of them;
* `lookup_faults`         it stops only where an array size is too large for a word, or where
                          `VOID` is in a brace list; everywhere else the first admitting overload
                          is found.
-/

namespace Overloading

open Grammar

/-! ## Well-formed surroundings -/

/-- a signature that compiling has given -/
def Signature.IsCompiled (s : Signature) : Prop :=
  ∃ src start strict, start ∈ signatureWildcards ∧ signature.compile src start strict = .ok s

/-- cast rules whose constructors are compiled, and whose shapes give well-formed classes
well-formed fields -/
structure CastRules.WellFormed (m : CastRules) : Prop where
  makers : ∀ u, m.user = some u → ∀ c, ∀ maker ∈ u.constructors c, maker.signature.IsCompiled
  fields : ∀ u, m.user = some u → ∀ c, c.WellFormed → ∀ fs, some fs ∈ u.shapes c →
    ∀ f ∈ fs, f.WellFormed

/-- a number too large stands in a constructor, or in a field of a well-formed class -/
def CastRules.HasOversize (m : CastRules) : Prop :=
  ∃ u, m.user = some u ∧
    ((∃ c, ∃ maker ∈ u.constructors c,
        Overloading.HasOversize (Binding.texts maker.signature.tokens)) ∨
      ∃ c, c.WellFormed ∧ ∃ fs, some fs ∈ u.shapes c ∧ ∃ f ∈ fs, Overloading.HasOversize f.tokens)

/-- a number too large stands in what is read to admit a call: in the cast rules, in the arguments
or in a declaration -/
def Oversized (m : CastRules) (args : List Arg) (sups : List Signature) : Prop :=
  m.HasOversize ∨ (∃ a ∈ args, HasOversize a.type.tokens) ∨
    ∃ s ∈ sups, HasOversize (Binding.texts s.tokens)

/-- a brace list among the arguments holds `VOID` at some depth -/
def ListsVoid (args : List Arg) : Prop := ∃ a ∈ args, a.type.holdsVoid = true

variable {huge void : Prop}

theorem Signature.IsCompiled.safe {s : Signature} (h : s.IsCompiled)
    (hhuge : HasOversize (Binding.texts s.tokens) → huge) : s.Safe huge := by
  obtain ⟨src, start, strict, hstart, hs⟩ := h
  exact ⟨⟨start, hstart, compiledFrom_of_compile hstart hs⟩, hhuge⟩

theorem CastRules.WellFormed.safe {m : CastRules} (h : m.WellFormed)
    (hhuge : m.HasOversize → huge) : m.Safe huge := by
  refine ⟨fun u hu c maker hmaker => ?_, fun u hu c hc fs hfs f hf => ?_⟩
  · refine (h.makers u hu c maker hmaker).safe fun hsize => ?_
    exact hhuge ⟨u, hu, .inl ⟨c, maker, hmaker, hsize⟩⟩
  · refine ⟨h.fields u hu c hc fs hfs f hf, fun hsize => ?_⟩
    exact hhuge ⟨u, hu, .inr ⟨c, hc, fs, hfs, f, hf, hsize⟩⟩

namespace Catalog

variable {τ : Type}

theorem Reachable.castRules {r : Catalog τ} (h : r.Reachable) (hshapes : r.WellShaped) :
    r.castRules.WellFormed := by
  refine ⟨fun u hu c maker hmaker => ?_, fun u hu c hc fs hfs => ?_⟩
  · cases hu
    obtain ⟨e, _, he⟩ := List.mem_filterMap.mp hmaker
    split at he
    · obtain ⟨o, ho, rfl⟩ := Option.map_eq_some_iff.mp he
      obtain ⟨⟨src, strict, hs⟩, _⟩ := h.compiled e.2 o ho
      exact ⟨src, Symbol.function, strict, by decide, hs⟩
    · cases he
  · cases hu
    obtain ⟨s, hs, hfields⟩ := List.mem_map.mp hfs
    exact hshapes c hc s hs fs hfields

/-! ## The first overload that admits a call -/

/-- what a search has found: the first overload that admits the call, or that none does -/
def IsFirst (m : CastRules) (call : Signature) (explicit : List (List String))
    (os : List (Overload τ × Nat)) : Option (Selection × List Record) → Prop
  | none => ∀ o ∈ os, m.admits call o.1.signature explicit = .ok none
  | some (sel, _) => ∃ front o back, os = front ++ (o, sel.overload) :: back ∧
      (∀ x ∈ front, m.admits call x.1.signature explicit = .ok none) ∧
      m.admits call o.signature explicit = .ok (some sel.plan)

theorem firstAdmitting_spec (m : CastRules) (call : Signature) (explicit : List (List String))
    (os : List (Overload τ × Nat)) :
    (∃ res, firstAdmitting m call explicit os = .ok res ∧ IsFirst m call explicit os res) ∨
      ∃ e, firstAdmitting m call explicit os = .error e ∧
        ∃ o ∈ os, m.admits call o.1.signature explicit = .error e := by
  induction os with
  | nil => exact .inl ⟨none, rfl, List.forall_mem_nil _⟩
  | cons x os ih =>
    obtain ⟨o, i⟩ := x
    rw [firstAdmitting]
    cases hadmits : m.admits call o.signature explicit with
    | error e => exact .inr ⟨e, rfl, (o, i), List.mem_cons_self, hadmits⟩
    | ok r =>
      cases r with
      | some plan => exact .inl ⟨_, rfl, [], o, os, rfl, List.forall_mem_nil _, hadmits⟩
      | none =>
        rcases ih with ⟨res, hres, hfirst⟩ | ⟨e, he, y, hy, hye⟩
        · refine .inl ⟨res, hres, ?_⟩
          cases res with
          | none =>
            intro y hy
            rcases List.mem_cons.mp hy with rfl | hy
            · exact hadmits
            · exact hfirst y hy
          | some sel =>
            obtain ⟨front, p, back, hos, hfront, hp⟩ := hfirst
            refine ⟨(o, i) :: front, p, back, by rw [hos]; rfl, fun y hy => ?_, hp⟩
            rcases List.mem_cons.mp hy with rfl | hy
            · exact hadmits
            · exact hfront y hy
        · exact .inr ⟨e, he, y, List.mem_cons_of_mem _ hy, hye⟩

theorem firstAdmitting_eq {m : CastRules} {call : Signature} {explicit : List (List String)}
    {front back : List (Overload τ × Nat)} {o : Overload τ} {i : Nat} {plan : Match}
    (hfront : ∀ x ∈ front, m.admits call x.1.signature explicit = .ok none)
    (ho : m.admits call o.signature explicit = .ok (some plan)) :
    firstAdmitting m call explicit (front ++ (o, i) :: back) =
      .ok (some (⟨i, plan⟩, [resolvedRecord o.toDeclaration plan])) := by
  induction front with
  | nil => rw [List.nil_append, firstAdmitting, ho]
  | cons x front ih =>
    rw [List.cons_append, firstAdmitting, hfront x List.mem_cons_self]
    exact ih fun y hy => hfront y (List.mem_cons_of_mem _ hy)

end Catalog

/-! ## Faults of a lookup -/

theorem finds_of_wellFormed {m : CastRules} {args : List Arg} {call sup : Signature}
    {strict : Bool} {sups : List Signature} (hm : m.WellFormed)
    (hargs : ∀ a ∈ args, a.type.WellFormed)
    (hcall : signature.compile (openCallForm args) Symbol.function strict = .ok call)
    (hsup : sup.IsCompiled) (hmem : sup ∈ sups) :
    Finds (Excused (Oversized m args sups) (ListsVoid args)) (fun _ => True)
      (m.admits call sup []) := by
  have hm : m.Safe (Oversized m args sups) := hm.safe .inl
  have hsup : sup.Safe (Oversized m args sups) :=
    hsup.safe fun hsize => .inr (.inr ⟨sup, hmem, hsize⟩)
  refine finds_admits hm (fun a ha => ?_) (fun a ha hv => ⟨a, ha, hv⟩) hcall hsup
  exact ⟨hargs a ha, fun hsize => .inr (.inl ⟨a, ha, hsize⟩)⟩

theorem Catalog.search_eq {τ : Type} {r : Catalog τ} {domain name : String} {args : List Arg}
    {call : Signature} (explicit : List Ty)
    (hcall : signature.compile (openCallForm args) Symbol.function false = .ok call) :
    r.search domain name args explicit = Catalog.firstAdmitting r.castRules call
      (explicit.map Ty.tokens) (r.overloadsOf domain name) := by
  unfold Catalog.search Catalog.searchTokens
  rw [hcall]
  rfl

theorem Catalog.search_eq_ok {τ : Type} {r : Catalog τ} {domain name : String} {args : List Arg}
    {explicit : List Ty} {res : Option (Selection × List Record)}
    (h : r.search domain name args explicit = .ok res) :
    ∃ call, signature.compile (openCallForm args) Symbol.function false = .ok call ∧
      Catalog.IsFirst r.castRules call (explicit.map Ty.tokens) (r.overloadsOf domain name) res := by
  cases hcall : signature.compile (openCallForm args) Symbol.function false with
  | error e =>
    have herror : r.search domain name args explicit = .error e := by
      unfold Catalog.search Catalog.searchTokens
      rw [hcall]
      rfl
    rw [herror] at h
    cases h
  | ok call =>
    rw [Catalog.search_eq explicit hcall] at h
    refine ⟨call, rfl, ?_⟩
    rcases Catalog.firstAdmitting_spec r.castRules call (explicit.map Ty.tokens)
      (r.overloadsOf domain name) with ⟨res', hres', hfirst⟩ | ⟨e, he, _⟩
    · rw [hres'] at h
      cases h
      exact hfirst
    · rw [he] at h
      cases h

-- an equation of functions: between two calls the kernel would start to search
theorem Catalog.resolve_def {τ : Type} : @Catalog.resolve τ = fun r domain name args explicit =>
    match r.search domain name args explicit with
    | .error e => .error e
    | .ok (some res) => .ok res
    | .ok none => .error (r.noOverload domain name args) := rfl

theorem Catalog.search_of_resolve {τ : Type} {r : Catalog τ} {domain name : String}
    {args : List Arg} {explicit : List Ty} {res : Selection × List Record}
    (h : r.resolve domain name args explicit = .ok res) :
    r.search domain name args explicit = .ok (some res) := by
  rw [Catalog.resolve_def] at h
  beta_reduce at h
  generalize r.search domain name args explicit = x at h ⊢
  match x, h with
  | .ok (some _), h =>
    cases h
    rfl

theorem Catalog.resolve_of_search {τ : Type} {r : Catalog τ} {domain name : String}
    {args : List Arg} {explicit : List Ty} {res : Selection × List Record}
    (h : r.search domain name args explicit = .ok (some res)) :
    r.resolve domain name args explicit = .ok res := by
  rw [Catalog.resolve_def]
  beta_reduce
  rw [h]

theorem Catalog.resolve_eq_ok {τ : Type} {r : Catalog τ} {domain name : String} {args : List Arg}
    {explicit : List Ty} {sel : Selection} {records : List Record}
    (h : r.resolve domain name args explicit = .ok (sel, records)) :
    ∃ call o, signature.compile (openCallForm args) Symbol.function false = .ok call ∧
      (o, sel.overload) ∈ r.overloadsOf domain name ∧
      r.castRules.admits call o.signature (explicit.map Ty.tokens) = .ok (some sel.plan) := by
  obtain ⟨call, hcall, front, o, back, hos, _, hadmits⟩ :=
    Catalog.search_eq_ok (Catalog.search_of_resolve h)
  exact ⟨call, o, hcall, by rw [hos]; simp, hadmits⟩

/-- **Where a lookup stops**: admitting a call whose arguments are well-formed comes to a plan or
to a mismatch, unless an array size in what is read is too large for a word, or a brace list of an
argument holds `VOID`; so a lookup finds the first overload that admits the call, unless one of the
two is the case. -/
theorem lookup_faults {τ : Type} :
    (∀ (m : CastRules) (args : List Arg) (call sup : Signature) (strict : Bool), m.WellFormed →
      (∀ a ∈ args, a.type.WellFormed) →
      signature.compile (openCallForm args) Symbol.function strict = .ok call →
      sup.IsCompiled →
        (∃ r, m.admits call sup [] = .ok r) ∨
        ∃ e, m.admits call sup [] = .error e ∧
          Excused (Oversized m args [sup]) (ListsVoid args) e) ∧
    ∀ (r : Catalog τ) (domain name : String) (args : List Arg) (call : Signature), r.Reachable →
      r.WellShaped → (∀ a ∈ args, a.type.WellFormed) →
      signature.compile (openCallForm args) Symbol.function false = .ok call →
        (∃ res, r.search domain name args [] = .ok res ∧
          Catalog.IsFirst r.castRules call [] (r.overloadsOf domain name) res) ∨
        ∃ e, r.search domain name args [] = .error e ∧
          Excused (Oversized r.castRules args
            ((r.overloadsOf domain name).map fun o => o.1.signature)) (ListsVoid args) e := by
  constructor
  · intro m args call sup strict hm hargs hcall hsup
    have hfinds := finds_of_wellFormed hm hargs hcall hsup (List.mem_singleton.mpr rfl)
    cases hres : m.admits call sup [] with
    | ok r => exact .inl ⟨r, rfl⟩
    | error e =>
      rw [hres] at hfinds
      exact .inr ⟨e, rfl, hfinds⟩
  · intro r domain name args call hr hshapes hargs hcall
    rw [Catalog.search_eq [] hcall]
    rcases Catalog.firstAdmitting_spec r.castRules call [] (r.overloadsOf domain name) with
      hfirst | ⟨e, he, ⟨o, i⟩, ho, hoe⟩
    · exact .inl hfirst
    · refine .inr ⟨e, he, ?_⟩
      obtain ⟨⟨src, strict, hs⟩, _⟩ := hr.compiled i o (Catalog.mem_overloadsOf.mp ho).1
      have hsup : o.signature.IsCompiled := ⟨src, Symbol.function, strict, by decide, hs⟩
      have hmem : o.signature ∈ (r.overloadsOf domain name).map fun o => o.1.signature :=
        List.mem_map.mpr ⟨(o, i), ho, rfl⟩
      have hfinds := finds_of_wellFormed (hr.castRules hshapes) hargs hcall hsup hmem
      rw [hoe] at hfinds
      exact hfinds

theorem concretize_plain {formal u : Tree} {ts : List String} (b : Bindings)
    (hheads : formal.heads = []) (hsub : formal.substitute b.texts? = some ts)
    (hparse : signature.parsePlain ts formal.symbol = some u) :
    concretize formal b = (Ty.ofTree u).map some := by
  unfold concretize
  simp only [hsub, hheads, hparse, List.any_nil, Bool.false_eq_true, if_false]

/-! ## An array size that hides an overload -/

def wordTree : Tree := .branch Symbol.arithmetic 5 [.leaf Kind.i32.token ⟨Kind.i32.token, none⟩]

def largeParam : Tree :=
  .branch Symbol.paramObject 0 [.branch Symbol.object 2 [.branch Symbol.array 0
    [.leaf Keyword.array ⟨Keyword.array, none⟩, .leaf Symbol.num ⟨"9223372036854775808", none⟩,
      .branch Symbol.object 0 [wordTree]]]]

def largeProcedure : Signature :=
  ⟨["FUNCTION", "VOID", "(", "ARRAY", "9223372036854775808", "I32", ")"], [],
    Binding.ofTexts ["FUNCTION", "VOID", "(", "ARRAY", "9223372036854775808", "I32", ")"],
    Symbol.function, procedureTree (paramsTree [largeParam])⟩

def wordProcedure : Signature :=
  ⟨["FUNCTION", "VOID", "(", "I32", ")"], [],
    Binding.ofTexts ["FUNCTION", "VOID", "(", "I32", ")"],
    Symbol.function, procedureTree (paramsTree [valueParam wordTree])⟩

def wordCall : Signature :=
  ⟨openCallForm [⟨.arith .i32, .none⟩], [], callTokens [[⟨"I32", none⟩]], Symbol.function,
    callTree (paramsTree [valueParam wordTree])⟩

theorem formed_wordTree : wordTree.Formed := by
  have hleaf := (spells_keyword (k := Kind.i32.token) (by decide)).formed
  exact formed_single (by decide) hleaf

theorem formed_largeParam : largeParam.Formed := by
  have hkeyword := (spells_keyword (k := Keyword.array) (by decide)).formed
  have hnum : (Tree.leaf Symbol.num ⟨"9223372036854775808", none⟩).Formed :=
    (spells_class (by decide) (classify_number (by decide))).formed
  have helem : (Tree.branch Symbol.object 0 [wordTree]).Formed :=
    formed_single (by decide) formed_wordTree
  refine formed_single (by decide) ?_
  refine formed_single (by decide) ?_
  exact formed_branch.mpr ⟨by decide, by simpa using ⟨hkeyword, hnum, helem⟩⟩

theorem compile_wordCall :
    signature.compile (openCallForm [⟨.arith .i32, .none⟩]) Symbol.function false =
      .ok wordCall := by
  have hstart : Symbol.function ∈ signatureWildcards := by decide
  have hparams := formed_paramsTree (l := [valueParam wordTree])
    (by simpa using formed_valueParam formed_wordTree rfl)
  exact compile_of_formed _ false ⟨[], callTokens [[⟨"I32", none⟩]]⟩ hstart
    (prepareBody_signature (by rintro ⟨_, _, _, _, _, _, _⟩ rfl; rfl))
    (formed_callTree hparams.1 hparams.2) rfl rfl

theorem compile_wordProcedure :
    signature.compileText "FUNCTION VOID ( I32 )" Symbol.function true = .ok wordProcedure := by
  have hstart : Symbol.function ∈ signatureWildcards := by decide
  have hparams := formed_paramsTree (l := [valueParam wordTree])
    (by simpa using formed_valueParam formed_wordTree rfl)
  exact compile_of_formed wordProcedure.source true ⟨[], wordProcedure.tokens⟩ hstart
    (prepareBody_signature (by rintro ⟨_, _, _, _, _, _, _⟩ rfl; rfl))
    (formed_procedureTree hparams.1 hparams.2) rfl rfl

theorem compile_largeProcedure :
    signature.compileText "FUNCTION VOID ( ARRAY 9223372036854775808 I32 )" Symbol.function true =
      .ok largeProcedure := by
  have hstart : Symbol.function ∈ signatureWildcards := by decide
  have hparams := formed_paramsTree (l := [largeParam]) (by simpa using ⟨formed_largeParam, rfl⟩)
  exact compile_of_formed largeProcedure.source true ⟨[], largeProcedure.tokens⟩ hstart
    (prepareBody_signature (by rintro ⟨_, _, _, _, _, _, _⟩ rfl; rfl))
    (formed_procedureTree hparams.1 hparams.2) rfl rfl

theorem admits_largeProcedure (m : CastRules) :
    m.admits wordCall largeProcedure [] = .error (.arraySize "9223372036854775808") := by
  have hparse : signature.parsePlain ["ARRAY", "9223372036854775808", "I32"] Symbol.paramObject =
      some largeParam :=
    (parsePlain_eq_some_iff (by decide)).mpr ⟨formed_largeParam, rfl, rfl⟩
  have htarget : concretize largeParam [] = .error (.arraySize "9223372036854775808") := by
    rw [concretize_plain [] rfl rfl hparse]
    rfl
  have hplan : m.admits wordCall largeProcedure [] =
      (finishAll m.cast [] [.convert .none (valueParam wordTree) largeParam]).map fun r =>
        r.map fun transfers => ⟨transfers, [], some ["VOID"]⟩ := rfl
  rw [hplan, finishAll, finish, htarget]
  rfl

theorem Excused.huge_of_arraySize {n : String} (h : Excused huge void (.arraySize n)) : huge := by
  rcases h with ⟨hhuge, _⟩ | ⟨_, c, ref, h⟩
  · exact hhuge
  · cases h

theorem exists_hiding : ∃ r : Catalog Unit, r.Reachable ∧ r.WellShaped ∧
    (r.overloadsOf globalDomain "f").map (fun o => o.1.signature) =
      [largeProcedure, wordProcedure] := by
  obtain ⟨r, _, hnew⟩ := Catalog.exists_new Unit
  obtain ⟨hconfig, _, hshaped, hnone⟩ := Catalog.new_spec hnew
  have hnil : r.overloadsOf globalDomain "f" = [] := hnone _ _ (by decide)
  let large : Overload Unit := ⟨⟨globalDomain, "f", largeProcedure⟩, none⟩
  let word : Overload Unit := ⟨⟨globalDomain, "f", wordProcedure⟩, none⟩
  have hcompile := compile_largeProcedure
  rw [show true = r.config.strictWildcards by rw [hconfig]; rfl] at hcompile
  have hr : (r.addOverload large).Reachable := by
    refine .declare (.new hnew) (Catalog.declare_fresh none hcompile rfl ?_)
    rw [Catalog.declared?, hnil]
    rfl
  have hlarge : (r.addOverload large).overloadsOf globalDomain "f" =
      [(large, r.overloads.size)] := by
    rw [Catalog.overloadsOf_addOverload, hnil]
    rfl
  have hcompile := compile_wordProcedure
  rw [show true = (r.addOverload large).config.strictWildcards by
    rw [Catalog.addOverload, hconfig]; rfl] at hcompile
  have hr : ((r.addOverload large).addOverload word).Reachable := by
    refine .declare hr (Catalog.declare_fresh none hcompile rfl ?_)
    rw [Catalog.declared?, hlarge]
    rfl
  refine ⟨_, hr, hshaped, ?_⟩
  rw [Catalog.overloadsOf_addOverload, hlarge]
  rfl

/-- an overload with an array size too large, and after it one that fits: the lookup stops at the
first -/
theorem lookup_faults_hidden :
    ∃ r : Catalog Unit, r.Reachable ∧ r.WellShaped ∧
      (r.overloadsOf globalDomain "f").map (fun o => o.1.signature) =
        [largeProcedure, wordProcedure] ∧
      (∃ plan, r.castRules.admits wordCall wordProcedure [] = .ok (some plan)) ∧
      r.search globalDomain "f" [⟨.arith .i32, .none⟩] [] =
        .error (.arraySize "9223372036854775808") ∧
      Oversized r.castRules [⟨.arith .i32, .none⟩] [largeProcedure] ∧
      Oversized r.castRules [⟨.arith .i32, .none⟩] [largeProcedure, wordProcedure] := by
  obtain ⟨r, hr, hshaped, hsignatures⟩ := exists_hiding
  have hsearch : r.search globalDomain "f" [⟨.arith .i32, .none⟩] [] =
      .error (.arraySize "9223372036854775808") := by
    obtain ⟨⟨o, i⟩, os, hos, ho, -⟩ := List.map_eq_cons_iff.mp hsignatures
    rw [Catalog.search_eq [] compile_wordCall, hos, Catalog.firstAdmitting, ho]
    simp only [List.map_nil, admits_largeProcedure]
  have hwell : ∀ a ∈ [(⟨.arith .i32, .none⟩ : Arg)], a.type.WellFormed := by
    rw [List.forall_mem_singleton]
    trivial
  refine ⟨r, hr, hshaped, hsignatures, ⟨⟨[.clone], [], some ["VOID"]⟩, rfl⟩, hsearch, ?_, ?_⟩
  · have hrules := hr.castRules hshaped
    have hlarge : largeProcedure.IsCompiled :=
      ⟨_, Symbol.function, true, by decide, compile_largeProcedure⟩
    have hadmits := admits_largeProcedure r.castRules
    rcases (@lookup_faults Unit).1 _ _ _ _ _ hrules hwell compile_wordCall hlarge with
      ⟨res, hres⟩ | ⟨e, he, hexcused⟩
    · rw [hadmits] at hres
      cases hres
    · rw [hadmits] at he
      cases he
      exact hexcused.huge_of_arraySize
  · rcases lookup_faults.2 _ globalDomain "f" _ _ hr hshaped hwell compile_wordCall with
      ⟨res, hres, _⟩ | ⟨e, he, hexcused⟩
    · rw [hsearch] at hres
      cases hres
    · rw [hsearch] at he
      cases he
      rw [← hsignatures]
      exact hexcused.huge_of_arraySize

end Overloading
