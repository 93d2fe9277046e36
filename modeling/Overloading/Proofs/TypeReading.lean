import Overloading.Proofs.TypeTrees

/-!
# Reading types

What reading a text as a type comes to, whether or not it comes to a type.

* `shortenSizes`    a text whose array sizes outside function forms have no zeros in front;
* `Balanced`        a text that opens as many function forms as it closes; the tokens of a formed
                    tree are one (`balanced_tree`), so a text is shortened piece by piece;
* `Ty.Written`      a type that is read back from its tokens, with all that its brace lists hold;
* `ReadsTo`         reading comes to something good, or stops at a size that does not fit a word;
* `Tree.readable`   every tree of a type is read to one that is written like the shortened text and
                    has a tree over its own tokens; without wildcards it is well formed;
* `reads_param`     the same for parameters, whose marker is dropped.

With the trees of well-formed types this makes writing and reading inverse to each other
(`type_tokens_roundtrip`), and whatever is read from a text can be written
(`written_of_readType`): what the reading drops, the zeros in front of an array size, is not missed,
and what it keeps, the wildcards in a function form, is written as it stood.
-/

namespace Overloading

open Grammar Overloading.Text

/-! ## Zeros in front -/

namespace Text

/-- digits without the zeros in front; the last digit stays -/
def trimZeros : List Char → List Char
  | '0' :: c :: cs => trimZeros (c :: cs)
  | cs => cs

/-- a number without the zeros in front -/
def shorten (t : String) : String := String.ofList (trimZeros t.toList)

theorem digitChar_toNat {c : Char} (h : isAsciiDigit c = true) :
    Nat.digitChar (c.toNat - 48) = c := by
  obtain ⟨h1, h2⟩ := Bool.and_eq_true_iff.mp h
  have h1 := of_decide_eq_true h1
  have h2 := of_decide_eq_true h2
  apply Char.toNat_inj.mp
  rw [Nat.toNat_digitChar_of_lt_ten (by omega)]
  omega

theorem toDigits_digit {c : Char} (h : isAsciiDigit c = true) :
    Nat.toDigits 10 (c.toNat - 48) = [c] := by
  have hlt : c.toNat - 48 < 10 := by
    have := of_decide_eq_true (Bool.and_eq_true_iff.mp h).2
    omega
  rw [Nat.toDigits_of_lt_base hlt, digitChar_toNat h]

theorem toDigits_foldl {cs : List Char} (hcs : ∀ c ∈ cs, isAsciiDigit c = true) {n : Nat}
    (hn : 0 < n) :
    Nat.toDigits 10 (cs.foldl (fun n c => 10 * n + (c.toNat - 48)) n) =
      Nat.toDigits 10 n ++ cs := by
  induction cs generalizing n with
  | nil => simp
  | cons c cs ih =>
    have hc := hcs c List.mem_cons_self
    have hlt : c.toNat - 48 < 10 := by
      have := of_decide_eq_true (Bool.and_eq_true_iff.mp hc).2
      omega
    have hstep : Nat.toDigits 10 (10 * n + (c.toNat - 48)) = Nat.toDigits 10 n ++ [c] := by
      rw [← toDigits_digit hc, Nat.toDigits_append_toDigits (by omega) hn hlt]
    rw [List.foldl_cons, ih (fun d hd => hcs d (List.mem_cons_of_mem _ hd)) (by omega), hstep,
      List.append_assoc]
    rfl

theorem toDigits_digitsValue {cs : List Char} (hne : cs ≠ [])
    (hcs : ∀ c ∈ cs, isAsciiDigit c = true) : Nat.toDigits 10 (digitsValue cs) = trimZeros cs := by
  induction cs using trimZeros.induct with
  | case1 c cs ih =>
    rw [trimZeros, ← ih nofun fun d hd => hcs d (List.mem_cons_of_mem _ hd)]
    rfl
  | case2 cs hzero =>
    rw [trimZeros]
    · obtain ⟨c, cs, rfl⟩ := List.exists_cons_of_ne_nil hne
      have hc := hcs c List.mem_cons_self
      cases cs with
      | nil =>
        show Nat.toDigits 10 (10 * 0 + (c.toNat - 48)) = [c]
        rw [Nat.mul_zero, Nat.zero_add, toDigits_digit hc]
      | cons d ds =>
        have hpos : 0 < c.toNat - 48 := by
          have h48 := of_decide_eq_true (Bool.and_eq_true_iff.mp hc).1
          rcases Nat.lt_or_ge 48 c.toNat with h | h
          · omega
          · have : c = '0' := Char.toNat_inj.mp (by show c.toNat = 48; omega)
            exact absurd (by rw [this]) (hzero d ds)
        have := toDigits_foldl (fun e he => hcs e (List.mem_cons_of_mem _ he)) hpos
        rw [toDigits_digit hc] at this
        unfold digitsValue
        rw [List.foldl_cons, Nat.mul_zero, Nat.zero_add, this]
        rfl
    · exact hzero

theorem digits_of_isNumber {t : String} (h : isNumber t = true) :
    t.toList ≠ [] ∧ ∀ c ∈ t.toList, isAsciiDigit c = true := by
  unfold isNumber at h
  split at h
  · cases h
  · next hne => exact ⟨hne, List.all_eq_true.mp h⟩

theorem integer?_number {t : String} (h : isNumber t = true) :
    integer? t = some (digitsValue t.toList : Int) := by
  obtain ⟨hne, hall⟩ := digits_of_isNumber h
  unfold integer?
  split
  · next cs hcs => exact absurd (hall '-' (by rw [hcs]; exact List.mem_cons_self)) (by decide)
  · next cs hcs => exact absurd (hall '+' (by rw [hcs]; exact List.mem_cons_self)) (by decide)
  · have hempty : t.toList.isEmpty = false := by simpa using hne
    have hdigits : t.toList.all isAsciiDigit = true := List.all_eq_true.mpr hall
    unfold natural?
    rw [hempty, hdigits]
    rfl

/-- the value of a number is written like the number without the zeros in front -/
theorem toString_word {t : String} {z : Int} (ht : isNumber t = true) (hz : word? t = some z) :
    toString z.toNat = shorten t ∧ z.toNat < 2 ^ 63 := by
  obtain ⟨hne, hall⟩ := digits_of_isNumber ht
  unfold word? at hz
  rw [integer?_number ht, Option.filter_eq_some_iff] at hz
  obtain ⟨hz, hword⟩ := hz
  cases hz
  constructor
  · unfold shorten
    rw [Int.toNat_natCast, ← toDigits_digitsValue hne hall, Nat.toString_eq_ofList_toDigits]
  · unfold isWord at hword
    have hlt := of_decide_eq_true (Bool.and_eq_true_iff.mp hword).2
    rw [Nat.pow_eq] at hlt
    omega

end Text

/-! ## Sizes outside function forms -/

/-- how many function forms are open after a token -/
def depthAfter (d : Nat) (t : String) : Nat :=
  if t = Keyword.function then d + 1 else if t = Keyword.rparen then d - 1 else d

/-- a text with the zeros in front of its numbers left out, wherever no function form is open -/
def shortenSizes : (depth : Nat) → List String → List String
  | _, [] => []
  | d, t :: ts =>
    (if d = 0 ∧ isNumber t = true then shorten t else t) :: shortenSizes (depthAfter d t) ts

theorem shortenSizes_append (d : Nat) (ts us : List String) :
    shortenSizes d (ts ++ us) = shortenSizes d ts ++ shortenSizes (ts.foldl depthAfter d) us := by
  induction ts generalizing d with
  | nil => rfl
  | cons t ts ih =>
    rw [List.cons_append, shortenSizes, shortenSizes, ih, List.cons_append, List.foldl_cons]

/-- a text that closes the function forms it opens, and no other -/
def Balanced (ts : List String) : Prop :=
  ∀ d, ts.foldl depthAfter d = d ∧ shortenSizes (d + 1) ts = ts

theorem balanced_nil : Balanced [] := fun _ => ⟨rfl, rfl⟩

theorem Balanced.append {ts us : List String} (ht : Balanced ts) (hu : Balanced us) :
    Balanced (ts ++ us) := by
  intro d
  rw [List.foldl_append, (ht d).1, shortenSizes_append, (ht (d + 1)).1, (ht d).2, (hu d).2]
  exact ⟨(hu d).1, rfl⟩

theorem Balanced.shorten_append {ts : List String} (ht : Balanced ts) (us : List String) :
    shortenSizes 0 (ts ++ us) = shortenSizes 0 ts ++ shortenSizes 0 us := by
  rw [shortenSizes_append, (ht 0).1]

theorem depthAfter_other {t : String} (hf : t ≠ Keyword.function) (hp : t ≠ Keyword.rparen)
    (d : Nat) : depthAfter d t = d := by
  unfold depthAfter
  rw [if_neg hf, if_neg hp]

theorem shortenSizes_inside (d : Nat) (t : String) (ts : List String) :
    shortenSizes (d + 1) (t :: ts) = t :: shortenSizes (depthAfter (d + 1) t) ts := by
  rw [shortenSizes, if_neg (by omega)]

theorem balanced_singleton {t : String} (hf : t ≠ Keyword.function) (hp : t ≠ Keyword.rparen) :
    Balanced [t] := by
  intro d
  refine ⟨depthAfter_other hf hp d, ?_⟩
  rw [shortenSizes_inside, shortenSizes]

theorem balanced_function {ts : List String} (h : Balanced ts) :
    Balanced (Keyword.function :: (ts ++ [Keyword.rparen])) ∧
      shortenSizes 0 (Keyword.function :: (ts ++ [Keyword.rparen])) =
        Keyword.function :: (ts ++ [Keyword.rparen]) := by
  have hopen : ∀ d, depthAfter d Keyword.function = d + 1 := fun d => rfl
  have hclose : ∀ d, depthAfter (d + 1) Keyword.rparen = d := fun d => rfl
  have hinside : ∀ d, shortenSizes (d + 1) (ts ++ [Keyword.rparen]) = ts ++ [Keyword.rparen] := by
    intro d
    rw [shortenSizes_append, (h (d + 1)).1, (h d).2, shortenSizes_inside, shortenSizes]
  refine ⟨fun d => ⟨?_, ?_⟩, ?_⟩
  · rw [List.foldl_cons, hopen, List.foldl_append, (h (d + 1)).1]
    exact hclose d
  · rw [shortenSizes_inside, hopen, hinside]
  · have hnumber : ¬ (0 = 0 ∧ isNumber Keyword.function = true) := by decide
    rw [shortenSizes, if_neg hnumber, hopen, hinside]

/-- what opens and closes a function form -/
def formMarks : List Symbol := [Keyword.function, Keyword.rparen]

theorem balanced_of_not_mem {t : String} (h : t ∉ formMarks) : Balanced [t] :=
  balanced_singleton (fun e => h (by simp [formMarks, e])) fun e => h (by simp [formMarks, e])

/-! ## Function forms -/

theorem balanced_tree {t : Tree} (ht : t.Formed) (hs : t.symbol ∉ formMarks) :
    Balanced t.tokens := by
  have hopen : Balanced [Keyword.lparen] := balanced_of_not_mem (by decide)
  refine Tree.forms_induct (motive := fun t => Balanced t.tokens) (by decide) (by decide)
    (fun s tok htext => ?_) (fun s i tok htext => ?_) (fun i cs r l htokens hr hl => ?_)
    (fun s i cs _ ih => ?_) ht hs
  · rw [Tree.tokens]
    exact balanced_of_not_mem htext
  · rw [Tree.tokens]
    exact balanced_of_not_mem htext
  · rw [Tree.tokens, htokens]
    exact (balanced_function (hr.append (hopen.append hl))).1
  · rw [Tree.tokens]
    exact tokensAll_closed balanced_nil Balanced.append ih

theorem shortenSizes_word {t : String} (hbalanced : Balanced [t]) (hnumber : isNumber t = false)
    (ts : List String) : shortenSizes 0 (t :: ts) = t :: shortenSizes 0 ts := by
  have := hbalanced.shorten_append ts
  rw [List.singleton_append] at this
  rw [this, shortenSizes, if_neg (by rw [hnumber]; exact nofun), shortenSizes]
  rfl

theorem shortenSizes_keyword {k : String} (hk : k ∈ signatureKeywords)
    (hmark : k ∉ formMarks) (ts : List String) :
    shortenSizes 0 (k :: ts) = k :: shortenSizes 0 ts :=
  shortenSizes_word (balanced_of_not_mem hmark) (keyword_ne k hk).2.2.2.2 ts

theorem shortenSizes_number {n : String} (hn : isNumber n = true) (ts : List String) :
    shortenSizes 0 (n :: ts) = shorten n :: shortenSizes 0 ts := by
  have hbalanced : Balanced [n] := balanced_of_not_mem
    (not_mem_of_classify (by decide) (by rw [classify_number hn]; decide))
  have := hbalanced.shorten_append ts
  rw [List.singleton_append] at this
  rw [this, shortenSizes, if_pos ⟨rfl, hn⟩, shortenSizes]
  rfl

theorem shortenSizes_function {i : Nat} {cs : List Tree}
    (h : (Tree.branch Symbol.function i cs).Formed) :
    shortenSizes 0 (Tree.tokensAll cs) = Tree.tokensAll cs := by
  obtain ⟨r, l, hr, hl, hrs, hls, htokens⟩ := function_parts h
  have hcs := (formed_branch.mp h).2
  have hr := balanced_tree (hcs r hr) (by rw [hrs]; decide)
  have hl := balanced_tree (hcs l hl) (by rw [hls]; decide)
  have hopen : Balanced [Keyword.lparen] := balanced_of_not_mem (by decide)
  rw [htokens]
  exact (balanced_function (hr.append (hopen.append hl))).2

/-! ## Types that can be written -/

theorem readType_eq_ok {g : Grammar} {ts : List String} {ty : Ty} :
    g.readType ts = .ok ty ↔ ∃ t, g.parsePlain ts Symbol.type = some t ∧ Ty.ofTree t = .ok ty := by
  unfold readType
  cases g.parsePlain ts Symbol.type with
  | none => exact ⟨nofun, fun ⟨_, h, _⟩ => nomatch h⟩
  | some t => exact ⟨fun h => ⟨t, rfl, h⟩, fun ⟨_, e, h⟩ => by cases e; exact h⟩

theorem readType_of_shows {ts : List String} {t : Tree} {ty : Ty} (h : t.Shows Symbol.type ts)
    (hty : Ty.ofTree t = .ok ty) : signature.readType ts = .ok ty := by
  have hparse := (parsePlain_eq_some_iff (by decide)).mpr ⟨h.formed, h.symbol_eq, h.yield_eq⟩
  exact readType_eq_ok.mpr ⟨t, hparse, hty⟩

mutual
/-- a type with the elements of its brace lists, at any depth -/
def Ty.parts : Ty → List Ty
  | .list es => .list es :: Ty.partsAll es
  | ty => [ty]

def Ty.partsAll : List Ty → List Ty
  | [] => []
  | e :: es => e.parts ++ Ty.partsAll es
end

/-- a type that can be written: it is read back from its tokens, and so is what stands in its brace
lists.  A function type may have wildcards. -/
def Ty.Written (ty : Ty) : Prop := ∀ part ∈ ty.parts, signature.readType part.tokens = .ok part

theorem mem_partsAll {part : Ty} {es : List Ty} :
    part ∈ Ty.partsAll es ↔ ∃ e ∈ es, part ∈ e.parts := by
  induction es with
  | nil => simp [Ty.partsAll]
  | cons e es ih => simp [Ty.partsAll, ih]

theorem self_mem_parts (ty : Ty) : ty ∈ ty.parts := by
  cases ty <;> simp [Ty.parts]

theorem Ty.written_iff {ty : Ty} : ty.Written ↔
    signature.readType ty.tokens = .ok ty ∧ ∀ es, ty = .list es → ∀ e ∈ es, e.Written := by
  constructor
  · intro h
    refine ⟨h ty (self_mem_parts ty), ?_⟩
    rintro es rfl e he part hpart
    refine h part ?_
    rw [Ty.parts]
    exact List.mem_cons_of_mem _ (mem_partsAll.mpr ⟨e, he, hpart⟩)
  · rintro ⟨hread, helements⟩ part hpart
    cases ty with
    | list es =>
      rw [Ty.parts] at hpart
      rcases List.mem_cons.mp hpart with rfl | hpart
      · exact hread
      · obtain ⟨e, he, hpart⟩ := mem_partsAll.mp hpart
        exact helements es rfl e he part hpart
    | arith | pointer | array | cls | function | void =>
      rw [Ty.parts] at hpart
      · rw [List.mem_singleton.mp hpart]
        exact hread
      · exact nofun

theorem Ty.Written.read {ty : Ty} (h : ty.Written) : signature.readType ty.tokens = .ok ty :=
  (Ty.written_iff.mp h).1

theorem Ty.Written.element {es : List Ty} (h : (Ty.list es).Written) {e : Ty} (he : e ∈ es) :
    e.Written :=
  (Ty.written_iff.mp h).2 es rfl e he

/-! ## Readable trees -/

/-- a number that is too large for the size of an array -/
def Oversize (n : String) : Prop := isNumber n = true ∧ word? n = none

/-- reading tokens comes to something good, or stops; if they are closed, that is without wildcards,
it stops only at a size that is too large -/
def ReadsTo {α : Type} (closed : Prop) (ts : List String) (Good : α → Prop) : Except Fault α → Prop
  | .ok a => Good a
  | .error e => closed → ∃ n ∈ ts, Oversize n ∧ e = .arraySize n

section ReadsTo

variable {α β : Type} {closed closed' : Prop} {ts us : List String} {P : α → Prop}
  {r : Except Fault α}

theorem ReadsTo.map {Q : β → Prop} {f : α → β} (h : ReadsTo closed ts P r)
    (hclosed : closed' → closed) (hsub : ∀ n ∈ ts, n ∈ us) (hf : ∀ a, P a → Q (f a)) :
    ReadsTo closed' us Q (r.map f) := by
  cases r with
  | error e =>
    intro hc
    obtain ⟨n, hn, hover⟩ := h (hclosed hc)
    exact ⟨n, hsub n hn, hover⟩
  | ok a => exact hf a h

theorem ReadsTo.mono {Q : α → Prop} (h : ReadsTo closed ts P r) (hclosed : closed' → closed)
    (hsub : ∀ n ∈ ts, n ∈ us) (hPQ : ∀ a, P a → Q a) : ReadsTo closed' us Q r := by
  have := h.map (f := id) hclosed hsub hPQ
  cases r <;> exact this

end ReadsTo

def objectSymbols : List Symbol :=
  [Symbol.object, Symbol.arithmetic, Symbol.pointer, Symbol.array, Symbol.class_, Symbol.list]

def typeSymbols : List Symbol := Symbol.type :: Symbol.function :: objectSymbols

/-- a type that is written like the tokens of a tree, and is an object if the tree is one; it has a
tree over its own tokens, and can be written as far as it holds brace lists -/
structure Tree.Writes (t : Tree) (ty : Ty) : Prop where
  hasTree : ty.HasTree t.symbol
  elements : ∀ es, ty = .list es → ∀ e ∈ es, e.Written
  wellFormed : t.heads = [] → ty.WellFormed
  tokens_eq : ty.tokens = shortenSizes 0 t.tokens
  isObject : t.symbol ∈ objectSymbols → ty.isObject = true

structure Tree.WritesAll (t : Tree) (tys : List Ty) : Prop where
  hasTree : Ty.HasListTree tys
  written : ∀ ty ∈ tys, ty.Written
  wellFormed : t.heads = [] → Ty.WellFormedAll tys
  tokens_eq : Ty.tokensAll tys = shortenSizes 0 t.tokens

structure Tree.WritesOuter (t : Tree) (outer : Option ClassTy) : Prop where
  hasTree : ClassTy.HasOuterTree outer
  wellFormed : t.heads = [] → ClassTy.WellFormedOuter outer
  tokens_eq : ClassTy.tokensOuter outer = shortenSizes 0 t.tokens

theorem Tree.Writes.written {t : Tree} {ty : Ty} (h : t.Writes ty) (hs : t.symbol = Symbol.type) :
    ty.Written := by
  obtain ⟨u, hu⟩ := h.hasTree
  rw [hs] at hu
  exact Ty.written_iff.mpr ⟨readType_of_shows hu.toShows hu.type_eq, h.elements⟩

/-- what the tokens of a tree are read to, by the symbol of the tree -/
structure Tree.Readable (t : Tree) : Prop where
  type_reads : t.symbol ∈ typeSymbols → ReadsTo (t.heads = []) t.tokens t.Writes (Ty.ofTree t)
  list_reads : t.symbol = Symbol.typeList →
    ReadsTo (t.heads = []) t.tokens t.WritesAll (Ty.ofTypeList t)
  outer_reads : t.symbol = Symbol.enclosing → ∀ name,
    ReadsTo (t.heads = []) t.tokens t.WritesOuter (ClassTy.ofEnclosing name t)

/-! ## Every tree is read -/

theorem heads_child {s : Symbol} {i : Nat} {cs : List Tree} (h : (Tree.branch s i cs).heads = [])
    {c : Tree} (hc : c ∈ cs) : c.heads = [] := by
  refine List.eq_nil_iff_forall_not_mem.mpr fun x hx => ?_
  have hmem : x ∈ (Tree.branch s i cs).heads := Tree.mem_heads_branch.mpr ⟨c, hc, hx⟩
  rw [h] at hmem
  exact List.not_mem_nil hmem

theorem isNumber_of_classify {n : String} (h : signature.classify n = Symbol.num) :
    isNumber n = true := by
  rcases classify_cases n with ⟨hw, e⟩ | ⟨_, hk, e⟩ | ⟨_, _, hn, _⟩ | ⟨_, _, _, e⟩ | ⟨_, _, _, e⟩
  · exact absurd (e.symm.trans h) (headOf_ne n hw).2.1
  · exact absurd (e.symm.trans h) (keyword_ne n hk).2.1
  · exact hn
  · exact absurd (e.symm.trans h) (by decide)
  · exact absurd (e.symm.trans h) (by decide)

theorem name_of_classify {n : String} (h : signature.classify n = Symbol.ident) :
    Balanced [n] ∧ isNumber n = false := by
  refine ⟨balanced_of_not_mem (not_mem_of_classify (by decide) (by rw [h]; decide)), ?_⟩
  cases hn : isNumber n with
  | false => rfl
  | true => exact absurd ((classify_number hn).symm.trans h) (by decide)

namespace Tree.Readable

variable {s : Symbol} {i : Nat} {cs : List Tree} {t : Tree}

theorem of_type (hs : t.symbol ∈ typeSymbols)
    (h : ReadsTo (t.heads = []) t.tokens t.Writes (Ty.ofTree t)) : t.Readable := by
  have hnot : Symbol.typeList ∉ typeSymbols ∧ Symbol.enclosing ∉ typeSymbols := by decide
  exact ⟨fun _ => h, fun e => absurd (e ▸ hs) hnot.1, fun e => absurd (e ▸ hs) hnot.2⟩

theorem wrap {c : Tree} (hs : s = Symbol.type ∨ s = Symbol.object)
    (h : (Tree.branch s i [c]).Formed) (hsym : c.symbol ∈ typeSymbols)
    (hobject : s = Symbol.object → c.symbol ∈ objectSymbols) (ih : c.Readable) :
    (Tree.branch s i [c]).Readable := by
  have hmem : ∀ x ∈ typeSymbols, x ∈ signatureRules.map Rule.head := by decide
  have hwrapper : s.isWrapper = true := by rcases hs with rfl | rfl <;> decide
  obtain ⟨halt, hcs⟩ := formed_branch.mp h
  have hread : Ty.ofTree (.branch s i [c]) = Ty.ofTree c :=
    ofTree_wrap hwrapper (isLeaf_of_formed (hcs c List.mem_cons_self) (hmem _ hsym))
  have htokens : (Tree.branch s i [c]).tokens = c.tokens := by simp [Tree.tokens]
  have hclosed : (Tree.branch s i [c]).heads = [] → c.heads = [] :=
    fun hheads => heads_child hheads List.mem_cons_self
  refine of_type (show s ∈ typeSymbols by rcases hs with rfl | rfl <;> decide) ?_
  rw [hread, htokens]
  refine (ih.type_reads hsym).mono hclosed (fun n hn => hn) fun ty hty =>
    { hasTree := hty.hasTree.wrap halt (hmem _ hsym) hwrapper
      elements := hty.elements
      wellFormed := fun hheads => hty.wellFormed (hclosed hheads)
      tokens_eq := by rw [htokens]; exact hty.tokens_eq
      isObject := fun ho => hty.isObject (hobject (hs.resolve_left ?_)) }
  rintro rfl
  exact absurd (show Symbol.type ∈ objectSymbols from ho) (by decide)

theorem void {c : Tree} (hc : c.Formed ∧ c.symbol = Keyword.void) :
    (Tree.branch Symbol.type i [c]).Readable := by
  obtain ⟨tok, rfl, htokens⟩ := keyword_of_formed (by decide) hc
  refine of_type (show Symbol.type ∈ typeSymbols by decide) ?_
  rw [Ty.ofTree, if_pos (by decide)]
  refine ⟨hasTree_void, by rintro _ ⟨⟩, fun _ => trivial, ?_,
    fun ho => absurd (show Symbol.type ∈ objectSymbols from ho) (by decide)⟩
  rw [Ty.tokens, Tree.tokens, Tree.tokensAll_cons, htokens, Tree.tokensAll_nil, List.append_nil,
    shortenSizes_keyword (by decide) (by decide)]
  rfl

theorem arithmetic (h : (Tree.branch Symbol.arithmetic i cs).Formed) :
    (Tree.branch Symbol.arithmetic i cs).Readable := by
  obtain ⟨body, hbody, hcs⟩ := children_of_formed h
  obtain ⟨k, _, rfl⟩ := List.mem_map.mp (show body ∈ Kind.all.map fun k => [k.token] from hbody)
  obtain _ | ⟨hc, _ | _⟩ := hcs
  have hk : k.token ∈ signatureKeywords ∧ k.token ∉ formMarks := by
    cases k <;> decide
  obtain ⟨tok, rfl, htokens⟩ := keyword_of_formed hk.1 hc
  refine of_type (show Symbol.arithmetic ∈ typeSymbols by decide) ?_
  have htext : tok.text = k.token := by simpa [Tree.tokens] using htokens
  rw [ofTree_arithmetic, htext, Kind.ofToken?_token]
  refine ⟨hasTree_arith k, by rintro _ ⟨⟩, fun _ => trivial, ?_, fun _ => rfl⟩
  rw [Ty.tokens, Tree.tokens, Tree.tokensAll_cons, htokens, Tree.tokensAll_nil, List.append_nil,
    shortenSizes_keyword hk.1 hk.2]
  rfl

theorem pointer (h : (Tree.branch Symbol.pointer i cs).Formed) (ih : ∀ c ∈ cs, c.Readable) :
    (Tree.branch Symbol.pointer i cs).Readable := by
  obtain ⟨body, hbody, hcs⟩ := children_of_formed h
  cases List.mem_singleton.mp hbody
  obtain _ | ⟨hk, _ | ⟨hc, _ | _⟩⟩ := hcs
  rename_i k c
  obtain ⟨tok, rfl, htokens⟩ := keyword_of_formed (by decide) hk
  have hread := (ih c (by simp)).type_reads (by rw [hc.2]; decide)
  have htokens : (Tree.branch Symbol.pointer i [.leaf Keyword.ptr tok, c]).tokens =
      Keyword.ptr :: c.tokens := by
    rw [Tree.tokens, Tree.tokensAll_cons, htokens, Tree.tokensAll_cons, Tree.tokensAll_nil,
      List.append_nil]
    rfl
  refine of_type (show Symbol.pointer ∈ typeSymbols by decide) ?_
  rw [ofTree_pointer]
  refine hread.map (fun hheads => heads_child hheads (by simp))
    (fun n hn => by rw [htokens]; exact List.mem_cons_of_mem _ hn) fun ty hty =>
    { hasTree := ?_
      elements := by rintro _ ⟨⟩
      wellFormed := fun hheads => ?_
      tokens_eq := ?_
      isObject := fun _ => rfl }
  · have := hty.hasTree
    rw [hc.2] at this
    exact this.pointer
  · rw [Ty.WellFormed]
    exact hty.wellFormed (heads_child hheads (by simp))
  · rw [htokens, shortenSizes_keyword (by decide) (by decide), Ty.tokens, hty.tokens_eq]

theorem array (h : (Tree.branch Symbol.array i cs).Formed) (ih : ∀ c ∈ cs, c.Readable) :
    (Tree.branch Symbol.array i cs).Readable := by
  obtain ⟨body, hbody, hcs⟩ := children_of_formed h
  cases List.mem_singleton.mp hbody
  obtain _ | ⟨hk, _ | ⟨hn, _ | ⟨hc, _ | _⟩⟩⟩ := hcs
  rename_i k n c
  obtain ⟨_, _, hkeyword⟩ := keyword_of_formed (by decide) hk
  obtain ⟨tok, hleaf, hclass⟩ := leaf_of_formed hn.1 (by rw [hn.2]; decide)
  rw [hn.2] at hleaf hclass
  subst hleaf
  have hnumber := isNumber_of_classify hclass
  have hread := (ih c (by simp)).type_reads (by rw [hc.2]; decide)
  refine of_type (show Symbol.array ∈ typeSymbols by decide) ?_
  rw [ofTree_array]
  have htokens : (Tree.branch Symbol.array i [k, .leaf Symbol.num tok, c]).tokens =
      Keyword.array :: tok.text :: c.tokens := by
    simp [Tree.tokens, hkeyword]
  cases hword : word? tok.text with
  | none =>
    intro _
    exact ⟨tok.text, by rw [htokens]; simp, ⟨hnumber, hword⟩, rfl⟩
  | some z =>
    obtain ⟨hsize, hlt⟩ := toString_word hnumber hword
    refine hread.map (fun hheads => heads_child hheads (by simp))
      (fun m hm => by rw [htokens]; simp [hm]) fun ty hty =>
      { hasTree := ?_
        elements := by rintro _ ⟨⟩
        wellFormed := fun hheads => ?_
        tokens_eq := ?_
        isObject := fun _ => rfl }
    · have := hty.hasTree
      rw [hc.2] at this
      exact this.array hlt
    · rw [Ty.WellFormed]
      exact ⟨hty.wellFormed (heads_child hheads (by simp)),
        hty.isObject (by rw [hc.2]; decide), hlt⟩
    · rw [htokens, shortenSizes_keyword (by decide) (by decide), shortenSizes_number hnumber,
        Ty.tokens, hty.tokens_eq, hsize]

theorem function (h : (Tree.branch Symbol.function i cs).Formed)
    (hplain : (Tree.branch Symbol.function i cs).Plain) :
    (Tree.branch Symbol.function i cs).Readable := by
  have hshows : (Tree.branch Symbol.function i cs).Shows Symbol.function (Tree.tokensAll cs) :=
    ⟨h, rfl, by rw [hplain.yield_eq, Tree.tokens]⟩
  refine of_type (show Symbol.function ∈ typeSymbols by decide) ?_
  rw [ofTree_function]
  refine ⟨⟨_, hshows.function⟩, by rintro _ ⟨⟩, fun hheads => ?_, ?_,
    fun ho => absurd (show Symbol.function ∈ objectSymbols from ho) (by decide)⟩
  · have hstart : Symbol.function ∈ signatureWildcards := by decide
    have hparse := (parsePlain_eq_some_iff hstart).mpr ⟨h, rfl, hshows.yield_eq⟩
    rw [Ty.WellFormed]
    refine ⟨recognize_eq_true_iff.mpr ⟨_, hparse⟩, fun x hx => ?_⟩
    have hfree := (Tree.heads_eq_nil_iff h (Tree.ordinary_wildcard hstart)).mp hheads
    refine hfree ⟨x, none⟩ ?_
    rw [hshows.yield_eq]
    exact List.mem_map_of_mem hx
  · rw [Ty.tokens, Tree.tokens, shortenSizes_function h]

theorem of_list (hs : t.symbol = Symbol.typeList)
    (h : ReadsTo (t.heads = []) t.tokens t.WritesAll (Ty.ofTypeList t)) : t.Readable :=
  ⟨fun e => absurd (hs ▸ e) (by decide), fun _ => h, fun e => absurd (hs.symm.trans e) (by decide)⟩

theorem typeList (h : (Tree.branch Symbol.typeList i cs).Formed) (ih : ∀ c ∈ cs, c.Readable) :
    (Tree.branch Symbol.typeList i cs).Readable := by
  obtain ⟨body, hbody, hcs⟩ := children_of_formed h
  obtain rfl | hbody := List.mem_cons.mp hbody
  · obtain _ | ⟨hc, _ | ⟨hl, _ | _⟩⟩ := hcs
    rename_i c l
    have hread := (ih c (by simp)).type_reads (by rw [hc.2]; decide)
    have hrest := (ih l (by simp)).list_reads hl.2
    have hbalanced := balanced_tree hc.1 (by rw [hc.2]; decide)
    have htokens : (Tree.branch Symbol.typeList i [c, l]).tokens = c.tokens ++ l.tokens := by
      simp [Tree.tokens]
    refine of_list rfl ?_
    rw [Ty.ofTypeList]
    cases hty : Ty.ofTree c with
    | error e =>
      rw [hty] at hread
      exact hread.mono (Q := fun _ => True) (fun hheads => heads_child hheads (by simp))
        (fun n hn => by rw [htokens]; exact List.mem_append_left _ hn) fun _ _ => trivial
    | ok ty =>
      rw [hty] at hread
      refine hrest.map (fun hheads => heads_child hheads (by simp))
        (fun n hn => by rw [htokens]; exact List.mem_append_right _ hn) fun tys htys =>
        { hasTree := ?_
          written := List.forall_mem_cons.mpr ⟨hread.written hc.2, htys.written⟩
          wellFormed := fun hheads => ?_
          tokens_eq := ?_ }
      · have := hread.hasTree
        rw [hc.2] at this
        exact .cons this htys.hasTree
      · rw [Ty.WellFormedAll]
        exact ⟨hread.wellFormed (heads_child hheads (by simp)),
          htys.wellFormed (heads_child hheads (by simp))⟩
      · rw [htokens, Ty.tokensAll, hbalanced.shorten_append, hread.tokens_eq, htys.tokens_eq]
  · cases List.mem_singleton.mp hbody
    cases hcs
    refine of_list rfl ?_
    rw [Ty.ofTypeList]
    · exact ⟨hasListTree_nil, List.forall_mem_nil _, fun _ => trivial, rfl⟩
    · intro _ _ _ _ e
      cases e

theorem list (h : (Tree.branch Symbol.list i cs).Formed) (ih : ∀ c ∈ cs, c.Readable) :
    (Tree.branch Symbol.list i cs).Readable := by
  obtain ⟨body, hbody, hcs⟩ := children_of_formed h
  cases List.mem_singleton.mp hbody
  obtain _ | ⟨hk, _ | ⟨ho, _ | ⟨hl, _ | ⟨hr, _ | _⟩⟩⟩⟩ := hcs
  rename_i k o l r
  obtain ⟨_, _, hkeyword⟩ := keyword_of_formed (by decide) hk
  obtain ⟨_, _, hopen⟩ := keyword_of_formed (by decide) ho
  obtain ⟨_, _, hclose⟩ := keyword_of_formed (by decide) hr
  have hread := (ih l (by simp)).list_reads hl.2
  have hbalanced := balanced_tree hl.1 (by rw [hl.2]; decide)
  have htokens : (Tree.branch Symbol.list i [k, o, l, r]).tokens =
      Keyword.list :: Keyword.langle :: (l.tokens ++ [Keyword.rangle]) := by
    simp [Tree.tokens, hkeyword, hopen, hclose]
  refine of_type (show Symbol.list ∈ typeSymbols by decide) ?_
  rw [ofTree_list]
  refine hread.map (fun hheads => heads_child hheads (by simp))
    (fun n hn => by rw [htokens]; simp [hn]) fun tys htys =>
    { hasTree := htys.hasTree.list
      elements := by rintro _ ⟨⟩; exact htys.written
      wellFormed := fun hheads => ?_
      tokens_eq := ?_
      isObject := fun _ => rfl }
  · rw [Ty.WellFormed]
    exact htys.wellFormed (heads_child hheads (by simp))
  · rw [htokens, shortenSizes_keyword (by decide) (by decide),
      shortenSizes_keyword (by decide) (by decide), hbalanced.shorten_append,
      shortenSizes_keyword (by decide) (by decide), Ty.tokens, htys.tokens_eq]
    rfl

theorem class_ (h : (Tree.branch Symbol.class_ i cs).Formed) (ih : ∀ c ∈ cs, c.Readable) :
    (Tree.branch Symbol.class_ i cs).Readable := by
  obtain ⟨body, hbody, hcs⟩ := children_of_formed h
  cases List.mem_singleton.mp hbody
  obtain _ | ⟨hk, _ | ⟨hn, _ | ⟨ho, _ | ⟨hl, _ | ⟨hr, _ | ⟨he, _ | _⟩⟩⟩⟩⟩⟩ := hcs
  rename_i k n o l r e
  obtain ⟨_, _, hkeyword⟩ := keyword_of_formed (by decide) hk
  obtain ⟨tok, hleaf, hclass⟩ := leaf_of_formed hn.1 (by rw [hn.2]; decide)
  obtain ⟨_, _, hopen⟩ := keyword_of_formed (by decide) ho
  obtain ⟨_, _, hclose⟩ := keyword_of_formed (by decide) hr
  rw [hn.2] at hleaf hclass
  subst hleaf
  obtain ⟨hname, hnumber⟩ := name_of_classify hclass
  have hbalanced := balanced_tree hl.1 (by rw [hl.2]; decide)
  have hargs := (ih l (by simp)).list_reads hl.2
  have houter := (ih e (by simp)).outer_reads he.2 tok.text
  have htokens : (Tree.branch Symbol.class_ i [k, .leaf Symbol.ident tok, o, l, r, e]).tokens =
      Keyword.class_ :: tok.text :: Keyword.langle ::
        (l.tokens ++ Keyword.rangle :: e.tokens) := by
    simp [Tree.tokens, hkeyword, hopen, hclose]
  refine of_type (show Symbol.class_ ∈ typeSymbols by decide) ?_
  rw [ofTree_class]
  unfold ClassTy.ofParts
  cases htys : Ty.ofTypeList l with
  | error f =>
    rw [htys] at hargs
    exact hargs.mono (Q := fun _ => True) (fun hheads => heads_child hheads (by simp))
      (fun n hn => by simp [htokens, hn]) fun _ _ => trivial
  | ok tys =>
    rw [htys] at hargs
    cases hclass' : ClassTy.ofEnclosing tok.text e with
    | error f =>
      rw [hclass'] at houter
      exact houter.mono (Q := fun _ => True) (fun hheads => heads_child hheads (by simp))
        (fun n hn => by simp [htokens, hn]) fun _ _ => trivial
    | ok outer =>
      rw [hclass'] at houter
      refine ⟨hasTree_class hclass hargs.hasTree houter.hasTree, by rintro _ ⟨⟩, fun hheads => ?_,
        ?_, fun _ => rfl⟩
      · rw [Ty.WellFormed, ClassTy.WellFormed]
        exact ⟨hclass, hargs.wellFormed (heads_child hheads (by simp)),
          houter.wellFormed (heads_child hheads (by simp))⟩
      · rw [htokens, shortenSizes_keyword (by decide) (by decide), shortenSizes_word hname hnumber,
          shortenSizes_keyword (by decide) (by decide), hbalanced.shorten_append,
          shortenSizes_keyword (by decide) (by decide), Ty.tokens, ClassTy.tokens, hargs.tokens_eq,
          houter.tokens_eq]

theorem of_enclosing (hs : t.symbol = Symbol.enclosing)
    (h : ∀ name, ReadsTo (t.heads = []) t.tokens t.WritesOuter (ClassTy.ofEnclosing name t)) :
    t.Readable :=
  ⟨fun e => absurd (hs ▸ e) (by decide), fun e => absurd (hs.symm.trans e) (by decide), fun _ => h⟩

theorem enclosing (h : (Tree.branch Symbol.enclosing i cs).Formed) (ih : ∀ c ∈ cs, c.Readable) :
    (Tree.branch Symbol.enclosing i cs).Readable := by
  obtain ⟨body, hbody, hcs⟩ := children_of_formed h
  obtain rfl | hbody := List.mem_cons.mp hbody
  · obtain _ | ⟨hk, _ | ⟨hc, _ | _⟩⟩ := hcs
    rename_i k c
    refine of_enclosing rfl fun name => ?_
    have hclosed : (Tree.branch Symbol.enclosing i [k, c]).heads = [] → c.heads = [] :=
      fun hheads => heads_child hheads (by simp)
    cases hhead : c.isHead with
    | true =>
      cases c with
      | leaf | branch => cases hhead
      | head s j tok =>
        rw [ClassTy.ofEnclosing]
        intro hheads
        have := hclosed hheads
        rw [Tree.heads] at this
        cases this
    | false =>
      obtain ⟨_, _, hkeyword⟩ := keyword_of_formed (by decide) hk
      obtain ⟨r, htype, houter⟩ := class_shape hc.1 hc.2 hhead
      have hread := (ih c (by simp)).type_reads (by rw [hc.2]; decide)
      rw [htype] at hread
      have htokens : (Tree.branch Symbol.enclosing i [k, c]).tokens = Keyword.in_ :: c.tokens := by
        simp [Tree.tokens, hkeyword]
      rw [houter, htokens]
      cases r with
      | error f =>
        exact ReadsTo.mono (α := Ty) (r := .error f) hread (Q := fun _ => True) hclosed
          (fun n hn => List.mem_cons_of_mem _ hn) fun _ _ => trivial
      | ok d =>
        refine ⟨?_, fun hheads => ?_, ?_⟩
        · have := hread.hasTree
          rw [hc.2] at this
          exact this.outer
        · have := hread.wellFormed (hclosed hheads)
          rwa [Ty.WellFormed] at this
        · have := hread.tokens_eq
          rw [Ty.tokens] at this
          rw [htokens, ClassTy.tokensOuter, shortenSizes_keyword (by decide) (by decide), this]
  · cases List.mem_singleton.mp hbody
    cases hcs
    refine of_enclosing rfl fun name => ?_
    rw [ClassTy.ofEnclosing]
    · exact ⟨hasOuterTree_none, fun _ => trivial, rfl⟩
    · intro _ _ _ _ e
      cases e

theorem head {tok : Token} (h : (Tree.head s i tok).Formed) : (Tree.head s i tok).Readable := by
  have hwild := (formed_head.mp h).1
  have hnot : Symbol.typeList ∉ signatureWildcards ∧ Symbol.enclosing ∉ signatureWildcards := by
    decide
  refine ⟨fun _ => ?_, fun e => absurd ((show s = _ from e) ▸ hwild) hnot.1,
    fun e => absurd ((show s = _ from e) ▸ hwild) hnot.2⟩
  rw [Ty.ofTree]
  intro hheads
  rw [Tree.heads] at hheads
  cases hheads

end Tree.Readable

theorem symbol_cases : ∀ s ∈ signatureRules.map Rule.head,
    (s = Symbol.type ∨ s = Symbol.object) ∨ s = Symbol.arithmetic ∨ s = Symbol.pointer ∨
      s = Symbol.array ∨ s = Symbol.class_ ∨ s = Symbol.list ∨ s = Symbol.function ∨
      s = Symbol.typeList ∨ s = Symbol.enclosing ∨
      s ∉ typeSymbols ∧ s ≠ Symbol.typeList ∧ s ≠ Symbol.enclosing := by
  decide

theorem wrapper_alternatives : ∀ s ∈ [Symbol.type, Symbol.object], ∀ body ∈ alternatives s,
    (∃ x ∈ typeSymbols, body = [x] ∧ (s = Symbol.object → x ∈ objectSymbols)) ∨
      s = Symbol.type ∧ body = [Keyword.void] := by
  decide

/-- every tree over plain tokens is read, whatever symbol it derives -/
theorem Tree.readable {t : Tree} (ht : t.Formed) (hplain : t.Plain) : t.Readable := by
  induction t using Tree.induct with
  | leaf s tok =>
    have hs := (formed_leaf.mp ht).1
    have hmem : ∀ x ∈ Symbol.typeList :: Symbol.enclosing :: typeSymbols,
        x ∈ signatureRules.map Rule.head := by decide
    exact ⟨fun e => absurd (hmem s (by simp [show s ∈ typeSymbols from e])) hs,
      fun e => absurd (hmem s (by simp [show s = _ from e])) hs,
      fun e => absurd (hmem s (by simp [show s = _ from e])) hs⟩
  | head s i tok => exact .head ht
  | branch s i cs ih =>
    have ih : ∀ c ∈ cs, c.Readable := fun c hc =>
      ih c hc ((formed_branch.mp ht).2 c hc) (hplain.child hc)
    obtain hs | rfl | rfl | rfl | rfl | rfl | rfl | rfl | rfl | ⟨h1, h2, h3⟩ :=
      symbol_cases s (formed_symbol_mem ht rfl)
    · obtain ⟨body, hbody, hcs⟩ := children_of_formed ht
      have hmem : s ∈ [Symbol.type, Symbol.object] := by simpa using hs
      obtain ⟨x, hx, rfl, hobject⟩ | ⟨rfl, rfl⟩ := wrapper_alternatives s hmem body hbody
      · obtain _ | ⟨hc, _ | _⟩ := hcs
        exact .wrap hs ht (by rw [hc.2]; exact hx) (by rw [hc.2]; exact hobject) (ih _ (by simp))
      · obtain _ | ⟨hc, _ | _⟩ := hcs
        exact .void hc
    · exact .arithmetic ht
    · exact .pointer ht ih
    · exact .array ht ih
    · exact .class_ ht ih
    · exact .list ht ih
    · exact .function ht hplain
    · exact .typeList ht ih
    · exact .enclosing ht ih
    · exact ⟨fun e => absurd e h1, fun e => absurd e h2, fun e => absurd e h3⟩

/-! ## Sizes that are too large -/

/-- a number that is too large stands in the text -/
def HasOversize (ts : List String) : Prop := ∃ n ∈ ts, Oversize n

theorem HasOversize.mono {ts us : List String} (h : HasOversize ts) (hsub : ∀ n ∈ ts, n ∈ us) :
    HasOversize us := by
  obtain ⟨n, hn, hover⟩ := h
  exact ⟨n, hsub n hn, hover⟩

theorem oversize_of_shorten {t : String} (ht : isNumber t = true) (h : Oversize (shorten t)) :
    Oversize t := by
  obtain ⟨hne, hall⟩ := digits_of_isNumber ht
  have hlist : (shorten t).toList = Nat.toDigits 10 (digitsValue t.toList) := by
    unfold shorten
    rw [String.toList_ofList, toDigits_digitsValue hne hall]
  have hvalue : digitsValue (shorten t).toList = digitsValue t.toList := by
    rw [hlist]
    exact Nat.ofDigitChars_ten_toDigits
  refine ⟨ht, ?_⟩
  rw [← h.2]
  unfold word?
  rw [integer?_number ht, integer?_number h.1, hvalue]

theorem hasOversize_of_shortenSizes {d : Nat} {ts : List String}
    (h : HasOversize (shortenSizes d ts)) : HasOversize ts := by
  obtain ⟨n, hn, hover⟩ := h
  induction ts generalizing d with
  | nil => cases hn
  | cons t ts ih =>
    rw [shortenSizes] at hn
    rcases List.mem_cons.mp hn with rfl | hn
    · refine ⟨t, List.mem_cons_self, ?_⟩
      split at hover
      · next hnumber => exact oversize_of_shorten hnumber.2 hover
      · exact hover
    · exact (ih hn).mono fun m hm => List.mem_cons_of_mem _ hm

/-- reading comes to a well-formed type that has no number too large unless the text has one -/
def ReadsSafely (ts : List String) : Except Fault Ty → Prop :=
  ReadsTo True ts fun ty => ty.WellFormed ∧ (HasOversize ty.tokens → HasOversize ts)

/-- what a tree denotes through one of its children is read as safely as the child -/
theorem reads_through {t c : Tree} (hc : c.Formed) (hplain : c.Plain) (hheads : c.heads = [])
    (hs : c.symbol ∈ typeSymbols) (hsub : ∀ n ∈ c.tokens, n ∈ t.tokens)
    (heq : Ty.ofTree t = Ty.ofTree c) : ReadsSafely t.tokens (Ty.ofTree t) := by
  rw [heq]
  refine ((Tree.readable hc hplain).type_reads hs).mono (fun _ => hheads) hsub fun ty hty => ?_
  refine ⟨hty.wellFormed hheads, fun hover => ?_⟩
  rw [hty.tokens_eq] at hover
  exact (hasOversize_of_shortenSizes hover).mono hsub

theorem param_alternatives : ∀ body ∈ alternatives Symbol.paramObject,
    (∃ x ∈ [Symbol.object, Symbol.function], body = [x]) ∨
      ∃ k ∈ [Keyword.lref, Keyword.clref], body = [k, Symbol.object] := by
  decide

theorem reads_param {t : Tree} (ht : t.Formed) (hplain : t.Plain) (hheads : t.heads = [])
    (hs : t.symbol = Symbol.object ∨ t.symbol = Symbol.paramObject) :
    ReadsSafely t.tokens (Ty.ofTree t) := by
  rcases hs with hs | hs
  · exact reads_through ht hplain hheads (by rw [hs]; decide) (fun _ hn => hn) rfl
  cases t with
  | leaf s tok =>
    cases show s = Symbol.paramObject from hs
    exact absurd (by decide) (formed_leaf.mp ht).1
  | head s i tok => rw [Tree.heads] at hheads; cases hheads
  | branch s i cs =>
    cases show s = Symbol.paramObject from hs
    have hsymbols : ∀ x ∈ [Symbol.object, Symbol.function],
        x ∈ typeSymbols ∧ x ∈ signatureRules.map Rule.head := by decide
    have hsub : ∀ c ∈ cs, ∀ n ∈ c.tokens, n ∈ (Tree.branch Symbol.paramObject i cs).tokens := by
      intro c hc n hn
      rw [Tree.tokens, Tree.tokensAll_eq_flatMap]
      exact List.mem_flatMap.mpr ⟨c, hc, hn⟩
    obtain ⟨body, hbody, hcs⟩ := children_of_formed ht
    obtain ⟨x, hx, rfl⟩ | ⟨k, _, rfl⟩ := param_alternatives body hbody
    · obtain _ | ⟨hc, _ | _⟩ := hcs
      rename_i c
      have hmem : c ∈ [c] := List.mem_singleton.mpr rfl
      have hleaf := isLeaf_of_formed hc.1 (by rw [hc.2]; exact (hsymbols x hx).2)
      exact reads_through hc.1 (hplain.child hmem) (heads_child hheads hmem)
        (by rw [hc.2]; exact (hsymbols x hx).1) (hsub c hmem) (ofTree_wrap (by decide) hleaf)
    · obtain _ | ⟨_, _ | ⟨hc, _ | _⟩⟩ := hcs
      rename_i m _ c
      have hmem : c ∈ [m, c] := List.mem_cons_of_mem _ List.mem_cons_self
      have hleaf := isLeaf_of_formed hc.1 (by rw [hc.2]; decide)
      refine reads_through hc.1 (hplain.child hmem) (heads_child hheads hmem)
        (by rw [hc.2]; decide) (hsub c hmem) ?_
      rw [Ty.ofTree, if_pos (by decide)]
      simp only [hleaf, Bool.false_eq_true, if_false]

/-! ## Writing and reading -/

theorem readType_tokens {ty : Ty} (h : ty.WellFormed) :
    signature.readType ty.tokens = .ok ty := by
  obtain ⟨_, t, ht⟩ := hasTrees ty h
  exact readType_of_shows ht.toShows ht.type_eq

/-- two types that are written alike are one, for both are what that text is read to -/
theorem tokens_injective {ty ty' : Ty} (h : ty.WellFormed) (h' : ty'.WellFormed)
    (htokens : ty.tokens = ty'.tokens) : ty = ty' := by
  have hread := readType_tokens h
  rw [htokens, readType_tokens h'] at hread
  exact (Except.ok.inj hread).symm

theorem closed_of_parsePlain {s : Symbol} {ts : List String} {t : Tree}
    (hs : s ∈ signatureWildcards) (hfree : ∀ x ∈ ts, x ∉ signatureWildcards)
    (h : signature.parsePlain ts s = some t) : t.Spells s ts := by
  obtain ⟨hf, hsym, hy⟩ := (parsePlain_eq_some_iff hs).mp h
  exact Tree.Shows.spells ⟨hf, hsym, hy⟩ (wildcards_mem_heads s hs) hfree

theorem Tree.Spells.tokens_eq {s : Symbol} {ts : List String} {t : Tree} (h : t.Spells s ts) :
    t.tokens = ts := by
  rw [← Tree.texts_yield, h.yield_eq, Binding.texts_ofTexts]

theorem readType_wellFormed {ts : List String} {ty : Ty}
    (hfree : ∀ x ∈ ts, x ∉ signatureWildcards) (h : signature.readType ts = .ok ty) :
    ty.WellFormed ∧ ty.tokens = shortenSizes 0 ts := by
  obtain ⟨t, hparse, hty⟩ := readType_eq_ok.mp h
  have ht := closed_of_parsePlain (by decide) hfree hparse
  have hread := (Tree.readable ht.formed ht.plain).type_reads (by rw [ht.symbol_eq]; decide)
  rw [hty] at hread
  refine ⟨hread.wellFormed ht.heads_eq, ?_⟩
  rw [hread.tokens_eq, ht.tokens_eq]

/-- **A type that is read from a text can be written**, whatever wildcards stand in its function
forms. -/
theorem written_of_readType {ts : List String} {ty : Ty} (h : signature.readType ts = .ok ty) :
    ty.Written := by
  obtain ⟨t, hparse, hty⟩ := readType_eq_ok.mp h
  obtain ⟨hf, hs, hy⟩ := (parsePlain_eq_some_iff (by decide)).mp hparse
  have ht : t.Shows Symbol.type ts := ⟨hf, hs, hy⟩
  have hread := (Tree.readable ht.formed ht.plain).type_reads (by rw [hs]; decide)
  rw [hty] at hread
  exact hread.written hs

theorem Ty.WellFormed.written {ty : Ty} (h : ty.WellFormed) : ty.Written :=
  written_of_readType (readType_tokens h)

/-- writing a well-formed type and reading it back gives the type, so two well-formed types are
written alike just if they are equal; and a type that is read is written like the text it is read
from, without the zeros in front of the array sizes outside function forms -/
theorem type_tokens_roundtrip :
    (∀ t : Ty, t.WellFormed → signature.readType t.tokens = .ok t) ∧
    (∀ t u : Ty, t.WellFormed → u.WellFormed → (t.tokens = u.tokens ↔ t.beq u = true)) ∧
    ∀ (ts : List String) (t : Ty), (∀ x ∈ ts, x ∉ signatureWildcards) →
      signature.readType ts = .ok t → t.WellFormed ∧ t.tokens = shortenSizes 0 ts := by
  refine ⟨fun t => readType_tokens, fun t u ht hu => ⟨fun h => ?_, fun h => ?_⟩,
    fun ts t => readType_wellFormed⟩
  · have hread := readType_tokens ht
    rw [h, readType_tokens hu] at hread
    rw [Ty.beq_iff]
    exact (Except.ok.inj hread).symm
  · rw [(Ty.beq_iff t u).mp h]

theorem readType_array_zeros :
    signature.readType [Keyword.array, "007", Kind.i32.token] = .ok (.array (.arith .i32) 7) := by
  obtain ⟨c, hc⟩ := (hasTrees (.arith .i32) trivial).1 rfl
  have hnumber : (Tree.leaf Symbol.num ⟨"007", none⟩).Spells Symbol.num ["007"] :=
    spells_class (by decide) (classify_number (by decide))
  have harray := spells_branch (s := Symbol.array) (i := 0)
    (l := [(Keyword.array, [Keyword.array]), (Symbol.num, ["007"]),
      (Symbol.object, (Ty.arith .i32).tokens)]) rfl
    (.cons (spells_keyword (by decide)) (.cons hnumber (.cons hc.toSpells .nil)))
  have hobject := spells_branch (s := Symbol.object) (i := 2) (l := [(Symbol.array, _)]) rfl
    (.cons harray .nil)
  have htype := spells_branch (s := Symbol.type) (i := 0) (l := [(Symbol.object, _)]) rfl
    (.cons hobject .nil)
  have hword : word? "007" = some 7 := by decide
  have hty : Ty.ofTree (.branch Symbol.type 0 [.branch Symbol.object 2 [.branch Symbol.array 0
      [.leaf Keyword.array ⟨Keyword.array, none⟩, .leaf Symbol.num ⟨"007", none⟩, c]]]) =
      .ok (.array (.arith .i32) 7) := by
    rw [ofTree_wrap (by decide) rfl, ofTree_wrap (by decide) rfl, ofTree_array, hword, hc.type_eq]
    rfl
  have hread := readType_of_shows htype.toShows hty
  rw [Ty.tokens] at hread
  simpa using hread

theorem type_tokens_roundtrip_zeros :
    signature.readType [Keyword.array, "007", Kind.i32.token] = .ok (.array (.arith .i32) 7) ∧
    signature.readType (Ty.array (.arith .i32) 7).tokens = .ok (.array (.arith .i32) 7) ∧
    (Ty.array (.arith .i32) 7).tokens = shortenSizes 0 [Keyword.array, "007", Kind.i32.token] := by
  have hwell : (Ty.array (.arith .i32) 7).WellFormed := by
    rw [Ty.WellFormed]
    exact ⟨trivial, rfl, by decide⟩
  have hfree : ∀ x ∈ [Keyword.array, "007", Kind.i32.token], x ∉ signatureWildcards := by decide
  exact ⟨readType_array_zeros, type_tokens_roundtrip.1 _ hwell,
    (type_tokens_roundtrip.2.2 _ _ hfree readType_array_zeros).2⟩

end Overloading
