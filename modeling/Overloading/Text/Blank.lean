/-!
# Blanks

Signature texts are runs of tokens with blanks between them.  A blank is a character with the
Unicode property White_Space: the controls U+0009 to U+000D, the space, U+0085, U+00A0 and the
spaces and separators above them, twenty-five characters in all.

`fields` cuts a text at its blanks and keeps the nonempty pieces; `trim` drops the blanks at both
ends.
-/

namespace Overloading.Text

/-- the characters with the property White_Space -/
def isBlank (c : Char) : Bool :=
  let n := c.toNat
  if n < 128 then (9 ≤ n && n ≤ 13) || n == 32
  else
    n == 0x85 || n == 0xA0 || n == 0x1680 || (0x2000 ≤ n && n ≤ 0x200A) ||
      n == 0x2028 || n == 0x2029 || n == 0x202F || n == 0x205F || n == 0x3000

/-- a word joins the words after it unless it is empty -/
def keep (word : List Char) (words : List (List Char)) : List (List Char) :=
  if word.isEmpty then words else word :: words

/-- the word a text begins with, up to its first blank, and the words after that blank -/
def cut : List Char → List Char × List (List Char)
  | [] => ([], [])
  | c :: cs =>
    let (word, words) := cut cs
    if isBlank c then ([], keep word words) else (c :: word, words)

/-- the maximal blank-free pieces of a list of characters, in order -/
def words (cs : List Char) : List (List Char) := keep (cut cs).1 (cut cs).2

theorem words_cons_blank {c : Char} (h : isBlank c = true) (cs : List Char) :
    words (c :: cs) = words cs := by
  simp [words, cut, h, keep]

/-- characters of which none is a blank, and at least one there is -/
def IsWord (w : List Char) : Prop := w ≠ [] ∧ ∀ c ∈ w, isBlank c = false

theorem cut_append {w : List Char} (hw : ∀ c ∈ w, isBlank c = false) (cs : List Char) :
    cut (w ++ cs) = (w ++ (cut cs).1, (cut cs).2) := by
  induction w with
  | nil => rfl
  | cons c w ih =>
    rw [List.cons_append, cut, ih fun x hx => hw x (List.mem_cons_of_mem _ hx),
      hw c List.mem_cons_self]
    rfl

theorem words_word {w : List Char} (hw : IsWord w) : words w = [w] := by
  have hcut := cut_append hw.2 []
  rw [List.append_nil] at hcut
  unfold words
  rw [hcut]
  cases w with
  | nil => exact absurd rfl hw.1
  | cons c w => simp [cut, keep]

theorem words_append {w : List Char} (hw : IsWord w) (cs : List Char) :
    words (w ++ ' ' :: cs) = w :: words cs := by
  have hblank : isBlank ' ' = true := by decide
  unfold words
  rw [cut_append hw.2, cut, hblank]
  cases w with
  | nil => exact absurd rfl hw.1
  | cons c w => simp [keep]

theorem words_intercalate {ws : List (List Char)} (h : ∀ w ∈ ws, IsWord w) :
    words ([' '].intercalate ws) = ws := by
  induction ws with
  | nil => rfl
  | cons w ws ih =>
    have hw := h w List.mem_cons_self
    have ih := ih fun x hx => h x (List.mem_cons_of_mem _ hx)
    cases ws with
    | nil => simpa using words_word hw
    | cons v vs =>
      have hcons : [' '].intercalate (w :: v :: vs) = w ++ ' ' :: [' '].intercalate (v :: vs) := by
        simp [List.intercalate, List.intersperse]
      rw [hcons, words_append hw, ih]

theorem isWord_cut (cs : List Char) :
    (∀ c ∈ (cut cs).1, isBlank c = false) ∧ ∀ w ∈ (cut cs).2, IsWord w := by
  induction cs with
  | nil => exact ⟨List.forall_mem_nil _, List.forall_mem_nil _⟩
  | cons c cs ih =>
    obtain ⟨hword, hwords⟩ := ih
    rw [cut]
    cases hc : isBlank c with
    | false => exact ⟨List.forall_mem_cons.mpr ⟨hc, hword⟩, hwords⟩
    | true =>
      refine ⟨List.forall_mem_nil _, ?_⟩
      show ∀ w ∈ keep (cut cs).1 (cut cs).2, IsWord w
      cases hcut : (cut cs).1 with
      | nil => exact hwords
      | cons d ds =>
        rw [hcut] at hword
        exact List.forall_mem_cons.mpr ⟨⟨List.cons_ne_nil d ds, hword⟩, hwords⟩

theorem isWord_of_mem_words {cs w : List Char} (hw : w ∈ words cs) : IsWord w := by
  have h := (isWord_cut (' ' :: cs)).2 w
  exact h hw

/-- the tokens of a text: its maximal blank-free pieces, in order -/
def fields (s : String) : List String := (words s.toList).map String.ofList

theorem fields_intercalate (s : String) : fields (" ".intercalate (fields s)) = fields s := by
  have hlist : (fields s).map String.toList = words s.toList := by
    simp [fields, List.map_map, Function.comp_def]
  have hspace : " ".toList = [' '] := by decide
  show (words (" ".intercalate (fields s)).toList).map String.ofList = fields s
  rw [String.toList_intercalate, hlist, hspace,
    words_intercalate fun _ hw => isWord_of_mem_words hw]
  rfl

/-- a text without the blanks at its two ends -/
def trim (s : String) : String :=
  String.ofList ((s.toList.dropWhile isBlank).reverse.dropWhile isBlank).reverse

end Overloading.Text
