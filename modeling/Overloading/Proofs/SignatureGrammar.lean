import Overloading.Proofs.Parsing
import Overloading.Signature.Vocabulary

/-!
# The grammar of signatures is LL(1)

The rules of signatures are accepted by `Grammar.build`, so `Grammar.signature` is their grammar
and everything known about compiled grammars holds of it.

* `build_signature`     the rules compile, by running the builder;
* `parse_decides_derivation`   the parser of every compiled grammar returns the one derivation tree
                        there is, and the recognizer of signatures accepts just what they derive.
-/

namespace Overloading

namespace Grammar

set_option maxRecDepth 100000 in
theorem isOk_build_signature : (build signatureRules signatureWildcards).isOk = true := by
  decide +kernel

theorem eq_ok_orEmpty {r : Except Fault Grammar} (h : r.isOk = true) : r = .ok (orEmpty r) := by
  cases r with
  | ok g => rfl
  | error e => cases h

theorem build_signature : build signatureRules signatureWildcards = .ok signature := by
  unfold signature
  exact eq_ok_orEmpty isOk_build_signature

theorem compiled_signature : signature.Compiled signatureRules signatureWildcards :=
  compiled_of_build build_signature

/-! ## The parser of a compiled grammar -/

/-- **The parser of a compiled grammar decides derivability**: it returns a tree exactly if that
is a derivation tree of the tokens, there is no other, and the recognizer of signatures accepts
exactly what the rules of signatures derive. -/
theorem parse_decides_derivation :
    (∀ (rules : List Rule) (wildcardable : List Symbol) (g : Grammar),
      build rules wildcardable = .ok g → ∀ start ∈ wildcardable, ∀ tokens : List Token,
        (∀ t : Tree, g.parse tokens start = some t ↔
          t.Derives rules wildcardable g.classify start tokens) ∧
        (∀ t u : Tree, t.Derives rules wildcardable g.classify start tokens →
          u.Derives rules wildcardable g.classify start tokens → t = u)) ∧
    (∀ start ∈ signatureWildcards, ∀ tokens : List String,
      signature.recognize tokens start = true ↔
        ∃ t : Tree, t.Derives signatureRules signatureWildcards signature.classify start
          (tokens.map fun t => ⟨t, none⟩)) := by
  constructor
  · intro rules wildcardable g hg start hs tokens
    have hc := compiled_of_build hg
    exact ⟨fun t => parse_eq_some_iff hc hs, fun t u => derives_unique hc hs⟩
  · intro start hs tokens
    unfold recognize parsePlain
    rw [Option.isSome_iff_exists]
    exact exists_congr fun t => parse_eq_some_iff compiled_signature hs

def parenRules : List Rule := [⟨"S", [["(", "S", ")"], []]⟩]

/-- The grammar of nested parentheses with the wildcard `S` parses `( S )` and `( )`, each node with
the number of its alternative, and does not derive `(`. -/
theorem parse_decides_derivation_parentheses :
    ∃ g, build parenRules ["S"] = .ok g ∧ "S" ∈ ["S"] ∧
      g.parse [⟨"(", none⟩, ⟨"S", some 7⟩, ⟨")", none⟩] "S" =
        some (.branch "S" 0 [.leaf "(" ⟨"(", none⟩, .head "S" 2 ⟨"S", some 7⟩,
          .leaf ")" ⟨")", none⟩]) ∧
      g.parse [⟨"(", none⟩, ⟨")", none⟩] "S" =
        some (.branch "S" 0 [.leaf "(" ⟨"(", none⟩, .branch "S" 1 [], .leaf ")" ⟨")", none⟩]) ∧
      ¬ ∃ t : Tree, t.Derives parenRules ["S"] g.classify "S" [⟨"(", none⟩] := by
  have hb := eq_ok_orEmpty
    (show (build parenRules ["S"]).isOk = true by decide +kernel)
  have hclass : ∀ p ∈ [("(", "("), (")", ")"), ("S", Symbol.headOf "S")],
      (orEmpty (build parenRules ["S"])).classify p.1 = p.2 := by decide +kernel
  have hnone : ((orEmpty (build parenRules ["S"])).parse [⟨"(", none⟩] "S").isNone = true := by
    decide +kernel
  generalize orEmpty (build parenRules ["S"]) = g at hb hclass hnone
  have hS : "S" ∈ ["S"] := List.mem_singleton.mpr rfl
  have hparse := parse_decides_derivation.1 _ _ _ hb "S" hS
  have hopen : (Tree.leaf "(" ⟨"(", none⟩).Derived parenRules ["S"] g.classify :=
    .leaf (by decide) (hclass ("(", "(") (by decide))
  have hclose : (Tree.leaf ")" ⟨")", none⟩).Derived parenRules ["S"] g.classify :=
    .leaf (by decide) (hclass (")", ")") (by decide))
  have hhead : (Tree.head "S" 2 ⟨"S", some 7⟩).Derived parenRules ["S"] g.classify :=
    .head (r := ⟨"S", [["(", "S", ")"], []]⟩) (by decide) hS (by decide)
      (hclass ("S", Symbol.headOf "S") (by decide))
  have hempty : (Tree.branch "S" 1 []).Derived parenRules ["S"] g.classify :=
    .branch (r := ⟨"S", [["(", "S", ")"], []]⟩) (by decide) rfl (List.forall_mem_nil _)
  have houter : ∀ c : Tree, c.Derived parenRules ["S"] g.classify → c.symbol = "S" →
      (Tree.branch "S" 0 [.leaf "(" ⟨"(", none⟩, c, .leaf ")" ⟨")", none⟩]).Derived
        parenRules ["S"] g.classify := by
    intro c hc hs
    refine .branch (r := ⟨"S", [["(", "S", ")"], []]⟩) (by decide) ?_ ?_
    · show some ["(", "S", ")"] = some ["(", c.symbol, ")"]
      rw [hs]
    · simpa using ⟨hopen, hc, hclose⟩
  refine ⟨g, hb, hS, ?_, ?_, ?_⟩
  · exact ((hparse _).1 _).mpr ⟨houter _ hhead rfl, rfl, rfl⟩
  · exact ((hparse _).1 _).mpr ⟨houter _ hempty rfl, rfl, rfl⟩
  · rintro ⟨t, ht⟩
    rw [((hparse _).1 t).mpr ht] at hnone
    cases hnone

end Grammar

end Overloading
