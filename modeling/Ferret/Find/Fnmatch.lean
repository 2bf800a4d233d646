import Ferret.Find.Bracket
import Ferret.Find.GlobMatch

/-!
# `-name` as `fnmatch` has it

The two halves of a pattern together: the tokens it is compiled to are those of
the C locale (`Bracket`), and a text is found by them exactly when they span it
(`GlobMatch`), in a number of turns known beforehand.
-/

namespace Ferret.Find

open Ferret.Lib

variable {fold : Bool} {pattern : Arg}

/-- **Patterns of find in the C locale**: matching ends and agrees with the
table of the tokens, and the tokens are those the pattern is read as – a class
for each bracket expression that is closed, holding what its members and ranges
denote, or nothing where one of them is not valid. -/
theorem pattern_fnmatch (pattern : Arg) (fold : Bool) :
    (∀ text, ∃ bound, ∀ turns, bound ≤ turns →
      (Pattern.new pattern fold).matches turns text
        = some (reference (Pattern.new pattern fold) text)) ∧
    ∀ tokens, (Pattern.new pattern fold).tokens = tokens ↔ Reads fold pattern tokens :=
  ⟨fun text => ⟨_, fun _ hturns => matches_eq_reference pattern fold text hturns⟩,
    fun _ => compile_iff⟩

/-- A class without a name takes the members beside it along. -/
theorem invalid_holds_nothing :
    ¬ ∀ (fold negate : Bool) (body members after : Arg) (atoms : List Atom)
      (elements : List Element), Negated negate body members → Closed true members atoms after →
      Groups atoms elements → ∃ set, bracket body fold = some (set, after) ∧
        ∀ x, set x = true ↔ Holds fold negate elements x := by
  intro h
  have hclosed : Closed true (word "a[:foo:]]") [.plain 97, .delimited 58 (word "foo")] [] :=
    .atom (.plain 97) ⟨by decide, fun _ _ h => absurd h (by decide)⟩ nofun
      (.atom (.delimited 58 (word "foo")) ⟨by decide, by decide⟩ (fun _ => by decide) .close)
  have hgroups : Groups [.plain 97, .delimited 58 (word "foo")]
      [.member (.plain 97), .member (.delimited 58 (word "foo"))] :=
    .member nofun (.member (fun h => absurd h (by decide)) .nil)
  obtain ⟨set, hread, hset⟩ := h false false (word "a[:foo:]]") (word "a[:foo:]]") [] _ _
    (.no fun c rest h => by cases h; rfl) hclosed hgroups
  have hempty : (bracket (word "a[:foo:]]") false).map (fun read => read.1 97) = some false := by
    decide
  rw [hread] at hempty
  have hfound : set 97 = true := (hset 97).mpr ⟨_, List.mem_cons_self, rfl⟩
  exact absurd (hfound.symm.trans (Option.some.inj hempty)) (by decide)

end Ferret.Find
