import Enclosure.Proofs.Terms

/-!
# Texts of terms

The text of a sum takes the sign of a negative summand for the operator.
-/

namespace Enclosure

namespace Term

theorem takes_rational {x : List Rat} {q : Rat} {r : ℝ} :
    (const (.rational q)).Takes x r ↔ r = q := by
  constructor
  · rintro ⟨⟨u, ⟨low, _⟩, below⟩, v, ⟨_, high⟩, above⟩
    have low : (q : ℝ) ≤ u := by exact_mod_cast ExtRat.fin_le_fin.1 low
    have high : (v : ℝ) ≤ q := by exact_mod_cast ExtRat.fin_le_fin.1 high
    linarith
  · rintro rfl
    exact Interval.encloses_ratCast.2 ⟨le_rfl, le_rfl⟩

/-- The sum with the square of `-1` and the difference with the square of `1` have one text. -/
theorem square_of_negative_constant_ambiguous :
    let square (q : Rat) : Term := .binary .pow .real .nearest (.const (.rational q))
      (.const (.rational 2))
    let sum : Term := .add (.dim 0) (square (-1))
    let difference : Term := .binary .sub .real .nearest (.dim 0) (square 1)
    sum.textWith plainName = "x0 - 1 ^ 2" ∧ difference.textWith plainName = "x0 - 1 ^ 2" ∧
      sum.Takes [0] 1 ∧ difference.Takes [0] (-1) := by
  intro square sum difference
  have squared (q : Rat) : (square q).Takes [0] (q ^ 2 : ℝ) :=
    ⟨q, 2, _, takes_rational.2 rfl, takes_rational.2 (by norm_num), rfl, (Real.rpow_two _).symm⟩
  refine ⟨by decide +kernel, by decide +kernel, ?_, ?_⟩
  · exact ⟨0, _, _, by simp [Takes], squared (-1), rfl, by norm_num [ResultFormat.Gives]⟩
  · exact ⟨0, _, _, by simp [Takes], squared 1, rfl, by norm_num [ResultFormat.Gives]⟩

end Term

end Enclosure
