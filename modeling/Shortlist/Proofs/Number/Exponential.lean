import Shortlist.Number.Exponential
import Shortlist.Proofs.Number.Order

/-!
# Powers of what is not positive

The power of a negative exponent is the reciprocal of a number that is at least one, or zero if the
exponent is beyond the range. So the power of what is not positive lies between zero and one, and it
keeps the order of the exponents.
-/

namespace Shortlist.Binary64

variable {x y : Binary64}

theorem fixedOne_pos : 0 < fixedOne := Nat.two_pow_pos 256

theorem infinite_or_place_of_le_zero (h : x ≤ .zero) :
    x = .infinite true ∨ x.isFinite = true ∧ x.place ≤ 0 := by
  rcases infinite_or_isFinite_of_le rfl h with hx | hx
  · exact .inl hx
  · exact .inr ⟨hx, (le_iff_place hx rfl).mp h⟩

theorem exp_of_place_le_zero (hfinite : x.isFinite = true) (h : x.place ≤ 0) :
    x.exp = if x.place.natAbs < exponentLimit then
      round false (fixedOne * one) (power x.place.natAbs) else .zero := by
  obtain ⟨s, m, fits, rfl⟩ := exists_units hfinite
  cases s with
  | true =>
    have hplace : signed true m = -m := rfl
    rw [exp, place, hplace, Int.natAbs_neg, Int.natAbs_natCast]
  | false =>
    obtain rfl : m = 0 := Int.ofNat_eq_zero.mp (Int.le_antisymm h (Int.natCast_nonneg m))
    have hplace : (signed false 0).natAbs = 0 := rfl
    have hlimit : 0 < exponentLimit := by decide +kernel
    rw [exp, place, hplace, power_zero, if_pos hlimit, if_pos hlimit]

theorem reciprocal_fraction (n : Nat) :
    let reciprocal := round false (fixedOne * one) (power n)
    reciprocal.IsFraction ∧ reciprocal.place = roundUnits (fixedOne * one) (power n) := by
  have hpower := fixedOne_le_power n
  have hle : fixedOne * one ≤ one * power n := by
    rw [Nat.mul_comm]
    exact Nat.mul_le_mul_left one hpower
  have hpos := Nat.lt_of_lt_of_le fixedOne_pos hpower
  exact round_fraction hpos (fun h => absurd h Bool.false_ne_true) hle

theorem exp_fraction (h : x ≤ .zero) : x.exp.IsFraction := by
  rcases infinite_or_place_of_le_zero h with rfl | ⟨hfinite, hplace⟩
  · exact isFraction_zero
  · rw [exp_of_place_le_zero hfinite hplace]
    split
    · exact (reciprocal_fraction _).1
    · exact isFraction_zero

theorem exp_mono (h : x ≤ y) (hy : y ≤ .zero) : x.exp ≤ y.exp := by
  have hzero : zero ≤ y.exp := (exp_fraction hy).1
  rcases infinite_or_place_of_le_zero hy with rfl | ⟨hyfinite, hyplace⟩
  · obtain rfl := eq_infinite_of_le h
    exact hzero
  · rcases infinite_or_isFinite_of_le hyfinite h with rfl | hxfinite
    · exact hzero
    · rw [le_iff_place hxfinite hyfinite] at h
      rw [exp_of_place_le_zero hxfinite (Int.le_trans h hyplace)]
      split
      · rename_i hlimit
        have hmagnitude : y.place.natAbs ≤ x.place.natAbs := by omega
        obtain ⟨hx, hxplace⟩ := reciprocal_fraction x.place.natAbs
        obtain ⟨hy, hyplace'⟩ := reciprocal_fraction y.place.natAbs
        have hpos := Nat.lt_of_lt_of_le fixedOne_pos (fixedOne_le_power y.place.natAbs)
        rw [exp_of_place_le_zero hyfinite hyplace, if_pos (Nat.lt_of_le_of_lt hmagnitude hlimit),
          le_iff_place hx.isFinite hy.isFinite, hxplace, hyplace']
        exact Int.ofNat_le.mpr (roundUnits_anti _ hpos (power_mono hmagnitude))
      · exact hzero

end Shortlist.Binary64
