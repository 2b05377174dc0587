import Shortlist.Proofs.Number.Line
import Shortlist.Proofs.Number.Separation
import Shortlist.Proofs.Number.Shortest

/-!
# The range of doubles

What is nearest to a number beyond the range is no finite double. The bound is half of a last bit
below `2 ^ 1024`: what lies there is as near to that power as to the largest double, and the power
is the even one of the two. One lemma on quotients (`roundUnits_lt_limit_iff`) says this for
integers, which then have no double, and for decimals, which are read as an infinity. Within the
range the integers of at most 53 significant bits are doubles themselves, and a remainder of doubles
always is one.
-/

namespace Shortlist

namespace Binary64

/-- The first number of units that is rounded up to the limit. -/
def threshold : Nat := limit - Nat.pow 2 2044

/-- The first natural number that is rounded out of the range. -/
def bound : Nat := 2 ^ 1024 - 2 ^ 970

/-- How the numbers at the end of the range stand to each other, computed at one time. -/
theorem range_computed :
    threshold = bound * one ∧ 0 < bound ∧ roundUnits threshold 1 = limit ∧
      2 * threshold + Nat.pow 2 2045 = 2 * limit ∧ 2 ^ 53 * Nat.pow 2 2045 = limit ∧
      2 ^ 53 * one < limit := by decide +kernel

theorem threshold_eq : threshold = bound * one := range_computed.1

theorem bound_pos : 0 < bound := range_computed.2.1

theorem threshold_pos : 0 < threshold := by
  rw [threshold_eq]
  exact Nat.mul_pos bound_pos one_pos

/-- A quotient below the threshold, and no other, is rounded to a number of units in the range. -/
theorem roundUnits_lt_limit_iff {p d : Nat} (hd : 0 < d) :
    roundUnits p d < limit ↔ p < threshold * d := by
  obtain ⟨-, -, hround, hspan, hpow, -⟩ := range_computed
  constructor
  · intro h
    by_contra hle
    have hmono : limit ≤ roundUnits p d :=
      calc limit = roundUnits threshold 1 := hround.symm
        _ = roundUnits (threshold * d) d := by
          rw [← roundUnits_mul_mul_right threshold 1 hd, Nat.one_mul]
        _ ≤ roundUnits p d := roundUnits_mono (Nat.le_of_not_lt hle) d
    exact absurd h (Nat.not_lt.mpr hmono)
  · intro h
    have hbit : lastBit (p / d) ≤ Nat.pow 2 2045 := by
      have hquotient : p / d < threshold := (Nat.div_lt_iff_lt_mul hd).mpr h
      refine lastBit_le_of_lt (Eq.refl (Nat.pow 2 2045)) ?_
      rw [hpow]
      exact Nat.lt_of_lt_of_le hquotient (Nat.sub_le _ _)
    obtain ⟨-, hhigh⟩ := roundUnits_error p hd
    generalize Nat.pow 2 2045 = bit at hbit hspan
    have hunits : 2 * (roundUnits p d * d) < 2 * (limit * d) :=
      calc 2 * (roundUnits p d * d)
          ≤ 2 * p + lastBit (p / d) * d := hhigh
        _ < 2 * (threshold * d) + bit * d :=
          Nat.add_lt_add_of_lt_of_le (Nat.mul_lt_mul_of_pos_left h Nat.two_pos)
            (Nat.mul_le_mul_right d hbit)
        _ = (2 * threshold + bit) * d := by rw [Nat.add_mul, Nat.mul_assoc]
        _ = 2 * (limit * d) := by rw [hspan, Nat.mul_assoc]
    exact Nat.lt_of_mul_lt_mul_right (Nat.lt_of_mul_lt_mul_left hunits)

theorem round_eq_infinite {s : Bool} {p d : Nat} (h : ¬(round s p d).isFinite = true) :
    round s p d = .infinite s := by
  rw [round] at h ⊢
  split at h
  · exact absurd rfl h
  · rename_i hge
    rw [dif_neg hge]

theorem isFinite_round_iff {s : Bool} {p d : Nat} (hd : 0 < d) :
    (round s p d).isFinite = true ↔ p < threshold * d := by
  rw [← roundUnits_lt_limit_iff hd, round]
  split
  · rename_i hlt
    exact iff_of_true rfl hlt
  · rename_i hge
    exact iff_of_false Bool.noConfusion hge

/-! ### Integers -/

theorem ofInt_eq (i : Int) : ofInt i = round (decide (i < 0)) (i.natAbs * one) 1 := by
  cases i with
  | ofNat n => rfl
  | negSucc n => rw [ofInt, decide_eq_true (Int.negSucc_lt_zero n), Int.natAbs_negSucc]

theorem representable_mul_one {n : Nat} (h : n ≤ 2 ^ 53) : Representable (n * one) := by
  have hlimit : 2 ^ 53 * one < limit := range_computed.2.2.2.2.2
  have hlt : n * one < limit := Nat.lt_of_le_of_lt (Nat.mul_le_mul_right one h) hlimit
  -- which power of two one is does not matter, and its digits are not to be computed
  obtain ⟨k, hk⟩ : ∃ k, one = Nat.pow 2 k := by
    unfold one
    exact ⟨1074, rfl⟩
  rw [hk] at hlt ⊢
  exact ⟨hlt, pow_dvd_mul h⟩

/-- An integer has a finite double near it exactly if it is below the bound. -/
theorem isFinite_ofInt_iff {i : Int} : (ofInt i).isFinite = true ↔ i.natAbs < bound := by
  have hround := isFinite_round_iff (s := decide (i < 0)) (p := i.natAbs * one) Nat.one_pos
  rw [← ofInt_eq, Nat.mul_one threshold, threshold_eq] at hround
  exact hround.trans (Nat.mul_lt_mul_right one_pos)

theorem signed_natAbs (i : Int) (unit : Nat) :
    signed (decide (i < 0)) (i.natAbs * unit) = i * unit := by
  rw [signed, Int.natCast_mul]
  by_cases hneg : i < 0
  · rw [decide_eq_true hneg, if_pos rfl, ← Int.neg_mul]
    exact congrArg (· * (unit : Int)) (by omega)
  · rw [decide_eq_false hneg, if_neg Bool.false_ne_true]
    exact congrArg (· * (unit : Int)) (by omega)

theorem place_ofInt {i : Int} (h : Representable (i.natAbs * one)) :
    (ofInt i).isFinite = true ∧ (ofInt i).place = i * one := by
  rw [ofInt_eq, round_of_representable _ h]
  exact ⟨rfl, signed_natAbs i one⟩

theorem place_ofInt_ne_zero {i : Int} (hi : i ≠ 0) (h : (ofInt i).isFinite = true) :
    (ofInt i).place ≠ 0 := by
  have hpos : one ≤ i.natAbs * one := Nat.le_mul_of_pos_left one (Int.natAbs_pos.mpr hi)
  have hunits := Nat.lt_of_lt_of_le one_pos (one_le_roundUnits hpos)
  rw [ofInt_eq] at h ⊢
  obtain ⟨fits, hround⟩ := round_of_isFinite h
  rw [hround, place, signed]
  split <;> omega

end Binary64

namespace Number

theorem toDouble_of_isFinite {i : Int} (h : (Binary64.ofInt i).isFinite = true) :
    (Number.int i).toDouble = .ok (Binary64.ofInt i) := by
  obtain ⟨s, m, fits, hfinite⟩ := Binary64.exists_units h
  rw [toDouble, hfinite]

theorem toDouble_of_bound_le {i : Int} (h : Binary64.bound ≤ i.natAbs) :
    (Number.int i).toDouble = .error .integerTooLarge := by
  have hnot : ¬(Binary64.ofInt i).isFinite = true := by
    rw [Binary64.isFinite_ofInt_iff]
    exact Nat.not_lt.mpr h
  rw [toDouble]
  split
  · rename_i hfinite
    rw [hfinite] at hnot
    exact absurd rfl hnot
  · rfl

def HasDouble (i : Int) : Prop := ∃ x : Binary64, x.isFinite = true ∧ (Number.double x).amount = i

theorem HasDouble.representable {i : Int} (h : HasDouble i) :
    Binary64.Representable (i.natAbs * Binary64.one) := by
  obtain ⟨x, hfinite, hamount⟩ := h
  obtain ⟨s, m, fits, rfl⟩ := Binary64.exists_units hfinite
  have hplace : Binary64.signed s m = i * Binary64.one := amount_double_eq_iff.mp hamount
  have hunits : m = i.natAbs * Binary64.one := by
    rw [← Int.natAbs_natCast Binary64.one, ← Int.natAbs_mul, ← hplace, Binary64.signed]
    split <;> omega
  exact hunits ▸ fits

theorem hasDouble_of_natAbs_le {i : Int} (h : i.natAbs ≤ 2 ^ 53) : HasDouble i := by
  obtain ⟨hfinite, hplace⟩ := Binary64.place_ofInt (Binary64.representable_mul_one h)
  exact ⟨.ofInt i, hfinite, amount_double_eq_iff.mpr hplace⟩

end Number

/-! ### Decimals -/

namespace Decimal

/-- A decimal is read as a finite double exactly if it is below the bound. -/
theorem isFinite_toBinary64_iff {x : Decimal} {negative : Bool} :
    (x.toBinary64 negative).isFinite = true ↔
      (shift x.digits 1 x.exponent).1 < Binary64.bound * (shift x.digits 1 x.exponent).2 := by
  have hpos := shift_pos (p := x.digits) Nat.one_pos x.exponent
  by_cases hzero : x.digits = 0
  · rw [toBinary64_of_digits_eq_zero hzero, Binary64.isFinite_round_iff Nat.one_pos,
      Nat.mul_one]
    refine iff_of_true Binary64.threshold_pos ?_
    have hfirst : (shift x.digits 1 x.exponent).1 = 0 := by
      rw [hzero, shift]
      split <;> simp
    rw [hfirst]
    exact Nat.mul_pos Binary64.bound_pos hpos
  · rw [toBinary64_eq hzero, Binary64.isFinite_round_iff hpos, Binary64.threshold_eq,
      Nat.mul_right_comm, Nat.mul_lt_mul_right Binary64.one_pos]

theorem toBinary64_eq_infinite {x : Decimal} {negative : Bool}
    (h : ¬(x.toBinary64 negative).isFinite = true) :
    x.toBinary64 negative = .infinite negative := by
  by_cases hzero : x.digits = 0
  · rw [toBinary64_of_digits_eq_zero hzero] at h ⊢
    exact Binary64.round_eq_infinite h
  · rw [toBinary64_eq hzero] at h ⊢
    exact Binary64.round_eq_infinite h

end Decimal

end Shortlist
