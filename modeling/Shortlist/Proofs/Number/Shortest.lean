import Mathlib.Tactic.Ring
import Shortlist.Proofs.Number.Order

/-!
# Decimals that read back

The text of a double is the first decimal that reads back, on grids of one digit, two digits and so
on up to seventeen. The search cannot fail, as on the last grid the nearest decimal always reads
back: it is nearer than a part in `2 * 10 ^ 16`, and what is nearer than a part in `2 ^ 54` is
rounded to the double (`roundUnits_of_near`). Reading first looks whether a decimal is far outside
the range; that changes no result (`toBinary64_eq`), so reading depends on the quotient that a
decimal stands for and not on how it is spelled.
-/

namespace Shortlist.Decimal

open Binary64 (roundUnits limit one Representable)

/-! ### Digits -/

theorem lt_pow_digitCount (n : Nat) : n < 10 ^ digitCount n :=
  (Nat.length_toDigits_le_iff (by decide) Nat.length_toDigits_pos).mp (Nat.le_refl _)

theorem pow_digitCount_le {n : Nat} (h : 0 < n) : 10 ^ (digitCount n - 1) ≤ n := by
  by_contra hlt
  rcases Nat.eq_zero_or_pos (digitCount n - 1) with hzero | hpos
  · rw [hzero] at hlt
    omega
  · have hcount := (Nat.length_toDigits_le_iff (by decide) hpos).mpr (Nat.lt_of_not_le hlt)
    have hlength : digitCount n ≤ digitCount n - 1 := hcount
    omega

/-! ### Scaling -/

theorem shift_of_neg {p d : Nat} {places : Int} (h : places < 0) :
    shift p d places = (p, d * 10 ^ places.natAbs) := if_pos h

theorem shift_of_nonneg {p d : Nat} {places : Int} (h : ¬places < 0) :
    shift p d places = (p * 10 ^ places.natAbs, d) := if_neg h

theorem shift_pos {p d : Nat} (hd : 0 < d) (places : Int) : 0 < (shift p d places).2 := by
  rw [shift]
  split
  · exact Nat.mul_pos hd (Nat.pow_pos (by decide))
  · exact hd

theorem pow_mul_le_shift {p d count : Nat} (hp : 0 < p) (hd : 0 < d) (hcount : 0 < count) :
    10 ^ (count - 1) * (shift p d ((count : Int) - 1 - magnitude p d)).2 ≤
      (shift p d ((count : Int) - 1 - magnitude p d)).1 := by
  by_cases hle : d ≤ p
  · have hlow := pow_digitCount_le (Nat.div_pos hle hd)
    have hdigits : 0 < digitCount (p / d) := Nat.length_toDigits_pos
    rw [Nat.le_div_iff_mul_le hd] at hlow
    rw [magnitude, if_pos hle]
    by_cases hneg : (count : Int) - 1 - ((digitCount (p / d) : Int) - 1) < 0
    · rw [shift_of_neg hneg]
      generalize hk : ((count : Int) - 1 - ((digitCount (p / d) : Int) - 1)).natAbs = k
      have hsum : count - 1 + k = digitCount (p / d) - 1 := by omega
      calc 10 ^ (count - 1) * (d * 10 ^ k)
          = 10 ^ (count - 1 + k) * d := by ring
        _ ≤ p := by rwa [hsum]
    · rw [shift_of_nonneg hneg]
      generalize hk : ((count : Int) - 1 - ((digitCount (p / d) : Int) - 1)).natAbs = k
      have hsum : count - 1 = digitCount (p / d) - 1 + k := by omega
      calc 10 ^ (count - 1) * d
          = 10 ^ (digitCount (p / d) - 1) * d * 10 ^ k := by rw [hsum]; ring
        _ ≤ p * 10 ^ k := Nat.mul_le_mul_right _ hlow
  · have hhigh := lt_pow_digitCount ((d - 1) / p)
    have hnonneg : ¬(count : Int) - 1 - -(digitCount ((d - 1) / p) : Int) < 0 := by omega
    rw [Nat.div_lt_iff_lt_mul hp] at hhigh
    rw [magnitude, if_neg hle, shift_of_nonneg hnonneg]
    generalize hk : ((count : Int) - 1 - -(digitCount ((d - 1) / p) : Int)).natAbs = k
    have hsum : k = count - 1 + digitCount ((d - 1) / p) := by omega
    calc 10 ^ (count - 1) * d
        ≤ 10 ^ (count - 1) * (10 ^ digitCount ((d - 1) / p) * p) :=
          Nat.mul_le_mul_left _ (by omega)
      _ = p * 10 ^ k := by rw [hsum]; ring

/-- What is written on a grid and what is read from it are scaled by the same power of ten. -/
theorem shift_swap (p d n : Nat) (places : Int) :
    (shift n 1 (-places)).1 * d = n * (shift p d places).2 ∧
      p * (shift n 1 (-places)).2 = (shift p d places).1 := by
  rcases Int.lt_trichotomy places 0 with hneg | rfl | hpos
  · have hback : ¬-places < 0 := by omega
    rw [shift_of_neg hneg, shift_of_nonneg hback, Int.natAbs_neg]
    exact ⟨by ring, Nat.mul_one p⟩
  · exact ⟨by simp [shift], by simp [shift]⟩
  · have hback : -places < 0 := by omega
    have hnonneg : ¬places < 0 := by omega
    rw [shift_of_nonneg hnonneg, shift_of_neg hback, Int.natAbs_neg]
    exact ⟨rfl, by rw [Nat.one_mul]⟩

/-! ### Reading -/

theorem roundUnits_eq_zero {p d : Nat} (h : 2 * p < d) : roundUnits p d = 0 := by
  have hdiv : p / d = 0 := Nat.div_eq_of_lt (by omega)
  have hmod : p % d = p := Nat.mod_eq_of_lt (by omega)
  rw [roundUnits, hdiv]
  have hbit : Binary64.lastBit 0 = 1 := rfl
  rw [hbit, Nat.mul_one, Nat.mul_one, Nearest.divide, hmod, hdiv, if_pos (.inl h)]

theorem pow_succ_log2_le (n : Nat) : n < 10 ^ (n.log2 / 3 + 1) :=
  calc n < 2 ^ (n.log2 + 1) := Nat.lt_log2_self
    _ ≤ 2 ^ (3 * (n.log2 / 3 + 1)) := Nat.pow_le_pow_right (by decide) (by omega)
    _ = 8 ^ (n.log2 / 3 + 1) := Nat.pow_mul 2 3 _
    _ ≤ 10 ^ (n.log2 / 3 + 1) := Nat.pow_le_pow_left (by decide) _

theorem limit_le_of_exponent {n : Nat} {e : Int} (hn : n ≠ 0) (h : 400 < e) :
    limit ≤ roundUnits (n * 10 ^ e.natAbs * one) 1 := by
  -- the exponent stays a variable, so that no step works out the power
  obtain ⟨k, hk, hbound⟩ : ∃ k ≤ 401, 2 * limit ≤ Nat.pow 10 k * one :=
    ⟨401, Nat.le_refl _, by decide +kernel⟩
  have hpow : Nat.pow 10 k ≤ 10 ^ e.natAbs := Nat.pow_le_pow_right (by decide) (by omega)
  have hlarge : Nat.pow 10 k ≤ n * 10 ^ e.natAbs :=
    Nat.le_trans hpow (Nat.le_mul_of_pos_left _ (Nat.pos_of_ne_zero hn))
  have htwice := Nat.le_trans hbound (Nat.le_trans (Nat.mul_le_mul_right one hlarge)
    (Binary64.le_two_mul_roundUnits _))
  exact Nat.le_of_mul_le_mul_left htwice Nat.two_pos

theorem roundUnits_of_exponent {n : Nat} {e : Int} (h : e + (n.log2 / 3 + 1) < -400) :
    roundUnits (n * one) (1 * 10 ^ e.natAbs) = 0 := by
  obtain ⟨k, hk, hbound⟩ : ∃ k ≤ 401, 2 * one < Nat.pow 10 k :=
    ⟨401, Nat.le_refl _, by decide +kernel⟩
  have hpow : 10 ^ (n.log2 / 3 + 1) * Nat.pow 10 k ≤ 10 ^ e.natAbs := by
    rw [Nat.pow_eq, ← Nat.pow_add]
    exact Nat.pow_le_pow_right (by decide) (by omega)
  refine roundUnits_eq_zero ?_
  calc 2 * (n * one) = n * (2 * one) := by ring
    _ < 10 ^ (n.log2 / 3 + 1) * Nat.pow 10 k := Nat.mul_lt_mul'' (pow_succ_log2_le n) hbound
    _ ≤ 10 ^ e.natAbs := hpow
    _ = 1 * 10 ^ e.natAbs := (Nat.one_mul _).symm

/-- Decimals far outside the range are read like all others. -/
theorem toBinary64_eq {x : Decimal} (h : x.digits ≠ 0) (negative : Bool) :
    x.toBinary64 negative =
      Binary64.round negative ((shift x.digits 1 x.exponent).1 * one)
        (shift x.digits 1 x.exponent).2 := by
  rw [toBinary64, if_neg h]
  split
  · rename_i hlarge
    have hnonneg : ¬x.exponent < 0 := by omega
    rw [shift_of_nonneg hnonneg, Binary64.round,
      dif_neg (Nat.not_lt.mpr (limit_le_of_exponent h hlarge))]
  · split
    · rename_i hsmall
      have hneg : x.exponent < 0 := by omega
      have hzero : roundUnits 0 1 = 0 := by decide
      rw [shift_of_neg hneg, Binary64.round, Binary64.round]
      simp only [roundUnits_of_exponent hsmall, hzero]
    · rfl

theorem toBinary64_of_digits_eq_zero {x : Decimal} (h : x.digits = 0) (negative : Bool) :
    x.toBinary64 negative = Binary64.round negative 0 1 := if_pos h

theorem roundUnits_congr {p d q e : Nat} (hd : 0 < d) (he : 0 < e) (h : p * e = q * d) :
    roundUnits p d = roundUnits q e := by
  rw [← Binary64.roundUnits_mul_mul_right p d he, ← Binary64.roundUnits_mul_mul_right q e hd, h,
    Nat.mul_comm d]

theorem round_congr {p d q e : Nat} (h : roundUnits p d = roundUnits q e) (negative : Bool) :
    Binary64.round negative p d = Binary64.round negative q e := by
  rw [Binary64.round, Binary64.round]
  simp only [h]

theorem shift_scale (n k : Nat) (e : Int) :
    (shift (n * 10 ^ k) 1 (e - k)).1 * (shift n 1 e).2 =
      (shift n 1 e).1 * (shift (n * 10 ^ k) 1 (e - k)).2 := by
  by_cases hneg : e < 0
  · have hneg' : e - k < 0 := by omega
    rw [shift_of_neg hneg, shift_of_neg hneg']
    have hsum : (e - k).natAbs = e.natAbs + k := by omega
    rw [hsum]
    ring
  · rw [shift_of_nonneg hneg]
    by_cases hneg' : e - k < 0
    · rw [shift_of_neg hneg']
      have hsum : k = e.natAbs + (e - k).natAbs := by omega
      generalize (e - k).natAbs = j at *
      rw [hsum]
      ring
    · rw [shift_of_nonneg hneg']
      have hsum : e.natAbs = (e - k).natAbs + k := by omega
      rw [hsum]
      ring

theorem toBinary64_scale (n k : Nat) (e : Int) (negative : Bool) :
    toBinary64 negative ⟨n * 10 ^ k, e - k⟩ = toBinary64 negative ⟨n, e⟩ := by
  have hten : 0 < 10 ^ k := Nat.pow_pos (by decide)
  by_cases hn : n = 0
  · rw [toBinary64_of_digits_eq_zero (by rw [hn, Nat.zero_mul]), toBinary64_of_digits_eq_zero hn]
  · have hscaled : n * 10 ^ k ≠ 0 := Nat.mul_ne_zero hn (Nat.ne_of_gt hten)
    rw [toBinary64_eq hscaled, toBinary64_eq hn]
    refine round_congr (roundUnits_congr (shift_pos Nat.one_pos _) (shift_pos Nat.one_pos _) ?_) _
    rw [Nat.mul_right_comm, shift_scale, Nat.mul_right_comm]

/-- The sign does not take part in rounding. -/
theorem toBinary64_of_finite {x : Decimal} {n : Nat} {fits : Representable n}
    (h : x.toBinary64 false = .finite false n fits) (negative : Bool) :
    x.toBinary64 negative = .finite negative n fits := by
  have hround : ∀ {p d : Nat}, Binary64.round false p d = .finite false n fits →
      Binary64.round negative p d = .finite negative n fits := by
    intro p d h
    rw [Binary64.round] at h
    split at h
    · rename_i hlt
      cases h
      exact dif_pos hlt
    · cases h
  by_cases hzero : x.digits = 0
  · rw [toBinary64_of_digits_eq_zero hzero] at h ⊢
    exact hround h
  · rw [toBinary64_eq hzero] at h ⊢
    exact hround h

/-! ### Reading back -/

theorem readsAs_iff {units : Nat} {x : Decimal} :
    readsAs units x = true ↔ ∃ fits, x.toBinary64 false = .finite false units fits := by
  rw [readsAs]
  split
  · rename_i n fits h
    rw [h, decide_eq_true_iff]
    simp only [Binary64.finite.injEq, true_and]
    constructor
    · rintro rfl
      exact ⟨fits, rfl⟩
    · rintro ⟨-, rfl⟩
      rfl
  · rename_i hother
    refine iff_of_false Bool.false_ne_true ?_
    rintro ⟨fits, h⟩
    exact hother units fits h

theorem shortestFrom_succ (units more count : Nat) :
    shortestFrom units (more + 1) count =
      match (candidates units count).find? (readsAs units) with
      | some x => x
      | none => shortestFrom units more (count + 1) := by
  rfl

section ReadBack

variable {units : Nat} (fits : Representable units)

include fits

/-- The nearest decimal on a grid of seventeen digits reads back. -/
theorem toBinary64_of_grid {places : Int}
    (hgrid : 10 ^ 16 * (shift units one places).2 ≤ (shift units one places).1) :
    toBinary64 false ⟨scaled units one places, -places⟩ = .finite false units fits := by
  have hdivisor : 0 < (shift units one places).2 := shift_pos Binary64.one_pos places
  obtain ⟨hlow, hhigh⟩ := Nearest.divide_error (shift units one places).1 hdivisor
  have hscaled : scaled units one places =
    Nearest.divide (shift units one places).1 (shift units one places).2 := rfl
  rw [← hscaled] at hlow hhigh
  obtain ⟨hone, hunits⟩ := shift_swap units one (scaled units one places) places
  generalize scaled units one places = n at *
  have hmul : (2 * n + 1) * (shift units one places).2 =
      2 * (n * (shift units one places).2) + (shift units one places).2 := by ring
  have hnonzero : n ≠ 0 := by
    rintro rfl
    rw [Nat.zero_mul] at hmul
    omega
  have hback : 0 < (shift n 1 (-places)).2 := shift_pos Nat.one_pos _
  have hround : roundUnits ((shift n 1 (-places)).1 * one) (shift n 1 (-places)).2 = units := by
    rw [Nat.mul_assoc] at hhigh
    refine Binary64.roundUnits_of_near fits ?_ ?_ hback
    · rw [hone, hunits]
      omega
    · rw [hone, hunits]
      omega
  obtain ⟨fits', hfinite⟩ := Binary64.exists_round_of_lt false (hround ▸ fits.1)
  rw [toBinary64_eq hnonzero, hfinite]
  congr 1

variable (hpos : 0 < units)

include hpos

/-- Seventeen digits are enough. -/
theorem readsAs_significant : readsAs units (significant units one 17) = true := by
  have hgrid := pow_mul_le_shift hpos Binary64.one_pos (by decide : 0 < 17)
  rw [significant]
  exact readsAs_iff.mpr ⟨fits, toBinary64_of_grid fits hgrid⟩

theorem readsAs_shortestFrom (more count : Nat) (h : more + count = 17) :
    readsAs units (shortestFrom units more count) = true := by
  induction more generalizing count with
  | zero =>
    obtain rfl : count = 17 := by omega
    exact readsAs_significant fits hpos
  | succ more ih =>
    rw [shortestFrom_succ]
    split
    · rename_i x hfound
      exact List.find?_some hfound
    · exact ih (count + 1) (by omega)

theorem toBinary64_shortest (negative : Bool) :
    (shortest units).toBinary64 negative = .finite negative units fits := by
  obtain ⟨_, h⟩ := readsAs_iff.mp (readsAs_shortestFrom fits hpos 16 1 rfl)
  exact toBinary64_of_finite h negative

theorem digits_shortest_ne_zero : (shortest units).digits ≠ 0 := by
  intro hzero
  have h := toBinary64_shortest fits hpos false
  rw [toBinary64_of_digits_eq_zero hzero,
    Binary64.round_of_representable false Binary64.representable_zero] at h
  cases h
  exact Nat.lt_irrefl 0 hpos

end ReadBack

end Shortlist.Decimal
