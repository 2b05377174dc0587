import Mathlib.Tactic.Linarith
import Mathlib.Tactic.Ring
import Shortlist.Proofs.Number.Exponential

/-!
# Powers of distinct exponents stay apart

Rounding keeps the order of what it rounds but may take two quotients to one double. It does not if
the larger one exceeds the smaller by more than a part in `2 ^ 50`: half of that is left when both
have been rounded (`roundUnits_gap`). Exponents that are some units apart have powers that differ by
such a part, since the series grows at least as fast as its argument and squaring loses nothing of
the part. So powers of such exponents differ as doubles, and so do the shares that are made of them.
-/

namespace Shortlist.Binary64

/-! ### Quotients that stay apart -/

theorem roundUnits_le_two_mul_div (p d : Nat) : roundUnits p d ≤ 2 * (p / d) + 1 := by
  have hbit : lastBit (p / d) ≤ p / d + 1 := by
    rcases Nat.eq_zero_or_pos (p / d) with hzero | hpos
    · rw [hzero]
      decide
    · exact Nat.le_succ_of_le (Nat.le_trans (Nat.pow_le_pow_right (by decide) (Nat.sub_le _ _))
        (Nat.log2_self_le (Nat.ne_of_gt hpos)))
  calc roundUnits p d
      ≤ (p / (d * lastBit (p / d)) + 1) * lastBit (p / d) :=
        Nat.mul_le_mul_right _ (Nearest.divide_le _ _)
    _ = p / d / lastBit (p / d) * lastBit (p / d) + lastBit (p / d) := by
        rw [Nat.div_div_eq_div_mul, Nat.add_mul, Nat.one_mul]
    _ ≤ p / d + (p / d + 1) := Nat.add_le_add (Nat.div_mul_le_self _ _) hbit
    _ = 2 * (p / d) + 1 := by ring

/-- Of the part by which one quotient exceeds another, half is left when both have been rounded. -/
theorem roundUnits_gap {m p q d : Nat} (hm : 0 < m) (hsmall : m ≤ 2 ^ 49) (hd : 0 < d)
    (hlarge : 2 ^ 52 ≤ q / d) (h : (m + 1) * p ≤ m * q) :
    (2 * m + 1) * roundUnits p d ≤ 2 * m * roundUnits q d := by
  have hpq : p ≤ q := by
    refine Nat.le_of_mul_le_mul_left (Nat.le_trans ?_ h) hm
    exact Nat.mul_le_mul_right p (Nat.le_succ m)
  have hp := (roundUnits_error p hd).2
  have hq := (roundUnits_error q hd).1
  have hbit : lastBit (p / d) * d ≤ lastBit (q / d) * d :=
    Nat.mul_le_mul_right d (lastBit_mono (Nat.div_le_div_right hpq))
  have hpart : 2 ^ 52 * (lastBit (q / d) * d) ≤ q :=
    calc 2 ^ 52 * (lastBit (q / d) * d) = lastBit (q / d) * 2 ^ 52 * d := by ring
      _ ≤ q / d * d := Nat.mul_le_mul_right d (lastBit_mul_le hlarge)
      _ ≤ q := Nat.div_mul_le_self q d
  generalize lastBit (p / d) * d = small at *
  generalize lastBit (q / d) * d = bit at *
  -- both errors together take less than half of the part
  have herrors : (m + 1) * (4 * m + 1) * bit ≤ 2 * m * q :=
    calc (m + 1) * (4 * m + 1) * bit ≤ 2 * m * 2 ^ 52 * bit := by
          refine Nat.mul_le_mul_right bit (Nat.mul_le_mul ?_ ?_) <;> omega
      _ = 2 * m * (2 ^ 52 * bit) := by ring
      _ ≤ 2 * m * q := Nat.mul_le_mul_left _ hpart
  have hscaled : 2 * d * (m + 1) * ((2 * m + 1) * roundUnits p d) ≤
      2 * d * (m + 1) * (2 * m * roundUnits q d) := by
    have hleft : (2 * m + 1) * (m + 1) * (2 * (roundUnits p d * d)) ≤
        (2 * m + 1) * (m + 1) * (2 * p + bit) :=
      Nat.mul_le_mul_left _ (Nat.le_trans hp (Nat.add_le_add_left hbit _))
    have hright : 2 * m * (m + 1) * (2 * q) ≤
        2 * m * (m + 1) * (2 * (roundUnits q d * d) + bit) := Nat.mul_le_mul_left _ hq
    have hmiddle := Nat.mul_le_mul_left (2 * (2 * m + 1)) h
    nlinarith
  exact Nat.le_of_mul_le_mul_left hscaled (by positivity)

/-! ### The series and its squares -/

theorem seriesFrom_le {y : Nat} (hy : y ≤ fixedOne) (count : Nat) {k : Nat} (hk : 0 < k)
    (term : Nat) : seriesFrom y count k term ≤ 2 * term := by
  induction count generalizing k term with
  | zero => exact Nat.zero_le _
  | succ count ih =>
    -- every term is at most half of the one before
    have hnext : term * y / (fixedOne * (k + 1)) ≤ term / 2 :=
      calc term * y / (fixedOne * (k + 1))
          ≤ term * fixedOne / (fixedOne * 2) :=
            Nat.div_le_div (Nat.mul_le_mul_left term hy) (Nat.mul_le_mul_left _ (by omega))
              (Nat.ne_of_gt (Nat.mul_pos fixedOne_pos (by decide)))
        _ = term / 2 := by rw [Nat.mul_comm term, Nat.mul_div_mul_left _ _ fixedOne_pos]
    have hrest := ih (Nat.add_pos_left hk 1) (term * y / (fixedOne * (k + 1)))
    rw [seriesFrom]
    omega

theorem series_eq (z : Nat) : series z = fixedOne + seriesFrom z 63 1 z := by
  rw [series, seriesFrom, Nat.zero_add, Nat.mul_one, Nat.mul_div_cancel_left _ fixedOne_pos]

theorem series_le {y : Nat} (hy : y ≤ fixedOne) : series y ≤ 3 * fixedOne := by
  have hrest := seriesFrom_le hy 63 Nat.one_pos y
  rw [series_eq]
  omega

theorem series_add_le (y n : Nat) : series y + n ≤ series (y + n) := by
  have hmono : seriesFrom y 62 2 (y * y / (fixedOne * 2)) ≤
      seriesFrom (y + n) 62 2 ((y + n) * (y + n) / (fixedOne * 2)) :=
    seriesFrom_mono (Nat.le_add_right y n) 62 2
      (Nat.div_le_div_right (Nat.mul_le_mul (Nat.le_add_right y n) (Nat.le_add_right y n)))
  have hfirst : ∀ z, seriesFrom z 63 1 z = z + seriesFrom z 62 2 (z * z / (fixedOne * 2)) :=
    fun _ => rfl
  rw [series_eq, series_eq, hfirst, hfirst]
  omega

theorem fixedOne_le_squareFixed {n : Nat} (h : fixedOne ≤ n) : fixedOne ≤ squareFixed n := by
  rw [squareFixed, Nat.le_div_iff_mul_le fixedOne_pos]
  exact Nat.mul_le_mul h h

/-- Squaring keeps the part by which one number exceeds another. -/
theorem squareFixed_gap {m M N : Nat} (hm : m ≤ fixedOne) (hM : fixedOne ≤ M)
    (h : (m + 1) * M ≤ m * N) : (m + 1) * squareFixed M ≤ m * squareFixed N := by
  rcases Nat.eq_zero_or_pos m with rfl | hpos
  · have hzero : M = 0 := by omega
    exact absurd (hzero ▸ hM) (Nat.not_le_of_gt fixedOne_pos)
  have hA : squareFixed M * fixedOne ≤ M * M := Nat.div_mul_le_self _ _
  have hB : N * N < (squareFixed N + 1) * fixedOne := by
    rw [Nat.mul_comm (squareFixed N + 1)]
    exact Nat.lt_mul_div_succ _ fixedOne_pos
  have hlarge : m ≤ squareFixed M := Nat.le_trans hm (fixedOne_le_squareFixed hM)
  generalize squareFixed M = A at *
  generalize squareFixed N = B at *
  have hsquares : (m + 1) * (m + 1) * (A * fixedOne) < m * m * ((B + 1) * fixedOne) :=
    calc (m + 1) * (m + 1) * (A * fixedOne)
        ≤ (m + 1) * (m + 1) * (M * M) := Nat.mul_le_mul_left _ hA
      _ = (m + 1) * M * ((m + 1) * M) := by ring
      _ ≤ m * N * (m * N) := Nat.mul_le_mul h h
      _ = m * m * (N * N) := by ring
      _ < m * m * ((B + 1) * fixedOne) :=
        Nat.mul_lt_mul_of_pos_left hB (Nat.mul_pos hpos hpos)
  have hcancelled : (m + 1) * (m + 1) * A < m * m * (B + 1) := by
    refine Nat.lt_of_mul_lt_mul_right (a := fixedOne) ?_
    calc (m + 1) * (m + 1) * A * fixedOne = (m + 1) * (m + 1) * (A * fixedOne) := by ring
      _ < m * m * ((B + 1) * fixedOne) := hsquares
      _ = m * m * (B + 1) * fixedOne := by ring
  have hscaled : m * ((m + 1) * A) ≤ m * (m * B) := by nlinarith
  exact Nat.le_of_mul_le_mul_left hscaled hpos

theorem repeat_squareFixed_gap {m M N : Nat} (hm : m ≤ fixedOne) (hM : fixedOne ≤ M)
    (h : (m + 1) * M ≤ m * N) (count : Nat) :
    fixedOne ≤ Nat.repeat squareFixed count M ∧
      (m + 1) * Nat.repeat squareFixed count M ≤ m * Nat.repeat squareFixed count N := by
  induction count with
  | zero => exact ⟨hM, h⟩
  | succ count ih => exact ⟨fixedOne_le_squareFixed ih.1, squareFixed_gap hm ih.1 ih.2⟩

theorem power_gap {a b : Nat} (ha : a < exponentLimit) (h : a + Nat.pow 2 1038 ≤ b) :
    (2 ^ 48 + 1) * power a ≤ 2 ^ 48 * power b := by
  have hlimit : exponentLimit = fixedOne * Nat.pow 2 828 := by decide +kernel
  have hgap : Nat.pow 2 1038 = 2 ^ 210 * Nat.pow 2 828 := by decide +kernel
  have hfour : 2 ^ 48 * 2 ^ 210 = 4 * fixedOne := by decide +kernel
  have hunit : 0 < Nat.pow 2 828 := by decide +kernel
  rw [hlimit] at ha
  rw [hgap] at h
  rw [power, power]
  generalize Nat.pow 2 828 = unit at *
  have hlow : a / unit ≤ fixedOne := Nat.le_of_lt ((Nat.div_lt_iff_lt_mul hunit).mpr ha)
  have hhigh : a / unit + 2 ^ 210 ≤ b / unit := by
    rw [← Nat.add_mul_div_right _ _ hunit]
    exact Nat.div_le_div_right h
  have hgrown : series (a / unit) + 2 ^ 210 ≤ series (b / unit) :=
    Nat.le_trans (series_add_le (a / unit) (2 ^ 210))
      (seriesFrom_mono hhigh 64 0 (Nat.le_refl fixedOne))
  have hsmall : series (a / unit) ≤ 2 ^ 48 * 2 ^ 210 := by
    rw [hfour]
    exact Nat.le_trans (series_le hlow) (Nat.mul_le_mul_right _ (by decide))
  have hseries : (2 ^ 48 + 1) * series (a / unit) ≤ 2 ^ 48 * series (b / unit) :=
    calc (2 ^ 48 + 1) * series (a / unit)
        = 2 ^ 48 * series (a / unit) + series (a / unit) := by rw [Nat.add_mul, Nat.one_mul]
      _ ≤ 2 ^ 48 * series (a / unit) + 2 ^ 48 * 2 ^ 210 := Nat.add_le_add_left hsmall _
      _ = 2 ^ 48 * (series (a / unit) + 2 ^ 210) := (Nat.mul_add _ _ _).symm
      _ ≤ 2 ^ 48 * series (b / unit) := Nat.mul_le_mul_left _ hgrown
  have hone : fixedOne ≤ series (a / unit) := by
    rw [series_eq]
    exact Nat.le_add_right _ _
  exact (repeat_squareFixed_gap (by decide +kernel) hone hseries 10).2

/-! ### Decay -/

theorem round_of_isFinite {s : Bool} {p d : Nat} (h : (round s p d).isFinite = true) :
    ∃ fits, round s p d = .finite s (roundUnits p d) fits := by
  rw [round] at h ⊢
  split at h
  · rename_i hlt
    exact ⟨_, dif_pos hlt⟩
  · cases h

/-- The units of the power of `e` to a negative number of units. -/
def decay (n : Nat) : Nat :=
  if n < exponentLimit then roundUnits (fixedOne * one) (power n) else 0

theorem exp_eq_decay {x : Binary64} (hfinite : x.isFinite = true) (h : x.place ≤ 0) :
    ∃ fits, x.exp = .finite false (decay x.place.natAbs) fits := by
  rw [exp_of_place_le_zero hfinite h, decay]
  split
  · exact round_of_isFinite (reciprocal_fraction x.place.natAbs).1.isFinite
  · exact ⟨representable_zero, rfl⟩

theorem decay_zero : decay 0 = one := by decide +kernel

theorem decay_anti {m n : Nat} (h : m ≤ n) : decay n ≤ decay m := by
  rw [decay, decay]
  split
  · rename_i hn
    rw [if_pos (Nat.lt_of_le_of_lt h hn)]
    exact roundUnits_anti _ (Nat.lt_of_lt_of_le fixedOne_pos (fixedOne_le_power m)) (power_mono h)
  · exact Nat.zero_le _

theorem decay_le_one (n : Nat) : decay n ≤ one := by
  rw [← decay_zero]
  exact decay_anti (Nat.zero_le n)

theorem lt_exponentLimit_of_decay {n : Nat} (h : 0 < decay n) : n < exponentLimit := by
  by_contra hlimit
  rw [decay, if_neg hlimit] at h
  exact absurd h (Nat.lt_irrefl 0)

/-- Exponents that are `2 ^ 1038` units apart have powers that differ by a part in `2 ^ 49`, if the
larger power is at least `2 ^ 74` units. -/
theorem decay_gap {a b : Nat} (h : a + Nat.pow 2 1038 ≤ b) (hlarge : 2 ^ 74 ≤ decay a) :
    (2 ^ 49 + 1) * decay b ≤ 2 ^ 49 * decay a := by
  have ha := lt_exponentLimit_of_decay (Nat.lt_of_lt_of_le (by decide) hlarge)
  by_cases hb : b < exponentLimit
  · have hpowers := power_gap ha h
    have hapos := Nat.lt_of_lt_of_le fixedOne_pos (fixedOne_le_power a)
    have hbpos := Nat.lt_of_lt_of_le fixedOne_pos (fixedOne_le_power b)
    have hadecay : decay a = roundUnits (fixedOne * one) (power a) := if_pos ha
    have hbdecay : decay b = roundUnits (fixedOne * one) (power b) := if_pos hb
    rw [hadecay] at hlarge ⊢
    rw [hbdecay]
    generalize power a = A at *
    generalize power b = B at *
    generalize fixedOne * one = numerator at *
    -- both reciprocals as quotients by one divisor
    rw [← roundUnits_mul_mul_right numerator A hbpos] at hlarge ⊢
    rw [← roundUnits_mul_mul_right numerator B hapos, Nat.mul_comm B A]
    have hquotient : 2 ^ 52 ≤ numerator * B / (A * B) := by
      have hle := roundUnits_le_two_mul_div (numerator * B) (A * B)
      omega
    have hgap : (2 ^ 48 + 1) * (numerator * A) ≤ 2 ^ 48 * (numerator * B) :=
      calc (2 ^ 48 + 1) * (numerator * A) = numerator * ((2 ^ 48 + 1) * A) := by ring
        _ ≤ numerator * (2 ^ 48 * B) := Nat.mul_le_mul_left _ hpowers
        _ = 2 ^ 48 * (numerator * B) := by ring
    exact roundUnits_gap (m := 2 ^ 48) (by decide) (by decide) (Nat.mul_pos hapos hbpos) hquotient
      hgap
  · rw [decay, if_neg hb]
    exact Nat.zero_le _

/-! ### Differences -/

/-- Differences that are `2 ^ 1039` units apart are still half as far apart when they have been
rounded, if the smaller one is within the range of exponents. -/
theorem roundUnits_apart {m n : Nat} (h : m + Nat.pow 2 1039 ≤ n)
    (hm : roundUnits m 1 < exponentLimit) :
    roundUnits m 1 + Nat.pow 2 1038 ≤ roundUnits n 1 := by
  have hlimit : exponentLimit = 2 ^ 51 * Nat.pow 2 1033 := by decide +kernel
  have hfar : Nat.pow 2 1039 = 2 ^ 6 * Nat.pow 2 1033 := by decide +kernel
  have hnear : Nat.pow 2 1038 = 2 ^ 5 * Nat.pow 2 1033 := by decide +kernel
  have hmhalf := le_two_mul_roundUnits m
  have hnhalf := le_two_mul_roundUnits n
  have hmerror := (roundUnits_error m Nat.one_pos).2
  have hnerror := (roundUnits_error n Nat.one_pos).1
  rw [Nat.div_one, Nat.mul_one, Nat.mul_one] at hmerror hnerror
  rw [hlimit] at hm
  rw [hfar] at h
  rw [hnear]
  generalize hunit : Nat.pow 2 1033 = unit at *
  have hmbit := lastBit_le_of_lt (n := m) hunit (by omega)
  rcases Nat.lt_or_ge n (2 ^ 53 * unit) with hn | hn
  · have hnbit := lastBit_le_of_lt hunit hn
    omega
  · omega

end Shortlist.Binary64
