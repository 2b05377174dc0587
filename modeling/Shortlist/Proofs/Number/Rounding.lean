import Mathlib.Data.List.Perm.Basic
import Mathlib.Data.Nat.Cast.Basic
import Mathlib.Data.Nat.Log
import Mathlib.Tactic.Common
import Mathlib.Tactic.Linarith
import Mathlib.Tactic.Ring
import Shortlist.Number.Basic

/-!
# Rounding keeps the order

A quotient between two powers of two is rounded to a double between them, and quotients between the
same two powers are cut at the same bit. So a larger quotient is never rounded to a smaller double.
How a quotient is written does not matter, nor does the order of the terms of a sum that is rounded
once.
-/

namespace Shortlist

theorem Nearest.divide_mul_mul_right (p d : Nat) {k : Nat} (hk : 0 < k) :
    divide (p * k) (d * k) = divide p d := by
  have hdouble : 2 * (p % d * k) = 2 * (p % d) * k := (Nat.mul_assoc 2 (p % d) k).symm
  simp only [divide, Nat.mul_div_mul_right _ _ hk, Nat.mul_mod_mul_right, hdouble,
    Nat.mul_lt_mul_right hk, Nat.mul_left_inj (Nat.ne_of_gt hk)]

namespace Binary64

/-! ### Quotients -/

theorem lastBit_pos (n : Nat) : 0 < lastBit n := Nat.two_pow_pos _

theorem pow_eq_mul_lastBit {n k : Nat} (h : n.log2 - 52 ≤ k) :
    2 ^ k = 2 ^ (k - (n.log2 - 52)) * lastBit n := by
  rw [lastBit, Nat.pow_eq, ← Nat.pow_add, Nat.sub_add_cancel h]

theorem roundUnits_le_pow (p d : Nat) : roundUnits p d ≤ 2 ^ ((p / d).log2 + 1) := by
  have hpow := pow_eq_mul_lastBit (n := p / d) (k := (p / d).log2 + 1) (by omega)
  rw [roundUnits, hpow]
  refine Nat.mul_le_mul_right _ (Nat.le_trans (Nearest.divide_le _ _) ?_)
  rw [← Nat.div_div_eq_div_mul, Nat.succ_le_iff, Nat.div_lt_iff_lt_mul (lastBit_pos _), ← hpow]
  exact Nat.lt_log2_self

theorem pow_le_roundUnits {p d : Nat} (h : p / d ≠ 0) : 2 ^ (p / d).log2 ≤ roundUnits p d := by
  have hpow := pow_eq_mul_lastBit (n := p / d) (k := (p / d).log2) (by omega)
  rw [roundUnits, hpow]
  refine Nat.mul_le_mul_right _ (Nat.le_trans ?_ (Nearest.le_divide _ _))
  rw [← Nat.div_div_eq_div_mul, Nat.le_div_iff_mul_le (lastBit_pos _), ← hpow]
  exact Nat.log2_self_le h

theorem roundUnits_mono {p q : Nat} (h : p ≤ q) (d : Nat) : roundUnits p d ≤ roundUnits q d := by
  have hdiv : p / d ≤ q / d := Nat.div_le_div_right h
  have hlog : (p / d).log2 ≤ (q / d).log2 := by
    rw [Nat.log2_eq_log_two, Nat.log2_eq_log_two]
    exact Nat.log_mono_right hdiv
  -- either a power of two lies between the quotients or both are cut at the same bit
  rcases Nat.lt_or_eq_of_le hlog with hlt | heq
  · have hne : q / d ≠ 0 := by
      intro hzero
      rw [hzero] at hlt
      exact absurd hlt (Nat.not_lt_zero _)
    calc roundUnits p d
        ≤ 2 ^ ((p / d).log2 + 1) := roundUnits_le_pow p d
      _ ≤ 2 ^ (q / d).log2 := Nat.pow_le_pow_right (by decide) hlt
      _ ≤ roundUnits q d := pow_le_roundUnits hne
  · rw [roundUnits, roundUnits, lastBit, lastBit, heq]
    exact Nat.mul_le_mul_right _ (Nearest.divide_mono h)

theorem roundUnits_mul_mul_right (p d : Nat) {k : Nat} (hk : 0 < k) :
    roundUnits (p * k) (d * k) = roundUnits p d := by
  rw [roundUnits, roundUnits, Nat.mul_div_mul_right _ _ hk, Nat.mul_right_comm,
    Nearest.divide_mul_mul_right _ _ hk]

theorem roundUnits_mul_self {n d : Nat} (h : Representable n) (hd : 0 < d) :
    roundUnits (n * d) d = n := by
  have hone := roundUnits_mul_mul_right n 1 hd
  rwa [Nat.one_mul, roundUnits_of_representable h] at hone

theorem roundUnits_anti (p : Nat) {d e : Nat} (hd : 0 < d) (h : d ≤ e) :
    roundUnits p e ≤ roundUnits p d :=
  calc roundUnits p e
      = roundUnits (p * d) (e * d) := (roundUnits_mul_mul_right p e hd).symm
    _ ≤ roundUnits (p * e) (e * d) := roundUnits_mono (Nat.mul_le_mul_left p h) _
    _ = roundUnits (p * e) (d * e) := by rw [Nat.mul_comm e d]
    _ = roundUnits p d := roundUnits_mul_mul_right p d (Nat.lt_of_lt_of_le hd h)

theorem one_pos : 0 < one := by decide +kernel

theorem roundUnits_le_two_mul (p : Nat) : roundUnits p 1 ≤ 2 * p := by
  rcases Nat.eq_zero_or_pos p with rfl | hpos
  · exact Nat.le_of_eq rfl
  · have hbit : lastBit p ≤ p :=
      Nat.le_trans (Nat.pow_le_pow_right (by decide) (Nat.sub_le _ _))
        (Nat.log2_self_le (Nat.ne_of_gt hpos))
    rw [roundUnits, Nat.div_one, Nat.one_mul]
    calc Nearest.divide p (lastBit p) * lastBit p
        ≤ (p / lastBit p + 1) * lastBit p := Nat.mul_le_mul_right _ (Nearest.divide_le p _)
      _ = p / lastBit p * lastBit p + lastBit p := Nat.succ_mul _ _
      _ ≤ p + p := Nat.add_le_add (Nat.div_mul_le_self p _) hbit
      _ = 2 * p := (Nat.two_mul p).symm

/-- What is below a bound that twice fits the range is rounded to a finite double. -/
theorem roundUnits_lt_limit {n k bound : Nat} (hbound : 2 * (bound * one) ≤ limit)
    (hn : n ≤ k * one) (hk : k < bound) : roundUnits n 1 < limit :=
  calc roundUnits n 1
      ≤ 2 * n := roundUnits_le_two_mul n
    _ ≤ 2 * (k * one) := Nat.mul_le_mul_left 2 hn
    _ < 2 * (bound * one) :=
      Nat.mul_lt_mul_of_pos_left (Nat.mul_lt_mul_of_pos_right hk one_pos) (by decide)
    _ ≤ limit := hbound

theorem exists_round_of_lt (s : Bool) {p d : Nat} (h : roundUnits p d < limit) :
    ∃ fits, round s p d = .finite s (roundUnits p d) fits := ⟨_, dif_pos h⟩

/-! ### Rounding errors -/

theorem lastBit_mono {m n : Nat} (h : m ≤ n) : lastBit m ≤ lastBit n := by
  refine Nat.pow_le_pow_right (by decide) (Nat.sub_le_sub_right ?_ 52)
  rw [Nat.log2_eq_log_two, Nat.log2_eq_log_two]
  exact Nat.log_mono_right h

theorem lastBit_mul_le {n : Nat} (h : 2 ^ 52 ≤ n) : lastBit n * 2 ^ 52 ≤ n := by
  have hne : n ≠ 0 := by
    rintro rfl
    exact absurd h (by decide)
  have hlog : 52 ≤ n.log2 := (Nat.le_log2 hne).mpr h
  rw [lastBit, Nat.pow_eq, ← Nat.pow_add, Nat.sub_add_cancel hlog]
  exact Nat.log2_self_le hne

theorem lastBit_le_of_lt {n k unit : Nat} (hunit : Nat.pow 2 k = unit) (h : n < 2 ^ 53 * unit) :
    lastBit n ≤ unit := by
  rw [lastBit, ← hunit]
  refine Nat.pow_le_pow_right (by decide) ?_
  rcases Nat.eq_zero_or_pos n with rfl | hpos
  · rw [Nat.log2_zero]
    exact Nat.zero_le _
  · rw [← hunit, Nat.pow_eq, ← Nat.pow_add] at h
    have hlog := (Nat.log2_lt (Nat.ne_of_gt hpos)).mpr h
    omega

theorem le_lastBit_of_le {n k unit : Nat} (hunit : Nat.pow 2 k = unit) (h : 2 ^ 52 * unit ≤ n) :
    unit ≤ lastBit n := by
  have hpos : 0 < unit := hunit ▸ Nat.two_pow_pos k
  have hne : n ≠ 0 := by omega
  rw [lastBit, ← hunit]
  refine Nat.pow_le_pow_right (by decide) ?_
  rw [← hunit, Nat.pow_eq, ← Nat.pow_add] at h
  have hlog := (Nat.le_log2 hne).mpr h
  omega

/-- The error of rounding is at most half of the last bit. -/
theorem roundUnits_error (p : Nat) {d : Nat} (hd : 0 < d) :
    2 * p ≤ 2 * (roundUnits p d * d) + lastBit (p / d) * d ∧
      2 * (roundUnits p d * d) ≤ 2 * p + lastBit (p / d) * d := by
  have hbit := Nat.mul_pos hd (lastBit_pos (p / d))
  obtain ⟨hlow, hhigh⟩ := Nearest.divide_error p hbit
  rw [roundUnits]
  generalize lastBit (p / d) = bit at *
  generalize Nearest.divide p (d * bit) = q at *
  constructor
  · calc 2 * p ≤ (2 * q + 1) * (d * bit) := hlow
      _ = 2 * (q * bit * d) + bit * d := by ring
  · calc 2 * (q * bit * d) = 2 * q * (d * bit) := by ring
      _ ≤ 2 * p + d * bit := hhigh
      _ = 2 * p + bit * d := by ring

theorem lt_pow_mul_lastBit (n : Nat) : n < 2 ^ 53 * lastBit n :=
  (Nat.div_lt_iff_lt_mul (lastBit_pos n)).mp (div_lastBit_lt n)

theorem exists_lastBit_eq {n bit : Nat} (hpos : 0 < bit) (hlt : bit < lastBit n) :
    2 ^ 52 ≤ n ∧ ∃ k, lastBit n = 2 * Nat.pow 2 k := by
  have hlog : 52 < n.log2 := by
    by_contra hle
    have hone : lastBit n = 1 := by rw [lastBit, Nat.sub_eq_zero_of_le (by omega)]
    omega
  obtain ⟨k, hk⟩ : ∃ k, n.log2 - 52 = k + 1 := ⟨n.log2 - 53, by omega⟩
  refine ⟨(Nat.le_log2 (by rintro rfl; simp at hlog)).mp (Nat.le_of_lt hlog), k, ?_⟩
  rw [lastBit, hk]
  exact Nat.mul_comm _ 2

section Near

variable {n p d : Nat} (hn : Representable n) (hlow : 2 ^ 54 * (n * d) < 2 ^ 54 * p + n * d)
  (hhigh : 2 ^ 54 * p < 2 ^ 54 * (n * d) + n * d)

include hn hhigh

/-- What is near to a number is not cut at a larger bit. -/
theorem lastBit_le_of_near (hd : 0 < d) : lastBit (p / d) ≤ lastBit n := by
  obtain ⟨m, hm⟩ := hn.2
  have hsmall := lt_pow_mul_lastBit n
  have hpos := lastBit_pos n
  refine lastBit_le_of_lt rfl ((Nat.div_lt_iff_lt_mul hd).mpr ?_)
  change n = lastBit n * m at hm
  generalize lastBit n = bit at *
  have hcount : m + 1 ≤ 2 ^ 53 := by
    rw [hm, Nat.mul_comm] at hsmall
    exact Nat.lt_of_mul_lt_mul_right hsmall
  have hbelow : (n + bit) * d ≤ 2 ^ 53 * bit * d := by
    refine Nat.mul_le_mul_right d ?_
    calc n + bit = (m + 1) * bit := by rw [hm]; ring
      _ ≤ 2 ^ 53 * bit := Nat.mul_le_mul_right bit hcount
  have hpart : n * d < 2 ^ 53 * (bit * d) := by
    rw [← Nat.mul_assoc]
    exact Nat.mul_lt_mul_of_pos_right hsmall hd
  have hspread : (n + bit) * d = n * d + bit * d := Nat.add_mul _ _ _
  omega

include hlow

omit hn hhigh in
/-- What is near to a number and below a power of two leaves no room for the number above it. -/
theorem count_le_of_near {m unit : Nat} (hm : n = 2 * unit * m) (hp : p < 2 ^ 53 * (unit * d)) :
    m ≤ 2 ^ 52 := by
  by_contra hmore
  have hfar : (2 ^ 53 + 2) * (unit * d) ≤ n * d := by
    calc (2 ^ 53 + 2) * (unit * d) = (2 ^ 52 + 1) * (2 * unit * d) := by ring
      _ ≤ m * (2 * unit * d) := Nat.mul_le_mul_right _ (Nat.lt_of_not_le hmore)
      _ = n * d := by rw [hm]; ring
  omega

/-- Nor does it reach over the bit at which it is cut. -/
theorem le_pow_mul_lastBit_of_near (hd : 0 < d) : n ≤ 2 ^ 53 * lastBit (p / d) := by
  rcases Nat.lt_or_eq_of_le (lastBit_le_of_near hn hhigh hd) with hlt | heq
  -- a smaller bit means that the number is the power of two at which the bit changes
  · obtain ⟨hn52, k, hbit⟩ := exists_lastBit_eq (lastBit_pos _) hlt
    have hhalf : 2 ^ 52 * Nat.pow 2 k ≤ p / d → Nat.pow 2 k ≤ lastBit (p / d) :=
      le_lastBit_of_le rfl
    have hdouble : Nat.pow 2 (k + 1) = 2 * Nat.pow 2 k := Nat.mul_comm _ 2
    have hwhole : 2 ^ 52 * (2 * Nat.pow 2 k) ≤ p / d → 2 * Nat.pow 2 k ≤ lastBit (p / d) :=
      le_lastBit_of_le hdouble
    have hlarge := lastBit_mul_le hn52
    obtain ⟨m, hm⟩ := hn.2
    change n = lastBit n * m at hm
    rw [Nat.le_div_iff_mul_le hd] at hhalf hwhole
    rw [hbit] at hm hlarge hlt
    generalize Nat.pow 2 k = unit at *
    generalize lastBit (p / d) = bit at *
    have hleast : 2 ^ 53 * (unit * d) ≤ n * d := by
      calc 2 ^ 53 * (unit * d) = 2 * unit * 2 ^ 52 * d := by ring
        _ ≤ n * d := Nat.mul_le_mul_right d hlarge
    have hp : p < 2 ^ 53 * (unit * d) := by
      have hbelow := Nat.lt_of_not_le fun hge => Nat.not_le.mpr hlt (hwhole hge)
      calc p < 2 ^ 52 * (2 * unit) * d := hbelow
        _ = 2 ^ 53 * (unit * d) := by ring
    have hunit : unit ≤ bit := by
      refine hhalf ?_
      rw [Nat.mul_assoc]
      omega
    calc n = 2 * unit * m := hm
      _ ≤ 2 * unit * 2 ^ 52 := Nat.mul_le_mul_left _ (count_le_of_near hlow hm hp)
      _ = 2 ^ 53 * unit := by ring
      _ ≤ 2 ^ 53 * bit := Nat.mul_le_mul_left _ hunit
  · rw [heq]
    exact Nat.le_of_lt (lt_pow_mul_lastBit n)

/-- What is nearer to a representable number than a part in `2 ^ 54` of it is rounded to it. -/
theorem roundUnits_of_near (hd : 0 < d) : roundUnits p d = n := by
  have hreach := le_pow_mul_lastBit_of_near hn hlow hhigh hd
  have hle := lastBit_le_of_near hn hhigh hd
  obtain ⟨hbelow, habove⟩ := roundUnits_error p hd
  -- both are multiples of the last bit and nearer to each other than one such bit
  have hdvd : lastBit (p / d) ∣ n := by
    refine Nat.dvd_trans (Nat.pow_dvd_pow 2 ?_) hn.2
    exact (Nat.pow_le_pow_iff_right (by decide)).mp hle
  obtain ⟨r, hr⟩ := hdvd
  have hround : roundUnits p d = lastBit (p / d) * Nearest.divide p (d * lastBit (p / d)) :=
    Nat.mul_comm _ _
  rw [hround] at hbelow habove ⊢
  generalize Nearest.divide p (d * lastBit (p / d)) = q at *
  have hpos := lastBit_pos (p / d)
  generalize lastBit (p / d) = bit at *
  have hspan : n * d ≤ 2 ^ 53 * (bit * d) := by
    rw [← Nat.mul_assoc]
    exact Nat.mul_le_mul_right d hreach
  have hrd : n * d = r * (bit * d) := by rw [hr]; ring
  have hqd : bit * q * d = q * (bit * d) := by ring
  have hunit : 0 < bit * d := Nat.mul_pos hpos hd
  rw [hqd] at hbelow habove
  have hrq : r * (bit * d) < (q + 1) * (bit * d) := by
    rw [Nat.add_mul, Nat.one_mul, ← hrd]
    omega
  have hqr : q * (bit * d) < (r + 1) * (bit * d) := by
    rw [Nat.add_mul, Nat.one_mul, ← hrd]
    omega
  have hrq := Nat.lt_of_mul_lt_mul_right hrq
  have hqr := Nat.lt_of_mul_lt_mul_right hqr
  rw [hr, Nat.le_antisymm (Nat.lt_succ_iff.mp hqr) (Nat.lt_succ_iff.mp hrq)]

end Near

/-! ### Sums -/

theorem Total.add_right_comm (t : Total) (x y : Binary64) : (t.add x).add y = (t.add y).add x := by
  cases t with
  | nan => rfl
  | infinite s =>
    cases x with
    | nan =>
      cases y with
      | nan => rfl
      | infinite b => cases s <;> cases b <;> rfl
      | finite _ _ _ => rfl
    | infinite a =>
      cases y with
      | nan => cases s <;> cases a <;> rfl
      | infinite b => cases s <;> cases a <;> cases b <;> rfl
      | finite _ _ _ => cases s <;> cases a <;> rfl
    | finite _ _ _ =>
      cases y with
      | nan => rfl
      | infinite b => cases s <;> cases b <;> rfl
      | finite _ _ _ => rfl
  | units n =>
    cases x with
    | nan => cases y <;> rfl
    | infinite a =>
      cases y with
      | nan => rfl
      | infinite b => cases a <;> cases b <;> rfl
      | finite _ _ _ => rfl
    | finite _ _ _ =>
      cases y with
      | nan => rfl
      | infinite b => rfl
      | finite _ _ _ => exact congrArg Total.units (Int.add_right_comm _ _ _)

/-- A sum that is rounded once does not depend on the order of its terms. -/
theorem sum_perm {xs ys : List Binary64} (h : xs.Perm ys) : sum xs = sum ys := by
  have hcomm : RightCommutative Total.add := ⟨Total.add_right_comm⟩
  rw [sum, sum, h.foldl_eq]

/-! ### Integers with a double near them -/

theorem exists_finite_round {n bound : Nat} (negative : Bool) (hbound : 2 * (bound * one) ≤ limit)
    (h : n < bound) : ∃ units fits, round negative (n * one) 1 = .finite negative units fits :=
  ⟨_, exists_round_of_lt negative (roundUnits_lt_limit hbound (Nat.le_refl _) h)⟩

end Binary64

namespace Number

theorem exists_toDouble {i : Int} (h : i.natAbs < Nat.pow 2 1023) :
    ∃ x, (Number.int i).toDouble = .ok x := by
  have hbound : 2 * (Nat.pow 2 1023 * Binary64.one) ≤ Binary64.limit := by decide +kernel
  cases i with
  | ofNat n =>
    obtain ⟨units, fits, hround⟩ := Binary64.exists_finite_round (n := n) false hbound h
    exact ⟨.finite false units fits, by rw [toDouble, Binary64.ofInt, hround]⟩
  | negSucc n =>
    obtain ⟨units, fits, hround⟩ := Binary64.exists_finite_round (n := n + 1) true hbound h
    exact ⟨.finite true units fits, by rw [toDouble, Binary64.ofInt, hround]⟩

theorem atMost_int_iff {i j : Int} : (Number.int i).atMost (.int j) = true ↔ i ≤ j := by
  have hone : (0 : Int) < Binary64.one := Int.natCast_pos.mpr Binary64.one_pos
  have hplace : (Number.int i).atMost (.int j) = true ↔ i * Binary64.one ≤ j * Binary64.one := by
    simp only [atMost, less, equal, position, Position.before, Bool.or_eq_true, decide_eq_true_eq,
      Position.units.injEq]
    exact Int.le_iff_lt_or_eq.symm
  rw [hplace]
  exact ⟨fun h => Int.le_of_mul_le_mul_right h hone,
    fun h => Int.mul_le_mul_of_nonneg_right h (Int.le_of_lt hone)⟩

end Number

end Shortlist
