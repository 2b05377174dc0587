import Shortlist.Number.Nearest

/-!
# Doubles

A finite double is an integer multiple of the smallest positive one, `2 ^ (-1074)`. So it is kept
as a sign and a natural number of these units, and arithmetic is exact integer arithmetic followed
by one rounding: the units are cut to 53 significant bits, to nearest with ties to even, and a
result of `2 ^ 2098` units or more is infinite.
-/

namespace Shortlist

/-- How many units make one. -/
def Binary64.one : Nat := Nat.pow 2 1074

/-- The first number of units that is too large. -/
def Binary64.limit : Nat := Nat.pow 2 2098

/-- A number of units below the limit with at most 53 significant bits. -/
def Binary64.Representable (units : Nat) : Prop :=
  units < Binary64.limit ∧ Nat.pow 2 (units.log2 - 52) ∣ units

/-- A number of the binary format with 53 significant bits and 11 bits of exponent. -/
inductive Binary64
  | nan
  | infinite (negative : Bool)
  | finite (negative : Bool) (units : Nat) (representable : Binary64.Representable units)
deriving DecidableEq

namespace Binary64

/-- The weight of the last of 53 significant bits of a number. -/
def lastBit (n : Nat) : Nat := Nat.pow 2 (n.log2 - 52)

/-- The quotient `p / d`, cut to 53 significant bits. -/
def roundUnits (p d : Nat) : Nat :=
  Nearest.divide p (d * lastBit (p / d)) * lastBit (p / d)

theorem div_lastBit_lt (n : Nat) : n / lastBit n < Nat.pow 2 53 := by
  unfold lastBit
  rw [Nat.pow_eq, Nat.pow_eq, Nat.div_lt_iff_lt_mul (Nat.two_pow_pos _), ← Nat.pow_add]
  exact Nat.lt_of_lt_of_le Nat.lt_log2_self (Nat.pow_le_pow_right (by decide) (by omega))

theorem significand_le (p d : Nat) : Nearest.divide p (d * lastBit (p / d)) ≤ Nat.pow 2 53 := by
  refine Nat.le_trans (Nearest.divide_le _ _) ?_
  rw [← Nat.div_div_eq_div_mul]
  exact div_lastBit_lt (p / d)

theorem pow_dvd_mul {m k : Nat} (hm : m ≤ Nat.pow 2 53) :
    Nat.pow 2 ((m * Nat.pow 2 k).log2 - 52) ∣ m * Nat.pow 2 k := by
  rw [Nat.pow_eq] at hm
  rw [Nat.pow_eq, Nat.pow_eq]
  rcases Nat.eq_zero_or_pos m with rfl | hpos
  · simp
  · rcases Nat.lt_or_eq_of_le hm with hlt | rfl
    · refine Nat.dvd_trans (Nat.pow_dvd_pow 2 ?_) (Nat.dvd_mul_left _ _)
      have hne : m * 2 ^ k ≠ 0 := Nat.ne_of_gt (Nat.mul_pos hpos (Nat.two_pow_pos k))
      have : (m * 2 ^ k).log2 < 53 + k := by
        rw [Nat.log2_lt hne, Nat.pow_add]
        exact Nat.mul_lt_mul_of_pos_right hlt (Nat.two_pow_pos k)
      omega
    · rw [← Nat.pow_add, Nat.log2_two_pow]
      exact Nat.pow_dvd_pow 2 (by omega)

theorem lastBit_dvd_roundUnits (p d : Nat) :
    Nat.pow 2 ((roundUnits p d).log2 - 52) ∣ roundUnits p d :=
  pow_dvd_mul (significand_le p d)

/-- The double nearest to `p / d` units, of the given sign. -/
def round (negative : Bool) (p d : Nat) : Binary64 :=
  if h : roundUnits p d < limit then
    .finite negative (roundUnits p d) ⟨h, lastBit_dvd_roundUnits p d⟩
  else .infinite negative

/-- The double nearest to a signed integer of units; a sum of zero is positive. -/
def ofUnits (units : Int) : Binary64 := round (units < 0) units.natAbs 1

theorem roundUnits_of_representable {n : Nat} (h : Representable n) : roundUnits n 1 = n := by
  obtain ⟨m, hm⟩ := h.2
  have hpos : 0 < Nat.pow 2 (n.log2 - 52) := Nat.two_pow_pos _
  simp only [roundUnits, Nat.div_one, Nat.one_mul, lastBit]
  generalize Nat.pow 2 (n.log2 - 52) = bit at hm hpos
  subst hm
  rw [Nat.mul_comm bit m, Nearest.divide_mul m hpos]

theorem le_two_mul_roundUnits (p : Nat) : p ≤ 2 * roundUnits p 1 := by
  rcases Nat.eq_zero_or_pos p with rfl | hpos
  · exact Nat.zero_le _
  · have hbit : lastBit p ≤ p :=
      Nat.le_trans (Nat.pow_le_pow_right (by decide) (Nat.sub_le _ _))
        (Nat.log2_self_le (Nat.ne_of_gt hpos))
    have hbitPos : 0 < lastBit p := Nat.two_pow_pos _
    have hone : 1 ≤ p / lastBit p := Nat.div_pos hbit hbitPos
    have hround : p / lastBit p ≤ Nearest.divide p (lastBit p) := Nearest.le_divide p _
    rw [roundUnits, Nat.div_one, Nat.one_mul, ← Nat.mul_assoc]
    calc p ≤ lastBit p * (p / lastBit p + 1) := Nat.le_of_lt (Nat.lt_mul_div_succ p hbitPos)
      _ = (p / lastBit p + 1) * lastBit p := Nat.mul_comm _ _
      _ ≤ 2 * Nearest.divide p (lastBit p) * lastBit p := Nat.mul_le_mul_right _ (by omega)

theorem round_of_representable {n : Nat} (negative : Bool) (h : Representable n) :
    round negative n 1 = .finite negative n h := by
  simp [round, roundUnits_of_representable h, h.1]

def zero : Binary64 := .finite false 0 ⟨by decide +kernel, Nat.dvd_zero _⟩

def isFinite : Binary64 → Bool
  | .finite .. => true
  | _ => false

/-- The sign changed. -/
def neg : Binary64 → Binary64
  | .nan => .nan
  | .infinite negative => .infinite !negative
  | .finite negative units fits => .finite (!negative) units fits

/-- A sign and a number of units as one integer. -/
def signed (negative : Bool) (units : Nat) : Int := if negative then -(units : Int) else units

def add : Binary64 → Binary64 → Binary64
  | .nan, _ => .nan
  | _, .nan => .nan
  | .infinite s, .infinite t => if s = t then .infinite s else .nan
  | .infinite s, .finite .. => .infinite s
  | .finite .., .infinite t => .infinite t
  | .finite s m _, .finite t n _ =>
    let total := signed s m + signed t n
    if total = 0 then round (s && t) 0 1 else ofUnits total

def sub (x y : Binary64) : Binary64 := add x (neg y)

def mul : Binary64 → Binary64 → Binary64
  | .nan, _ => .nan
  | _, .nan => .nan
  | .infinite s, .infinite t => .infinite (s != t)
  | .infinite s, .finite t n _ => if n = 0 then .nan else .infinite (s != t)
  | .finite s m _, .infinite t => if m = 0 then .nan else .infinite (s != t)
  | .finite s m _, .finite t n _ => round (s != t) (m * n) one

def div : Binary64 → Binary64 → Binary64
  | .nan, _ => .nan
  | _, .nan => .nan
  | .infinite _, .infinite _ => .nan
  | .infinite s, .finite t .. => .infinite (s != t)
  | .finite s .., .infinite t => round (s != t) 0 1
  | .finite s m _, .finite t n _ =>
    if n = 0 then (if m = 0 then .nan else .infinite (s != t))
    else round (s != t) (m * one) n

/-- The remainder of the truncated quotient, exact, with the sign of the dividend. It is NaN for
an infinite dividend and for a zero divisor. -/
def rem : Binary64 → Binary64 → Binary64
  | .nan, _ => .nan
  | _, .nan => .nan
  | .infinite _, _ => .nan
  | .finite s m fits, .infinite _ => .finite s m fits
  | .finite s m _, .finite _ n _ => if n = 0 then .nan else round s (m % n) 1

/-- The double nearest to an integer, infinite beyond the range. -/
def ofInt : Int → Binary64
  | .ofNat n => round false (n * one) 1
  | .negSucc n => round true ((n + 1) * one) 1

theorem natAbs_lt_of_ofInt {i : Int} {s : Bool} {units : Nat} {fits : Representable units}
    (h : ofInt i = .finite s units fits) : i.natAbs < Nat.pow 2 1025 := by
  have hbound : 2 * limit = Nat.pow 2 1025 * one := by decide +kernel
  have hfits : ∀ {negative : Bool} {n : Nat},
      round negative (n * one) 1 = .finite s units fits → n < Nat.pow 2 1025 := by
    intro negative n hround
    unfold round at hround
    split at hround
    · rename_i hlt
      have hunits : n * one < 2 * limit :=
        Nat.lt_of_le_of_lt (le_two_mul_roundUnits (n * one))
          (Nat.mul_lt_mul_of_pos_left hlt (by decide))
      rw [hbound] at hunits
      exact Nat.lt_of_mul_lt_mul_right (a := one) hunits
    · cases hround
  cases i with
  | ofNat n => exact hfits h
  | negSucc n => exact hfits h

/-- The quotient of two integers, rounded once; the divisor is not zero. -/
def ofQuotient (a b : Int) : Binary64 :=
  round (decide (a < 0) != decide (b < 0)) (a.natAbs * one) b.natAbs

/-- What a list of doubles adds up to before rounding. -/
inductive Total
  | nan
  | infinite (negative : Bool)
  | units (total : Int)
deriving DecidableEq

def Total.add : Total → Binary64 → Total
  | .nan, _ => .nan
  | _, .nan => .nan
  | .infinite s, .infinite t => if s = t then .infinite s else .nan
  | .infinite s, .finite .. => .infinite s
  | .units _, .infinite t => .infinite t
  | .units total, .finite t n _ => .units (total + signed t n)

/-- The exact sum of a list, rounded once. A sum of zero is positive. -/
def sum (xs : List Binary64) : Binary64 :=
  match xs.foldl Total.add (.units 0) with
  | .nan => .nan
  | .infinite s => .infinite s
  | .units total => ofUnits total

end Binary64

end Shortlist
