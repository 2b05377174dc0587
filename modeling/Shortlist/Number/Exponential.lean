import Shortlist.Number.Binary64

/-!
# The exponential function on doubles

The power of `e` is computed in fixed point with 256 fractional bits and rounded once. The
magnitude of the argument is divided by `2 ^ 10`, which brings it below one, the series is summed
there, and ten squarings undo the division. Every step is a product or a sum of natural numbers
cut to an integer, so a larger argument never has a smaller power, and the power of zero is one.
A negative argument takes the reciprocal, which is therefore at most one.
-/

namespace Shortlist.Binary64

/-- One in fixed point. -/
def fixedOne : Nat := Nat.pow 2 256

/-- A term of the series and those that follow it, `count` of them. -/
def seriesFrom (z : Nat) : (count k term : Nat) → Nat
  | 0, _, _ => 0
  | count + 1, k, term => term + seriesFrom z count (k + 1) (term * z / (fixedOne * (k + 1)))

/-- A fixed-point number below one raised on `e`. -/
def series (z : Nat) : Nat := seriesFrom z 64 0 fixedOne

def squareFixed (n : Nat) : Nat := n * n / fixedOne

/-- The magnitudes from `2 ^ 10` on are beyond the range. -/
def exponentLimit : Nat := Nat.pow 2 1084

/-- The power of `e` to a number of units below the limit, in fixed point. -/
def power (units : Nat) : Nat := Nat.repeat squareFixed 10 (series (units / Nat.pow 2 828))

/-- The power of `e` to a double, rounded once. -/
def exp : Binary64 → Binary64
  | .nan => .nan
  | .infinite true => zero
  | .infinite false => .infinite false
  | .finite true n _ =>
    if n < exponentLimit then round false (fixedOne * one) (power n) else zero
  | .finite false n _ =>
    if n < exponentLimit then round false (power n * one) fixedOne else .infinite false

theorem seriesFrom_mono {y z : Nat} (h : y ≤ z) (count k : Nat) {s t : Nat} (hst : s ≤ t) :
    seriesFrom y count k s ≤ seriesFrom z count k t := by
  induction count generalizing k s t with
  | zero => exact Nat.le_refl _
  | succ count ih =>
    exact Nat.add_le_add hst (ih _ (Nat.div_le_div_right (Nat.mul_le_mul hst h)))

theorem squareFixed_mono {m n : Nat} (h : m ≤ n) : squareFixed m ≤ squareFixed n :=
  Nat.div_le_div_right (Nat.mul_le_mul h h)

theorem repeat_squareFixed_mono {m n : Nat} (h : m ≤ n) (count : Nat) :
    Nat.repeat squareFixed count m ≤ Nat.repeat squareFixed count n := by
  induction count with
  | zero => exact h
  | succ count ih => exact squareFixed_mono ih

theorem power_mono {m n : Nat} (h : m ≤ n) : power m ≤ power n :=
  repeat_squareFixed_mono
    (seriesFrom_mono (Nat.div_le_div_right h) 64 0 (Nat.le_refl _)) 10

theorem power_zero : power 0 = fixedOne := by decide +kernel

theorem fixedOne_le_power (n : Nat) : fixedOne ≤ power n :=
  power_zero ▸ power_mono (Nat.zero_le n)

end Shortlist.Binary64
