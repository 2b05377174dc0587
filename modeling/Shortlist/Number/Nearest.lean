/-!
# Rounding a quotient to the nearest integer

Every rounding of this library, binary or decimal, is one rounding of a quotient of two natural
numbers: to the nearest integer, and of two integers equally near to the even one. It keeps the
order of the quotients it rounds.
-/

namespace Shortlist.Nearest

/-- The integer nearest to `p / d`, the even one of two. -/
def divide (p d : Nat) : Nat :=
  if 2 * (p % d) < d ∨ (2 * (p % d) = d ∧ p / d % 2 = 0) then p / d else p / d + 1

theorem le_divide (p d : Nat) : p / d ≤ divide p d := by
  unfold divide; split <;> omega

theorem divide_le (p d : Nat) : divide p d ≤ p / d + 1 := by
  unfold divide; split <;> omega

theorem divide_mul (m : Nat) {d : Nat} (hd : 0 < d) : divide (m * d) d = m := by
  simp [divide, Nat.mul_mod_left, Nat.mul_div_cancel m hd, hd]

@[simp] theorem zero_divide (d : Nat) : divide 0 d = 0 := by
  simp [divide, eq_comm, Nat.pos_iff_ne_zero]

theorem divide_mono {p q d : Nat} (h : p ≤ q) : divide p d ≤ divide q d := by
  have hdiv : p / d ≤ q / d := Nat.div_le_div_right h
  rcases Nat.lt_or_eq_of_le hdiv with hlt | heq
  · exact Nat.le_trans (divide_le p d) (Nat.le_trans hlt (le_divide q d))
  · have hp := Nat.div_add_mod p d
    have hq := Nat.div_add_mod q d
    rw [← heq] at hq
    have hmod : p % d ≤ q % d := by omega
    unfold divide
    rw [← heq]
    split <;> split <;> omega

theorem divide_error (p : Nat) {d : Nat} (hd : 0 < d) :
    2 * p ≤ (2 * divide p d + 1) * d ∧ 2 * divide p d * d ≤ 2 * p + d := by
  have hp := Nat.div_add_mod p d
  have hm := Nat.mod_lt p hd
  unfold divide
  generalize p / d = q at *
  generalize p % d = r at *
  have hqd : 2 * (d * q) = 2 * q * d := by rw [Nat.mul_comm d q, Nat.mul_assoc]
  split
  · rw [Nat.add_mul]; omega
  · have h1 : 2 * (q + 1) * d = 2 * q * d + 2 * d := by rw [Nat.mul_add, Nat.add_mul]
    rw [Nat.add_mul, h1]
    omega

end Shortlist.Nearest
