import Shortlist.Proofs.Number.Remainder
import Shortlist.Proofs.Rule.Evaluation

/-!
# Integers in rules

Sums, differences and products of integers are taken in the integers, whatever their size. A
remainder is taken of the doubles nearest to its operands, so it is exact for integers that are
values of doubles, and it fails where an operand has no double near it.
-/

namespace Shortlist.Rule

open Number (HasDouble)

variable {a b : Int}

/-- A remainder by an integer other than zero is that of the numbers, if they have one. -/
theorem apply_remainder (one : Bool) (hzero : b ≠ 0) :
    (BinaryOp.arithmetic .remainder).apply one (.int a) (.int b) =
      match (Number.int a).rem (.int b) with
      | .error fault => fail (.arithmetic Arithmetic.remainder.spelling fault)
      | .ok result =>
        if result.isFinite then .ok (.number result)
        else fail (.notFinite Arithmetic.remainder.spelling) := by
  have hnonzero : ¬(Arithmetic.remainder.divides && (Number.int b).isZero) = true := by
    rwa [Arithmetic.divides, Bool.true_and, Number.isZero, Number.equal_int_iff]
  rw [BinaryOp.apply, calculate_numbers, calculateNumbers, if_neg hnonzero]
  rfl

theorem apply_remainder_of_ok {x : Binary64} (one : Bool) (hzero : b ≠ 0)
    (hrem : (Number.int a).rem (.int b) = .ok (.double x)) (hx : x.isFinite = true) :
    (BinaryOp.arithmetic .remainder).apply one (.int a) (.int b) = .ok (.number (.double x)) := by
  rw [apply_remainder one hzero, hrem]
  exact if_pos hx

theorem apply_remainder_eq_failed_iff (one : Bool) (hzero : b ≠ 0) :
    (BinaryOp.arithmetic .remainder).apply one (.int a) (.int b) =
        .error (.failed (.arithmetic "%" .integerTooLarge)) ↔
      Binary64.bound ≤ a.natAbs ∨ Binary64.bound ≤ b.natAbs := by
  constructor
  · intro hfailed
    by_contra hnear
    obtain ⟨ha, hb⟩ := not_or.mp hnear
    obtain ⟨x, hrem, hx, -⟩ := Number.rem_int (Nat.not_le.mp ha) (Nat.not_le.mp hb) hzero
    rw [apply_remainder_of_ok one hzero hrem hx] at hfailed
    cases hfailed
  · intro hfar
    rw [apply_remainder one hzero, Number.rem_int_of_bound_le hfar]
    rfl

/-- Integer arithmetic in rules. Sums, differences and products are the exact integers. A remainder
by an integer other than zero is exactly what the truncated quotient leaves if both integers are
values of doubles, and it is a failure exactly if one of them is too large to have a double. -/
theorem integer_arithmetic (A : Assignment) (D : List String) {left right : Expr} {a b : Int}
    (hleft : left.value A D = .ok (.int a)) (hright : right.value A D = .ok (.int b)) :
    (Expr.binary (.arithmetic .plus) left right).value A D = .ok (.int (a + b)) ∧
    (Expr.binary (.arithmetic .minus) left right).value A D = .ok (.int (a - b)) ∧
    (Expr.binary (.arithmetic .times) left right).value A D = .ok (.int (a * b)) ∧
    (b ≠ 0 →
      (HasDouble a → HasDouble b → ∃ x : Binary64,
        (Expr.binary (.arithmetic .remainder) left right).value A D = .ok (.number (.double x)) ∧
          x.isFinite = true ∧ (Number.double x).amount = (a - b * a.tdiv b : Int)) ∧
      ((Expr.binary (.arithmetic .remainder) left right).value A D =
          .error (.failed (.arithmetic "%" .integerTooLarge)) ↔
        Binary64.bound ≤ a.natAbs ∨ Binary64.bound ≤ b.natAbs)) := by
  simp only [Expr.value_binary hleft hright]
  refine ⟨rfl, rfl, rfl, fun hzero => ⟨fun ha hb => ?_, apply_remainder_eq_failed_iff _ hzero⟩⟩
  obtain ⟨x, hrem, hx, hamount⟩ := Number.rem_int_of_hasDouble ha hb hzero
  exact ⟨x, apply_remainder_of_ok _ hzero hrem hx, hx, hamount⟩

def remainderBy (dividend divisor : Int) : Evaluated Value :=
  (Expr.binary (.arithmetic .remainder) (.name "n") (.literal (.number (.int divisor)))).value
    [("n", .int dividend)] ["n"]

theorem remainderBy_eq : remainderBy a b = (BinaryOp.arithmetic .remainder).apply
    (Expr.name "n" = .literal (.number (.int b))) (.int a) (.int b) :=
  Expr.value_binary rfl rfl _

/-- The remainder has the sign of the dividend. -/
theorem remainder_of_minus_seven :
    ∃ x : Binary64, remainderBy (-7) 4 = .ok (.number (.double x)) ∧
      (Number.double x).amount = (-3 : Int) := by
  have hleft : (Expr.name "n").value [("n", .int (-7))] ["n"] = .ok (.int (-7)) := rfl
  have hright : (Expr.literal (.number (.int 4))).value [("n", .int (-7))] ["n"] = .ok (.int 4) :=
    rfl
  obtain ⟨-, -, -, hremainder⟩ := integer_arithmetic _ _ hleft hright
  obtain ⟨x, hx, -, hamount⟩ := (hremainder (by decide)).1
    (Number.hasDouble_of_natAbs_le (by decide)) (Number.hasDouble_of_natAbs_le (by decide))
  exact ⟨x, hx, hamount⟩

/-- An integer of 401 digits has no remainder. The least positive integer that is not the value of a
double is odd, and its remainder by two is zero. -/
theorem large_integers_have_no_exact_remainder :
    remainderBy (10 ^ 400) 3 = .error (.failed (.arithmetic "%" .integerTooLarge)) ∧
    remainderBy (2 ^ 53 + 1) 2 = .ok (.number (.double .zero)) ∧
    (Number.double .zero).amount ≠ ((2 ^ 53 + 1) - 2 * (2 ^ 53 + 1 : Int).tdiv 2 : Int) := by
  have hfar : Binary64.bound ≤ (10 ^ 400 : Int).natAbs := by decide +kernel
  have hrem : (Number.int (2 ^ 53 + 1)).rem (.int 2) = .ok (.double .zero) := by decide +kernel
  have hplace : ¬Binary64.zero.place =
      ((2 ^ 53 + 1) - 2 * (2 ^ 53 + 1 : Int).tdiv 2) * Binary64.one := by decide +kernel
  rw [remainderBy_eq, remainderBy_eq]
  exact ⟨(apply_remainder_eq_failed_iff _ (by decide)).mpr (.inl hfar),
    apply_remainder_of_ok _ (by decide) hrem rfl, mt Number.amount_double_eq_iff.mp hplace⟩

end Shortlist.Rule
