import Mathlib.Algebra.Order.Ring.Rat
import Mathlib.Data.Rat.Cast.Order
import Mathlib.Order.WithBot
import Shortlist.Proofs.Number.Order

/-!
# What numbers amount to

A finite number of either kind amounts to a rational number, and the infinities stand at the ends of
the line. Two numbers are compared as what they amount to, an integer with a double as well: neither
of them is rounded for it. So the comparisons of numbers are those of a linear order, and only NaN
is left out.
-/

namespace Shortlist.Number

/-- The rational number that a finite number is. -/
def amount : Number → ℚ
  | .int i => i
  | .double x => x.place / Binary64.one

/-- Where a place is on the line of rational numbers with its two ends. -/
def Position.extent : Position → WithBot (WithTop ℚ)
  | .bottom => ⊥
  | .units n => ((n / Binary64.one : ℚ) : WithTop ℚ)
  | .top => ⊤

/-- What a number amounts to if it may be infinite. NaN has no place, so its extent says nothing. -/
def extent (n : Number) : WithBot (WithTop ℚ) := (n.position.map Position.extent).getD ⊥

theorem one_cast_pos : (0 : ℚ) < Binary64.one := Nat.cast_pos.mpr Binary64.one_pos

theorem amount_double_eq_iff {x : Binary64} {i : Int} :
    (Number.double x).amount = i ↔ x.place = i * Binary64.one := by
  rw [amount, div_eq_iff (ne_of_gt one_cast_pos), ← Int.cast_natCast, ← Int.cast_mul, Int.cast_inj]

/-! ### Places -/

theorem Position.before_iff {p q : Position} : p.before q = true ↔ p.extent < q.extent := by
  cases p with
  | bottom =>
    cases q with
    | bottom => exact iff_of_false Bool.noConfusion (lt_irrefl _)
    | units n => exact iff_of_true rfl (WithBot.bot_lt_coe _)
    | top => exact iff_of_true rfl (WithBot.bot_lt_coe _)
  | units m =>
    cases q with
    | bottom => exact iff_of_false Bool.noConfusion not_lt_bot
    | units n =>
      rw [before, decide_eq_true_iff, extent, extent, WithBot.coe_lt_coe, WithTop.coe_lt_coe,
        div_lt_div_iff_of_pos_right one_cast_pos, Int.cast_lt]
    | top => exact iff_of_true rfl (WithBot.coe_lt_coe.mpr (WithTop.coe_lt_top _))
  | top => cases q <;> exact iff_of_false Bool.noConfusion not_top_lt

theorem Position.extent_inj {p q : Position} : p.extent = q.extent ↔ p = q := by
  refine ⟨fun h => ?_, congrArg extent⟩
  -- of two different places one is before the other
  have hpq : ¬p.before q = true := fun hlt => absurd h (ne_of_lt (before_iff.mp hlt))
  have hqp : ¬q.before p = true := fun hlt => absurd h (ne_of_gt (before_iff.mp hlt))
  cases p <;> cases q <;> simp [before] at hpq hqp ⊢
  omega

/-! ### Numbers -/

variable {m n : Number}

theorem exists_position (h : n ≠ .double .nan) :
    ∃ p, n.position = some p ∧ n.extent = p.extent := by
  obtain ⟨p, hp⟩ : ∃ p, n.position = some p := by
    cases n with
    | int i => exact ⟨_, rfl⟩
    | double x => exact Binary64.exists_position (mt (congrArg Number.double) h)
  exact ⟨p, hp, by rw [extent, hp]; rfl⟩

theorem extent_of_isFinite (h : n.isFinite = true) : n.extent = ((n.amount : ℚ) : WithTop ℚ) := by
  cases n with
  | int i =>
    rw [extent, position, amount, Option.map_some, Option.getD_some, Position.extent, Int.cast_mul,
      Int.cast_natCast, mul_div_cancel_right₀ _ (ne_of_gt one_cast_pos)]
  | double x =>
    rw [extent, Binary64.position_double h]
    rfl

theorem ne_nan_of_isFinite (h : n.isFinite = true) : n ≠ .double .nan := by
  rintro rfl
  cases h

theorem less_iff_extent (hm : m ≠ .double .nan) (hn : n ≠ .double .nan) :
    m.less n = true ↔ m.extent < n.extent := by
  obtain ⟨p, hp, hmp⟩ := exists_position hm
  obtain ⟨q, hq, hnq⟩ := exists_position hn
  rw [less, hp, hq, hmp, hnq]
  exact Position.before_iff

theorem equal_iff_extent (hm : m ≠ .double .nan) (hn : n ≠ .double .nan) :
    m.equal n = true ↔ m.extent = n.extent := by
  obtain ⟨p, hp, hmp⟩ := exists_position hm
  obtain ⟨q, hq, hnq⟩ := exists_position hn
  rw [equal, hp, hq, hmp, hnq, Position.extent_inj]
  exact decide_eq_true_iff

theorem atMost_iff_extent (hm : m ≠ .double .nan) (hn : n ≠ .double .nan) :
    m.atMost n = true ↔ m.extent ≤ n.extent := by
  rw [atMost, Bool.or_eq_true, less_iff_extent hm hn, equal_iff_extent hm hn, le_iff_lt_or_eq]

theorem less_eq_false_iff (hm : m.isFinite = true) (hn : n.isFinite = true) :
    m.less n = false ↔ n.atMost m = true := by
  have hm' := ne_nan_of_isFinite hm
  have hn' := ne_nan_of_isFinite hn
  rw [← Bool.not_eq_true, less_iff_extent hm' hn', not_lt, atMost_iff_extent hn' hm']

/-! ### Equality -/

theorem equal_iff_amount (hm : m.isFinite = true) (hn : n.isFinite = true) :
    m.equal n = true ↔ m.amount = n.amount := by
  rw [equal_iff_extent (ne_nan_of_isFinite hm) (ne_nan_of_isFinite hn), extent_of_isFinite hm,
    extent_of_isFinite hn, WithBot.coe_inj, WithTop.coe_inj]

theorem equal_int_iff {i j : Int} : (Number.int i).equal (.int j) = true ↔ i = j := by
  rw [equal_iff_amount rfl rfl, amount, amount, Int.cast_inj]

theorem equal_comm (m n : Number) : m.equal n = n.equal m := by
  unfold equal
  cases m.position with
  | none => cases n.position <;> rfl
  | some p =>
    cases n.position with
    | none => rfl
    | some q => simp [eq_comm]

theorem isFinite_of_equal (h : m.equal n = true) (hn : n.isFinite = true) :
    m.isFinite = true := by
  cases m with
  | int i => rfl
  | double x =>
    cases x with
    | finite negative units fits => rfl
    | nan => exact absurd h Bool.noConfusion
    | infinite negative =>
      have hm : Number.double (.infinite negative) ≠ .double .nan := nofun
      rw [equal_iff_extent hm (ne_nan_of_isFinite hn), extent_of_isFinite hn] at h
      cases negative with
      | true => exact absurd h WithBot.bot_ne_coe
      | false => exact absurd (WithBot.coe_inj.mp h) WithTop.top_ne_coe

theorem equal_congr {k : Number} (h : m.equal n = true) : m.equal k = n.equal k := by
  have hposition : m.position = n.position := by
    unfold equal at h
    split at h
    · rename_i p q hp hq
      rw [hp, hq, of_decide_eq_true h]
    · cases h
  rw [equal, equal, hposition]

end Shortlist.Number
