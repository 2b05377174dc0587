import Mathlib.Algebra.Order.BigOperators.Group.List
import Mathlib.Algebra.Order.Group.Int
import Mathlib.Algebra.Ring.Int.Defs
import Shortlist.Proofs.Number.Rounding

/-!
# The order of doubles

Finite doubles are ordered as their places are, so what is known of rounding says how differences
and quotients are ordered. What a ranking needs of its shares follows: a sum of fractions one of
which is one is at least one, and a part of such a sum is a fraction of it, a larger one for a
larger part.
-/

namespace Shortlist.Binary64

/-! ### Places -/

/-- Doubles are ordered by their places on the line of numbers. -/
instance : LE Binary64 where
  le x y := (Number.double x).atMost (.double y) = true

instance : LT Binary64 where
  lt x y := (Number.double x).less (.double y) = true

/-- The units of a finite double, with its sign. -/
def place : Binary64 → Int
  | .finite negative units _ => signed negative units
  | _ => 0

theorem exists_units {x : Binary64} (h : x.isFinite = true) : ∃ s m fits, x = .finite s m fits := by
  cases x with
  | nan => cases h
  | infinite _ => cases h
  | finite s m fits => exact ⟨s, m, fits, rfl⟩

theorem position_double {x : Binary64} (h : x.isFinite = true) :
    (Number.double x).position = some (.units x.place) := by
  obtain ⟨s, m, fits, rfl⟩ := exists_units h
  rfl

theorem less_iff_place {x y : Binary64} (hx : x.isFinite = true) (hy : y.isFinite = true) :
    (Number.double x).less (.double y) = true ↔ x.place < y.place := by
  simp only [Number.less, position_double hx, position_double hy, Number.Position.before,
    decide_eq_true_eq]

theorem equal_iff_place {x y : Binary64} (hx : x.isFinite = true) (hy : y.isFinite = true) :
    (Number.double x).equal (.double y) = true ↔ x.place = y.place := by
  simp only [Number.equal, position_double hx, position_double hy, decide_eq_true_eq,
    Number.Position.units.injEq]

theorem le_iff_place {x y : Binary64} (hx : x.isFinite = true) (hy : y.isFinite = true) :
    x ≤ y ↔ x.place ≤ y.place := by
  have hle : x ≤ y ↔ (Number.double x).atMost (.double y) = true := Iff.rfl
  rw [hle, Number.atMost, Bool.or_eq_true, less_iff_place hx hy, equal_iff_place hx hy]
  exact Int.le_iff_lt_or_eq.symm

theorem infinite_or_isFinite_of_le {x y : Binary64} (hy : y.isFinite = true) (h : x ≤ y) :
    x = .infinite true ∨ x.isFinite = true := by
  obtain ⟨s, m, fits, rfl⟩ := exists_units hy
  cases x with
  | nan => cases h
  | infinite negative =>
    cases negative with
    | true => exact .inl rfl
    | false => cases h
  | finite _ _ _ => exact .inr rfl

theorem eq_infinite_of_le {x : Binary64} (h : x ≤ infinite true) : x = infinite true := by
  cases x with
  | nan => cases h
  | infinite negative =>
    cases negative with
    | true => rfl
    | false => cases h
  | finite _ _ _ => cases h

theorem infinite_le {x : Binary64} (hx : x.isFinite = true) : infinite true ≤ x := by
  obtain ⟨s, m, fits, rfl⟩ := exists_units hx
  rfl

/-! ### The whole line -/

theorem exists_position {x : Binary64} (h : x ≠ .nan) :
    ∃ p, (Number.double x).position = some p := by
  cases x with
  | nan => exact absurd rfl h
  | infinite s => cases s <;> exact ⟨_, rfl⟩
  | finite s m fits => exact ⟨_, rfl⟩

theorem le_iff_position {x y : Binary64} :
    x ≤ y ↔ ∃ p q, (Number.double x).position = some p ∧ (Number.double y).position = some q ∧
      (p.before q = true ∨ p = q) := by
  have hle : x ≤ y ↔ (Number.double x).atMost (.double y) = true := Iff.rfl
  rw [hle, Number.atMost, Number.less, Number.equal]
  cases (Number.double x).position with
  | none => simp
  | some p =>
    cases (Number.double y).position with
    | none => simp
    | some q => simp

theorem not_le_nan (x : Binary64) : ¬x ≤ nan := by
  intro h
  obtain ⟨p, q, -, hq, -⟩ := le_iff_position.mp h
  cases hq

theorem le_of_lt {x y : Binary64} (h : x < y) : x ≤ y := Bool.or_eq_true_iff.mpr (.inl h)

protected theorem le_refl {x : Binary64} (h : x ≠ .nan) : x ≤ x := by
  obtain ⟨p, hp⟩ := exists_position h
  exact le_iff_position.mpr ⟨p, p, hp, hp, .inr rfl⟩

protected theorem le_trans {x y z : Binary64} (hxy : x ≤ y) (hyz : y ≤ z) : x ≤ z := by
  obtain ⟨p, q, hp, hq, hpq⟩ := le_iff_position.mp hxy
  obtain ⟨q', r, hq', hr, hqr⟩ := le_iff_position.mp hyz
  obtain rfl := Option.some.inj (hq.symm.trans hq')
  refine le_iff_position.mpr ⟨p, r, hp, hr, ?_⟩
  rcases hpq with hpq | rfl
  · rcases hqr with hqr | rfl
    · refine .inl ?_
      cases p <;> cases q <;> cases r <;> simp [Number.Position.before] at hpq hqr ⊢
      omega
    · exact .inl hpq
  · exact hqr

theorem le_of_not_lt {x y : Binary64} (hx : x ≠ .nan) (hy : y ≠ .nan) (h : ¬x < y) : y ≤ x := by
  obtain ⟨p, hp⟩ := exists_position hx
  obtain ⟨q, hq⟩ := exists_position hy
  have hnot : ¬p.before q = true := by
    have hless : (x < y) = (Number.less (.double x) (.double y) = true) := rfl
    rwa [hless, Number.less, hp, hq] at h
  refine le_iff_position.mpr ⟨q, p, hq, hp, ?_⟩
  cases p <;> cases q <;> simp [Number.Position.before] at hnot ⊢
  omega

theorem representable_zero : Representable 0 := ⟨by decide +kernel, Nat.dvd_zero _⟩

theorem representable_one : Representable one := ⟨by decide +kernel, by decide +kernel⟩

theorem ofInt_one : ofInt 1 = .finite false one representable_one := by
  have hint : (1 : Int) = .ofNat 1 := rfl
  rw [hint, ofInt, Nat.one_mul, round_of_representable]

theorem eq_ofInt_one {x : Binary64} (h : x.place = one) : x = ofInt 1 := by
  have hpos : (0 : Int) < one := Int.natCast_pos.mpr one_pos
  cases x with
  | nan => exact absurd h (Int.ne_of_lt hpos)
  | infinite _ => exact absurd h (Int.ne_of_lt hpos)
  | finite s m fits =>
    cases s with
    | true =>
      have hneg : -(m : Int) = one := h
      omega
    | false =>
      have hm : (m : Int) = one := h
      rw [ofInt_one, finite.injEq]
      exact ⟨rfl, Int.ofNat_inj.mp hm⟩

/-! ### Differences -/

theorem ofUnits_zero : ofUnits 0 = zero := round_of_representable false representable_zero

theorem signed_not (s : Bool) (m : Nat) : signed (!s) m = -signed s m := by
  cases s with
  | true => exact (Int.neg_neg (m : Int)).symm
  | false => rfl

/-- The difference of finite doubles is that of their places, rounded once. Only the sign of a zero
is not told by the places. -/
theorem sub_of_isFinite {x y : Binary64} (hx : x.isFinite = true) (hy : y.isFinite = true) :
    x.sub y = ofUnits (x.place - y.place) ∨
      x.place = y.place ∧ (x.sub y).isFinite = true ∧ (x.sub y).place = 0 := by
  obtain ⟨s, m, hm, rfl⟩ := exists_units hx
  obtain ⟨t, n, hn, rfl⟩ := exists_units hy
  rw [sub, neg, add, signed_not, ← Int.sub_eq_add_neg]
  dsimp only [place]
  split
  · rename_i hzero
    rw [round_of_representable _ representable_zero]
    exact .inr ⟨Int.sub_eq_zero.mp hzero, rfl, by cases s <;> cases t <;> rfl⟩
  · exact .inl rfl

theorem ofUnits_neg {k : Nat} (h : roundUnits k 1 < limit) :
    (ofUnits (-k)).isFinite = true ∧ (ofUnits (-k)).place = -(roundUnits k 1 : Int) := by
  obtain ⟨fits, hround⟩ := exists_round_of_lt (decide (-(k : Int) < 0)) h
  rw [ofUnits, Int.natAbs_neg, Int.natAbs_natCast, hround]
  refine ⟨rfl, ?_⟩
  rcases Nat.eq_zero_or_pos k with rfl | hpos
  · rfl
  · rw [place, decide_eq_true (by omega), signed, if_pos rfl]

theorem ofUnits_neg_of_limit_le {k : Nat} (h : limit ≤ roundUnits k 1) :
    ofUnits (-k) = .infinite true := by
  have hpos : 0 < k := by
    refine Nat.pos_of_ne_zero ?_
    rintro rfl
    rw [roundUnits_of_representable representable_zero] at h
    exact absurd representable_zero.1 (Nat.not_lt.mpr h)
  rw [ofUnits, Int.natAbs_neg, Int.natAbs_natCast, decide_eq_true (by omega), round,
    dif_neg (Nat.not_lt.mpr h)]

theorem ofUnits_mono {m n : Int} (h : m ≤ n) (hn : n ≤ 0) : ofUnits m ≤ ofUnits n := by
  obtain ⟨a, rfl⟩ := Int.exists_eq_neg_ofNat (Int.le_trans h hn)
  obtain ⟨b, rfl⟩ := Int.exists_eq_neg_ofNat hn
  have hround : roundUnits b 1 ≤ roundUnits a 1 := roundUnits_mono (by omega) 1
  rcases Nat.lt_or_ge (roundUnits a 1) limit with hfinite | hlimit
  · obtain ⟨ha, haplace⟩ := ofUnits_neg hfinite
    obtain ⟨hb, hbplace⟩ := ofUnits_neg (Nat.lt_of_le_of_lt hround hfinite)
    rw [le_iff_place ha hb, haplace, hbplace]
    omega
  · rw [ofUnits_neg_of_limit_le hlimit]
    rcases Nat.lt_or_ge (roundUnits b 1) limit with hfinite | hlimit
    · exact infinite_le (ofUnits_neg hfinite).1
    · rw [ofUnits_neg_of_limit_le hlimit]
      rfl

/-! ### Fractions -/

/-- A double from zero to one. -/
def IsFraction (x : Binary64) : Prop := zero ≤ x ∧ x ≤ ofInt 1

theorem isFraction_iff {x : Binary64} :
    x.IsFraction ↔ x.isFinite = true ∧ 0 ≤ x.place ∧ x.place ≤ one := by
  have hone : (ofInt 1).isFinite = true := by rw [ofInt_one]; rfl
  have hplace : (ofInt 1).place = one := by rw [ofInt_one]; rfl
  constructor
  · intro h
    have hx : x.isFinite = true := by
      rcases infinite_or_isFinite_of_le hone h.2 with rfl | hx
      · cases h.1
      · exact hx
    rw [IsFraction, le_iff_place rfl hx, le_iff_place hx hone, hplace] at h
    exact ⟨hx, h⟩
  · rintro ⟨hx, h⟩
    rw [IsFraction, le_iff_place rfl hx, le_iff_place hx hone, hplace]
    exact h

theorem IsFraction.isFinite {x : Binary64} (h : x.IsFraction) : x.isFinite = true :=
  (isFraction_iff.mp h).1

theorem isFraction_zero : zero.IsFraction :=
  isFraction_iff.mpr ⟨rfl, Int.le_refl 0, Int.natCast_nonneg one⟩

theorem signed_eq {s : Bool} {m : Nat} (h : s = true → m = 0) : signed s m = m := by
  cases s with
  | false => rfl
  | true => rw [h rfl]; rfl

theorem exists_units_of_fraction {x : Binary64} (h : x.IsFraction) :
    ∃ s m fits, x = .finite s m fits ∧ (s = true → m = 0) ∧ m ≤ one := by
  obtain ⟨hfinite, hlow, hhigh⟩ := isFraction_iff.mp h
  obtain ⟨s, m, fits, rfl⟩ := exists_units hfinite
  have hsign : s = true → m = 0 := by
    rintro rfl
    have hneg : 0 ≤ -(m : Int) := hlow
    omega
  rw [place, signed_eq hsign] at hhigh
  exact ⟨s, m, fits, rfl, hsign, Int.ofNat_le.mp hhigh⟩

theorem round_fraction {s : Bool} {p d : Nat} (hd : 0 < d) (hsign : s = true → p = 0)
    (h : p ≤ one * d) :
    (round s p d).IsFraction ∧ (round s p d).place = roundUnits p d := by
  have hle : roundUnits p d ≤ one :=
    calc roundUnits p d
        ≤ roundUnits (one * d) d := roundUnits_mono h d
      _ = one := roundUnits_mul_self representable_one hd
  have hlt : roundUnits p d < limit := Nat.lt_of_le_of_lt hle representable_one.1
  have hsigned : signed s (roundUnits p d) = roundUnits p d := by
    refine signed_eq fun hs => ?_
    rw [hsign hs, roundUnits, Nearest.zero_divide, Nat.zero_mul]
  obtain ⟨fits, hround⟩ := exists_round_of_lt s hlt
  rw [isFraction_iff, hround, place, hsigned]
  exact ⟨⟨rfl, Int.natCast_nonneg _, Int.ofNat_le.mpr hle⟩, rfl⟩

/-! ### Sums of fractions -/

theorem foldl_add_of_finite {xs : List Binary64} (h : ∀ x ∈ xs, x.isFinite = true) (total : Int) :
    xs.foldl Total.add (.units total) = .units (total + (xs.map place).sum) := by
  induction xs generalizing total with
  | nil => rw [List.map_nil, List.sum_nil, Int.add_zero]; rfl
  | cons x xs ih =>
    obtain ⟨hx, hxs⟩ := List.forall_mem_cons.mp h
    obtain ⟨s, m, fits, rfl⟩ := exists_units hx
    rw [List.foldl_cons, Total.add, ih hxs, List.map_cons, List.sum_cons, place, Int.add_assoc]

theorem sum_of_finite {xs : List Binary64} (h : ∀ x ∈ xs, x.isFinite = true) :
    sum xs = ofUnits (xs.map place).sum := by
  rw [sum, foldl_add_of_finite h, Int.zero_add]

/-- Fractions, one of them one, add up to at least one before the sum is rounded. -/
theorem exists_total_of_fractions {xs : List Binary64} (h : ∀ x ∈ xs, x.IsFraction)
    (hone : ofInt 1 ∈ xs) :
    ∃ n : Nat, (xs.map place).sum = n ∧ one ≤ n ∧ sum xs = round false n 1 := by
  have hplace : ∀ x ∈ xs, 0 ≤ x.place := fun x hx => (isFraction_iff.mp (h x hx)).2.1
  have hlow : (one : Int) ≤ (xs.map place).sum := by
    have hmem := List.mem_map_of_mem (f := place) hone
    rw [ofInt_one] at hmem
    exact List.single_le_sum (List.forall_mem_map.mpr hplace) _ hmem
  obtain ⟨n, hn⟩ := Int.eq_ofNat_of_zero_le (Int.le_trans (Int.natCast_nonneg one) hlow)
  rw [hn] at hlow
  refine ⟨n, hn, Int.ofNat_le.mp hlow, ?_⟩
  rw [sum_of_finite fun x hx => (h x hx).isFinite, hn, ofUnits, Int.natAbs_natCast,
    decide_eq_false (Int.not_lt.mpr (Int.natCast_nonneg n))]

theorem one_le_roundUnits {n : Nat} (h : one ≤ n) : one ≤ roundUnits n 1 :=
  calc one = roundUnits one 1 := (roundUnits_of_representable representable_one).symm
    _ ≤ roundUnits n 1 := roundUnits_mono h 1

/-- Fractions, one of them one, add up to a double that is at least one, unless there are very many
of them. -/
theorem exists_sum_fractions {xs : List Binary64} (bound : Nat)
    (hbound : 2 * (bound * one) ≤ limit) (hlength : xs.length < bound)
    (h : ∀ x ∈ xs, x.IsFraction) (hone : ofInt 1 ∈ xs) :
    ∃ units fits, sum xs = .finite false units fits ∧ one ≤ units := by
  obtain ⟨n, hn, hlow, hsum⟩ := exists_total_of_fractions h hone
  have hhigh : (xs.map place).sum ≤ (xs.length * one : Nat) := by
    have hcard := List.sum_le_card_nsmul (xs.map place) one
      (List.forall_mem_map.mpr fun x hx => (isFraction_iff.mp (h x hx)).2.2)
    rwa [List.length_map, nsmul_eq_mul, ← Nat.cast_mul] at hcard
  rw [hn] at hhigh
  have hlt := roundUnits_lt_limit hbound (Int.ofNat_le.mp hhigh) hlength
  obtain ⟨fits, hround⟩ := exists_round_of_lt false hlt
  exact ⟨roundUnits n 1, fits, hsum.trans hround, one_le_roundUnits hlow⟩

/-! ### Parts of a sum -/

section Parts

variable {x y : Binary64} {units : Nat} (fits : Representable units)

theorem div_fraction (hx : x.IsFraction) (hunits : one ≤ units) :
    (x.div (.finite false units fits)).IsFraction ∧
      (x.div (.finite false units fits)).place = roundUnits (x.place.toNat * one) units := by
  obtain ⟨s, m, hm, rfl, hsign, hle⟩ := exists_units_of_fraction hx
  have hpos : 0 < units := Nat.lt_of_lt_of_le one_pos hunits
  have hdiv : (finite s m hm).div (.finite false units fits) = round s (m * one) units := by
    rw [div, if_neg (Nat.ne_of_gt hpos), Bool.bne_false]
  rw [hdiv, place, signed_eq hsign, Int.toNat_natCast]
  refine round_fraction hpos (fun hs => by rw [hsign hs, Nat.zero_mul]) ?_
  rw [Nat.mul_comm]
  exact Nat.mul_le_mul_left one (Nat.le_trans hle hunits)

theorem div_le_div (hx : x.IsFraction) (hy : y.IsFraction) (hunits : one ≤ units) (h : x ≤ y) :
    x.div (.finite false units fits) ≤ y.div (.finite false units fits) := by
  obtain ⟨hxdiv, hxplace⟩ := div_fraction fits hx hunits
  obtain ⟨hydiv, hyplace⟩ := div_fraction fits hy hunits
  rw [le_iff_place hx.isFinite hy.isFinite] at h
  rw [le_iff_place hxdiv.isFinite hydiv.isFinite, hxplace, hyplace]
  exact Int.ofNat_le.mpr (roundUnits_mono (Nat.mul_le_mul_right one (Int.toNat_le_toNat h)) units)

end Parts

end Shortlist.Binary64
