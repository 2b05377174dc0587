import Shortlist.Proofs.Number.Range

/-!
# Remainders of doubles

A remainder of doubles is a double: a power of two that divides both divides it, and it has fewer
bits than the divisor. So it is exact, and all that a remainder of integers can lose is lost when
the integers are taken for doubles. Integers that are values of doubles lose nothing, and integers
beyond the range have no remainder.
-/

namespace Shortlist

namespace Binary64

theorem pow_log2_dvd {m n : Nat} (h : Representable n) (hle : m.log2 ≤ n.log2) :
    Nat.pow 2 (m.log2 - 52) ∣ n :=
  Nat.dvd_trans (Nat.pow_dvd_pow 2 (Nat.sub_le_sub_right hle 52)) h.2

theorem representable_mod {m n : Nat} (hm : Representable m) (hn : Representable n) (hpos : 0 < n) :
    Representable (m % n) := by
  have hlog : ∀ {j k : Nat}, j ≤ k → j.log2 ≤ k.log2 := fun hle => by
    rw [Nat.log2_eq_log_two, Nat.log2_eq_log_two]
    exact Nat.log_mono_right hle
  rcases Nat.lt_or_ge m n with hlt | hge
  · rw [Nat.mod_eq_of_lt hlt]
    exact hm
  · have hrest : m % n < n := Nat.mod_lt m hpos
    have hbits : (m % n).log2 ≤ n.log2 := hlog (Nat.le_of_lt hrest)
    refine ⟨Nat.lt_trans hrest hn.1, ?_⟩
    rw [Nat.dvd_mod_iff (pow_log2_dvd hn hbits)]
    exact pow_log2_dvd hm (Nat.le_trans hbits (hlog hge))

theorem signed_mod (s t : Bool) (m n : Nat) :
    signed s (m % n) = (signed s m).tmod (signed t n) := by
  have hmod : (m : Int).tmod n = m % n := Int.tmod_eq_emod_of_nonneg (Int.natCast_nonneg m)
  cases s <;> cases t <;> simp [signed, Int.neg_tmod, Int.tmod_neg, hmod]

/-- The remainder of finite doubles is exact. -/
theorem place_rem {x y : Binary64} (hx : x.isFinite = true) (hy : y.isFinite = true)
    (hzero : y.place ≠ 0) :
    (x.rem y).isFinite = true ∧ (x.rem y).place = x.place.tmod y.place := by
  obtain ⟨s, m, hm, rfl⟩ := exists_units hx
  obtain ⟨t, n, hn, rfl⟩ := exists_units hy
  have hne : n ≠ 0 := by
    rintro rfl
    cases t <;> exact hzero rfl
  have hfits := representable_mod hm hn (Nat.pos_of_ne_zero hne)
  rw [rem, if_neg hne, round_of_representable s hfits]
  exact ⟨rfl, signed_mod s t m n⟩

end Binary64

namespace Number

theorem rem_of_toDouble {m n : Number} {x y : Binary64} (hm : m.toDouble = .ok x)
    (hn : n.toDouble = .ok y) (hx : x.isFinite = true) : m.rem n = .ok (.double (x.rem y)) := by
  obtain ⟨s, k, fits, rfl⟩ := Binary64.exists_units hx
  rw [rem, hm, hn]
  rfl

variable {a b : Int}

/-- The remainder of integers within the range is that of the doubles nearest to them. -/
theorem rem_int (ha : a.natAbs < Binary64.bound) (hb : b.natAbs < Binary64.bound) (hzero : b ≠ 0) :
    ∃ r : Binary64, (Number.int a).rem (.int b) = .ok (.double r) ∧ r.isFinite = true ∧
      r.place = (Binary64.ofInt a).place.tmod (Binary64.ofInt b).place := by
  have hx : (Binary64.ofInt a).isFinite = true := Binary64.isFinite_ofInt_iff.mpr ha
  have hy : (Binary64.ofInt b).isFinite = true := Binary64.isFinite_ofInt_iff.mpr hb
  obtain ⟨hfinite, hplace⟩ := Binary64.place_rem hx hy (Binary64.place_ofInt_ne_zero hzero hy)
  exact ⟨_, rem_of_toDouble (toDouble_of_isFinite hx) (toDouble_of_isFinite hy) hx, hfinite, hplace⟩

theorem rem_int_of_hasDouble (ha : HasDouble a) (hb : HasDouble b) (hzero : b ≠ 0) :
    ∃ r : Binary64, (Number.int a).rem (.int b) = .ok (.double r) ∧ r.isFinite = true ∧
      (Number.double r).amount = (a - b * a.tdiv b : Int) := by
  obtain ⟨hx, hxplace⟩ := Binary64.place_ofInt ha.representable
  obtain ⟨hy, hyplace⟩ := Binary64.place_ofInt hb.representable
  obtain ⟨r, hrem, hfinite, hplace⟩ :=
    rem_int (Binary64.isFinite_ofInt_iff.mp hx) (Binary64.isFinite_ofInt_iff.mp hy) hzero
  refine ⟨r, hrem, hfinite, amount_double_eq_iff.mpr ?_⟩
  rw [hplace, hxplace, hyplace, Int.mul_comm a, Int.mul_comm b,
    Int.mul_tmod_mul_of_pos _ _ (Int.natCast_pos.mpr Binary64.one_pos), Int.mul_comm, Int.tmod_def]

theorem rem_int_of_bound_le (h : Binary64.bound ≤ a.natAbs ∨ Binary64.bound ≤ b.natAbs) :
    (Number.int a).rem (.int b) = .error .integerTooLarge := by
  rcases Nat.lt_or_ge a.natAbs Binary64.bound with ha | ha
  · have hb : Binary64.bound ≤ b.natAbs := h.resolve_left (Nat.not_le.mpr ha)
    rw [rem, toDouble_of_isFinite (Binary64.isFinite_ofInt_iff.mpr ha), toDouble_of_bound_le hb]
    rfl
  · rw [rem, toDouble_of_bound_le ha]
    rfl

end Number

end Shortlist
