import Shortlist.Proofs.Decision.Sorting
import Shortlist.Proofs.Number.Separation

/-!
# A ranking follows the scores

Results are sorted by probability, not by score, and doubles are coarse: a larger score never has a
smaller share, but its share may be the same double. Then the order of the candidates decides. That
happens to shares that are too small to be told apart and to scores that are very close. It happens
to no others (`Softmax.Follows`): if the share of the larger score is at least `smallest` and the
difference of the scores is more than `closest`, a part in `2 ^ 49` is left of the difference of the
weights and some of it outlives the division by their sum.

Nothing is asked of the number and the size of the scores. If the largest score or the sum of the
weights is not finite, all shares are the same.
-/

namespace Shortlist

open Rule (Assignment)

namespace Binary64

variable {x y : Binary64}

/-! ### Parts -/

/-- A fraction that is not the negative zero. Its place determines it. -/
def IsPart (x : Binary64) : Prop := ∃ units fits, x = .finite false units fits ∧ units ≤ one

theorem IsPart.isFraction (h : x.IsPart) : x.IsFraction := by
  obtain ⟨units, fits, rfl, hle⟩ := h
  exact isFraction_iff.mpr ⟨rfl, Int.natCast_nonneg units, Int.ofNat_le.mpr hle⟩

theorem IsPart.eq_iff_place (hx : x.IsPart) (hy : y.IsPart) : x.place = y.place ↔ x = y := by
  obtain ⟨m, hm, rfl, -⟩ := hx
  obtain ⟨n, hn, rfl, -⟩ := hy
  rw [finite.injEq]
  exact ⟨fun h => ⟨rfl, Int.ofNat_inj.mp h⟩, fun h => Int.ofNat_inj.mpr h.2⟩

theorem isPart_zero : zero.IsPart := ⟨0, representable_zero, rfl, Nat.zero_le _⟩

theorem div_part {m units : Nat} (hm : Representable m) (fits : Representable units) (hle : m ≤ one)
    (hunits : one ≤ units) :
    ((finite false m hm).div (.finite false units fits)).IsPart ∧
      ((finite false m hm).div (.finite false units fits)).place =
        roundUnits (m * one) units := by
  have hpart : (finite false m hm).IsPart := ⟨m, hm, rfl, hle⟩
  obtain ⟨hfraction, hplace⟩ := div_fraction fits hpart.isFraction hunits
  have hpos : 0 < units := Nat.lt_of_lt_of_le Binary64.one_pos hunits
  have hdiv : (finite false m hm).div (.finite false units fits) =
      round false (m * one) units := by
    rw [div, if_neg (Nat.ne_of_gt hpos), Bool.bne_false]
  refine ⟨?_, hplace⟩
  obtain ⟨-, -, hhigh⟩ := isFraction_iff.mp hfraction
  rw [hdiv] at hfraction hhigh ⊢
  obtain ⟨hrounded, hround⟩ := round_of_isFinite hfraction.isFinite
  rw [hround] at hhigh
  exact ⟨_, hrounded, hround, Int.ofNat_le.mp hhigh⟩

theorem sum_of_nan_mem {xs : List Binary64} (h : .nan ∈ xs) : sum xs = .nan := by
  have hfold : ∀ (xs : List Binary64) (t : Total), t = .nan ∨ .nan ∈ xs →
      xs.foldl Total.add t = .nan := by
    intro xs
    induction xs with
    | nil =>
      rintro t (rfl | h)
      · rfl
      · cases h
    | cons x xs ih =>
      rintro t (rfl | h)
      · exact ih _ (.inl rfl)
      · rcases List.mem_cons.mp h with rfl | h
        · exact ih _ (.inl (by cases t <;> rfl))
        · exact ih _ (.inr h)
  rw [sum, hfold xs _ (.inr h)]

theorem div_infinite {m : Nat} (hm : Representable m) :
    (finite false m hm).div (.infinite false) = .zero := by
  have hdiv : (finite false m hm).div (.infinite false) = round (false != false) 0 1 := rfl
  rw [hdiv]
  decide +kernel

theorem div_nan (x : Binary64) : x.div .nan = .nan := by cases x <;> rfl

theorem round_ne_nan (s : Bool) (p d : Nat) : round s p d ≠ .nan := by
  rw [round]
  split <;> simp

theorem add_ne_nan (hx : x.isFinite = true) (hy : y ≠ .nan) : x.add y ≠ .nan := by
  obtain ⟨s, m, fits, rfl⟩ := exists_units hx
  cases y with
  | nan => exact absurd rfl hy
  | infinite t => simp [add]
  | finite t n _ =>
    rw [add]
    split
    · exact round_ne_nan _ _ _
    · exact round_ne_nan _ _ _

/-! ### Bounds for what can be told apart -/

/-- Shares below this one may be the same for different scores. -/
def smallest : Binary64 := ofQuotient 1 (.ofNat (Nat.pow 2 1000))

/-- Scores that differ by no more may have the same share. -/
def closest : Binary64 := ofQuotient 1 (.ofNat (Nat.pow 2 35))

theorem smallest_place : smallest.isFinite = true ∧ smallest.place = Nat.pow 2 74 := by
  decide +kernel

theorem closest_place : closest.isFinite = true ∧ closest.place = Nat.pow 2 1039 := by
  decide +kernel

theorem far_of_not_le_closest (hx : x.isFinite = true) (hy : y.isFinite = true)
    (hlt : x.place < y.place) (hfar : ¬y.sub x ≤ closest) :
    x.place + Nat.pow 2 1039 ≤ y.place := by
  by_contra hnear
  refine hfar ?_
  obtain ⟨hfinite, hclosest⟩ := closest_place
  have hsub : y.sub x = ofUnits (y.place - x.place) :=
    (sub_of_isFinite hy hx).resolve_right fun h => Int.ne_of_gt hlt h.1
  have hbound : roundUnits (Nat.pow 2 1039) 1 = Nat.pow 2 1039 := by decide +kernel
  have hlimit : Nat.pow 2 1039 < limit := by decide +kernel
  generalize Nat.pow 2 1039 = bound at *
  obtain ⟨k, hk⟩ := Int.eq_ofNat_of_zero_le (a := y.place - x.place) (by omega)
  have hround : roundUnits k 1 ≤ bound := by
    rw [← hbound]
    exact roundUnits_mono (by omega) 1
  obtain ⟨fits, hunits⟩ := exists_round_of_lt false (Nat.lt_of_le_of_lt hround hlimit)
  rw [hsub, hk, ofUnits, decide_eq_false (by omega), Int.natAbs_natCast, hunits,
    le_iff_place rfl hfinite, hclosest]
  exact Int.ofNat_le.mpr hround

end Binary64

namespace Softmax

open Binary64

variable {p x y : Binary64} {scores : List Binary64}

/-! ### Weights -/

/-- The units of the weight of a score if the largest one is finite. -/
def heft (top : Binary64) : Binary64 → Nat
  | .finite s m fits => decay (roundUnits (top.place - (finite s m fits).place).toNat 1)
  | _ => 0

theorem heft_of_isFinite (hx : x.isFinite = true) :
    heft p x = decay (roundUnits (p.place - x.place).toNat 1) := by
  obtain ⟨s, m, fits, rfl⟩ := exists_units hx
  rfl

theorem heft_le_one (p x : Binary64) : heft p x ≤ one := by
  cases x with
  | finite s m fits => exact decay_le_one _
  | _ => exact Nat.zero_le _

theorem heft_self (hp : p.isFinite = true) : heft p p = one := by
  rw [heft_of_isFinite hp, Int.sub_self]
  exact decay_zero

theorem exp_sub (hp : p.isFinite = true) (h : x ≤ p) :
    ∃ fits, (x.sub p).exp = .finite false (heft p x) fits := by
  rcases infinite_or_isFinite_of_le hp h with rfl | hx
  · obtain ⟨s, m, fits, rfl⟩ := exists_units hp
    exact ⟨representable_zero, rfl⟩
  rw [heft_of_isFinite hx]
  rw [le_iff_place hx hp] at h
  obtain ⟨k, hk⟩ := Int.eq_ofNat_of_zero_le (Int.sub_nonneg_of_le h)
  have hsub : x.place - p.place = -k := by rw [← Int.neg_sub, hk]
  rw [hk, Int.toNat_natCast]
  rcases sub_of_isFinite hx hp with hunits | ⟨hplace, hfinite, hzero⟩
  · rw [hunits, hsub]
    rcases Nat.lt_or_ge (roundUnits k 1) limit with hlt | hlimit
    · obtain ⟨hfinite, hplace⟩ := ofUnits_neg hlt
      have hle : (ofUnits (-k)).place ≤ 0 := by omega
      have hexp := exp_eq_decay hfinite hle
      rwa [hplace, Int.natAbs_neg, Int.natAbs_natCast] at hexp
    · have hbeyond : decay (roundUnits k 1) = 0 := if_neg (Nat.not_lt.mpr
        (Nat.le_trans (by decide +kernel : exponentLimit ≤ limit) hlimit))
      rw [ofUnits_neg_of_limit_le hlimit, hbeyond]
      exact ⟨representable_zero, rfl⟩
  · obtain rfl : k = 0 := by omega
    have hexp := exp_eq_decay hfinite (Int.le_of_eq hzero)
    rwa [hzero] at hexp

theorem heft_mono (hp : p.isFinite = true) (hy : y ≤ p) (h : x < y) : heft p x ≤ heft p y := by
  rcases infinite_or_isFinite_of_le hp hy with rfl | hy
  · obtain rfl := eq_infinite_of_le (le_of_lt h)
    exact Nat.le_refl _
  rcases infinite_or_isFinite_of_le hy (le_of_lt h) with rfl | hx
  · exact Nat.zero_le _
  have hplace : x.place < y.place := (less_iff_place hx hy).mp h
  rw [heft_of_isFinite hx, heft_of_isFinite hy]
  exact decay_anti (roundUnits_mono (by omega) 1)

/-- A score that is larger by more than `closest` weighs more by a part in `2 ^ 49`. -/
theorem heft_gap (hp : p.isFinite = true) (hy : y ≤ p) (h : x < y) (hfar : ¬y.sub x ≤ closest)
    (hlarge : 2 ^ 74 ≤ heft p y) : (2 ^ 49 + 1) * heft p x ≤ 2 ^ 49 * heft p y := by
  rcases infinite_or_isFinite_of_le hp hy with rfl | hyfinite
  · exact absurd hlarge (Nat.not_le_of_gt (Nat.two_pow_pos 74))
  rcases infinite_or_isFinite_of_le hyfinite (le_of_lt h) with rfl | hx
  · exact Nat.zero_le _
  have hplace := far_of_not_le_closest hx hyfinite ((less_iff_place hx hyfinite).mp h) hfar
  rw [le_iff_place hyfinite hp] at hy
  rw [heft_of_isFinite hyfinite] at hlarge ⊢
  rw [heft_of_isFinite hx]
  have hrange := lt_exponentLimit_of_decay (Nat.lt_of_lt_of_le (Nat.two_pow_pos 74) hlarge)
  have hapart := roundUnits_apart (n := (p.place - x.place).toNat) (by omega) hrange
  exact decay_gap hapart hlarge

/-! ### Shares -/

/-- Shares are parts and follow the scores: a larger score does not have a smaller share, and its
share is larger if it is at least `smallest` and the scores differ by more than `closest`. -/
structure Follows (share : Binary64 → Binary64) (scores : List Binary64) : Prop where
  isPart : ∀ x ∈ scores, (share x).IsPart
  mono : ∀ x ∈ scores, ∀ y ∈ scores, x < y → (share x).place ≤ (share y).place
  strict : ∀ x ∈ scores, ∀ y ∈ scores, x < y → smallest ≤ share y → ¬y.sub x ≤ closest →
    (share x).place < (share y).place

/-- Shares respect the scores if they follow them or if none of them is a number. -/
def Respects (share : Binary64 → Binary64) (scores : List Binary64) : Prop :=
  (∀ x ∈ scores, share x = .nan) ∨ Follows share scores

theorem Respects.eq_iff_place {share : Binary64 → Binary64} (h : Respects share scores)
    (hx : x ∈ scores) (hy : y ∈ scores) :
    (share x).place = (share y).place ↔ share x = share y := by
  rcases h with hnan | hfollows
  · rw [hnan x hx, hnan y hy]
    exact iff_of_true rfl rfl
  · exact (hfollows.isPart x hx).eq_iff_place (hfollows.isPart y hy)

/-- A larger score whose share is not larger has the same share, which takes a small share or close
scores. -/
theorem Respects.eq_of_place_le {share : Binary64 → Binary64} (h : Respects share scores)
    (hx : x ∈ scores) (hy : y ∈ scores) (hlt : x < y) (hle : (share y).place ≤ (share x).place) :
    share x = share y ∧ (¬smallest ≤ share y ∨ y.sub x ≤ closest) := by
  have hsame := h.eq_iff_place hx hy
  rcases h with hnan | hfollows
  · refine ⟨(hnan x hx).trans (hnan y hy).symm, .inl ?_⟩
    rw [hnan y hy]
    exact not_le_nan _
  · have hplace := Int.le_antisymm (hfollows.mono x hx y hy hlt) hle
    refine ⟨hsame.mp hplace, ?_⟩
    by_contra hboth
    obtain ⟨hsmall, hfar⟩ := not_or.mp hboth
    exact Int.ne_of_lt (hfollows.strict x hx y hy hlt (not_not.mp hsmall) hfar) hplace

theorem exists_largest {first : Binary64} {rest : List Binary64}
    (h : ∀ x ∈ first :: rest, x ≠ .nan) :
    ∃ p ∈ first :: rest, peak (.double first) (rest.map .double) = .double p ∧
      ∀ x ∈ first :: rest, x ≤ p := by
  induction rest generalizing first with
  | nil =>
    refine ⟨first, List.mem_cons_self, rfl, fun x hx => ?_⟩
    rw [List.mem_singleton.mp hx]
    exact Binary64.le_refl (h first List.mem_cons_self)
  | cons next rest ih =>
    obtain ⟨hfirst, hrest⟩ := List.forall_mem_cons.mp h
    obtain ⟨hnext, hrest⟩ := List.forall_mem_cons.mp hrest
    -- the larger one of the first two goes on in place of both
    rw [peak, List.map_cons, List.foldl_cons]
    split
    · rename_i hlt
      obtain ⟨p, hmem, hp, hlargest⟩ := ih (List.forall_mem_cons.mpr ⟨hnext, hrest⟩)
      have hnextLe := (List.forall_mem_cons.mp hlargest).1
      exact ⟨p, List.mem_cons_of_mem _ hmem, hp,
        List.forall_mem_cons.mpr ⟨Binary64.le_trans (le_of_lt hlt) hnextLe, hlargest⟩⟩
    · rename_i hge
      obtain ⟨p, hmem, hp, hlargest⟩ := ih (List.forall_mem_cons.mpr ⟨hfirst, hrest⟩)
      obtain ⟨hfirstLe, hrestLe⟩ := List.forall_mem_cons.mp hlargest
      have hnextLe := Binary64.le_trans (le_of_not_lt hfirst hnext hge) hfirstLe
      refine ⟨p, ?_, hp, List.forall_mem_cons.mpr
        ⟨hfirstLe, List.forall_mem_cons.mpr ⟨hnextLe, hrestLe⟩⟩⟩
      rcases List.mem_cons.mp hmem with rfl | hmem
      · exact List.mem_cons_self
      · exact List.mem_cons_of_mem _ (List.mem_cons_of_mem _ hmem)

def shareOf (p total x : Binary64) : Binary64 := (x.sub p).exp.div total

theorem shares_eq_shareOf {first : Binary64} {rest : List Binary64}
    (h : peak (.double first) (rest.map .double) = .double p) :
    Softmax.shares ((first :: rest).map .double) = .ok ((first :: rest).map
      (shareOf p (Binary64.sum ((first :: rest).map fun x => (x.sub p).exp)))) := by
  have hweights : ((first :: rest).map Number.double).mapM (weight (.double p)) =
      .ok ((first :: rest).map fun x => (x.sub p).exp) := by
    rw [mapM_eq_ok_iff, List.forall₂_map_left_iff, List.forall₂_map_right_iff, List.forall₂_same]
    exact fun x _ => rfl
  rw [List.map_cons] at hweights ⊢
  rw [Softmax.shares, h, hweights, Except.ok_bind, normalize, List.map_map]
  rfl

/-- Shares whose sum of weights is finite and at least one follow the scores. -/
theorem follows_of_finite (hp : p.isFinite = true) (hle : ∀ x ∈ scores, x ≤ p) {units : Nat}
    (fits : Representable units) (hunits : one ≤ units) :
    Follows (shareOf p (.finite false units fits)) scores := by
  have hshare : ∀ x ∈ scores, (shareOf p (.finite false units fits) x).IsPart ∧
      (shareOf p (.finite false units fits) x).place = roundUnits (heft p x * one) units := by
    intro x hx
    obtain ⟨hfits, hexp⟩ := exp_sub hp (hle x hx)
    rw [shareOf, hexp]
    exact div_part hfits fits (heft_le_one p x) hunits
  refine ⟨fun x hx => (hshare x hx).1, fun x hx y hy hlt => ?_, fun x hx y hy hlt hsmall hfar => ?_⟩
  · rw [(hshare x hx).2, (hshare y hy).2]
    exact Int.ofNat_le.mpr (roundUnits_mono
      (Nat.mul_le_mul_right one (heft_mono hp (hle y hy) hlt)) units)
  · obtain ⟨hpart, hplace⟩ := hshare y hy
    obtain ⟨hyfits, -⟩ := exp_sub hp (hle y hy)
    rw [le_iff_place smallest_place.1 hpart.isFraction.isFinite, smallest_place.2, hplace] at hsmall
    rw [(hshare x hx).2, hplace]
    have hlarge : 2 ^ 74 ≤ roundUnits (heft p y * one) units := Int.ofNat_le.mp hsmall
    have hpos : 0 < units := Nat.lt_of_lt_of_le Binary64.one_pos hunits
    -- a share is not larger than the weight
    have hheft : 2 ^ 74 ≤ heft p y :=
      calc 2 ^ 74 ≤ roundUnits (heft p y * one) units := hlarge
        _ ≤ roundUnits (heft p y * one) one := roundUnits_anti _ Binary64.one_pos hunits
        _ = heft p y := roundUnits_mul_self hyfits Binary64.one_pos
    have hquotient : 2 ^ 52 ≤ heft p y * one / units := by
      have htwice := roundUnits_le_two_mul_div (heft p y * one) units
      omega
    have hgap : (2 ^ 49 + 1) * (heft p x * one) ≤ 2 ^ 49 * (heft p y * one) := by
      rw [← Nat.mul_assoc, ← Nat.mul_assoc]
      exact Nat.mul_le_mul_right one (heft_gap hp (hle y hy) hlt hfar hheft)
    have hrounded := roundUnits_gap (by decide) (by decide) hpos hquotient hgap
    omega

/-- Shares whose sum of weights is infinite are zero. -/
theorem follows_of_infinite (hp : p.isFinite = true) (hle : ∀ x ∈ scores, x ≤ p) :
    Follows (shareOf p (.infinite false)) scores := by
  have hshare : ∀ x ∈ scores, shareOf p (.infinite false) x = .zero := by
    intro x hx
    obtain ⟨hfits, hexp⟩ := exp_sub hp (hle x hx)
    rw [shareOf, hexp, div_infinite]
  refine ⟨fun x hx => ?_, fun x hx y hy _ => ?_, fun x hx y hy _ hsmall => ?_⟩
  · rw [hshare x hx]
    exact isPart_zero
  · rw [hshare x hx, hshare y hy]
  · rw [hshare y hy, le_iff_place smallest_place.1 rfl, smallest_place.2] at hsmall
    exact absurd hsmall (by decide)

theorem exists_respecting_share (h : ∀ x ∈ scores, x ≠ .nan) :
    ∃ share, Softmax.shares (scores.map .double) = .ok (scores.map share) ∧
      Respects share scores := by
  cases scores with
  | nil => exact ⟨id, rfl, .inl fun x hx => by cases hx⟩
  | cons first rest =>
    obtain ⟨p, hmem, hpeak, hle⟩ := exists_largest h
    refine ⟨_, shares_eq_shareOf hpeak, ?_⟩
    have hself : (p.sub p).exp ∈ (first :: rest).map fun x => (x.sub p).exp :=
      List.mem_map_of_mem hmem
    cases hp : p.isFinite with
    | false =>
      refine .inl fun x _ => ?_
      have hnan : (p.sub p).exp = .nan := by
        cases p with
        | nan => rfl
        | infinite s => cases s <;> rfl
        | finite s m fits => cases hp
      rw [hnan] at hself
      rw [shareOf, sum_of_nan_mem hself, div_nan]
    | true =>
      have hfractions : ∀ w ∈ (first :: rest).map fun x => (x.sub p).exp, w.IsFraction := by
        refine List.forall_mem_map.mpr fun x hx => ?_
        obtain ⟨fits, hexp⟩ := exp_sub hp (hle x hx)
        exact IsPart.isFraction ⟨_, fits, hexp, heft_le_one p x⟩
      have hone : ofInt 1 ∈ (first :: rest).map fun x => (x.sub p).exp := by
        obtain ⟨fits, hexp⟩ := exp_sub hp (hle p hmem)
        have hplace : (p.sub p).exp.place = one := by
          rw [hexp, place, heft_self hp]
          rfl
        rwa [eq_ofInt_one hplace] at hself
      obtain ⟨n, -, hn, hsum⟩ := exists_total_of_fractions hfractions hone
      rw [hsum, Binary64.round]
      split
      · exact .inr (follows_of_finite hp hle _ (one_le_roundUnits hn))
      · exact .inr (follows_of_infinite hp hle)

end Softmax

/-! ### Scores -/

theorem SoftRule.isFinite_of_points {rule : SoftRule} {x : Binary64}
    (hweight : rule.weight.IsWeight) (h : rule.points = .ok x) : x.isFinite = true := by
  obtain hnull | ⟨n, hn, hfinite, -, -⟩ := hweight
  · rw [points, hnull] at h
    obtain rfl := Except.ok.inj h
    rfl
  · rw [points, hn] at h
    cases n with
    | double y =>
      obtain rfl := Except.ok.inj h
      exact hfinite
    | int i =>
      obtain ⟨s, m, fits, rfl, -⟩ :=
        Number.exists_finite_of_toDouble (Except.mapError_eq_ok.mp h)
      rfl

/-- The score of an output may be infinite but is a number. -/
theorem Catalog.score_ne_nan {catalog : Catalog} {A : Assignment} {output : Output}
    {scored : Scored} (h : catalog.score A output = .ok scored) : scored.score ≠ .nan := by
  obtain ⟨cs, hcs, hscored⟩ := Except.bind_eq_ok.mp h
  obtain rfl := Except.pure_eq_ok.mp hscored
  have hpoints : ∀ x ∈ cs.map (·.points), x.isFinite = true := by
    refine List.forall_mem_map.mpr fun c hc => ?_
    unfold contributions at hcs
    split at hcs
    · rename_i bundle hbundle
      obtain ⟨rule, hrule, hc⟩ := exists_of_forall₂_right (mapM_eq_ok_iff.mp hcs) hc
      obtain ⟨weight, hweight, hc⟩ := Except.bind_eq_ok.mp hc
      obtain ⟨truth, -, hc⟩ := Except.bind_eq_ok.mp hc
      obtain rfl := Except.pure_eq_ok.mp hc
      rw [Contribution.points]
      split
      · exact SoftRule.isFinite_of_points
          (isWeight_of_mem (bundleFor?_eq_some hbundle).1 hrule) hweight
      · rfl
    · obtain rfl := Except.ok.inj hcs
      cases hc
  have hbase : baseScore.isFinite = true := by decide +kernel
  have hsum : Binary64.sum (cs.map (·.points)) ≠ .nan := by
    rw [Binary64.sum_of_finite hpoints]
    exact Binary64.round_ne_nan _ _ _
  dsimp only
  rw [scoreOf]
  exact Binary64.add_ne_nan hbase hsum

/-! ### Rankings -/

namespace Ranked

variable {scored : List Scored} {share : Binary64 → Binary64}

def ofShare (share : Binary64 → Binary64) (s : Scored) : Ranked := ⟨s, share s.score⟩

/-- Results are sorted by the places of their shares. -/
theorem ranksBefore_of_respects (h : Softmax.Respects share (scored.map (·.score))) :
    ∀ r ∈ scored.map (ofShare share), ∀ s ∈ scored.map (ofShare share),
      Catalog.ranksBefore r s = decide (s.probability.place ≤ r.probability.place) := by
  rcases h with hnan | hfollows
  · have hprobability : ∀ r ∈ scored.map (ofShare share), r.probability = .nan :=
      List.forall_mem_map.mpr fun s hs => hnan _ (List.mem_map_of_mem hs)
    intro r hr s hs
    rw [Catalog.ranksBefore, hprobability r hr, hprobability s hs]
    rfl
  · have hfinite : ∀ r ∈ scored.map (ofShare share), r.probability.isFinite = true :=
      List.forall_mem_map.mpr fun s hs =>
        (hfollows.isPart _ (List.mem_map_of_mem hs)).isFraction.isFinite
    exact fun r hr s hs => ranksBefore_eq hfinite hr hs

end Ranked

/-- A ranking sorts the candidates with their scores and with shares that respect these. -/
theorem Catalog.exists_shares_of_rank {catalog : Catalog} {A : Assignment} {outputs : List Output}
    {ranking : List Ranked} (h : catalog.rank outputs A = .ok ranking) :
    ∃ (scored : List Scored) (share : Binary64 → Binary64),
      List.Forall₂ (fun output s => catalog.score A output = .ok s) outputs scored ∧
      Softmax.shares (scored.map fun s => .double s.score) =
        .ok (scored.map fun s => share s.score) ∧
      Softmax.Respects share (scored.map (·.score)) ∧
      (scored.map (Ranked.ofShare share)).mergeSort ranksBefore = ranking := by
  obtain ⟨scored, hscored, h⟩ := Except.bind_eq_ok.mp h
  have hpairs := mapM_eq_ok_iff.mp hscored
  have hnumbers : ∀ x ∈ scored.map (·.score), x ≠ .nan := by
    refine List.forall_mem_map.mpr fun s hs => ?_
    obtain ⟨output, -, houtput⟩ := exists_of_forall₂_right hpairs hs
    exact score_ne_nan houtput
  obtain ⟨share, hshares, hrespects⟩ := Softmax.exists_respecting_share hnumbers
  rw [List.map_map, List.map_map] at hshares
  obtain ⟨found, hfound, h⟩ := Except.bind_eq_ok.mp h
  obtain rfl := Except.ok.inj (hshares.symm.trans hfound)
  have hzip := List.zip_map' (f := id) (g := fun s : Scored => share s.score) (l := scored)
  rw [List.map_id] at hzip
  have hranking := Except.pure_eq_ok.mp h
  dsimp only [Function.comp_def] at hranking
  rw [hzip, List.map_map] at hranking
  exact ⟨scored, share, hpairs, hshares, hrespects, hranking⟩

open Binary64 (smallest closest)

/-- A ranking follows the scores as far as their shares can be told apart. It consists of one result
for each candidate, with the score of the candidate and the share of this score; results with the
same probability stand in the order of the candidates; and a result stands before one with a larger
score only if both have the same probability, which takes a probability below `smallest` or scores
that differ by no more than `closest`. -/
theorem ranking_follows_scores {catalog : Catalog} {A : Assignment} {outputs : List Output}
    {ranking : List Ranked} (h : catalog.rank outputs A = .ok ranking) :
    ∃ results : List Ranked,
      List.Forall₂ (fun output r => catalog.score A output = .ok r.toScored) outputs results ∧
      Softmax.shares (results.map fun r => .double r.score) =
        .ok (results.map (·.probability)) ∧
      ranking.Perm results ∧
      (∀ p, ranking.filter (·.probability = p) = results.filter (·.probability = p)) ∧
      ranking.Pairwise fun r s => r.score < s.score →
        r.probability = s.probability ∧
          (¬smallest ≤ s.probability ∨ s.score.sub r.score ≤ closest) := by
  obtain ⟨scored, share, hscored, hshares, hrespects, rfl⟩ := Catalog.exists_shares_of_rank h
  have hkey := Ranked.ranksBefore_of_respects hrespects
  have hscore := fun s (hs : s ∈ scored) => List.mem_map_of_mem (f := (·.score)) hs
  refine ⟨scored.map (Ranked.ofShare share), List.forall₂_map_right_iff.mpr hscored, ?_,
    List.mergeSort_perm _ _, filter_mergeSort_of_key hkey ?_, ?_⟩
  · rw [List.map_map, List.map_map]
    exact hshares
  · refine List.forall_mem_map.mpr fun a ha => List.forall_mem_map.mpr fun b hb => ?_
    exact hrespects.eq_iff_place (hscore a ha) (hscore b hb)
  · have hmem := fun r => (List.mergeSort_perm (scored.map (Ranked.ofShare share))
      Catalog.ranksBefore).mem_iff (a := r)
    refine (pairwise_mergeSort_key hkey).imp_of_mem fun {r s} hr hs hle hlt => ?_
    rw [hmem] at hr hs
    obtain ⟨a, ha, rfl⟩ := List.mem_map.mp hr
    obtain ⟨b, hb, rfl⟩ := List.mem_map.mp hs
    exact hrespects.eq_of_place_le (hscore a ha) (hscore b hb) hlt hle

namespace Catalog

def onTop : Output := ⟨"Top", "", by decide⟩

def farBelow : Output := ⟨"Bottom", "", by decide⟩

def between : Output := ⟨"Middle", "", by decide⟩

/-- A catalog of outputs with scores of 1, -1999 and -999. -/
def steep : Catalog :=
  ⟨specimenRegistry, [onTop, farBelow, between],
    [⟨"Bottom", [], [], [], [⟨"true", .int (-2000), none⟩]⟩,
      ⟨"Middle", [], [], [], [⟨"true", .int (-1000), none⟩]⟩],
    problems_eq_nil (by decide +kernel)⟩

end Catalog

theorem steep_ranking_follows_scores :
    ∃ ranking, Catalog.steep.rank Catalog.steep.outputs [] = .ok ranking ∧
      ranking.Pairwise fun r s => r.score < s.score →
        r.probability = s.probability ∧
          (¬smallest ≤ s.probability ∨ s.score.sub r.score ≤ closest) := by
  have hrank : (Catalog.steep.rank Catalog.steep.outputs []).isOk = true := by decide +kernel
  obtain ⟨ranking, hranking⟩ := Except.exists_of_isOk hrank
  obtain ⟨results, -, -, -, -, hpairwise⟩ := ranking_follows_scores hranking
  exact ⟨ranking, hranking, hpairwise⟩

/-- The shares of the two lower scores are zero, and the larger one of these scores stands last. -/
theorem larger_score_stands_last :
    ∃ top r s : Ranked, Catalog.steep.rank Catalog.steep.outputs [] = .ok [top, r, s] ∧
      r.score < s.score := by
  have hfinite : ∀ output ∈ Catalog.steep.outputs,
      (Catalog.steep.score [] output).map (·.score.isFinite) = .ok true := by decide +kernel
  have hscored : ∀ output ∈ Catalog.steep.outputs, ∃ scored,
      Catalog.steep.score [] output = .ok scored ∧ scored.score.isFinite = true :=
    fun output houtput => Except.map_eq_ok.mp (hfinite output houtput)
  obtain ⟨result, hresult⟩ := Catalog.exists_results Softmax.exponential_exp hscored
  have hresults := hresult Catalog.steep.outputs (.refl _)
  have hscore : ∀ {output : Output} {x : Binary64}, output ∈ Catalog.steep.outputs →
      (Catalog.steep.score [] output).map (·.score) = .ok x → (result output).score = x := by
    intro output x houtput hx
    rw [hresults.score output houtput] at hx
    exact Except.ok.inj hx
  have hfirst : (result Catalog.onTop).score = .ofInt 1 := hscore (by decide) (by decide +kernel)
  have hlast : (result Catalog.farBelow).score = .ofInt (-1999) :=
    hscore (by decide) (by decide +kernel)
  have hmiddle : (result Catalog.between).score = .ofInt (-999) :=
    hscore (by decide) (by decide +kernel)
  have hshares : Softmax.shares [.double (.ofInt 1), .double (.ofInt (-1999)),
      .double (.ofInt (-999))] = .ok [.ofInt 1, .zero, .zero] := by decide +kernel
  have hprobabilities := hresults.shares
  rw [← Softmax.shares_eq, Catalog.steep, List.map_cons, List.map_cons, List.map_cons, List.map_nil,
    hfirst, hlast, hmiddle, hshares, Except.ok.injEq, List.map_cons, List.map_cons, List.map_cons,
    List.map_nil] at hprobabilities
  obtain ⟨hone, hrest⟩ := List.cons.inj hprobabilities
  obtain ⟨hzero, hrest⟩ := List.cons.inj hrest
  obtain ⟨hzero', -⟩ := List.cons.inj hrest
  have hsorted : ([Catalog.onTop, Catalog.farBelow, Catalog.between].map result).Pairwise
      fun r s => Catalog.ranksBefore r s = true := by
    simp only [List.map_cons, List.map_nil, List.pairwise_cons, List.mem_cons, List.not_mem_nil,
      or_false, forall_eq_or_imp, forall_eq, Catalog.ranksBefore, ← hone, ← hzero, ← hzero',
      false_imp_iff, implies_true, List.Pairwise.nil, and_true]
    decide +kernel
  refine ⟨result Catalog.onTop, result Catalog.farBelow, result Catalog.between, ?_, ?_⟩
  · rw [Catalog.rank_eq, hresults.rankBy]
    exact congrArg _ (List.mergeSort_of_pairwise hsorted)
  · rw [hlast, hmiddle]
    have hless : (Number.double (.ofInt (-1999))).less (.double (.ofInt (-999))) = true := by
      decide +kernel
    exact hless

end Shortlist
