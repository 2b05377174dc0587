import Mathlib.Data.List.Perm.Basic
import Shortlist.Proofs.Decision.Ranking
import Shortlist.Proofs.Number.Exponential

/-!
# Shares are safe and do not depend on the order

Little is asked of the exponential function here: the power of zero is one, and what is not positive
has a power from zero to one, a larger one for a larger exponent. Shares only take powers of
differences from the largest score, so they need no more. The largest score weighs one, hence the
weights add up to at least one, and each of them is a fraction of their sum. The largest score and
the sum do not depend on the order of the scores, so a score determines its share.
-/

namespace Shortlist

open Rule (Assignment)

namespace Softmax

open Binary64 (ofUnits)

/-! ### Shares with any exponential function -/

section Shares

variable (exp : Binary64 → Except Fault Binary64)

def weightBy (peak score : Number) : Except Fault Binary64 := do
  exp (← beyond (← beyond (score.sub peak)).toDouble)

/-- The weights of scores, relative to the largest one. -/
def weightsBy : List Number → Except Fault (List Binary64)
  | [] => .ok []
  | first :: rest => (first :: rest).mapM (weightBy exp (peak first rest))

def sharesBy (scores : List Number) : Except Fault (List Binary64) := do
  return normalize (← weightsBy exp scores)

end Shares

/-- The shares of a ranking take the powers of `Binary64.exp`, which is never a fault. -/
theorem shares_eq (scores : List Number) :
    shares scores = sharesBy (fun x => .ok x.exp) scores := by
  cases scores with
  | nil => rfl
  | cons first rest => rfl

/-- A function with the laws of the exponential function on what is not positive: there it yields
`power`, a fraction that is one for zero and keeps the order. It may be a fault elsewhere. -/
structure Exponential (exp : Binary64 → Except Fault Binary64) (power : Binary64 → Binary64) :
    Prop where
  value : ∀ {x}, x ≤ .zero → exp x = .ok (power x)
  fraction : ∀ {x}, x ≤ .zero → (power x).IsFraction
  zero : power .zero = .ofInt 1
  mono : ∀ {x y}, x ≤ y → y ≤ .zero → power x ≤ power y

/-- The shares of scores, given by a function of the score: nothing is a fault, the weights add up
to a finite total that is at least one, and the shares are fractions in the order of the scores. A
largest score has the share of a weight of one. -/
structure AreShares (exp : Binary64 → Except Fault Binary64) (share : Binary64 → Binary64)
    (total : Binary64) (scores : List Binary64) : Prop where
  weights : ∃ weights, weightsBy exp (scores.map .double) = .ok weights ∧
    Binary64.sum weights = total
  isFinite : total.isFinite = true
  one_le_total : .ofInt 1 ≤ total
  shares : sharesBy exp (scores.map .double) = .ok (scores.map share)
  fraction : ∀ x ∈ scores, (share x).IsFraction
  mono : ∀ x ∈ scores, ∀ y ∈ scores, x ≤ y → share x ≤ share y
  largest : ∀ x ∈ scores, (∀ y ∈ scores, y ≤ x) → share x = (Binary64.ofInt 1).div total

/-! ### The largest score -/

/-- A place that is the largest of a list of doubles. -/
structure IsTop (top : Int) (scores : List Binary64) : Prop where
  attained : ∃ x ∈ scores, x.place = top
  greatest : ∀ x ∈ scores, x.place ≤ top

namespace IsTop

variable {top other : Int} {scores order : List Binary64}

theorem perm (h : IsTop top scores) (hperm : order.Perm scores) : IsTop top order := by
  obtain ⟨x, hx, htop⟩ := h.attained
  exact ⟨⟨x, hperm.mem_iff.mpr hx, htop⟩, fun y hy => h.greatest y (hperm.mem_iff.mp hy)⟩

theorem unique (h : IsTop top scores) (hother : IsTop other scores) : top = other := by
  obtain ⟨x, hx, rfl⟩ := h.attained
  obtain ⟨y, hy, rfl⟩ := hother.attained
  exact Int.le_antisymm (hother.greatest x hx) (h.greatest y hy)

theorem cons_cons {x y best : Binary64} (h : IsTop top (best :: scores))
    (hbest : best = x ∨ best = y) (hx : x.place ≤ best.place) (hy : y.place ≤ best.place) :
    IsTop top (x :: y :: scores) := by
  obtain ⟨z, hz, htop⟩ := h.attained
  have hgreatest := List.forall_mem_cons.mp h.greatest
  refine ⟨⟨z, ?_, htop⟩, ?_⟩
  · rcases List.mem_cons.mp hz with rfl | hz
    · rcases hbest with rfl | rfl
      · exact List.mem_cons_self
      · exact List.mem_cons_of_mem x List.mem_cons_self
    · exact List.mem_cons_of_mem x (List.mem_cons_of_mem y hz)
  · exact List.forall_mem_cons.mpr ⟨Int.le_trans hx hgreatest.1,
      List.forall_mem_cons.mpr ⟨Int.le_trans hy hgreatest.1, hgreatest.2⟩⟩

end IsTop

theorem exists_top {first : Binary64} {rest : List Binary64}
    (h : ∀ x ∈ first :: rest, x.isFinite = true) :
    ∃ p, peak (.double first) (rest.map .double) = .double p ∧ p.isFinite = true ∧
      IsTop p.place (first :: rest) := by
  induction rest generalizing first with
  | nil =>
    exact ⟨first, rfl, h first List.mem_cons_self, ⟨first, List.mem_cons_self, rfl⟩,
      fun x hx => by rw [List.mem_singleton.mp hx]⟩
  | cons next rest ih =>
    obtain ⟨hfirst, hrest⟩ := List.forall_mem_cons.mp h
    obtain ⟨hnext, hrest⟩ := List.forall_mem_cons.mp hrest
    have hless := Binary64.less_iff_place hfirst hnext
    -- the larger one of the first two goes on in place of both
    rw [peak, List.map_cons, List.foldl_cons]
    split
    · rename_i hlt
      obtain ⟨p, hp, hfinite, htop⟩ := ih (List.forall_mem_cons.mpr ⟨hnext, hrest⟩)
      have hle := Int.le_of_lt (hless.mp hlt)
      exact ⟨p, hp, hfinite, htop.cons_cons (.inr rfl) hle (Int.le_refl _)⟩
    · rename_i hge
      obtain ⟨p, hp, hfinite, htop⟩ := ih (List.forall_mem_cons.mpr ⟨hfirst, hrest⟩)
      rw [hless, Int.not_lt] at hge
      exact ⟨p, hp, hfinite, htop.cons_cons (.inl rfl) (Int.le_refl _) hge⟩

/-! ### Weights -/

/-- The weight of a score if the largest one is at the given place. -/
def weightAt (power : Binary64 → Binary64) (top : Int) (x : Binary64) : Binary64 :=
  power (ofUnits (x.place - top))

def totalAt (power : Binary64 → Binary64) (top : Int) (scores : List Binary64) : Binary64 :=
  Binary64.sum (scores.map (weightAt power top))

/-- The share of a score in a list whose largest one is at the given place. -/
def shareAt (power : Binary64 → Binary64) (top : Int) (scores : List Binary64) (x : Binary64) :
    Binary64 :=
  (weightAt power top x).div (totalAt power top scores)

section Weights

variable {exp : Binary64 → Except Fault Binary64} {power : Binary64 → Binary64} {top : Int}
  {x y : Binary64} {scores order : List Binary64}

theorem ofUnits_sub_le_zero (h : x.place ≤ top) : ofUnits (x.place - top) ≤ .zero := by
  have hmono := Binary64.ofUnits_mono (Int.sub_nonpos_of_le h) (Int.le_refl 0)
  rwa [Binary64.ofUnits_zero] at hmono

theorem totalAt_perm (h : order.Perm scores) :
    totalAt power top order = totalAt power top scores :=
  Binary64.sum_perm (h.map _)

theorem shareAt_perm (h : order.Perm scores) :
    shareAt power top order = shareAt power top scores := by
  funext x
  rw [shareAt, shareAt, totalAt_perm h]

namespace Exponential

variable (hexp : Exponential exp power)

include hexp

theorem power_of_place (hfinite : x.isFinite = true) (hzero : x.place = 0) :
    power x = .ofInt 1 := by
  have hle : x ≤ .zero := (Binary64.le_iff_place hfinite rfl).mpr (Int.le_of_eq hzero)
  have hge : Binary64.zero ≤ x := (Binary64.le_iff_place rfl hfinite).mpr (Int.le_of_eq hzero.symm)
  have hpower := hexp.mono hge hle
  obtain ⟨hfraction, -, hhigh⟩ := Binary64.isFraction_iff.mp (hexp.fraction hle)
  rw [hexp.zero, Binary64.ofInt_one, Binary64.le_iff_place rfl hfraction] at hpower
  exact Binary64.eq_ofInt_one (Int.le_antisymm hhigh hpower)

/-- The weight of a score depends on places only, and its exponent is not positive. -/
theorem weightBy_eq {p : Binary64} (hx : x.isFinite = true) (hp : p.isFinite = true)
    (hle : x.place ≤ p.place) :
    weightBy exp (.double p) (.double x) = .ok (weightAt power p.place x) := by
  have hweight : weightBy exp (.double p) (.double x) = exp (x.sub p) := rfl
  rw [hweight, weightAt]
  rcases Binary64.sub_of_isFinite hx hp with hsub | ⟨hplace, hfinite, hzero⟩
  · rw [hsub]
    exact hexp.value (ofUnits_sub_le_zero hle)
  -- the difference is a zero of some sign, and both signs have the same power
  · have hle : x.sub p ≤ .zero := (Binary64.le_iff_place hfinite rfl).mpr (Int.le_of_eq hzero)
    rw [hexp.value hle, hexp.power_of_place hfinite hzero, hplace, Int.sub_self,
      Binary64.ofUnits_zero, hexp.zero]

theorem weightAt_fraction (h : x.place ≤ top) : (weightAt power top x).IsFraction :=
  hexp.fraction (ofUnits_sub_le_zero h)

theorem weightAt_top (h : x.place = top) : weightAt power top x = .ofInt 1 := by
  rw [weightAt, h, Int.sub_self, Binary64.ofUnits_zero, hexp.zero]

theorem weightAt_mono (h : x.place ≤ y.place) (hy : y.place ≤ top) :
    weightAt power top x ≤ weightAt power top y :=
  hexp.mono (Binary64.ofUnits_mono (Int.sub_le_sub_right h top) (Int.sub_nonpos_of_le hy))
    (ofUnits_sub_le_zero hy)

theorem weightsBy_eq (hfinite : ∀ x ∈ scores, x.isFinite = true) (htop : IsTop top scores) :
    weightsBy exp (scores.map .double) = .ok (scores.map (weightAt power top)) := by
  cases scores with
  | nil => rfl
  | cons first rest =>
    obtain ⟨p, hpeak, hp, hpeakTop⟩ := exists_top hfinite
    obtain rfl := htop.unique hpeakTop
    rw [List.map_cons, weightsBy, hpeak, ← List.map_cons, mapM_eq_ok_iff, List.forall₂_map_left_iff,
      List.forall₂_map_right_iff, List.forall₂_same]
    exact fun x hx => hexp.weightBy_eq (hfinite x hx) hp (htop.greatest x hx)

theorem exists_total (htop : IsTop top scores) (hlength : scores.length < Nat.pow 2 1000) :
    ∃ units fits, totalAt power top scores = .finite false units fits ∧
      Binary64.one ≤ units := by
  refine Binary64.exists_sum_fractions (Nat.pow 2 1000) (by decide +kernel) ?_ ?_ ?_
  · rwa [List.length_map]
  · exact List.forall_mem_map.mpr fun x hx => hexp.weightAt_fraction (htop.greatest x hx)
  · obtain ⟨x, hx, hplace⟩ := htop.attained
    exact hexp.weightAt_top hplace ▸ List.mem_map_of_mem hx

theorem sharesBy_eq (hfinite : ∀ x ∈ scores, x.isFinite = true) (htop : IsTop top scores) :
    sharesBy exp (scores.map .double) = .ok (scores.map (shareAt power top scores)) := by
  rw [sharesBy, hexp.weightsBy_eq hfinite htop, Except.ok_bind, normalize, List.map_map]
  rfl

theorem areShares (hfinite : ∀ x ∈ scores, x.isFinite = true) (htop : IsTop top scores)
    (hlength : scores.length < Nat.pow 2 1000) :
    AreShares exp (shareAt power top scores) (totalAt power top scores) scores := by
  have hfraction : ∀ x ∈ scores, (weightAt power top x).IsFraction :=
    fun x hx => hexp.weightAt_fraction (htop.greatest x hx)
  obtain ⟨units, fits, htotal, hunits⟩ := hexp.exists_total htop hlength
  exact {
    weights := ⟨_, hexp.weightsBy_eq hfinite htop, rfl⟩
    isFinite := by rw [htotal]; rfl
    one_le_total := by
      rw [htotal, Binary64.ofInt_one, Binary64.le_iff_place rfl rfl]
      exact Int.ofNat_le.mpr hunits
    shares := hexp.sharesBy_eq hfinite htop
    fraction := by
      intro x hx
      rw [shareAt, htotal]
      exact (Binary64.div_fraction fits (hfraction x hx) hunits).1
    mono := by
      intro x hx y hy hle
      rw [Binary64.le_iff_place (hfinite x hx) (hfinite y hy)] at hle
      rw [shareAt, shareAt, htotal]
      exact Binary64.div_le_div fits (hfraction x hx) (hfraction y hy) hunits
        (hexp.weightAt_mono hle (htop.greatest y hy))
    largest := by
      intro x hx hlargest
      obtain ⟨y, hy, hplace⟩ := htop.attained
      have hle := (Binary64.le_iff_place (hfinite y hy) (hfinite x hx)).mp (hlargest y hy)
      rw [shareAt, hexp.weightAt_top (Int.le_antisymm (htop.greatest x hx) (hplace ▸ hle))] }

/-- In every order of the scores the same function gives their shares. -/
theorem exists_share (hfinite : ∀ x ∈ scores, x.isFinite = true) :
    ∃ (share : Binary64 → Binary64) (total : Binary64),
      ∀ order : List Binary64, order.Perm scores →
        sharesBy exp (order.map .double) = .ok (order.map share) ∧
        (order ≠ [] → order.length < Nat.pow 2 1000 → AreShares exp share total order) := by
  cases scores with
  | nil =>
    refine ⟨id, .zero, fun order horder => ?_⟩
    obtain rfl := horder.eq_nil
    exact ⟨rfl, fun hne => absurd rfl hne⟩
  | cons first rest =>
    obtain ⟨p, -, -, htop⟩ := exists_top hfinite
    refine ⟨shareAt power p.place (first :: rest), totalAt power p.place (first :: rest),
      fun order horder => ?_⟩
    have hfinite : ∀ x ∈ order, x.isFinite = true := fun x hx => hfinite x (horder.mem_iff.mp hx)
    rw [← shareAt_perm horder, ← totalAt_perm horder]
    exact ⟨hexp.sharesBy_eq hfinite (htop.perm horder),
      fun _ => hexp.areShares hfinite (htop.perm horder)⟩

end Exponential

end Weights

theorem exponential_exp : Exponential (fun x => .ok x.exp) Binary64.exp where
  value _ := rfl
  fraction := Binary64.exp_fraction
  zero := by decide +kernel
  mono := Binary64.exp_mono

/-- Rankings take their shares with `Binary64.exp`, which has these laws. So each of the scores has
a share that is a fraction, in the order of the scores, and keeps it however they are ordered. -/
theorem exists_share_of_finite {scores : List Binary64} (hlength : scores.length < Nat.pow 2 1000)
    (hfinite : ∀ x ∈ scores, x.isFinite = true) :
    ∃ share : Binary64 → Binary64, ∀ order : List Binary64, order.Perm scores →
      shares (order.map .double) = .ok (order.map share) ∧
      (∀ x ∈ order, (share x).IsFraction) ∧
      ∀ x ∈ order, ∀ y ∈ order, x ≤ y → share x ≤ share y := by
  obtain ⟨share, total, hshare⟩ := exponential_exp.exists_share hfinite
  refine ⟨share, fun order horder => ?_⟩
  obtain ⟨hshares, hsafe⟩ := hshare order horder
  have hare (x : Binary64) (hx : x ∈ order) := hsafe (List.ne_nil_of_mem hx)
    (by rwa [horder.length_eq])
  rw [shares_eq]
  exact ⟨hshares, fun x hx => (hare x hx).fraction x hx, fun x hx => (hare x hx).mono x hx⟩

end Softmax

/-! ### Rankings with any exponential function -/

open Softmax (Exponential)

namespace Catalog

/-- The ranking of outputs with any exponential function. -/
def rankBy (exp : Binary64 → Except Fault Binary64) (catalog : Catalog) (outputs : List Output)
    (A : Assignment) : Except Fault (List Ranked) := do
  let scored ← outputs.mapM (catalog.score A)
  let shares ← Softmax.sharesBy exp (scored.map fun s => .double s.score)
  return ((scored.zip shares).map fun (s, p) => (⟨s, p⟩ : Ranked)).mergeSort ranksBefore

theorem rank_eq (catalog : Catalog) (outputs : List Output) (A : Assignment) :
    catalog.rank outputs A = catalog.rankBy (fun x => .ok x.exp) outputs A := by
  simp only [rank, rankBy, Softmax.shares_eq]

/-- The results of outputs, given by a function of the output: each has the score of its output, and
its probability is the share of this score, a fraction unless there are very many outputs. -/
structure Results (exp : Binary64 → Except Fault Binary64) (catalog : Catalog) (A : Assignment)
    (result : Output → Ranked) (outputs : List Output) : Prop where
  score : ∀ output ∈ outputs, catalog.score A output = .ok (result output).toScored
  shares : Softmax.sharesBy exp (outputs.map fun output => .double (result output).score) =
    .ok (outputs.map fun output => (result output).probability)
  fraction : outputs.length < Nat.pow 2 1000 →
    ∀ output ∈ outputs, (result output).probability.IsFraction

variable {exp : Binary64 → Except Fault Binary64} {power : Binary64 → Binary64}
  {catalog other : Catalog} {A : Assignment} {result : Output → Ranked} {outputs : List Output}

theorem Results.rankBy (h : Results exp catalog A result outputs) :
    catalog.rankBy exp outputs A = .ok ((outputs.map result).mergeSort ranksBefore) := by
  have hscored : outputs.mapM (catalog.score A) =
      .ok (outputs.map fun output => (result output).toScored) := by
    rw [mapM_eq_ok_iff, List.forall₂_map_right_iff, List.forall₂_same]
    exact h.score
  have hscores : (outputs.map fun output => (result output).toScored).map
      (fun s => Number.double s.score) = outputs.map fun output => .double (result output).score :=
    List.map_map
  rw [Catalog.rankBy, hscored, Except.ok_bind, hscores, h.shares, Except.ok_bind, List.zip_map',
    List.map_map]
  rfl

theorem exists_results (hexp : Exponential exp power)
    (hscores : ∀ output ∈ outputs, ∃ scored, catalog.score A output = .ok scored ∧
      scored.score.isFinite = true) :
    ∃ result, ∀ order : List Output, order.Perm outputs → Results exp catalog A result order := by
  have hnonempty : Nonempty Scored := ⟨⟨"", "", .zero, []⟩⟩
  choose! scored hscored hfinite using hscores
  have hfinite : ∀ x ∈ outputs.map fun output => (scored output).score, x.isFinite = true :=
    List.forall_mem_map.mpr hfinite
  obtain ⟨share, total, hshare⟩ := hexp.exists_share hfinite
  refine ⟨fun output => ⟨scored output, share (scored output).score⟩, fun order horder => ?_⟩
  obtain ⟨hshares, hsafe⟩ := hshare _ (horder.map _)
  refine ⟨fun output houtput => hscored output (horder.mem_iff.mp houtput), ?_, ?_⟩
  · rwa [List.map_map, List.map_map] at hshares
  · intro hlength output houtput
    have hmem := List.mem_map_of_mem (f := fun o => (scored o).score) houtput
    rw [List.length_map] at hsafe
    exact (hsafe (List.ne_nil_of_mem hmem) hlength).fraction _ hmem

/-- A catalog of the same variables and bundles that declares its outputs in another order. -/
structure Redeclared (catalog other : Catalog) : Prop where
  registry : other.registry = catalog.registry
  bundles : other.bundles = catalog.bundles
  outputs : other.outputs.Perm catalog.outputs

namespace Redeclared

theorem refl (catalog : Catalog) : catalog.Redeclared catalog := ⟨rfl, rfl, .refl _⟩

theorem isFeasible (h : catalog.Redeclared other) : other.isFeasible A = catalog.isFeasible A := by
  funext output
  simp only [Catalog.isFeasible, bundleFor?, declared, h.registry, h.bundles]

theorem score (h : catalog.Redeclared other) : other.score A = catalog.score A := by
  funext output
  simp only [Catalog.score, contributions, bundleFor?, declared, h.registry, h.bundles]

theorem results (h : catalog.Redeclared other) (hresults : Results exp catalog A result outputs) :
    Results exp other A result outputs := by
  refine ⟨?_, hresults.shares, hresults.fraction⟩
  rw [h.score]
  exact hresults.score

theorem exists_feasible (h : catalog.Redeclared other)
    (hfeasible : catalog.feasible A = .ok outputs) :
    ∃ order, other.feasible A = .ok order ∧ order.Perm outputs := by
  obtain ⟨hall, rfl⟩ := selectM_eq_ok_iff.mp hfeasible
  refine ⟨_, selectM_eq_ok_iff.mpr ⟨fun output houtput => ?_, rfl⟩, ?_⟩
  · rw [h.isFeasible]
    exact hall output (h.outputs.mem_iff.mp houtput)
  · rw [h.isFeasible]
    exact h.outputs.filter _

end Redeclared

theorem exists_kept_results (hexp : Exponential exp power)
    (hscores : ∀ output ∈ outputs, ∃ scored, catalog.score A output = .ok scored ∧
      scored.score.isFinite = true) :
    ∃ result, ∀ other, catalog.Redeclared other → ∀ order : List Output, order.Perm outputs →
      Results exp other A result order := by
  obtain ⟨result, hresult⟩ := exists_results hexp hscores
  exact ⟨result, fun other hother order horder => hother.results (hresult order horder)⟩

/-- Rankings themselves give every output the same result, wherever the output is declared. -/
theorem exists_result_of_finite
    (hscores : ∀ output ∈ outputs, ∃ scored, catalog.score A output = .ok scored ∧
      scored.score.isFinite = true) :
    ∃ result : Output → Ranked, ∀ other, catalog.Redeclared other →
      ∀ order : List Output, order.Perm outputs →
        ∃ ranking, other.rank order A = .ok ranking ∧ ranking.Perm (order.map result) := by
  obtain ⟨result, hresult⟩ := exists_kept_results Softmax.exponential_exp hscores
  refine ⟨result, fun other hother order horder => ?_⟩
  rw [rank_eq, (hresult other hother order horder).rankBy]
  exact ⟨_, rfl, List.mergeSort_perm _ _⟩

end Catalog

/-- Shares are safe and do not depend on the order of the scores, whatever function with the laws of
the exponential function they are taken with. Of fewer than `2 ^ 1000` finite scores, every one has
a share that it keeps in every order of them: nothing is a fault, the weights add up to a finite
total that is at least one, every share lies between zero and one, a score that is at least another
one has at least its share, and a largest score has that of a weight of one. So outputs with finite
scores have results that they keep in whatever order they are ranked or declared. -/
theorem order_of_scores_does_not_count {exp : Binary64 → Except Fault Binary64}
    {power : Binary64 → Binary64} (hexp : Exponential exp power) :
    (∀ scores : List Binary64, scores ≠ [] → scores.length < Nat.pow 2 1000 →
      (∀ x ∈ scores, x.isFinite = true) →
      ∃ share total, ∀ order : List Binary64, order.Perm scores →
        Softmax.AreShares exp share total order) ∧
    ∀ (catalog : Catalog) (A : Assignment) (outputs : List Output),
      (∀ output ∈ outputs, ∃ scored, catalog.score A output = .ok scored ∧
        scored.score.isFinite = true) →
      ∃ result, ∀ other, catalog.Redeclared other →
        (catalog.feasible A = .ok outputs →
          ∃ order, other.feasible A = .ok order ∧ order.Perm outputs) ∧
        ∀ order, order.Perm outputs → Catalog.Results exp other A result order ∧
          ∃ ranking, other.rankBy exp order A = .ok ranking ∧ ranking.Perm (order.map result) := by
  constructor
  · intro scores hne hlength hfinite
    obtain ⟨share, total, hshare⟩ := hexp.exists_share hfinite
    refine ⟨share, total, fun order horder => (hshare order horder).2 ?_ ?_⟩
    · rintro rfl
      exact hne horder.symm.eq_nil
    · rwa [horder.length_eq]
  · intro catalog A outputs hscores
    obtain ⟨result, hresult⟩ := Catalog.exists_kept_results hexp hscores
    refine ⟨result, fun other hother => ⟨hother.exists_feasible, fun order horder => ?_⟩⟩
    have hresults := hresult other hother order horder
    exact ⟨hresults, _, hresults.rankBy, List.mergeSort_perm _ _⟩

/-- The largest power of two that is a double. -/
def far : Binary64 := .ofInt (.ofNat (Nat.pow 2 1023))

def Catalog.shopsFirst : Catalog :=
  ⟨specimenRegistry, [forShops, forHomes], specimenBundles, problems_eq_nil (by decide +kernel)⟩

/-- Scores whose difference is infinite have shares, and so have the outputs of a catalog that
declares them from either end. -/
theorem far_scores_have_shares :
    Softmax.Exponential (fun x => .ok x.exp) Binary64.exp ∧ far.neg.sub far = .infinite true ∧
      (∃ share : Binary64 → Binary64,
        Softmax.shares ([far, far.neg, baseScore].map .double) =
          .ok ([far, far.neg, baseScore].map share) ∧
        Softmax.shares ([baseScore, far, far.neg].map .double) =
          .ok ([baseScore, far, far.neg].map share)) ∧
      ∃ (result : Output → Ranked) (ranking reranking : List Ranked),
        Catalog.specimen.rank [Catalog.forHomes, Catalog.forShops] [("kind", .text "home")] =
          .ok ranking ∧
        Catalog.shopsFirst.rank [Catalog.forShops, Catalog.forHomes] [("kind", .text "home")] =
          .ok reranking ∧
        ranking.Perm ([Catalog.forHomes, Catalog.forShops].map result) ∧
        reranking.Perm ([Catalog.forShops, Catalog.forHomes].map result) := by
  obtain ⟨hscores, houtputs⟩ := order_of_scores_does_not_count Softmax.exponential_exp
  obtain ⟨share, total, hshare⟩ := hscores [far, far.neg, baseScore] (List.cons_ne_nil _ _)
    (by decide +kernel) (by decide +kernel)
  have hfinite : ∀ output ∈ [Catalog.forHomes, Catalog.forShops],
      (Catalog.specimen.score [("kind", .text "home")] output).map (·.score.isFinite) =
        .ok true := by
    decide +kernel
  have hturned : [baseScore, far, far.neg].Perm [far, far.neg, baseScore] := by decide +kernel
  obtain ⟨result, hresult⟩ := houtputs Catalog.specimen [("kind", .text "home")]
    [Catalog.forHomes, Catalog.forShops]
    fun output houtput => Except.map_eq_ok.mp (hfinite output houtput)
  have hother : Catalog.specimen.Redeclared Catalog.shopsFirst := ⟨rfl, rfl, .swap _ _ _⟩
  obtain ⟨-, ranking, hranking, hperm⟩ := (hresult _ (.refl _)).2 _ (.refl _)
  obtain ⟨-, reranking, hreranking, hreperm⟩ := (hresult _ hother).2 _ (.swap _ _ _)
  refine ⟨Softmax.exponential_exp, by decide +kernel, ⟨share, ?_, ?_⟩, result, ranking, reranking,
    ?_, ?_, hperm, hreperm⟩
  · rw [Softmax.shares_eq]
    exact (hshare _ (.refl _)).shares
  · rw [Softmax.shares_eq]
    exact (hshare _ hturned).shares
  · rw [Catalog.rank_eq, hranking]
  · rw [Catalog.rank_eq, hreranking]

end Shortlist
