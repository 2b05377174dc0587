import Mathlib.Data.List.Perm.Basic
import Shortlist.Proofs.Decision.Shares

/-!
# A ranking is a stable sort

The results of a ranking are sorted by their probabilities. Those are shares of finite scores, hence
fractions, and on fractions the comparison of doubles is that of their places, a total order. So the
sort loses nothing, puts larger probabilities first and keeps results with equal probabilities in
the order of the candidates.
-/

namespace Shortlist

open Rule (Assignment)

/-! ### Sorting by a key, the largest first -/

section Key

variable {α : Type} {le : α → α → Bool} {key : α → Int} {xs : List α}

theorem descending_trans (a b c : α) (hab : decide (key b ≤ key a) = true)
    (hbc : decide (key c ≤ key b) = true) : decide (key c ≤ key a) = true := by
  rw [decide_eq_true_iff] at hab hbc ⊢
  exact Int.le_trans hbc hab

theorem descending_total (a b : α) :
    (decide (key b ≤ key a) || decide (key a ≤ key b)) = true := by
  rw [Bool.or_eq_true, decide_eq_true_iff, decide_eq_true_iff]
  exact Int.le_total (key b) (key a)

variable (hkey : ∀ a ∈ xs, ∀ b ∈ xs, le a b = decide (key b ≤ key a))

include hkey

/-- Only elements of the list are compared. -/
theorem mergeSort_eq_descending :
    xs.mergeSort le = xs.mergeSort fun a b => decide (key b ≤ key a) := by
  have hmap := List.map_mergeSort (f := id) (s := fun a b => decide (key b ≤ key a)) hkey
  rwa [List.map_id, List.map_id] at hmap

theorem pairwise_mergeSort_key : (xs.mergeSort le).Pairwise fun a b => key b ≤ key a := by
  rw [mergeSort_eq_descending hkey]
  exact (List.pairwise_mergeSort descending_trans descending_total xs).imp of_decide_eq_true

theorem filter_mergeSort_key (k : Int) :
    (xs.mergeSort le).filter (key · = k) = xs.filter (key · = k) := by
  rw [mergeSort_eq_descending hkey]
  have hequal : (xs.filter (key · = k)).Pairwise fun a b => decide (key b ≤ key a) = true := by
    refine List.pairwise_of_forall_mem_list fun a ha b hb => ?_
    rw [of_decide_eq_true (List.mem_filter.mp ha).2, of_decide_eq_true (List.mem_filter.mp hb).2]
    exact decide_eq_true (Int.le_refl k)
  -- the filtered list is sorted already, so sorting keeps it as a part
  have hpart := List.sublist_mergeSort descending_trans descending_total hequal List.filter_sublist
  have hkept := hpart.filter (key · = k)
  rw [List.filter_filter, List.filter_congr fun a _ => Bool.and_self _] at hkept
  exact (hkept.eq_of_length (((List.mergeSort_perm _ _).filter _).length_eq.symm)).symm

/-- Elements that agree in what the key determines stay in their order. -/
theorem filter_mergeSort_of_key {γ : Type} [DecidableEq γ] {f : α → γ}
    (hf : ∀ a ∈ xs, ∀ b ∈ xs, key a = key b ↔ f a = f b) (c : γ) :
    (xs.mergeSort le).filter (f · = c) = xs.filter (f · = c) := by
  have hmem := fun a => (List.mergeSort_perm xs le).mem_iff (a := a)
  by_cases hfound : ∃ a ∈ xs, f a = c
  · obtain ⟨a, ha, rfl⟩ := hfound
    have hsame : ∀ b ∈ xs, decide (f b = f a) = decide (key b = key a) :=
      fun b hb => decide_eq_decide.mpr (hf b hb a ha).symm
    rw [List.filter_congr fun b hb => hsame b ((hmem b).mp hb), List.filter_congr hsame]
    exact filter_mergeSort_key hkey (key a)
  · have hnone : ∀ b ∈ xs, ¬decide (f b = c) = true :=
      fun b hb h => hfound ⟨b, hb, of_decide_eq_true h⟩
    rw [List.filter_eq_nil_iff.mpr hnone,
      List.filter_eq_nil_iff.mpr fun b hb => hnone b ((hmem b).mp hb)]

theorem head?_mergeSort_key :
    (xs.mergeSort le).head? = xs.find? fun a => xs.all fun b => decide (key b ≤ key a) := by
  have hperm := List.mergeSort_perm xs le
  have hsorted := pairwise_mergeSort_key hkey
  cases hsort : xs.mergeSort le with
  | nil =>
    rw [hsort] at hperm
    rw [hperm.symm.eq_nil]
    rfl
  | cons top rest =>
    have hstable := filter_mergeSort_key hkey (key top)
    rw [hsort] at hperm hsorted hstable
    have htop : ∀ b ∈ xs, key b ≤ key top := by
      intro b hb
      rcases List.mem_cons.mp (hperm.mem_iff.mpr hb) with rfl | hrest
      · exact Int.le_refl _
      · exact (List.pairwise_cons.mp hsorted).1 b hrest
    have hmem : top ∈ xs := hperm.mem_iff.mp List.mem_cons_self
    have hlargest : ∀ a ∈ xs,
        (xs.all fun b => decide (key b ≤ key a)) = decide (key a = key top) := by
      intro a ha
      rw [Bool.eq_iff_iff, List.all_eq_true, decide_eq_true_iff]
      constructor
      · intro h
        exact Int.le_antisymm (htop a ha) (of_decide_eq_true (h top hmem))
      · intro h b hb
        rw [h]
        exact decide_eq_true (htop b hb)
    rw [← List.head?_filter, List.filter_congr hlargest, ← hstable, List.filter_cons,
      if_pos (decide_eq_true rfl)]
    rfl

end Key

/-! ### Sorting results -/

namespace Ranked

def ties (r s : Ranked) : Bool := (Number.double r.probability).equal (.double s.probability)

def leads (results : List Ranked) (r : Ranked) : Bool :=
  results.all fun s => (Number.double s.probability).atMost (.double r.probability)

variable {results : List Ranked} (hfinite : ∀ r ∈ results, r.probability.isFinite = true)

include hfinite

theorem ranksBefore_eq {r s : Ranked} (hr : r ∈ results) (hs : s ∈ results) :
    Catalog.ranksBefore r s = decide (s.probability.place ≤ r.probability.place) := by
  rw [Catalog.ranksBefore, Bool.eq_iff_iff, Bool.not_eq_true', decide_eq_true_iff,
    ← Bool.not_eq_true, Binary64.less_iff_place (hfinite r hr) (hfinite s hs), Int.not_lt]

theorem ties_eq {r s : Ranked} (hr : r ∈ results) (hs : s ∈ results) :
    r.ties s = decide (r.probability.place = s.probability.place) := by
  rw [ties, Bool.eq_iff_iff, decide_eq_true_iff,
    Binary64.equal_iff_place (hfinite r hr) (hfinite s hs)]

theorem leads_eq {r : Ranked} (hr : r ∈ results) :
    leads results r = results.all fun s => decide (s.probability.place ≤ r.probability.place) := by
  rw [leads, Bool.eq_iff_iff, List.all_eq_true, List.all_eq_true]
  refine forall₂_congr fun s hs => ?_
  rw [decide_eq_true_iff]
  exact Binary64.le_iff_place (hfinite s hs) (hfinite r hr)

theorem pairwise_sorted :
    (results.mergeSort Catalog.ranksBefore).Pairwise fun r s => s.probability ≤ r.probability := by
  have hsorted := fun r hr => hfinite r ((List.mergeSort_perm _ Catalog.ranksBefore).mem_iff.mp hr)
  refine (pairwise_mergeSort_key fun r hr s => ranksBefore_eq hfinite hr).imp_of_mem ?_
  intro r s hr hs h
  exact (Binary64.le_iff_place (hsorted s hs) (hsorted r hr)).mpr h

theorem filter_sorted {r : Ranked} (hr : r ∈ results) :
    (results.mergeSort Catalog.ranksBefore).filter (·.ties r) = results.filter (·.ties r) := by
  have hmem := fun s => (List.mergeSort_perm results Catalog.ranksBefore).mem_iff (a := s)
  rw [List.filter_congr fun s hs => ties_eq hfinite ((hmem s).mp hs) hr,
    List.filter_congr fun s hs => ties_eq hfinite hs hr]
  exact filter_mergeSort_key (fun r hr s => ranksBefore_eq hfinite hr) _

theorem head?_sorted :
    (results.mergeSort Catalog.ranksBefore).head? = results.find? (leads results) := by
  rw [head?_mergeSort_key fun r hr s => ranksBefore_eq hfinite hr, ← List.head?_filter,
    ← List.head?_filter, List.filter_congr fun r hr => leads_eq hfinite hr]

end Ranked

/-- A ranking of fewer than `2 ^ 1000` outputs is a stable sort of their results, if no soft rule of
theirs is a fault and their scores are finite. Every output has one result: its own score and
contributions, and the share of that score as its probability. The ranking holds the results of the
outputs, no more and no fewer, larger probabilities first, equal ones in the order of the outputs;
its first result is the first one that has a largest probability. -/
theorem ranking_is_a_stable_sort (catalog : Catalog) (A : Assignment) {outputs : List Output}
    (hlength : outputs.length < Nat.pow 2 1000)
    (hrules : ∀ output ∈ outputs, ∀ bundle, catalog.bundleFor? output.name = some bundle →
      ∀ rule ∈ bundle.softRules,
        ∃ outcome, Rule.truthOf rule.condition A catalog.declared = .ok outcome)
    (hfinite : ∀ output ∈ outputs, ∀ scored, catalog.score A output = .ok scored →
      scored.score.isFinite = true) :
    ∃ (ranking : List Ranked) (result : Output → Ranked),
      catalog.rank outputs A = .ok ranking ∧
      (∀ output ∈ outputs, catalog.score A output = .ok (result output).toScored) ∧
      Softmax.shares (outputs.map fun output => .double (result output).score) =
        .ok (outputs.map fun output => (result output).probability) ∧
      ranking.Perm (outputs.map result) ∧
      (ranking.Pairwise fun r s => s.probability ≤ r.probability) ∧
      (∀ output ∈ outputs, ranking.filter (·.ties (result output)) =
        (outputs.map result).filter (·.ties (result output))) ∧
      ranking.head? = (outputs.map result).find? (Ranked.leads (outputs.map result)) := by
  have hscores : ∀ output ∈ outputs, ∃ scored, catalog.score A output = .ok scored ∧
      scored.score.isFinite = true := by
    intro output houtput
    obtain ⟨scored, hscored⟩ := Catalog.exists_score (hrules output houtput)
    exact ⟨scored, hscored, hfinite output houtput scored hscored⟩
  obtain ⟨result, hresult⟩ := Catalog.exists_results Softmax.exponential_exp hscores
  have hresults := hresult outputs (.refl _)
  have hprobability : ∀ r ∈ outputs.map result, r.probability.isFinite = true :=
    List.forall_mem_map.mpr fun output houtput =>
      (hresults.fraction hlength output houtput).isFinite
  refine ⟨_, result, ?_, hresults.score, ?_, List.mergeSort_perm _ _,
    Ranked.pairwise_sorted hprobability,
    fun output houtput => Ranked.filter_sorted hprobability (List.mem_map_of_mem houtput),
    Ranked.head?_sorted hprobability⟩
  · rw [Catalog.rank_eq, hresults.rankBy]
  · rw [Softmax.shares_eq, hresults.shares]

def Catalog.forOthers : Output := ⟨"C", "", by decide⟩

/-- Candidates that are no feasible outputs, that are listed twice or that have no bundle are ranked
as well. -/
theorem candidates_for_a_home_are_ranked :
    let outputs := [Catalog.forShops, Catalog.forOthers, Catalog.forHomes, Catalog.forShops]
    ∃ (ranking : List Ranked) (result : Output → Ranked),
      Catalog.specimen.rank outputs [("kind", .text "home")] = .ok ranking ∧
      ranking.Perm (outputs.map result) ∧
      (ranking.Pairwise fun r s => s.probability ≤ r.probability) ∧
      ranking.filter (·.ties (result Catalog.forShops)) =
        (outputs.map result).filter (·.ties (result Catalog.forShops)) := by
  intro outputs
  have hlength : outputs.length < Nat.pow 2 1000 := by decide +kernel
  have hholds : Rule.truthOf "kind == 'home'" [("kind", .text "home")] Catalog.specimen.declared =
      .ok .holds := by decide +kernel
  have hrules : ∀ output ∈ outputs, ∀ bundle,
      Catalog.specimen.bundleFor? output.name = some bundle → ∀ rule ∈ bundle.softRules,
        ∃ outcome, Rule.truthOf rule.condition [("kind", .text "home")]
          Catalog.specimen.declared = .ok outcome := by
    intro output _ bundle hbundle rule hrule
    have hmem : bundle ∈ Catalog.specimenBundles := (Catalog.bundleFor?_eq_some hbundle).1
    rcases List.mem_pair.mp hmem with rfl | rfl
    · obtain rfl := List.mem_singleton.mp hrule
      exact ⟨.holds, hholds⟩
    · cases hrule
  have hfinite : ∀ output ∈ outputs,
      (Catalog.specimen.score [("kind", .text "home")] output).map (·.score.isFinite) =
        .ok true := by
    decide +kernel
  obtain ⟨ranking, result, hranking, -, -, hperm, hsorted, hstable, -⟩ :=
    ranking_is_a_stable_sort Catalog.specimen [("kind", .text "home")] hlength hrules
      fun output houtput scored hscored => by
        have hmap := hfinite output houtput
        rw [hscored] at hmap
        exact Except.ok.inj hmap
  exact ⟨ranking, result, hranking, hperm, hsorted, hstable _ List.mem_cons_self⟩

end Shortlist
