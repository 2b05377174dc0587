import Shortlist.Decision.Ranking
import Shortlist.Proofs.Catalog.Checks
import Shortlist.Proofs.Fallible
import Shortlist.Proofs.Number.Rounding

/-!
# What can go wrong in a ranking

Once the rules have been judged, nothing: the weights of a catalog are bounded, hence have doubles
near them, and the shares of doubles are doubles.
-/

namespace Shortlist

open Rule (Assignment)

/-! ### Weights -/

theorem SoftRule.exists_points {rule : SoftRule} (h : rule.weight.IsWeight) :
    ∃ x, rule.points = .ok x := by
  unfold points
  obtain hnull | ⟨n, hn, -, hlow, hhigh⟩ := h
  · exact ⟨.zero, by rw [hnull]⟩
  · rw [hn]
    cases n with
    | double x => exact ⟨x, rfl⟩
    | int i =>
      have hsmall : i.natAbs < Nat.pow 2 1023 := by
        have hle : i.natAbs ≤ 1000000 := by
          have hlow : -1000000 ≤ i := Number.atMost_int_iff.mp hlow
          have hhigh : i ≤ 1000000 := Number.atMost_int_iff.mp hhigh
          omega
        exact Nat.lt_of_le_of_lt hle (by decide +kernel)
      obtain ⟨x, hx⟩ := Number.exists_toDouble hsmall
      exact ⟨x, by simp [Value.asNumber?, hx, Except.mapError]⟩

/-! ### Shares -/

namespace Softmax

theorem exists_peak (first : Binary64) (rest : List Binary64) :
    ∃ x, peak (.double first) (rest.map .double) = .double x := by
  induction rest generalizing first with
  | nil => exact ⟨first, rfl⟩
  | cons next rest ih =>
    rw [peak, List.map_cons, List.foldl_cons]
    split
    · exact ih next
    · exact ih first

theorem exists_shares (scores : List Binary64) :
    ∃ shares, Softmax.shares (scores.map .double) = .ok shares := by
  cases scores with
  | nil => exact ⟨[], rfl⟩
  | cons first rest =>
    obtain ⟨top, htop⟩ := exists_peak first rest
    have heach : ∀ score ∈ (first :: rest).map Number.double,
        ∃ x, weight (.double top) score = .ok x := by
      intro score hscore
      obtain ⟨x, -, rfl⟩ := List.mem_map.mp hscore
      exact ⟨_, rfl⟩
    obtain ⟨weights, hweights⟩ := exists_mapM heach
    refine ⟨normalize weights, ?_⟩
    rw [List.map_cons] at hweights ⊢
    rw [Softmax.shares, htop, hweights]
    rfl

end Softmax

/-! ### Scores -/

namespace Catalog

variable {catalog : Catalog} {A : Assignment}

theorem isWeight_of_mem {bundle : Bundle} (hmem : bundle ∈ catalog.bundles) {rule : SoftRule}
    (hrule : rule ∈ bundle.softRules) : rule.weight.IsWeight :=
  ((problems_eq_nil_iff.mp catalog.sound).2.2 bundle hmem).2.weights rule hrule

theorem exists_contributions {output : String}
    (hrules : ∀ bundle, catalog.bundleFor? output = some bundle → ∀ rule ∈ bundle.softRules,
      ∃ outcome, Rule.truthOf rule.condition A catalog.declared = .ok outcome) :
    ∃ cs, catalog.contributions output A = .ok cs := by
  unfold contributions
  cases hbundle : catalog.bundleFor? output with
  | none => exact ⟨[], rfl⟩
  | some bundle =>
    refine exists_mapM fun rule hrule => ?_
    obtain ⟨x, hx⟩ := SoftRule.exists_points (isWeight_of_mem (bundleFor?_eq_some hbundle).1 hrule)
    obtain ⟨outcome, houtcome⟩ := hrules bundle hbundle rule hrule
    refine ⟨⟨rule.condition, x, outcome, rule.subject⟩, ?_⟩
    rw [SoftRule.contribution, hx, houtcome]
    rfl

theorem exists_score {output : Output}
    (hrules : ∀ bundle, catalog.bundleFor? output.name = some bundle → ∀ rule ∈ bundle.softRules,
      ∃ outcome, Rule.truthOf rule.condition A catalog.declared = .ok outcome) :
    ∃ scored, catalog.score A output = .ok scored := by
  obtain ⟨cs, hcs⟩ := exists_contributions hrules
  exact ⟨_, by rw [score, hcs]; rfl⟩

/-- Outputs can be ranked as soon as their soft rules can be judged. -/
theorem exists_rank {outputs : List Output}
    (hrules : ∀ output ∈ outputs, ∀ bundle, catalog.bundleFor? output.name = some bundle →
      ∀ rule ∈ bundle.softRules,
        ∃ outcome, Rule.truthOf rule.condition A catalog.declared = .ok outcome) :
    ∃ ranking, catalog.rank outputs A = .ok ranking := by
  obtain ⟨scored, hscored⟩ := exists_mapM fun output houtput => exists_score (hrules output houtput)
  obtain ⟨shares, hshares⟩ := Softmax.exists_shares (scored.map (·.score))
  rw [List.map_map] at hshares
  exact ⟨_, Except.bind_eq_ok.mpr ⟨scored, hscored, Except.bind_eq_ok.mpr ⟨shares, hshares, rfl⟩⟩⟩

end Catalog

end Shortlist
