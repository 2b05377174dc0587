import Mathlib.Tactic.Common
import Shortlist.Proofs.Catalog.Sound
import Shortlist.Proofs.Rule.Dependence

/-!
# What the filter of outputs does

The filter judges the rules of an output in order and stops at the first that rules it out, so what
it has looked at depends on its answer. An output that is rejected has one reason against it, an
output that is kept has passed every check (`Bundle.RuledOut` and `Bundle.Passes`). A reason rests
on values that are there, hence survives every larger assignment: filling in the form only rules
outputs out.
-/

namespace Shortlist

open Rule (Assignment Truth)

variable {A B : Assignment} {D : List String}

namespace Bundle

variable {bundle : Bundle}

inductive RuledOut (bundle : Bundle) (A : Assignment) (D : List String) : Prop
  | violated {name : String} {expected : Expected} {v : Value}
      (hmem : (name, expected) ∈ bundle.conditions) (hvalue : A.value? name = some v)
      (hunmet : expected.isMetBy v = false) : RuledOut bundle A D
  | failed {text : String} (hmem : text ∈ bundle.inclusions)
      (hfails : Rule.truthOf text A D = .ok .fails) : RuledOut bundle A D
  | triggered {text : String} (hmem : text ∈ bundle.exclusions)
      (hholds : Rule.truthOf text A D = .ok .holds) : RuledOut bundle A D

structure Passes (bundle : Bundle) (A : Assignment) (D : List String) : Prop where
  conditions : ∀ c ∈ bundle.conditions, ∀ v, A.value? c.1 = some v → c.2.isMetBy v = true
  inclusions : ∀ text ∈ bundle.inclusions, ∃ t, Rule.truthOf text A D = .ok t ∧ t ≠ .fails
  exclusions : ∀ text ∈ bundle.exclusions, ∃ t, Rule.truthOf text A D = .ok t ∧ t ≠ .holds

theorem Passes.not_ruledOut (h : bundle.Passes A D) : ¬ bundle.RuledOut A D := by
  intro hout
  cases hout with
  | violated hmem hvalue hunmet => simp [h.conditions _ hmem _ hvalue] at hunmet
  | failed hmem hfails =>
    obtain ⟨t, ht, hne⟩ := h.inclusions _ hmem
    rw [hfails, Except.ok.injEq] at ht
    exact hne ht.symm
  | triggered hmem hholds =>
    obtain ⟨t, ht, hne⟩ := h.exclusions _ hmem
    rw [hholds, Except.ok.injEq] at ht
    exact hne ht.symm

theorem RuledOut.mono (hpart : A.PartOf B) (h : bundle.RuledOut A D) : bundle.RuledOut B D := by
  cases h with
  | violated hmem hvalue hunmet => exact .violated hmem (hpart hvalue) hunmet
  | failed hmem hfails => exact .failed hmem (Rule.truthOf_mono hpart hfails (by decide))
  | triggered hmem hholds => exact .triggered hmem (Rule.truthOf_mono hpart hholds (by decide))

/-! ### The three lists of reasons -/

theorem mem_violated {name : String} :
    name ∈ bundle.violated A ↔
      ∃ expected v, (name, expected) ∈ bundle.conditions ∧ A.value? name = some v ∧
        expected.isMetBy v = false := by
  unfold violated
  simp only [List.mem_map, List.mem_filter]
  constructor
  · rintro ⟨⟨name, expected⟩, ⟨hmem, hunmet⟩, rfl⟩
    cases hv : A.value? name with
    | none => simp [hv] at hunmet
    | some v => exact ⟨expected, v, hmem, rfl, by simpa [hv] using hunmet⟩
  · rintro ⟨expected, v, hmem, hv, hunmet⟩
    exact ⟨(name, expected), ⟨hmem, by simp [hv, hunmet]⟩, rfl⟩

theorem violated_eq_nil_iff :
    bundle.violated A = [] ↔
      ∀ c ∈ bundle.conditions, ∀ v, A.value? c.1 = some v → c.2.isMetBy v = true := by
  rw [List.eq_nil_iff_forall_not_mem]
  constructor
  · intro h c hc v hv
    by_contra hunmet
    exact h c.1 (mem_violated.mpr ⟨c.2, v, hc, hv, by simpa using hunmet⟩)
  · intro h name hname
    obtain ⟨expected, v, hmem, hv, hunmet⟩ := mem_violated.mp hname
    simp [h _ hmem v hv] at hunmet

theorem violated_sublist (hpart : A.PartOf B) :
    (bundle.violated A).Sublist (bundle.violated B) := by
  unfold violated
  refine (List.monotone_filter_right bundle.conditions fun c hc => ?_).map _
  cases hv : A.value? c.1 with
  | none => simp [hv] at hc
  | some v => simpa [hv, hpart hv] using hc

theorem violated_congr (h : A.AgreeOn B bundle.conditions.names) :
    bundle.violated A = bundle.violated B := by
  unfold violated
  congr 1
  refine List.filter_congr fun c hc => ?_
  rw [h c.1 (List.mem_map_of_mem hc)]

theorem hasOutcome_eq_ok_iff {outcome : Truth} {text : String} {b : Bool} :
    hasOutcome A D outcome text = .ok b ↔
      ∃ t, Rule.truthOf text A D = .ok t ∧ decide (t = outcome) = b := by
  simp only [hasOutcome, Except.bind_eq_ok, Except.pure_eq_ok]

theorem hasOutcome_true_iff {outcome : Truth} {text : String} :
    hasOutcome A D outcome text = .ok true ↔ Rule.truthOf text A D = .ok outcome := by
  simp [hasOutcome_eq_ok_iff]

theorem hasOutcome_false_iff {outcome : Truth} {text : String} :
    hasOutcome A D outcome text = .ok false ↔
      ∃ t, Rule.truthOf text A D = .ok t ∧ t ≠ outcome := by
  simp [hasOutcome_eq_ok_iff]

theorem hasOutcome_congr {outcome : Truth} {text : String}
    (h : A.AgreeOn B (Rule.fieldsOf text D)) :
    hasOutcome A D outcome text = hasOutcome B D outcome text := by
  rw [hasOutcome, hasOutcome, Rule.truthOf_congr h]

theorem selectM_hasOutcome_sublist {outcome : Truth} {texts before after : List String}
    (hdecided : outcome ≠ .undecided) (hpart : A.PartOf B)
    (hbefore : selectM (hasOutcome A D outcome) texts = .ok before)
    (hafter : selectM (hasOutcome B D outcome) texts = .ok after) : before.Sublist after := by
  refine selectM_sublist (fun text _ hB hA => ?_) hafter hbefore
  obtain ⟨t, ht, hne⟩ := hasOutcome_false_iff.mp hB
  have hsame := Rule.truthOf_mono hpart (hasOutcome_true_iff.mp hA) hdecided
  rw [ht, Except.ok.injEq] at hsame
  exact hne hsame

/-! ### The answer of the filter -/

theorem isFeasible_eq_true_iff : bundle.isFeasible A D = .ok true ↔ bundle.Passes A D := by
  unfold isFeasible isSatisfied
  constructor
  · intro h
    split at h
    · cases h
    · rename_i hnone
      obtain ⟨failed, hfailed, h⟩ := Except.bind_eq_ok.mp h
      cases failed with
      | true => cases h
      | false =>
        obtain ⟨triggered, htriggered, h⟩ := Except.bind_eq_ok.mp h
        cases triggered with
        | true => cases h
        | false =>
          exact
            { conditions := violated_eq_nil_iff.mp (by simpa using hnone)
              inclusions := fun text ht =>
                hasOutcome_false_iff.mp (anyM_eq_false_iff.mp hfailed text ht)
              exclusions := fun text ht =>
                hasOutcome_false_iff.mp (anyM_eq_false_iff.mp htriggered text ht) }
  · intro h
    have hnone : bundle.violated A = [] := violated_eq_nil_iff.mpr h.conditions
    have hfailed : bundle.inclusions.anyM (hasOutcome A D .fails) = .ok false :=
      anyM_eq_false_iff.mpr fun text ht => hasOutcome_false_iff.mpr (h.inclusions text ht)
    have htriggered : bundle.exclusions.anyM (hasOutcome A D .holds) = .ok false :=
      anyM_eq_false_iff.mpr fun text ht => hasOutcome_false_iff.mpr (h.exclusions text ht)
    rw [hnone, hfailed, htriggered]
    rfl

theorem ruledOut_of_isFeasible (h : bundle.isFeasible A D = .ok false) :
    bundle.RuledOut A D := by
  unfold isFeasible isSatisfied at h
  split at h
  · rename_i hsome
    have hne : bundle.violated A ≠ [] := by simpa using hsome
    obtain ⟨name, hname⟩ := List.exists_mem_of_ne_nil _ hne
    obtain ⟨expected, v, hmem, hv, hunmet⟩ := mem_violated.mp hname
    exact .violated hmem hv hunmet
  · obtain ⟨failed, hfailed, h⟩ := Except.bind_eq_ok.mp h
    cases failed with
    | true =>
      obtain ⟨text, hmem, htext⟩ := exists_of_anyM_eq_true hfailed
      exact .failed hmem (hasOutcome_true_iff.mp htext)
    | false =>
      obtain ⟨triggered, htriggered, h⟩ := Except.bind_eq_ok.mp h
      cases triggered with
      | false => cases h
      | true =>
        obtain ⟨text, hmem, htext⟩ := exists_of_anyM_eq_true htriggered
        exact .triggered hmem (hasOutcome_true_iff.mp htext)

/-- What a larger assignment keeps, a smaller one has not rejected. -/
theorem isFeasible_antitone (hpart : A.PartOf B) (hA : bundle.isFeasible A D = .ok false) :
    bundle.isFeasible B D ≠ .ok true := by
  intro hB
  exact (isFeasible_eq_true_iff.mp hB).not_ruledOut ((ruledOut_of_isFeasible hA).mono hpart)

end Bundle

/-! ### The list of feasible outputs -/

namespace Catalog

variable {catalog : Catalog} {output : Output} {feasible : List Output}

theorem isFeasible_eq_true_iff :
    catalog.isFeasible A output = .ok true ↔
      ∃ bundle, catalog.bundleFor? output.name = some bundle ∧
        bundle.Passes A catalog.declared := by
  unfold isFeasible
  cases h : catalog.bundleFor? output.name with
  | none => simp
  | some bundle => simp [Bundle.isFeasible_eq_true_iff]

theorem isFeasible_antitone (hpart : A.PartOf B) (hA : catalog.isFeasible A output = .ok false) :
    catalog.isFeasible B output ≠ .ok true := by
  unfold isFeasible at hA ⊢
  cases h : catalog.bundleFor? output.name with
  | none => simp
  | some bundle =>
    rw [h] at hA
    exact Bundle.isFeasible_antitone hpart hA

theorem mem_feasible (h : catalog.feasible A = .ok feasible) :
    output ∈ feasible ↔
      output ∈ catalog.outputs ∧ ∃ bundle, catalog.bundleFor? output.name = some bundle ∧
        bundle.Passes A catalog.declared := by
  rw [mem_of_selectM h, isFeasible_eq_true_iff]

/-- The feasible outputs of a larger assignment are some of the former ones, in the same order. -/
theorem feasible_sublist {before after : List Output} (hpart : A.PartOf B)
    (hbefore : catalog.feasible A = .ok before) (hafter : catalog.feasible B = .ok after) :
    after.Sublist before :=
  selectM_sublist (fun _ _ hA => isFeasible_antitone hpart hA) hbefore hafter

end Catalog

/-- Adding values only rules outputs out, and takes back no reason against an output. -/
theorem more_values_only_rule_out (catalog : Catalog) {A B : Assignment} (hpart : A.PartOf B) :
    (∀ {before after : List Output}, catalog.feasible A = .ok before →
      catalog.feasible B = .ok after → after.Sublist before) ∧
    ∀ (bundle : Bundle) (D : List String),
      (bundle.violated A).Sublist (bundle.violated B) ∧
      (∀ {before after : List String}, bundle.failed A D = .ok before →
        bundle.failed B D = .ok after → before.Sublist after) ∧
      (∀ {before after : List String}, bundle.triggered A D = .ok before →
        bundle.triggered B D = .ok after → before.Sublist after) ∧
      (∀ text ∈ bundle.inclusions, Rule.truthOf text A D = .ok .fails →
        Rule.truthOf text B D = .ok .fails) ∧
      (∀ text ∈ bundle.exclusions, Rule.truthOf text A D = .ok .holds →
        Rule.truthOf text B D = .ok .holds) := by
  refine ⟨Catalog.feasible_sublist hpart, fun bundle D => ⟨Bundle.violated_sublist hpart, ?_, ?_,
    ?_, ?_⟩⟩
  · exact Bundle.selectM_hasOutcome_sublist (by decide) hpart
  · exact Bundle.selectM_hasOutcome_sublist (by decide) hpart
  · exact fun text _ h => Rule.truthOf_mono hpart h (by decide)
  · exact fun text _ h => Rule.truthOf_mono hpart h (by decide)

/-- A home without a garden loses the output for homes, and the rule that fails stays failed when a
vault is added. -/
theorem specimen_home_ruled_out :
    Catalog.specimen.feasible [("kind", .text "home")] = .ok [Catalog.forHomes] ∧
      Catalog.specimen.feasible [("kind", .text "home"), ("garden", .boolean false)] = .ok [] ∧
      ([] : List Output).Sublist [Catalog.forHomes] ∧
      Rule.truthOf "garden" [("garden", .boolean false), ("vault", .boolean true)]
        Catalog.specimen.declared = .ok .fails := by
  refine ⟨by decide +kernel, by decide +kernel, ?_, ?_⟩
  · exact (more_values_only_rule_out Catalog.specimen
      (Rule.Assignment.partOf_append [("kind", .text "home")] [("garden", .boolean false)])).1
      (by decide +kernel) (by decide +kernel)
  · obtain ⟨-, -, -, hfailed, -⟩ := (more_values_only_rule_out Catalog.specimen
      (Rule.Assignment.partOf_append [("garden", .boolean false)] [("vault", .boolean true)])).2
      ⟨"A", [], ["garden"], [], []⟩ Catalog.specimen.declared
    exact hfailed "garden" (List.mem_singleton_self _) (by decide +kernel)

end Shortlist
