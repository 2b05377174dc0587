import Mathlib.Tactic.Common
import Shortlist.Decision.Relevance
import Shortlist.Proofs.Catalog.Answer
import Shortlist.Proofs.Catalog.Sound
import Shortlist.Proofs.Decision.Filter
import Shortlist.Proofs.Entries

/-!
# Which fields are asked for

The mandatory fields come from all outputs, the relevant ones from those that are still feasible.
Relevance goes up and down: a field joins when it gets a value, and the fields of an output leave
with it. What is pending only goes down, because a pending field has no value, so it is relevant
through a feasible output, and the feasible outputs only get fewer.
-/

namespace Shortlist

open Rule (Assignment)

variable {A B : Assignment} {D : List String} {name : String} {v : Value}

/-! ### Values that are there -/

/-- No entry of the assignment stands for a missing value. -/
def Rule.Assignment.Filled (A : Assignment) : Prop :=
  ∀ entry ∈ A, entry.2.isEmptyAnswer = false

theorem Registry.Admits.filled {registry : Registry} (h : registry.Admits A) : A.Filled := by
  intro entry hentry
  obtain ⟨variable', -, hadmits⟩ := h entry hentry
  exact hadmits.isEmptyAnswer_eq_false

theorem value?_eq_get? (hfilled : A.Filled) : A.value? name = Entries.get? A name := by
  cases hget : Entries.get? A name with
  | none => simp [Rule.Assignment.value?, hget]
  | some v =>
    refine Rule.Assignment.value?_eq_some_iff.mpr ⟨hget, ?_⟩
    rintro rfl
    exact absurd (hfilled _ (Entries.mem_of_get?_eq_some hget)) (by simp [Value.isEmptyAnswer])

theorem value?_of_not_open (h : Catalog.isOpen A name = false) : ∃ v, A.value? name = some v := by
  unfold Catalog.isOpen at h
  cases hget : Entries.get? A name with
  | none => simp [hget, Value.isEmptyAnswer] at h
  | some v =>
    refine ⟨v, Rule.Assignment.value?_eq_some_iff.mpr ⟨hget, ?_⟩⟩
    rintro rfl
    simp [hget, Value.isEmptyAnswer] at h

theorem isOpen_iff (hfilled : A.Filled) : Catalog.isOpen A name = true ↔ A.value? name = none := by
  rw [value?_eq_get? hfilled, Catalog.isOpen]
  cases hget : Entries.get? A name with
  | none => simp [Value.isEmptyAnswer]
  | some v => simp [hfilled _ (Entries.mem_of_get?_eq_some hget)]

theorem mem_assigned_iff (hfilled : A.Filled) :
    name ∈ Catalog.assigned A ↔ ∃ v, A.value? name = some v := by
  have hall : Catalog.assigned A = Entries.names A := by
    unfold Catalog.assigned Entries.names
    congr 1
    refine List.filter_eq_self.mpr fun entry hentry => ?_
    have hvalue := hfilled entry hentry
    split
    · rename_i hnull
      simp [hnull, Value.isEmptyAnswer] at hvalue
    · rfl
  rw [hall, value?_eq_get? hfilled, Entries.exists_get?_iff]

/-! ### Membership -/

namespace Bundle

variable {bundle : Bundle}

theorem mem_hardFields :
    name ∈ bundle.hardFields D ↔ name ∈ bundle.conditions.names ∨
      ∃ text ∈ bundle.hardTexts, name ∈ Rule.fieldsOf text D := by
  simp [hardFields]

theorem mem_fields :
    name ∈ bundle.fields D ↔ name ∈ bundle.hardFields D ∨
      ∃ rule ∈ bundle.softRules, name ∈ softFields D rule := by
  simp [fields]

end Bundle

namespace Catalog

variable {catalog : Catalog} {feasible : List Output}

theorem mem_mandatory :
    name ∈ catalog.mandatory ↔
      ∃ bundle ∈ catalog.bundles, name ∈ bundle.hardFields catalog.declared := by
  simp [mandatory, Text.mem_sortedSet]

theorem mem_relevant :
    name ∈ catalog.relevant feasible A ↔ name ∈ assigned A ∨
      ∃ output ∈ feasible, ∃ bundle, catalog.bundleFor? output.name = some bundle ∧
        name ∈ bundle.fields catalog.declared := by
  rw [relevant, Text.mem_sortedSet, List.mem_append, List.mem_flatMap]
  refine or_congr_right (exists_congr fun output => and_congr_right fun _ => ?_)
  cases h : catalog.bundleFor? output.name with
  | none => simp
  | some bundle => simp

theorem mem_pending {mandatory relevant : List String} :
    name ∈ catalog.pending mandatory relevant A ↔ name ∈ catalog.declared ∧ name ∈ mandatory ∧
      name ∈ relevant ∧ isOpen A name = true := by
  simp [pending, and_assoc]

theorem hardFields_declared {bundle : Bundle} (hmem : bundle ∈ catalog.bundles)
    (h : name ∈ bundle.hardFields catalog.declared) : name ∈ catalog.declared := by
  rcases Bundle.mem_hardFields.mp h with hname | ⟨text, -, hname⟩
  · exact condition_declared hmem hname
  · obtain ⟨rule, -, -, hdeclared⟩ := Rule.mem_fieldsOf.mp hname
    exact hdeclared

/-! ### Pending fields -/

theorem value?_of_pending_eq_nil {output : Output} {bundle : Bundle} (hmem : output ∈ feasible)
    (hbundle : catalog.bundleFor? output.name = some bundle)
    (hnone : catalog.pending catalog.mandatory (catalog.relevant feasible A) A = [])
    (hname : name ∈ bundle.hardFields catalog.declared) : ∃ v, A.value? name = some v := by
  have hin := (bundleFor?_eq_some hbundle).1
  refine value?_of_not_open (Bool.eq_false_iff.mpr fun hopen => ?_)
  have hpending : name ∈ catalog.pending catalog.mandatory (catalog.relevant feasible A) A :=
    mem_pending.mpr ⟨hardFields_declared hin hname, mem_mandatory.mpr ⟨bundle, hin, hname⟩,
      mem_relevant.mpr (.inr ⟨output, hmem, bundle, hbundle, Bundle.mem_fields.mpr (.inl hname)⟩),
      hopen⟩
  rw [hnone] at hpending
  cases hpending

/-- A relevant field without a value in the larger assignment was relevant in the smaller one. -/
theorem relevant_of_open {before after : List Output} (hpart : A.PartOf B) (hB : B.Filled)
    (hbefore : catalog.feasible A = .ok before) (hafter : catalog.feasible B = .ok after)
    (hopen : B.value? name = none) (h : name ∈ catalog.relevant after B) :
    name ∈ catalog.relevant before A := by
  rcases mem_relevant.mp h with hassigned | ⟨output, houtput, hfields⟩
  · obtain ⟨v, hv⟩ := (mem_assigned_iff hB).mp hassigned
    rw [hopen] at hv
    cases hv
  · exact mem_relevant.mpr
      (.inr ⟨output, (feasible_sublist hpart hbefore hafter).subset houtput, hfields⟩)

/-- What is pending in a larger assignment was pending, apart from what got a value. -/
theorem pending_sublist (mandatory : List String) {before after : List Output}
    (hpart : A.PartOf B) (hA : A.Filled) (hB : B.Filled)
    (hbefore : catalog.feasible A = .ok before) (hafter : catalog.feasible B = .ok after) :
    (catalog.pending mandatory (catalog.relevant after B) B).Sublist
      ((catalog.pending mandatory (catalog.relevant before A) A).filter
        fun name => (B.value? name).isNone) := by
  unfold pending
  rw [List.filter_filter]
  refine List.monotone_filter_right _ fun name h => ?_
  simp only [Bool.and_eq_true, List.contains_iff_mem] at h ⊢
  obtain ⟨⟨hmandatory, hrelevant⟩, hopen⟩ := h
  have hmissing : B.value? name = none := (isOpen_iff hB).mp hopen
  refine ⟨by rw [hmissing]; rfl,
    ⟨hmandatory, relevant_of_open hpart hB hbefore hafter hmissing hrelevant⟩, ?_⟩
  refine (isOpen_iff hA).mpr ?_
  cases hv : A.value? name with
  | none => rfl
  | some v =>
    rw [hpart hv] at hmissing
    cases hmissing

end Catalog

end Shortlist
