import Mathlib.Tactic.Common
import Shortlist.Proofs.Catalog.Checks
import Shortlist.Proofs.Document.Value

/-!
# Rules without problems

What the check of the rules asks of each part of a document, said of the part itself: of what a
condition demands, of a list of rules, of a soft rule and of a bundle. A part has no problems
exactly if it fits. The places at which problems are reported play no role in that, so they do not
come up again.
-/

namespace Shortlist

/-! ### Conditions -/

/-- The values that a condition on a variable may demand. -/
def Variable.Takes (v : Variable) (value : Value) : Prop :=
  match v.type with
  | .boolean => ∃ b, value = .boolean b
  | .number => ∃ n, value = .number n ∧ n.isFinite = true
  | .choice => ∃ s ∈ v.domain, value = .text s

namespace Document

theorem expectedDefect?_eq_none_iff {v : Variable} {value : Value} :
    expectedDefect? v value = none ↔ v.Takes value := by
  unfold expectedDefect? Variable.Takes
  cases v.type with
  | boolean => cases value <;> simp [Value.isBoolean]
  | number => cases value <;> simp
  | choice => cases value <;> simp

/-- A condition is on a declared variable and demands values that it may take. -/
def ConditionFits (registered : Entries Variable) (condition : String × Value) : Prop :=
  ∃ v, registered.get? condition.1 = some v ∧ allowedValues condition.2 ≠ [] ∧
    ∀ value ∈ allowedValues condition.2, v.Takes value

variable {registered : Entries Variable} {declared : List String} {entries : Entries Value}
  {v : Value} {place : Place} {output : String}

theorem conditionProblems_eq_nil_iff {name : String} {expected : Value} :
    conditionProblems registered place name expected = [] ↔
      ConditionFits registered (name, expected) := by
  unfold conditionProblems ConditionFits
  cases hv : registered.get? name with
  | none => simp
  | some v =>
    simp only [List.append_eq_nil_iff, List.map_eq_nil_iff, List.filterMap_eq_nil_iff,
      Option.some.injEq, exists_eq_left', expectedDefect?_eq_none_iff]
    refine and_congr_left fun _ => ?_
    cases allowedValues expected <;> simp

theorem conditionsProblems_eq_nil_iff :
    conditionsProblems registered place v = [] ↔
      IsObject (fun found => ∀ condition ∈ found, ConditionFits registered condition) v := by
  unfold conditionsProblems
  split
  · rw [isObject_object, List.flatMap_eq_nil_iff]
    exact forall₂_congr fun _ _ => conditionProblems_eq_nil_iff
  · rename_i hother
    exact iff_of_false nofun (not_isObject hother)

/-! ### Lists of rules -/

theorem flatten_mapM_indexed_eq_nil_iff {ε α β : Type} {f : Nat × α → Except ε (List β)}
    {items : List α} {Fits : α → Prop}
    (hf : ∀ index item, f (index, item) = .ok [] ↔ Fits item) :
    ((indexed items).mapM f >>= fun found => pure found.flatten) = .ok [] ↔
      ∀ item ∈ items, Fits item := by
  rw [flatten_mapM_eq_nil_iff]
  constructor
  · intro h item hitem
    obtain ⟨index, hmem⟩ := mem_iff_exists_indexed.mp hitem
    exact (hf index item).mp (h _ hmem)
  · rintro h ⟨index, item⟩ hmem
    exact (hf index item).mpr (h item (mem_iff_exists_indexed.mpr ⟨index, hmem⟩))

def RulesFit (declared : List String) (v : Value) : Prop :=
  ∃ texts, v = .list (List.map .text texts) ∧ ∀ text ∈ texts, Rule.Fits declared text

theorem ruleListProblems_eq_nil_iff {list : RuleList} :
    ruleListProblems declared output list v = .ok [] ↔ RulesFit declared v := by
  unfold ruleListProblems
  split
  · rename_i items
    rw [flatten_mapM_indexed_eq_nil_iff fun _ _ => expressionProblems_eq_nil_iff]
    constructor
    · intro h
      obtain ⟨texts, rfl, htexts⟩ := exists_texts h
      exact ⟨texts, rfl, htexts⟩
    · rintro ⟨texts, ⟨⟩, h⟩ item hitem
      obtain ⟨text, htext, rfl⟩ := List.mem_map.mp hitem
      exact ⟨text, rfl, h text htext⟩
  · rename_i hother
    refine iff_of_false ok_cons_ne_ok_nil ?_
    rintro ⟨texts, rfl, -⟩
    exact hother _ rfl

theorem unknownKeyProblems_eq_nil_iff {known : List String} :
    unknownKeyProblems known place entries = [] ↔ ∀ key ∈ entries.names, key ∈ known := by
  rw [unknownKeyProblems, List.map_eq_nil_iff, ← List.length_eq_zero_iff,
    (Text.sorted_perm _).length_eq, List.length_eq_zero_iff, List.filter_eq_nil_iff]
  simp

structure SoftRuleFits (declared : List String) (entries : Entries Value) : Prop where
  keys : ∀ key ∈ entries.names, key ∈ softRuleKeys
  condition : ∃ text, field entries "condition" = .text text ∧ Rule.Fits declared text
  weight : (field entries "weight").IsWeight
  subject : field entries "variable" = .null ∨
    ∃ name ∈ declared, field entries "variable" = .text name

theorem subjectProblems_eq_nil_iff :
    subjectProblems declared place v = [] ↔ v = .null ∨ ∃ name ∈ declared, v = .text name := by
  unfold subjectProblems
  split
  · simp
  · simp
  · rename_i hnull htext
    refine iff_of_false nofun ?_
    rintro (rfl | ⟨name, -, rfl⟩)
    · exact hnull rfl
    · exact htext name rfl

theorem softRuleProblems_eq_nil_iff :
    softRuleProblems declared place v = .ok [] ↔ IsObject (SoftRuleFits declared) v := by
  unfold softRuleProblems
  split
  · rename_i entries
    rw [isObject_object, Except.bind_eq_ok]
    simp only [Except.pure_eq_ok, List.append_eq_nil_iff, List.map_eq_nil_iff,
      Option.toList_eq_nil_iff, unknownKeyProblems_eq_nil_iff, weightDefect?_eq_none_iff,
      subjectProblems_eq_nil_iff]
    constructor
    · rintro ⟨condition, hcondition, ⟨⟨hkeys, rfl⟩, hweight⟩, hsubject⟩
      exact ⟨hkeys, expressionProblems_eq_nil_iff.mp hcondition, hweight, hsubject⟩
    · intro h
      exact ⟨[], expressionProblems_eq_nil_iff.mpr h.condition, ⟨⟨h.keys, rfl⟩, h.weight⟩,
        h.subject⟩
  · rename_i hother
    exact iff_of_false ok_cons_ne_ok_nil (not_isObject hother)

def SoftRulesFit (declared : List String) (v : Value) : Prop :=
  ∃ items, v = .list items ∧ ∀ item ∈ items, IsObject (SoftRuleFits declared) item

theorem softRulesProblems_eq_nil_iff :
    softRulesProblems declared output v = .ok [] ↔ SoftRulesFit declared v := by
  unfold softRulesProblems
  split
  · rename_i items
    rw [flatten_mapM_indexed_eq_nil_iff fun _ _ => softRuleProblems_eq_nil_iff]
    exact ⟨fun h => ⟨items, rfl, h⟩, by rintro ⟨_, ⟨⟩, h⟩; exact h⟩
  · rename_i hother
    refine iff_of_false ok_cons_ne_ok_nil ?_
    rintro ⟨items, rfl, -⟩
    exact hother items rfl

/-! ### Bundles -/

structure BundleFits (registered : Entries Variable) (entries : Entries Value) : Prop where
  keys : ∀ key ∈ entries.names, key ∈ bundleKeys
  conditions : IsObject (fun found => ∀ condition ∈ found, ConditionFits registered condition)
    (conditions entries)
  hard : ∀ list, RulesFit registered.names (ruleList entries list)
  soft : SoftRulesFit registered.names (softRuleList entries)

theorem bundleProblems_eq_nil_iff :
    bundleProblems registered output v = .ok [] ↔ IsObject (BundleFits registered) v := by
  unfold bundleProblems
  split
  · rename_i entries
    simp only [isObject_object, Except.bind_eq_ok, Except.pure_eq_ok, List.append_eq_nil_iff,
      unknownKeyProblems_eq_nil_iff, conditionsProblems_eq_nil_iff]
    constructor
    · rintro ⟨_, hinclusion, _, hexclusion, _, hsoft, ⟨⟨⟨hkeys, hconditions⟩, rfl⟩, rfl⟩, rfl⟩
      refine ⟨hkeys, hconditions, fun list => ?_, softRulesProblems_eq_nil_iff.mp hsoft⟩
      cases list with
      | inclusion => exact ruleListProblems_eq_nil_iff.mp hinclusion
      | exclusion => exact ruleListProblems_eq_nil_iff.mp hexclusion
    · intro h
      exact ⟨[], ruleListProblems_eq_nil_iff.mpr (h.hard .inclusion),
        [], ruleListProblems_eq_nil_iff.mpr (h.hard .exclusion),
        [], softRulesProblems_eq_nil_iff.mpr h.soft, ⟨⟨⟨h.keys, h.conditions⟩, rfl⟩, rfl⟩, rfl⟩
  · rename_i hother
    exact iff_of_false ok_cons_ne_ok_nil (not_isObject hother)

/-- The section of rules has no problems if every entry is a fitting bundle of a declared output. -/
theorem ruleProblems_eq_nil_iff {outputs : List String} :
    ruleProblems registered outputs v = .ok [] ↔
      IsObject (fun entries => ∀ entry ∈ entries,
        entry.1 ∈ outputs ∧ IsObject (BundleFits registered) entry.2) v := by
  unfold ruleProblems
  split
  · rw [isObject_object, flatten_mapM_eq_nil_iff]
    refine forall₂_congr fun entry _ => ?_
    rw [Except.bind_eq_ok]
    simp only [Except.pure_eq_ok, List.append_eq_nil_iff]
    constructor
    · rintro ⟨own, hown, hdeclared, rfl⟩
      exact ⟨by simpa using hdeclared, bundleProblems_eq_nil_iff.mp hown⟩
    · rintro ⟨hdeclared, hown⟩
      exact ⟨[], bundleProblems_eq_nil_iff.mpr hown, by simpa using hdeclared, rfl⟩
  · rename_i hother
    exact iff_of_false ok_cons_ne_ok_nil (not_isObject hother)

end Document

end Shortlist
