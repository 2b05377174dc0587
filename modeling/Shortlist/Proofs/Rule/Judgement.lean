import Mathlib.Tactic.Common
import Shortlist.Proofs.Rule.Dependence
import Shortlist.Proofs.Rule.Evaluation
import Shortlist.Proofs.Rule.Numeral

/-!
# When judging a rule is a fault

Judging a rule turns a malformed text, a failing evaluation and a value that is no boolean into
false. Two things escape it: a numeral of the text that has no value, which is met while the tokens
are read, and a failure that cannot be put into words, which is met while the tree is evaluated. The
parser adds none of its own.
-/

namespace Shortlist.Rule

variable {A : Assignment} {D : List String} {text : String}

/-- Reading a rule is a fault if its text has a numeral without a value, and on no other account. -/
theorem read_fault_iff :
    (∃ f, read text = .error (.fault f)) ↔ HasUnreadableNumeral text := by
  rw [← tokens_fault_iff]
  refine exists_congr fun f => ⟨fun h => ?_, fun h => ?_⟩
  · rcases Except.bind_eq_error.mp h with hparse | ⟨tree, -, hmore⟩
    · rcases Except.bind_eq_error.mp hparse with htokens | ⟨ts, -, hrefused⟩
      · exact htokens
      · obtain ⟨trouble, htrouble, htext⟩ := Except.mapError_eq_error.mp hrefused
        obtain ⟨cause, position, rfl⟩ := ofTokens_refuses htrouble
        cases htext
    · rcases Except.bind_eq_error.mp hmore with hnames | ⟨names, -, ⟨⟩⟩
      exact Except.map_eq_error.mp hnames
  · have hparse : parse text = .error (.fault f) := Except.bind_eq_error.mpr (.inl h)
    exact Except.bind_eq_error.mpr (.inl hparse)

/-- All fields of a text have a value, and evaluating its rule comes to an operator that fails on a
long integer. -/
def FailsOnLong (text : String) (A : Assignment) (D : List String) : Prop :=
  (∀ name ∈ fieldsOf text D, ∃ v, A.value? name = some v) ∧
    ∃ rule part, read text = .ok rule ∧ Expr.Meets A D rule.tree part ∧ part.FailsOnLong A D

theorem truthOf_of_evaluated {rule : Rule} (hread : read text = .ok rule)
    (hfields : ∀ name ∈ fieldsOf text D, ∃ v, A.value? name = some v) :
    truthOf text A D = (match rule.tree.value A D with
      | .ok v => .ok (Verdict.ofValue v).truth
      | .error (.failed _) => .ok .fails
      | .error (.fault f) => .error f) := by
  have hnone : ((rule.dependencies D).any fun name => (A.value? name).isNone) = false := by
    rw [fieldsOf, hread] at hfields
    rw [List.any_eq_false]
    intro name hname
    obtain ⟨v, hv⟩ := hfields name hname
    simp [hv]
  rw [truthOf_of_read hread, judge, hnone]
  cases hvalue : rule.tree.value A D with
  | ok v => simp [Except.map]
  | error stop => cases stop <;> simp [Except.map, Verdict.truth]

theorem truthOf_fault_iff (hA : A.Plain) :
    (∃ f, truthOf text A D = .error f) ↔ HasUnreadableNumeral text ∨ FailsOnLong text A D := by
  rw [← read_fault_iff]
  cases hread : read text with
  | error e =>
    have hnot : ¬FailsOnLong text A D := by
      rintro ⟨-, rule, part, hrule, -⟩
      rw [hread] at hrule
      cases hrule
    rw [or_iff_left hnot, truthOf, judgeText, hread]
    cases e <;> simp [judgeReading, Except.map]
  | ok rule =>
    rw [or_iff_right (by simp)]
    by_cases hfields : ∀ name ∈ fieldsOf text D, ∃ v, A.value? name = some v
    · have hiff : FailsOnLong text A D ↔ Faults (rule.tree.value A D) := by
        rw [Expr.faults_value_iff hA, FailsOnLong, and_iff_right hfields]
        constructor
        · rintro ⟨rule', part, hrule, hpart⟩
          rw [hread] at hrule
          cases hrule
          exact ⟨part, hpart⟩
        · rintro ⟨part, hpart⟩
          exact ⟨rule, part, hread, hpart⟩
      rw [hiff, truthOf_of_evaluated hread hfields, Faults]
      cases rule.tree.value A D with
      | ok v => simp
      | error stop => cases stop <;> simp
    · have hnone : ∃ name ∈ fieldsOf text D, A.value? name = none := by
        push Not at hfields
        obtain ⟨name, hname, hvalue⟩ := hfields
        exact ⟨name, hname, Option.eq_none_iff_forall_ne_some.mpr hvalue⟩
      rw [truthOf_eq_undecided_iff.mpr hnone]
      exact iff_of_false (by rintro ⟨f, ⟨⟩⟩) fun hfails => hfields hfails.1

/-- Judging a rule has an outcome, whatever is wrong with the rule, unless a numeral of its text has
no value or an operator fails on a long integer. A text that is no rule, a failing evaluation and a
value that is no boolean make the rule false. -/
theorem judging_fails_closed (hA : A.Plain) :
    ((∃ outcome, truthOf text A D = .ok outcome) ↔
      ¬HasUnreadableNumeral text ∧ ¬FailsOnLong text A D) ∧
    (∀ e, read text = .error (.malformed e) → truthOf text A D = .ok .fails) ∧
    ∀ rule, read text = .ok rule → (∀ name ∈ fieldsOf text D, ∃ v, A.value? name = some v) →
      (∀ failure, rule.tree.value A D = .error (.failed failure) → truthOf text A D = .ok .fails) ∧
      ∀ v, rule.tree.value A D = .ok v → (∀ b, v ≠ .boolean b) → truthOf text A D = .ok .fails := by
  refine ⟨?_, ?_, ?_⟩
  · rw [← not_or, ← truthOf_fault_iff hA]
    cases truthOf text A D <;> simp
  · intro e he
    rw [truthOf, judgeText, he]
    rfl
  · intro rule hread hfields
    have htruth := truthOf_of_evaluated hread hfields
    constructor
    · intro failure hvalue
      rw [htruth, hvalue]
    · intro v hvalue hv
      rw [htruth, hvalue]
      cases v with
      | boolean b => exact absurd rfl (hv b)
      | null => rfl
      | number n => rfl
      | text s => rfl
      | list items => rfl
      | object entries => rfl

theorem plain_singleton {name : String} {v : Value} (h : v.isKey = true) :
    Assignment.Plain [(name, v)] := by
  intro other w hw
  obtain ⟨hget, -⟩ := Assignment.value?_eq_some_iff.mp hw
  obtain ⟨entry, hfind, rfl⟩ := Option.map_eq_some_iff.mp hget
  obtain rfl := List.mem_singleton.mp (List.mem_of_find?_eq_some hfind)
  exact h

theorem unknown_name_fails :
    truthOf "garden && attic" [("garden", .boolean true)] ["garden"] = .ok .fails := by
  let rule : Rule := ⟨"garden && attic", .connect .both (.name "garden") (.name "attic"),
    ["garden", "attic"]⟩
  have hread : read "garden && attic" = .ok rule := rfl
  have hfields : ∀ name ∈ fieldsOf "garden && attic" ["garden"],
      ∃ v, Assignment.value? [("garden", .boolean true)] name = some v := by
    intro name hname
    obtain rfl := List.mem_singleton.mp (show name ∈ ["garden"] from hname)
    exact ⟨.boolean true, rfl⟩
  exact ((judging_fails_closed (plain_singleton rfl)).2.2 rule hread hfields).1
    (.unknownName "attic") rfl

/-- A superscript is a digit without a decimal value, and a product of integers, each with a double
near it, may be too long to be written where a boolean is expected. -/
theorem judging_escapes :
    (¬∃ outcome, truthOf "²" [] [] = .ok outcome) ∧
      ¬∃ outcome, truthOf "!(n * n * n * n * n * n * n * n * n * n * n * n * n * n)"
        [("n", .int (Int.ofNat (10 ^ 308)))] ["n"] = .ok outcome := by
  have hfault : ∀ {result : Except Fault Truth}, result.isOk = false →
      ¬∃ outcome, result = .ok outcome := by
    rintro _ h ⟨outcome, rfl⟩
    cases h
  exact ⟨hfault (by decide +kernel), hfault (by decide +kernel)⟩

end Shortlist.Rule
