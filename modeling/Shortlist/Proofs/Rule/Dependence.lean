import Mathlib.Tactic.Common
import Shortlist.Proofs.Rule.Yield
import Shortlist.Rule.Truth

/-!
# What the outcome of a rule depends on

A rule reads the declared variables that it names and nothing else. Two consequences carry every
statement about growing assignments: assignments that agree on the fields of a rule give it the same
outcome, a fault included, and an outcome that is decided stays what it is when further variables
get a value.
-/

namespace Shortlist.Rule

/-- Every value of the smaller assignment stands in the larger one. -/
def Assignment.PartOf (smaller larger : Assignment) : Prop :=
  ∀ ⦃name v⦄, smaller.value? name = some v → larger.value? name = some v

/-- The assignments have the same values for some names. -/
def Assignment.AgreeOn (A B : Assignment) (names : List String) : Prop :=
  ∀ name ∈ names, A.value? name = B.value? name

variable {A B : Assignment} {D E : List String}

theorem Assignment.value?_eq_some_iff {name : String} {v : Value} :
    A.value? name = some v ↔ Entries.get? A name = some v ∧ v ≠ .null := by
  unfold Assignment.value?
  split
  · rename_i hnull
    rw [hnull]
    constructor
    · intro h
      cases h
    · rintro ⟨hv, hne⟩
      exact absurd (Option.some.inj hv).symm hne
  · rename_i hvalue
    exact ⟨fun h => ⟨h, fun hnull => hvalue (hnull ▸ h)⟩, fun h => h.1⟩

theorem Assignment.partOf_append (A rest : Assignment) : A.PartOf (A ++ rest) := by
  intro name v h
  obtain ⟨hget, hne⟩ := Assignment.value?_eq_some_iff.mp h
  refine Assignment.value?_eq_some_iff.mpr ⟨?_, hne⟩
  obtain ⟨entry, hfind, hv⟩ := Option.map_eq_some_iff.mp hget
  rw [Entries.get?, List.find?_append, hfind, Option.some_or, Option.map_some, hv]

theorem Assignment.AgreeOn.mono {names more : List String} (h : A.AgreeOn B more)
    (hsub : names ⊆ more) : A.AgreeOn B names :=
  fun name hname => h name (hsub hname)

theorem Expr.value_congr (e : Expr) (hdeclared : ∀ s ∈ e.names, s ∈ D ↔ s ∈ E)
    (hvalues : ∀ s ∈ e.names, s ∈ D → A.value? s = B.value? s) : e.value A D = e.value B E := by
  induction e with
  | literal l => rfl
  | name s =>
    have hs : s ∈ (Expr.name s).names := List.mem_singleton_self s
    by_cases hD : s ∈ D
    · have hE : s ∈ E := (hdeclared s hs).mp hD
      simp [Expr.value, hD, hE, hvalues s hs hD]
    · have hE : s ∉ E := fun h => hD ((hdeclared s hs).mpr h)
      simp [Expr.value, hD, hE]
  | unary op operand ih => rw [Expr.value, Expr.value, ih hdeclared hvalues]
  | binary op left right ihl ihr =>
    rw [Expr.value, Expr.value,
      ihl (fun s hs => hdeclared s (List.mem_append_left _ hs))
        (fun s hs => hvalues s (List.mem_append_left _ hs)),
      ihr (fun s hs => hdeclared s (List.mem_append_right _ hs))
        (fun s hs => hvalues s (List.mem_append_right _ hs))]
  | connect op left right ihl ihr =>
    rw [Expr.value, Expr.value,
      ihl (fun s hs => hdeclared s (List.mem_append_left _ hs))
        (fun s hs => hvalues s (List.mem_append_left _ hs)),
      ihr (fun s hs => hdeclared s (List.mem_append_right _ hs))
        (fun s hs => hvalues s (List.mem_append_right _ hs))]

/-! ### Fields of a text -/

theorem mem_fieldsOf {text s : String} :
    s ∈ fieldsOf text D ↔ ∃ rule, read text = .ok rule ∧ s ∈ rule.tree.names ∧ s ∈ D := by
  unfold fieldsOf
  cases h : read text with
  | error e => simp
  | ok rule => simp [dependencies, names_of_read h]

theorem truthOf_of_read {text : String} {rule : Rule} (h : read text = .ok rule) :
    truthOf text A D = (rule.judge A D).map Verdict.truth := by
  rw [truthOf, judgeText, h]
  rfl

theorem truthOf_of_unread {text : String} {e : ReadError} (h : read text = .error e) :
    truthOf text A D = truthOf text B E := by
  rw [truthOf, truthOf, judgeText, judgeText, h]
  cases e <;> rfl

/-- The judgement of a rule depends on which names of its tree are declared, and on their values. -/
theorem judge_congr {text : String} {rule : Rule} (hread : read text = .ok rule)
    (hdeclared : ∀ s ∈ rule.tree.names, s ∈ D ↔ s ∈ E)
    (hvalues : ∀ s ∈ rule.tree.names, s ∈ D → A.value? s = B.value? s) :
    rule.judge A D = rule.judge B E := by
  have hmem : ∀ s ∈ rule.names, s ∈ rule.tree.names := fun s hs => by
    rwa [names_of_read hread, List.mem_eraseDups] at hs
  have hfields : rule.dependencies D = rule.dependencies E :=
    List.filter_congr fun s hs => by
      rw [Bool.eq_iff_iff, List.contains_iff_mem, List.contains_iff_mem, hdeclared s (hmem s hs)]
  have hmissing : ((rule.dependencies D).any fun s => (A.value? s).isNone) =
      ((rule.dependencies E).any fun s => (B.value? s).isNone) := by
    rw [← hfields, Bool.eq_iff_iff, List.any_eq_true, List.any_eq_true]
    refine exists_congr fun s => and_congr_right fun hs => ?_
    obtain ⟨hs, hD⟩ := List.mem_filter.mp hs
    rw [hvalues s (hmem s hs) (List.contains_iff_mem.mp hD)]
  rw [judge, judge, hmissing, rule.tree.value_congr hdeclared hvalues]

/-- Assignments that agree on the fields of a rule give it the same outcome. -/
theorem truthOf_congr {text : String} (h : A.AgreeOn B (fieldsOf text D)) :
    truthOf text A D = truthOf text B D := by
  cases hread : read text with
  | error e => exact truthOf_of_unread hread
  | ok rule =>
    have hfields : ∀ s ∈ rule.tree.names, s ∈ D → A.value? s = B.value? s := fun s hs hD =>
      h s (mem_fieldsOf.mpr ⟨rule, hread, hs, hD⟩)
    rw [truthOf_of_read hread, truthOf_of_read hread,
      judge_congr hread (fun s _ => Iff.rfl) hfields]

/-- What judging a text yields depends on the declared names of its tree and their values. -/
theorem judgeText_congr {text : String}
    (h : ∀ tree, parse text = .ok tree → ∀ s ∈ tree.names,
      (s ∈ D ↔ s ∈ E) ∧ (s ∈ D → s ∈ E → A.value? s = B.value? s)) :
    judgeText text A D = judgeText text B E := by
  rw [judgeText, judgeText]
  cases hread : read text with
  | error e => cases e <;> rfl
  | ok rule =>
    have hnames := h rule.tree (parse_of_read hread)
    exact judge_congr hread (fun s hs => (hnames s hs).1) fun s hs hD =>
      (hnames s hs).2 hD ((hnames s hs).1.mp hD)

theorem truth_ofValue_ne_undecided (v : Value) : (Verdict.ofValue v).truth ≠ .undecided := by
  cases v with
  | boolean b => cases b <;> decide
  | null => simp [Verdict.ofValue, Verdict.truth]
  | number n => simp [Verdict.ofValue, Verdict.truth]
  | text s => simp [Verdict.ofValue, Verdict.truth]
  | list items => simp [Verdict.ofValue, Verdict.truth]
  | object entries => simp [Verdict.ofValue, Verdict.truth]

/-- A rule is undecided exactly if one of its fields has no value. -/
theorem truthOf_eq_undecided_iff {text : String} :
    truthOf text A D = .ok .undecided ↔ ∃ s ∈ fieldsOf text D, A.value? s = none := by
  cases hread : read text with
  | error e =>
    have hfields : fieldsOf text D = [] := by rw [fieldsOf, hread]
    rw [hfields, truthOf, judgeText, hread]
    cases e <;> simp [judgeReading, Except.map, Verdict.truth]
  | ok rule =>
    have hfields : fieldsOf text D = rule.dependencies D := by rw [fieldsOf, hread]
    rw [truthOf_of_read hread, hfields, judge]
    split
    · rename_i hmissing
      simpa [Except.map, Verdict.truth] using hmissing
    · rename_i hmissing
      have hassigned : ¬ ∃ s ∈ rule.dependencies D, A.value? s = none := by simpa using hmissing
      refine iff_of_false ?_ hassigned
      split
      · rename_i v _
        simpa [Except.map] using truth_ofValue_ne_undecided v
      · simp [Except.map, Verdict.truth]
      · simp [Except.map]

/-- What an assignment decides about a rule stays decided in every larger assignment. -/
theorem truthOf_mono {text : String} {outcome : Truth} (hpart : A.PartOf B)
    (h : truthOf text A D = .ok outcome) (hdecided : outcome ≠ .undecided) :
    truthOf text B D = .ok outcome := by
  have hassigned : ¬ ∃ s ∈ fieldsOf text D, A.value? s = none := by
    rw [← truthOf_eq_undecided_iff, h]
    simpa using hdecided
  have hagree : A.AgreeOn B (fieldsOf text D) := by
    intro s hs
    cases hv : A.value? s with
    | none => exact absurd ⟨s, hs, hv⟩ hassigned
    | some v => rw [hpart hv]
  rw [← truthOf_congr hagree, h]

/-- A text is undecided exactly if it parses and a name anywhere in its tree is declared and has no
value, be it in an operand that would be skipped. Nothing but the declared names of the tree and
their values has a part in the judgement. -/
theorem outcome_rests_on_names (text : String) (A : Assignment) (D : List String) :
    (truthOf text A D = .ok .undecided ↔
      ∃ tree, parse text = .ok tree ∧ ∃ s ∈ tree.names, s ∈ D ∧ A.value? s = none) ∧
    ∀ (B : Assignment) (E : List String),
      (∀ tree, parse text = .ok tree → ∀ s ∈ tree.names,
        (s ∈ D ↔ s ∈ E) ∧ (s ∈ D → s ∈ E → A.value? s = B.value? s)) →
      judgeText text A D = judgeText text B E ∧ truthOf text A D = truthOf text B E := by
  constructor
  · rw [truthOf_eq_undecided_iff]
    constructor
    · rintro ⟨s, hs, hnone⟩
      obtain ⟨rule, hread, hname, hD⟩ := mem_fieldsOf.mp hs
      exact ⟨rule.tree, parse_of_read hread, s, hname, hD, hnone⟩
    · rintro ⟨tree, htree, s, hname, hD, hnone⟩
      obtain ⟨rule, hread, rfl⟩ := exists_read_of_parse htree
      exact ⟨s, mem_fieldsOf.mpr ⟨rule, hread, hname, hD⟩, hnone⟩
  · intro B E h
    have hsame := judgeText_congr h
    exact ⟨hsame, by rw [truthOf, truthOf, hsame]⟩

/-- The skipped operand of `||` keeps the rule undecided. A value for a name that is not in the
rule, or that one set of declared names has and the other has not, makes no difference. -/
theorem skipped_operand_undecided :
    truthOf "a || b" [("a", .boolean true)] ["a", "b"] = .ok .undecided ∧
      judgeText "a || b" [("a", .boolean true)] ["a"] =
        judgeText "a || b" [("c", .null), ("b", .int 1), ("a", .boolean true)] ["c", "a"] := by
  have hparse : parse "a || b" = .ok (.connect .either (.name "a") (.name "b")) := rfl
  constructor
  · exact (outcome_rests_on_names "a || b" [("a", .boolean true)] ["a", "b"]).1.mpr
      ⟨_, hparse, "b", by decide, by decide, rfl⟩
  · refine ((outcome_rests_on_names "a || b" _ _).2 _ _ fun tree htree s hs => ?_).1
    obtain rfl : Expr.connect .either (.name "a") (.name "b") = tree := by
      simpa [hparse] using htree
    have hcases : s = "a" ∨ s = "b" := by simpa [Expr.names] using hs
    rcases hcases with rfl | rfl
    · exact ⟨by decide, fun _ _ => rfl⟩
    · exact ⟨by decide, fun hD => absurd hD (by decide)⟩

end Shortlist.Rule
