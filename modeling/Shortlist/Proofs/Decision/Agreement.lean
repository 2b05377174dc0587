import Shortlist.Decision.Ranking
import Shortlist.Proofs.Decision.Fields

/-!
# What an output is judged by

The answer of the filter for an output depends on the fields of its hard rules, its score on those
of its soft rules. Assignments that agree on them judge the output alike. So the mandatory fields
alone decide which outputs are feasible, and what only soft rules refer to never does
(`soft_information_never_decides`). For a whole list of outputs less is enough when the second
assignment only adds values: it has to agree on the fields of the outputs that are feasible, since
the others stay ruled out whatever is added.
-/

namespace Shortlist

open Rule (Assignment)

variable {A B : Assignment} {D : List String}

theorem Bundle.isFeasible_congr {bundle : Bundle} (h : A.AgreeOn B (bundle.hardFields D)) :
    bundle.isFeasible A D = bundle.isFeasible B D := by
  have hconditions : A.AgreeOn B bundle.conditions.names :=
    h.mono fun name hname => mem_hardFields.mpr (.inl hname)
  have htexts : ∀ text ∈ bundle.hardTexts, A.AgreeOn B (Rule.fieldsOf text D) :=
    fun text ht name hname => h name (mem_hardFields.mpr (.inr ⟨text, ht, hname⟩))
  have hinclusions : bundle.inclusions.anyM (hasOutcome A D .fails) =
      bundle.inclusions.anyM (hasOutcome B D .fails) :=
    anyM_congr fun text ht => hasOutcome_congr (htexts text (List.mem_append_left _ ht))
  have hexclusions : bundle.exclusions.anyM (hasOutcome A D .holds) =
      bundle.exclusions.anyM (hasOutcome B D .holds) :=
    anyM_congr fun text ht => hasOutcome_congr (htexts text (List.mem_append_right _ ht))
  rw [isFeasible, isFeasible, isSatisfied, isSatisfied, violated_congr hconditions, hinclusions,
    hexclusions]

namespace Catalog

variable {catalog : Catalog} {output : Output}

/-- The assignments agree on the fields of the rules of an output. -/
def AgreeOnFields (catalog : Catalog) (A B : Assignment) (output : Output) : Prop :=
  ∀ bundle, catalog.bundleFor? output.name = some bundle →
    A.AgreeOn B (bundle.fields catalog.declared)

theorem isFeasible_congr (h : catalog.AgreeOnFields A B output) :
    catalog.isFeasible A output = catalog.isFeasible B output := by
  unfold isFeasible
  cases hbundle : catalog.bundleFor? output.name with
  | none => rfl
  | some bundle =>
    exact Bundle.isFeasible_congr
      ((h bundle hbundle).mono fun name hname => Bundle.mem_fields.mpr (.inl hname))

theorem isFeasible_of_agreeOn_mandatory (h : A.AgreeOn B catalog.mandatory) :
    catalog.isFeasible A output = catalog.isFeasible B output := by
  unfold isFeasible
  cases hbundle : catalog.bundleFor? output.name with
  | none => rfl
  | some bundle =>
    have hmem : bundle ∈ catalog.bundles := (bundleFor?_eq_some hbundle).1
    exact Bundle.isFeasible_congr
      (h.mono fun name hname => mem_mandatory.mpr ⟨bundle, hmem, hname⟩)

/-- Added values that no feasible output refers to leave the list of feasible outputs as it is. -/
theorem feasible_eq_of_agreeOnFields {before after : List Output} (hpart : A.PartOf B)
    (hbefore : catalog.feasible A = .ok before) (hafter : catalog.feasible B = .ok after)
    (hagree : ∀ output ∈ before, catalog.AgreeOnFields A B output) : after = before := by
  have hmem : ∀ output, output ∈ before ↔
      output ∈ catalog.outputs ∧ catalog.isFeasible A output = .ok true :=
    fun output => mem_of_selectM hbefore
  obtain ⟨hall, hfilter⟩ := selectM_eq_ok_iff.mp hbefore
  obtain ⟨-, rfl⟩ := selectM_eq_ok_iff.mp hafter
  rw [hfilter]
  refine List.filter_congr fun output houtput => ?_
  obtain ⟨accepted, haccepted⟩ := hall output houtput
  rw [Bool.eq_iff_iff, accepts_iff, accepts_iff]
  cases accepted with
  | true =>
    have hin : output ∈ before := (hmem output).mpr ⟨houtput, haccepted⟩
    rw [isFeasible_congr (hagree output hin)]
  | false =>
    -- nothing is known of the fields here: the output stays out because values were only added
    refine iff_of_false (isFeasible_antitone hpart haccepted) ?_
    rw [haccepted]
    simp

/-! ### The ranking -/

theorem contribution_congr {rule : SoftRule}
    (h : A.AgreeOn B (Rule.fieldsOf rule.condition D)) :
    rule.contribution A D = rule.contribution B D := by
  rw [SoftRule.contribution, SoftRule.contribution, Rule.truthOf_congr h]

theorem contributions_congr (h : catalog.AgreeOnFields A B output) :
    catalog.contributions output.name A = catalog.contributions output.name B := by
  unfold contributions
  cases hbundle : catalog.bundleFor? output.name with
  | none => rfl
  | some bundle =>
    refine mapM_congr fun rule hrule =>
      contribution_congr ((h bundle hbundle).mono fun name hname => ?_)
    exact Bundle.mem_fields.mpr (.inr ⟨rule, hrule, List.mem_append_right _ hname⟩)

theorem score_congr (h : catalog.AgreeOnFields A B output) :
    catalog.score A output = catalog.score B output := by
  rw [score, score, contributions_congr h]

theorem rank_congr {outputs : List Output}
    (h : ∀ output ∈ outputs, catalog.AgreeOnFields A B output) :
    catalog.rank outputs A = catalog.rank outputs B := by
  have hscores : outputs.mapM (catalog.score A) = outputs.mapM (catalog.score B) :=
    mapM_congr fun output houtput => score_congr (h output houtput)
  rw [rank, rank, hscores]

end Catalog

/-- The mandatory fields decide which outputs are feasible, whatever stands in the others, and the
fields of an output's rules decide its score and what makes it up. Where one assignment comes to a
fault, so does the other. -/
theorem soft_information_never_decides (catalog : Catalog) {A B : Assignment} :
    (A.AgreeOn B catalog.mandatory → catalog.feasible A = catalog.feasible B) ∧
    ∀ output, catalog.AgreeOnFields A B output →
      catalog.contributions output.name A = catalog.contributions output.name B ∧
      catalog.score A output = catalog.score B output := by
  constructor
  · intro hagree
    exact selectM_congr fun output _ => Catalog.isFeasible_of_agreeOn_mandatory hagree
  · intro output hagree
    exact ⟨Catalog.contributions_congr hagree, Catalog.score_congr hagree⟩

/-- A home needs no garden, and is worth more with one. -/
def Catalog.bonus : Catalog :=
  ⟨specimenRegistry, [forHomes],
    [⟨"A", [("kind", .exactly (.text "home"))], [], [], [⟨"garden", .int 2, none⟩]⟩],
    problems_eq_nil (by decide +kernel)⟩

/-- A garden of the wrong type leaves the home feasible, and a vault adds nothing to the score. -/
theorem bonus_of_garden :
    Catalog.bonus.feasible [("kind", .text "home")] = .ok [Catalog.forHomes] ∧
      Catalog.bonus.feasible [("garden", .list []), ("kind", .text "home")] =
        .ok [Catalog.forHomes] ∧
      (Catalog.bonus.score [("kind", .text "home"), ("garden", .boolean true)]
        Catalog.forHomes).map Scored.score = .ok (.ofInt 3) ∧
      (Catalog.bonus.score [("vault", .boolean true), ("kind", .text "home"),
        ("garden", .boolean true)] Catalog.forHomes).map Scored.score = .ok (.ofInt 3) := by
  have hfeasible : Catalog.bonus.feasible [("kind", .text "home")] = .ok [Catalog.forHomes] := by
    decide +kernel
  have hscore : (Catalog.bonus.score [("kind", .text "home"), ("garden", .boolean true)]
      Catalog.forHomes).map Scored.score = .ok (.ofInt 3) := by decide +kernel
  have hmandatory : Rule.Assignment.AgreeOn [("kind", .text "home")]
      [("garden", .list []), ("kind", .text "home")] Catalog.bonus.mandatory := by
    have hkind : Catalog.bonus.mandatory = ["kind"] := by decide +kernel
    rw [hkind]
    rintro name hname
    obtain rfl := List.mem_singleton.mp hname
    rfl
  have hfields : Catalog.bonus.AgreeOnFields [("kind", .text "home"), ("garden", .boolean true)]
      [("vault", .boolean true), ("kind", .text "home"), ("garden", .boolean true)]
      Catalog.forHomes := by
    rintro bundle ⟨⟩ name hname
    have hcases : name = "kind" ∨ name = "garden" := by
      rwa [show Bundle.fields _ Catalog.bonus.declared = ["kind", "garden"] by decide +kernel,
        List.mem_pair] at hname
    rcases hcases with rfl | rfl
    · rfl
    · rfl
  refine ⟨hfeasible, ?_, hscore, ?_⟩
  · rw [← (soft_information_never_decides Catalog.bonus).1 hmandatory, hfeasible]
  · rw [← ((soft_information_never_decides Catalog.bonus).2 _ hfields).2, hscore]

end Shortlist
