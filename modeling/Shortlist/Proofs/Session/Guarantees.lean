import Shortlist.Proofs.Session.Run

/-!
# What a session guarantees

The statements rest on the invariant of sessions and on what the decision reads. What is stored has
the type of its variable, whatever was answered. A ranking is only made when every hard rule of the
ranked outputs is decided. An answer for a field that is not shown changes no part of the decision.
Fields once asked for are not asked for again, and no new ones come up while a form is filled in.
-/

namespace Shortlist.Session

open Rule (Assignment)

variable {catalog : Catalog} {session next : Session}

/-! ### Typed answers -/

/-- Whatever was answered, a session holds values of declared variables only, each of the type of
its variable and none of them empty. -/
theorem stored_values_are_typed (hreach : Reachable catalog session) {name : String} {value : Value}
    (hmem : (name, value) ∈ session.assignment) :
    value ≠ .null ∧ value.isEmptyAnswer = false ∧
      ∃ v ∈ catalog.registry.toList, v.name = name ∧
        ((v.type = .boolean ∧ ∃ b, value = .boolean b) ∨
          (v.type = .number ∧
            ∃ n, value = .number n ∧ ∃ x, n.toDouble = .ok x ∧ x.isFinite = true) ∨
          (v.type = .choice ∧ ∃ s ∈ v.domain, value = .text s)) := by
  obtain ⟨v, hv, hadmits⟩ := hreach.sound.admits (name, value) hmem
  have hfilled := hadmits.isEmptyAnswer_eq_false
  have hnull : value ≠ .null := by
    rintro rfl
    cases hfilled
  obtain ⟨hdeclared, hname⟩ := Registry.get?_eq_some hv
  exact ⟨hnull, hfilled, v, hdeclared, hname, hadmits.typed⟩

/-- The kind of a home is one of the choices of its variable. -/
theorem specimen_kind_typed :
    ∃ session, Reachable Catalog.specimen session ∧
      ("kind", Value.text "home") ∈ session.assignment ∧
      ∃ v ∈ Catalog.specimen.registry.toList, v.name = "kind" ∧ "home" ∈ v.domain := by
  obtain ⟨e, hreach, -, -⟩ := specimen_homeWithGarden
  have hmem : ("kind", Value.text "home") ∈ homeWithGarden := List.mem_cons_self
  obtain ⟨-, -, v, hv, hname, htyped⟩ := stored_values_are_typed hreach hmem
  refine ⟨_, hreach, hmem, v, hv, hname, ?_⟩
  rcases htyped with ⟨-, b, hb⟩ | ⟨-, n, hn, -⟩ | ⟨-, s, hs, hvalue⟩
  · cases hb
  · cases hn
  · cases hvalue
    exact hs

/-! ### Nothing is ranked on undecided rules -/

/-- Every ranked output meets all its mandatory conditions with values that are there, its inclusion
rules are true and its exclusion rules false. -/
theorem ranked_outputs_are_settled (hreach : Reachable catalog session) {r : Ranked}
    (hr : r ∈ session.evaluation.ranking) :
    ∃ output ∈ catalog.outputs, output.name = r.name ∧
      ∃ bundle, catalog.bundleFor? output.name = some bundle ∧
        bundle.Settled session.assignment catalog.declared ∧
        ∀ text ∈ bundle.hardTexts,
          Rule.truthOf text session.assignment catalog.declared ≠ .ok .undecided := by
  have hdecides := hreach.sound.decides
  obtain ⟨output, houtput, hname, bundle, hbundle, hsettled⟩ := hdecides.settled_of_ranked hr
  have hdeclared := ((Catalog.mem_feasible hdecides.feasible).mp houtput).1
  exact ⟨output, hdeclared, hname, bundle, hbundle, hsettled, hsettled.decided⟩

/-- A home with a garden is ranked, with its rule decided. -/
theorem specimen_home_settled :
    ∃ session r, Reachable Catalog.specimen session ∧ r ∈ session.evaluation.ranking ∧
      ∃ output ∈ Catalog.specimen.outputs, output.name = r.name ∧
        ∃ bundle, Catalog.specimen.bundleFor? output.name = some bundle ∧
          bundle.Settled session.assignment Catalog.specimen.declared := by
  obtain ⟨e, hreach, hranked, -⟩ := specimen_homeWithGarden
  obtain ⟨r, hr⟩ := List.exists_mem_of_ne_nil e.ranking hranked
  obtain ⟨output, houtput, hname, bundle, hbundle, hsettled, -⟩ :=
    ranked_outputs_are_settled hreach hr
  exact ⟨_, r, hreach, hr, output, houtput, hname, bundle, hbundle, hsettled⟩

/-! ### Hidden fields -/

/-- Answers for fields that are not relevant leave the decision as it is; these fields become
relevant, and no others do. -/
theorem hidden_answers_change_nothing (hreach : Reachable catalog session) {change : Change}
    {names : List String} (hfills : change.Fills names)
    (hhidden : ∀ name ∈ names, name ∉ session.evaluation.relevant)
    (happly : session.apply change = .ok next) :
    next.evaluation.state = session.evaluation.state ∧
      next.evaluation.feasible = session.evaluation.feasible ∧
      next.evaluation.mandatory = session.evaluation.mandatory ∧
      next.evaluation.pending = session.evaluation.pending ∧
      next.evaluation.ranking = session.evaluation.ranking ∧
      ∀ name, name ∈ next.evaluation.relevant ↔
        name ∈ session.evaluation.relevant ∨ name ∈ names := by
  have hsound := hreach.sound
  have hnext := (hreach.apply happly).sound
  have hA := hsound.admits.filled
  have hB := hnext.admits.filled
  have hfillsIn := fillsIn_of_apply hsound hfills happly
  have hbefore := hsound.decides
  have hafter := hnext.decides
  exact ⟨hbefore.state_of_hidden hafter hA hB hfillsIn hhidden,
    hbefore.feasible_of_hidden hafter hA hfillsIn hhidden,
    hafter.mandatory.trans hbefore.mandatory.symm,
    hbefore.pending_of_hidden hafter hA hB hfillsIn hhidden,
    hbefore.ranking_of_hidden hafter hA hB hfillsIn hhidden,
    hbefore.mem_relevant_of_hidden hafter hA hB hfillsIn hhidden⟩

/-- Once there is a ranking of homes, an answer about the vault does not change it. -/
theorem specimen_vault_hidden :
    ∃ session next, Reachable Catalog.specimen session ∧ session.evaluation.ranking ≠ [] ∧
      "vault" ∉ session.evaluation.relevant ∧
      session.apply (.set "vault" (.boolean true)) = .ok next ∧
      next.evaluation.ranking = session.evaluation.ranking ∧
      next.evaluation.state = session.evaluation.state ∧ "vault" ∈ next.evaluation.relevant := by
  obtain ⟨e, hreach, hranked, hhidden⟩ := specimen_homeWithGarden
  obtain ⟨e', he'⟩ := specimen_homeWithVault
  have htarget : (Change.set "vault" (.boolean true)).target Catalog.specimen.registry
      homeWithGarden = .ok homeWithVault := rfl
  have happly : apply ⟨Catalog.specimen, homeWithGarden, e, true⟩ (.set "vault" (.boolean true)) =
      .ok ⟨Catalog.specimen, homeWithVault, e', true⟩ := apply_of_evaluate htarget he'
  have hfills : (Change.set "vault" (.boolean true)).Fills ["vault"] :=
    ⟨rfl, fun other => List.mem_singleton⟩
  have hnames : ∀ name ∈ ["vault"], name ∉ e.relevant := by
    intro name hname
    rw [List.mem_singleton.mp hname]
    exact hhidden
  obtain ⟨hstate, -, -, -, hranking, hmem⟩ :=
    hidden_answers_change_nothing hreach hfills hnames happly
  exact ⟨_, _, hreach, hranked, hhidden, happly, hranking, hstate,
    (hmem "vault").mpr (.inr (List.mem_singleton_self _))⟩

/-! ### Pending fields -/

/-- What is pending under an assignment was pending under every smaller one, apart from the fields
that got a value; and answers for all pending fields end the questions. -/
theorem pending_fields_only_shrink (catalog : Catalog) :
    (∀ {A B : Assignment} {before after : List Output}, catalog.registry.Admits A →
      catalog.registry.Admits B → A.PartOf B →
      catalog.feasible A = .ok before → catalog.feasible B = .ok after →
      (catalog.pending catalog.mandatory (catalog.relevant after B) B).Sublist
        ((catalog.pending catalog.mandatory (catalog.relevant before A) A).filter
          fun name => (B.value? name).isNone)) ∧
    ∀ {session next : Session} {answers : Entries Value}, Reachable catalog session →
      (Change.setAll answers).Fills session.evaluation.pending →
      session.setAll answers = .ok next → next.state = .ranked ∨ next.state = .noFeasible := by
  constructor
  · intro A B before after hA hB hpart hbefore hafter
    exact Catalog.pending_sublist catalog.mandatory hpart hA.filled hB.filled hbefore hafter
  · intro session next answers hreach hfills hanswers
    have happly : session.apply (.setAll answers) = .ok next := hanswers
    have hsound := hreach.sound
    have hnext := (hreach.apply happly).sound
    have hfillsIn := fillsIn_of_apply hsound hfills happly
    have hnone := hsound.decides.pending_eq_nil_of_fillsIn hnext.decides hsound.admits.filled
      hnext.admits.filled hfillsIn fun name => Iff.rfl
    rw [state_of_apply happly]
    exact hnext.decides.state_of_pending_eq_nil hnone

/-- On the small catalog, all fields are pending at first, only the first one goes when it alone is
filled in, and none is left when all are. -/
theorem specimen_questions_end :
    (∃ before after, Catalog.specimen.feasible [] = .ok before ∧
      Catalog.specimen.feasible homeWithGarden = .ok after ∧
      (Catalog.specimen.pending Catalog.specimen.mandatory
        (Catalog.specimen.relevant after homeWithGarden) homeWithGarden).Sublist
      ((Catalog.specimen.pending Catalog.specimen.mandatory
        (Catalog.specimen.relevant before []) []).filter
          fun name => (homeWithGarden.value? name).isNone)) ∧
    ∃ session next, Reachable Catalog.specimen session ∧
      session.evaluation.pending = ["kind", "garden", "vault"] ∧
      session.setAll homeWithVault = .ok next ∧
      (next.state = .ranked ∨ next.state = .noFeasible) := by
  obtain ⟨hshrinks, hends⟩ := pending_fields_only_shrink Catalog.specimen
  constructor
  · have hbefore : Catalog.specimen.feasible [] = .ok [Catalog.forHomes, Catalog.forShops] := by
      decide +kernel
    have hafter : Catalog.specimen.feasible homeWithGarden = .ok [Catalog.forHomes] := by
      decide +kernel
    have htarget : (Change.setAll homeWithGarden).target Catalog.specimen.registry [] =
        .ok homeWithGarden := rfl
    have hadmits : Catalog.specimen.registry.Admits homeWithGarden :=
      Change.target_admits admits_nil htarget
    exact ⟨_, _, hbefore, hafter, hshrinks admits_nil hadmits
      (Rule.Assignment.partOf_append [] homeWithGarden) hbefore hafter⟩
  · obtain ⟨first, hfirst, hpending⟩ := specimen_start
    obtain ⟨e, he⟩ := specimen_homeWithVault
    have hreach : Reachable Catalog.specimen ⟨Catalog.specimen, [], first, false⟩ :=
      reachable_of_evaluate hfirst
    have htarget : (Change.setAll homeWithVault).target Catalog.specimen.registry [] =
        .ok homeWithVault := rfl
    have happly : apply ⟨Catalog.specimen, [], first, false⟩ (.setAll homeWithVault) =
        .ok ⟨Catalog.specimen, homeWithVault, e, true⟩ := apply_of_evaluate htarget he
    have hfills : (Change.setAll homeWithVault).Fills first.pending := by
      rw [hpending]
      exact ⟨by decide, fun name => Iff.rfl⟩
    exact ⟨_, _, hreach, hpending, happly, hends hreach hfills happly⟩

end Shortlist.Session
