import Shortlist.Command.Run
import Shortlist.Proofs.Decision.Reasons
import Shortlist.Proofs.Session.Guarantees

/-!
# What the commands report

The reports ask again what is pending, what is feasible and what is ranked, and do not look at the
state. They come to what the state says all the same. The report on a session can always be given,
because what is stored can be written. The report on an output never ends without a word: reasons,
pending fields or a score are what there is to say about it, and always one of the three.
-/

namespace Shortlist

open Rule (Assignment)
open Session (Reachable)

namespace Command

variable {catalog : Catalog} {session : Session} {A : Assignment} {e : Evaluation}

/-! ### The report on a session -/

theorem exists_assignmentLines {registry : Registry} (h : registry.Admits A) :
    ∃ lines, assignmentLines A = .ok lines := by
  rw [assignmentLines]
  split
  · exact ⟨[], rfl⟩
  · refine ⟨_, Except.bind_eq_ok.mpr ⟨_, (exists_mapM fun entry hentry => ?_).choose_spec, rfl⟩⟩
    obtain ⟨v, -, hadmits⟩ := h entry hentry
    have hwritten : entry.2.written? = .ok entry.2.written := if_pos hadmits.isWritable
    exact ⟨_, Except.bind_eq_ok.mpr ⟨_, hwritten, rfl⟩⟩

/-- The report on a session ends with what can be recommended. -/
theorem exists_evaluationLines {registry : Registry} (h : registry.Admits e.assignment)
    (state : State) :
    ∃ lines, evaluationLines e state = .ok lines ∧ recommendationLines e <:+ lines := by
  obtain ⟨assigned, hassigned⟩ := exists_assignmentLines h
  rw [evaluationLines, hassigned, Except.ok_bind]
  refine ⟨_, Except.pure_eq_ok.mpr rfl, ?_⟩
  apply List.suffix_append

def rankingSection (e : Evaluation) : List String :=
  "RANKING:" :: (e.ranking.zipIdx 1).map fun (r, position) => rankingLine position r

theorem append_ne_of_length_lt {s t u : String} (h : u.length < s.length) : s ++ t ≠ u := by
  rintro rfl
  rw [String.length_append] at h
  omega

theorem pendingLine_ne (pending : List String) : pendingLine pending ≠ "RANKING:" :=
  append_ne_of_length_lt (by decide)

theorem recommendationLines_eq_iff (h : catalog.Decides A e) :
    recommendationLines e = rankingSection e ↔ e.state = .ranked := by
  rw [h.state_eq_ranked_iff, recommendationLines]
  cases hpending : e.pending with
  | cons name rest =>
    refine iff_of_false (fun hlines => ?_) (by simp)
    exact pendingLine_ne _ (List.cons.inj hlines).1
  | nil =>
    cases hfeasible : e.feasible with
    | nil =>
      refine iff_of_false (fun hlines => ?_) (by simp)
      exact absurd (List.cons.inj hlines).1 (by decide)
    | cons output rest => exact iff_of_true rfl (by simp)

/-- The state tells what is pending, feasible and ranked, although it is asked first what is
pending; and the report on a session ends with a ranking exactly if the state says that there is
one. -/
theorem state_tells_the_truth (hreach : Reachable catalog session) :
    ((session.evaluation.state = .noFeasible ↔ session.evaluation.feasible = []) ∧
      (session.evaluation.feasible = [] → session.evaluation.pending = [])) ∧
    ((session.evaluation.state = .awaitingInput ↔ session.evaluation.pending ≠ []) ∧
      (session.evaluation.pending ≠ [] → session.evaluation.feasible ≠ [])) ∧
    (session.evaluation.state = .ranked ↔
      session.evaluation.feasible ≠ [] ∧ session.evaluation.pending = []) ∧
    ((session.evaluation.ranking ≠ [] ↔ session.evaluation.state = .ranked) ∧
      (session.evaluation.state = .ranked →
        (session.evaluation.ranking.map (·.name)).Perm
          (session.evaluation.feasible.map (·.name)))) ∧
    ∃ lines, evaluationLines session.evaluation session.state = .ok lines ∧
      recommendationLines session.evaluation <:+ lines ∧
      (recommendationLines session.evaluation = rankingSection session.evaluation ↔
        session.evaluation.state = .ranked) := by
  have hsound := hreach.sound
  have hdecides := hsound.decides
  have hfilled := hsound.admits.filled
  have hadmits : catalog.registry.Admits session.evaluation.assignment := by
    rw [hdecides.assignment]
    exact hsound.admits
  obtain ⟨lines, hlines, hsection⟩ := exists_evaluationLines hadmits session.state
  exact ⟨⟨hdecides.state_eq_noFeasible_iff hfilled, hdecides.pending_eq_nil_of_feasible hfilled⟩,
    ⟨hdecides.state_eq_awaitingInput_iff, hdecides.feasible_ne_nil_of_pending hfilled⟩,
    hdecides.state_eq_ranked_iff, ⟨hdecides.ranking_ne_nil_iff, hdecides.names_ranking⟩,
    lines, hlines, hsection, recommendationLines_eq_iff hdecides⟩

/-- The report on a home with a garden ends with a ranking. -/
theorem specimen_home_report :
    ∃ session lines, Reachable Catalog.specimen session ∧ session.evaluation.state = .ranked ∧
      evaluationLines session.evaluation session.state = .ok lines ∧
      rankingSection session.evaluation <:+ lines := by
  obtain ⟨e, hreach, hranked, -⟩ := Session.specimen_homeWithGarden
  obtain ⟨-, -, -, ⟨hstate, -⟩, lines, hlines, hsection, hiff⟩ := state_tells_the_truth hreach
  have hranking := hiff.mpr (hstate.mp hranked)
  rw [hranking] at hsection
  exact ⟨_, lines, hreach, hstate.mp hranked, hlines, hsection⟩

/-! ### The report on an output -/

inductive Finding
  | ruledOut (reasons : List String)
  | stillOpen (pending : List String)
  | ranked (r : Ranked)

namespace Finding

/-- When a finding is right, given the reasons that were collected against the output. -/
def Holds (e : Evaluation) (output : Output) (found : List String) : Finding → Prop
  | ruledOut reasons => output ∉ e.feasible ∧ reasons = found ∧ reasons ≠ []
  | stillOpen pending => output ∈ e.feasible ∧ found = [] ∧ pending = e.pending ∧ pending ≠ []
  | ranked r => output ∈ e.feasible ∧ found = [] ∧ e.pending = [] ∧
      e.ranking.filter (·.name == output.name) = [r]

def lines (output : String) : Finding → List String
  | ruledOut reasons => (output ++ " is ruled out:") :: reasons.map bullet
  | stillOpen pending => [output ++ " is still possible.", pendingLine pending]
  | ranked r => [r.explanation]

variable {finding other : Finding} {output : Output} {found : List String}

theorem Holds.unique (h : finding.Holds e output found) (hother : other.Holds e output found) :
    other = finding := by
  cases finding with
  | ruledOut reasons =>
    obtain ⟨hout, rfl, -⟩ := h
    cases other with
    | ruledOut others => rw [hother.2.1]
    | stillOpen pending => exact absurd hother.1 hout
    | ranked r => exact absurd hother.1 hout
  | stillOpen pending =>
    obtain ⟨hin, -, rfl, hpending⟩ := h
    cases other with
    | ruledOut reasons => exact absurd hin hother.1
    | stillOpen others => rw [hother.2.2.1]
    | ranked r => exact absurd hother.2.2.1 hpending
  | ranked r =>
    obtain ⟨hin, -, hnone, hr⟩ := h
    cases other with
    | ruledOut reasons => exact absurd hin hother.1
    | stillOpen pending => exact absurd (hother.2.2.1.trans hnone) hother.2.2.2
    | ranked s => rw [List.singleton_inj.mp (hother.2.2.2.symm.trans hr)]

end Finding

end Command

end Shortlist
