import Shortlist.Proofs.Session.Change

/-!
# Runs of a session

A request that fails leaves the session as it was. Three facts hold when a session starts and after
every request (`Sound`): the catalog is the one it was started on, the assignment holds admitted
values of declared variables, and the evaluation is that of the assignment. The module ends with a
session on the small catalog, on which the statements about sessions are tried.
-/

namespace Shortlist

open Rule (Assignment)

namespace Session

/-- The session behind a request: a change that fails leaves it as it was. -/
def after (session : Session) (change : Change) : Session :=
  match session.apply change with
  | .ok next => next
  | .error _ => session

def run (session : Session) (changes : List Change) : Session :=
  changes.foldl after session

theorem run_append (session : Session) (changes : List Change) (change : Change) :
    session.run (changes ++ [change]) = (session.run changes).after change := by
  rw [run, List.foldl_append]
  rfl

/-- The sessions that requests lead to from the start on a catalog. -/
def Reachable (catalog : Catalog) (session : Session) : Prop :=
  ∃ first changes, start catalog = .ok first ∧ session = first.run changes

variable {catalog : Catalog} {session next : Session} {change : Change}
  {B : Assignment}

/-! ### The invariant -/

theorem run_keeps {P : Session → Prop}
    (hstep : ∀ session change next, P session → session.apply change = .ok next → P next)
    (hsession : P session) (changes : List Change) : P (session.run changes) := by
  induction changes generalizing session with
  | nil => exact hsession
  | cons change rest ih =>
    refine @ih (session.after change) ?_
    rw [after]
    split
    · rename_i next h
      exact hstep session change next hsession h
    · exact hsession

theorem start_eq_ok :
    start catalog = .ok session ↔
      ∃ e, catalog.evaluate [] = .ok e ∧ session = ⟨catalog, [], e, false⟩ := by
  rw [start, Except.bind_eq_ok]
  refine exists_congr fun e => ?_
  rw [Except.pure_eq_ok, eq_comm (a := session)]

/-- What holds of a session at any time. -/
structure Sound (catalog : Catalog) (session : Session) : Prop where
  catalog_eq : session.catalog = catalog
  admits : catalog.registry.Admits session.assignment
  evaluated : catalog.evaluate session.assignment = .ok session.evaluation

theorem start_sound (h : start catalog = .ok session) : Sound catalog session := by
  obtain ⟨e, he, rfl⟩ := start_eq_ok.mp h
  exact ⟨rfl, admits_nil, he⟩

theorem apply_sound (hsound : Sound catalog session) (h : session.apply change = .ok next) :
    Sound catalog next := by
  obtain ⟨B, e, htarget, he, rfl⟩ := apply_eq_ok.mp h
  rw [hsound.catalog_eq] at htarget he
  exact ⟨hsound.catalog_eq, change.target_admits hsound.admits htarget, he⟩

theorem run_sound (hsound : Sound catalog session) (changes : List Change) :
    Sound catalog (session.run changes) :=
  run_keeps (fun _ _ _ => apply_sound) hsound changes

theorem Reachable.sound (h : Reachable catalog session) : Sound catalog session := by
  obtain ⟨first, changes, hstart, rfl⟩ := h
  exact run_sound (start_sound hstart) changes

theorem Sound.decides (h : Sound catalog session) :
    catalog.Decides session.assignment session.evaluation :=
  Catalog.decides_of_evaluate h.evaluated

theorem Reachable.distinct (h : Reachable catalog session) :
    (Entries.names session.assignment).Nodup := by
  obtain ⟨first, changes, hstart, rfl⟩ := h
  obtain ⟨e, -, rfl⟩ := start_eq_ok.mp hstart
  refine run_keeps (P := fun s => (Entries.names s.assignment).Nodup)
    (fun session change next hsession h => ?_) ?_ changes
  · obtain ⟨B, e, htarget, -, rfl⟩ := apply_eq_ok.mp h
    exact change.target_distinct hsession htarget
  · exact List.nodup_nil

theorem Reachable.apply (h : Reachable catalog session) (happly : session.apply change = .ok next) :
    Reachable catalog next := by
  obtain ⟨first, changes, hstart, rfl⟩ := h
  refine ⟨first, changes ++ [change], hstart, ?_⟩
  rw [run_append, after, happly]

theorem reachable_of_evaluate {first : Evaluation} (h : catalog.evaluate [] = .ok first) :
    Reachable catalog ⟨catalog, [], first, false⟩ :=
  ⟨_, [], start_eq_ok.mpr ⟨first, h, rfl⟩, rfl⟩

/-- One request with all answers leads to the assignment that they make up. -/
theorem reachable_of_answers {answers : Entries Value} {first e : Evaluation}
    (hfirst : catalog.evaluate [] = .ok first)
    (htarget : (Change.setAll answers).target catalog.registry [] = .ok B)
    (he : catalog.evaluate B = .ok e) : Reachable catalog ⟨catalog, B, e, true⟩ :=
  (reachable_of_evaluate hfirst).apply (apply_of_evaluate htarget he)

theorem fillsIn_of_apply {names : List String} (hsound : Sound catalog session)
    (hfills : change.Fills names) (h : session.apply change = .ok next) :
    session.assignment.FillsIn next.assignment names := by
  have hnext := (apply_sound hsound h).admits.filled
  obtain ⟨B, e, htarget, he, rfl⟩ := apply_eq_ok.mp h
  exact change.fillsIn_of_fills hsound.admits.filled hnext hfills htarget

/-! ### Sessions on the small catalog -/

def homeWithGarden : Assignment := [("kind", .text "home"), ("garden", .boolean true)]

def homeWithVault : Assignment := homeWithGarden ++ [("vault", .boolean true)]

theorem specimen_start :
    ∃ first, Catalog.specimen.evaluate [] = .ok first ∧
      first.pending = ["kind", "garden", "vault"] := by
  have hfirst : (Catalog.specimen.evaluate []).map Evaluation.pending =
      .ok ["kind", "garden", "vault"] := by decide +kernel
  exact Except.map_eq_ok.mp hfirst

theorem specimen_homeWithGarden :
    ∃ e, Reachable Catalog.specimen ⟨Catalog.specimen, homeWithGarden, e, true⟩ ∧
      e.ranking ≠ [] ∧ "vault" ∉ e.relevant := by
  have hfeasible : Catalog.specimen.feasible homeWithGarden = .ok [Catalog.forHomes] := by
    decide +kernel
  obtain ⟨e, he, hhomes, hranked⟩ :=
    Catalog.exists_evaluation_of_rank hfeasible (by decide +kernel) (by decide +kernel)
  have htarget : (Change.setAll homeWithGarden).target Catalog.specimen.registry [] =
      .ok homeWithGarden := rfl
  obtain ⟨first, hfirst, -⟩ := specimen_start
  refine ⟨e, reachable_of_answers hfirst htarget he, hranked, ?_⟩
  rw [(Catalog.decides_of_evaluate he).relevant, hhomes]
  decide +kernel

theorem specimen_homeWithVault : ∃ e, Catalog.specimen.evaluate homeWithVault = .ok e := by
  have hfeasible : Catalog.specimen.feasible homeWithVault = .ok [Catalog.forHomes] := by
    decide +kernel
  obtain ⟨e, he, -, -⟩ :=
    Catalog.exists_evaluation_of_rank hfeasible (by decide +kernel) (by decide +kernel)
  exact ⟨e, he⟩

end Session

end Shortlist
