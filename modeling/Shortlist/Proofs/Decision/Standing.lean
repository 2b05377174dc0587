import Shortlist.Proofs.Decision.Evaluation

/-!
# Where an evaluation stands

The state is chosen by what is pending, and only then by what is feasible. It tells the truth about
both all the same: with nothing feasible, only variables with a value are relevant, and a pending
variable has none. The ranking lists the feasible outputs in an order of its own, so it is there in
the one state in which outputs are ranked.
-/

namespace Shortlist.Catalog

open Rule (Assignment)

variable {catalog : Catalog} {A : Assignment} {e : Evaluation}

theorem pending_of_nothing_feasible (mandatory : List String) (hfilled : A.Filled) :
    catalog.pending mandatory (catalog.relevant [] A) A = [] := by
  refine List.eq_nil_iff_forall_not_mem.mpr fun name hname => ?_
  obtain ⟨-, -, hrelevant, hopen⟩ := mem_pending.mp hname
  have hmissing : A.value? name = none := (isOpen_iff hfilled).mp hopen
  rcases mem_relevant.mp hrelevant with hassigned | ⟨output, houtput, -⟩
  · obtain ⟨v, hv⟩ := (mem_assigned_iff hfilled).mp hassigned
    rw [hmissing] at hv
    cases hv
  · cases houtput

namespace Decides

theorem pending_eq_nil_of_feasible (h : catalog.Decides A e) (hfilled : A.Filled)
    (hnone : e.feasible = []) : e.pending = [] := by
  rw [h.pending_eq, hnone]
  exact pending_of_nothing_feasible catalog.mandatory hfilled

theorem feasible_ne_nil_of_pending (h : catalog.Decides A e) (hfilled : A.Filled)
    (hpending : e.pending ≠ []) : e.feasible ≠ [] :=
  fun hnone => hpending (h.pending_eq_nil_of_feasible hfilled hnone)

/-! ### The states -/

theorem state_eq_noFeasible_iff (h : catalog.Decides A e) (hfilled : A.Filled) :
    e.state = .noFeasible ↔ e.feasible = [] := by
  have hpending := h.pending_eq_nil_of_feasible hfilled
  rw [h.state]
  cases hlist : e.feasible with
  | nil =>
    rw [hpending hlist]
    exact iff_of_true rfl rfl
  | cons output rest => cases e.pending <;> simp [standing]

/-! ### The ranking -/

theorem names_ranking (h : catalog.Decides A e) (hstate : e.state = .ranked) :
    (e.ranking.map (·.name)).Perm (e.feasible.map (·.name)) := by
  have hranking := h.ranking
  rw [if_pos hstate] at hranking
  exact names_rank hranking

theorem ranking_ne_nil_iff (h : catalog.Decides A e) : e.ranking ≠ [] ↔ e.state = .ranked := by
  constructor
  · intro hne
    by_contra hstate
    exact hne (h.ranking_of_not_ranked hstate)
  · intro hstate hnil
    have hnames := (h.names_ranking hstate).length_eq
    rw [hnil, List.length_map, List.length_map] at hnames
    exact (h.state_eq_ranked_iff.mp hstate).1 (List.eq_nil_of_length_eq_zero hnames.symm)

end Decides

end Shortlist.Catalog
