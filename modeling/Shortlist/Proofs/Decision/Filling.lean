import Shortlist.Proofs.Decision.Evaluation

/-!
# Filling in variables

Filling in variables keeps all other values, so two evaluations can be compared part by part. If the
variables were hidden, no rule of a feasible output refers to them: the feasible outputs do not read
them, the others stay ruled out. If they were the pending ones, nothing is pending afterwards.
-/

namespace Shortlist

open Rule (Assignment)

/-- The second assignment has a value for each of some variables, and the values of the first one
for all others. -/
structure Rule.Assignment.FillsIn (A B : Assignment) (names : List String) : Prop where
  kept : ∀ name, name ∉ names → B.value? name = A.value? name
  given : ∀ name ∈ names, ∃ v, B.value? name = some v

variable {A B : Assignment} {names : List String}

theorem partOf_of_fillsIn (hfills : A.FillsIn B names)
    (hnew : ∀ name ∈ names, A.value? name = none) : A.PartOf B := by
  intro name v hv
  have hout : name ∉ names := by
    intro hname
    rw [hnew name hname] at hv
    cases hv
  rw [hfills.kept name hout, hv]

namespace Catalog.Decides

variable {catalog : Catalog} {e e' : Evaluation}

theorem value?_of_hidden (h : catalog.Decides A e) (hfilled : A.Filled) {name : String}
    (hhidden : name ∉ e.relevant) : A.value? name = none := by
  cases hv : A.value? name with
  | none => rfl
  | some v =>
    have hassigned : name ∈ assigned A := (mem_assigned_iff hfilled).mpr ⟨v, hv⟩
    rw [h.relevant] at hhidden
    exact absurd (mem_relevant.mpr (.inl hassigned)) hhidden

theorem agreeOnFields_of_hidden (h : catalog.Decides A e) (hfills : A.FillsIn B names)
    (hhidden : ∀ name ∈ names, name ∉ e.relevant) :
    ∀ output ∈ e.feasible, catalog.AgreeOnFields A B output := by
  intro output houtput bundle hbundle name hname
  have hrelevant : name ∈ e.relevant := by
    rw [h.relevant]
    exact mem_relevant.mpr (.inr ⟨output, houtput, bundle, hbundle, hname⟩)
  exact (hfills.kept name fun hin => hhidden name hin hrelevant).symm

section Hidden

variable (hA : catalog.Decides A e) (hB : catalog.Decides B e') (hfilledA : A.Filled)
  (hfilledB : B.Filled) (hfills : A.FillsIn B names)
  (hhidden : ∀ name ∈ names, name ∉ e.relevant)

include hA hB hfilledA hfills hhidden

/-- The feasible outputs do not read hidden variables, the others stay ruled out. -/
theorem feasible_of_hidden : e'.feasible = e.feasible := by
  have hpart : A.PartOf B := partOf_of_fillsIn hfills fun name hname =>
    hA.value?_of_hidden hfilledA (hhidden name hname)
  exact feasible_eq_of_agreeOnFields hpart hA.feasible hB.feasible
    (hA.agreeOnFields_of_hidden hfills hhidden)

include hfilledB

/-- What was hidden becomes relevant because it has a value, and nothing else does. -/
theorem mem_relevant_of_hidden (name : String) :
    name ∈ e'.relevant ↔ name ∈ e.relevant ∨ name ∈ names := by
  have hfeasible := feasible_of_hidden hA hB hfilledA hfills hhidden
  rw [hA.relevant, hB.relevant, mem_relevant, mem_relevant, hfeasible,
    mem_assigned_iff hfilledA, mem_assigned_iff hfilledB]
  by_cases hname : name ∈ names
  · exact iff_of_true (.inl (hfills.given name hname)) (.inr hname)
  · rw [hfills.kept name hname, or_iff_left hname]

theorem pending_of_hidden : e'.pending = e.pending := by
  rw [hB.pending, hA.pending, hB.mandatory, hA.mandatory]
  refine List.filter_congr fun name _ => ?_
  have hmem := mem_relevant_of_hidden hA hB hfilledA hfilledB hfills hhidden name
  rw [Bool.eq_iff_iff]
  simp only [Bool.and_eq_true, List.contains_iff_mem, isOpen_iff hfilledA, isOpen_iff hfilledB]
  by_cases hname : name ∈ names
  -- such a field is not relevant before, and has a value afterwards
  · obtain ⟨v, hv⟩ := hfills.given name hname
    simp [hv, hhidden name hname]
  · rw [hmem, hfills.kept name hname, or_iff_left hname]

theorem state_of_hidden : e'.state = e.state := by
  rw [hB.state, hA.state, pending_of_hidden hA hB hfilledA hfilledB hfills hhidden,
    feasible_of_hidden hA hB hfilledA hfills hhidden]

theorem ranking_of_hidden : e'.ranking = e.ranking := by
  have hrank : catalog.rank e.feasible A = catalog.rank e.feasible B :=
    rank_congr (hA.agreeOnFields_of_hidden hfills hhidden)
  have hranking := hB.ranking
  rw [state_of_hidden hA hB hfilledA hfilledB hfills hhidden,
    feasible_of_hidden hA hB hfilledA hfills hhidden, ← hrank, hA.ranking] at hranking
  exact (Except.ok.inj hranking).symm

end Hidden

theorem pending_eq_nil_of_fillsIn (hA : catalog.Decides A e) (hB : catalog.Decides B e')
    (hfilledA : A.Filled) (hfilledB : B.Filled) (hfills : A.FillsIn B names)
    (hpending : ∀ name, name ∈ names ↔ name ∈ e.pending) : e'.pending = [] := by
  have hnew : ∀ name ∈ names, A.value? name = none := by
    intro name hname
    have hmem := (hpending name).mp hname
    rw [hA.pending] at hmem
    exact (isOpen_iff hfilledA).mp (mem_pending.mp hmem).2.2.2
  have hsub := pending_sublist catalog.mandatory (partOf_of_fillsIn hfills hnew) hfilledA
    hfilledB hA.feasible hB.feasible
  rw [← hA.pending_eq, ← hB.pending_eq] at hsub
  have hnone : e.pending.filter (fun name => (B.value? name).isNone) = [] := by
    refine List.filter_eq_nil_iff.mpr fun name hname => ?_
    obtain ⟨v, hv⟩ := hfills.given name ((hpending name).mpr hname)
    simp [hv]
  rw [hnone] at hsub
  exact List.sublist_nil.mp hsub

/-- With nothing pending, the outputs are ranked unless there is none. -/
theorem state_of_pending_eq_nil (h : catalog.Decides A e) (hpending : e.pending = []) :
    e.state = .ranked ∨ e.state = .noFeasible := by
  rw [h.state, hpending]
  cases e.feasible with
  | nil => exact .inr rfl
  | cons output rest => exact .inl rfl

end Catalog.Decides

end Shortlist
