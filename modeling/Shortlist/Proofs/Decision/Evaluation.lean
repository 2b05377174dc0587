import Shortlist.Decision.Evaluation
import Shortlist.Proofs.Decision.Agreement

/-!
# What an evaluation holds

An evaluation is made in one go and each of its parts follows from the assignment. The parts are
told apart here once (`Catalog.Decides`), so that what is said about evaluations never goes back to
the order in which they are made. Of the assignment only the values count, and not the order in
which they were given; a ranking holds the outputs that it was made for.
-/

namespace Shortlist

open Rule (Assignment)

namespace Catalog

variable {catalog : Catalog} {A B : Assignment} {e : Evaluation}

/-- The state that what is pending and what is feasible lead to. -/
def standing : (pending : List String) → (feasible : List Output) → State
  | _ :: _, _ => .awaitingInput
  | [], [] => .noFeasible
  | [], _ :: _ => .ranked

/-- The parts of the evaluation of an assignment. -/
structure Decides (catalog : Catalog) (A : Assignment) (e : Evaluation) : Prop where
  assignment : e.assignment = A
  feasible : catalog.feasible A = .ok e.feasible
  mandatory : e.mandatory = catalog.mandatory
  relevant : e.relevant = catalog.relevant e.feasible A
  pending : e.pending = catalog.pending e.mandatory e.relevant A
  state : e.state = standing e.pending e.feasible
  ranking : (if e.state = .ranked then catalog.rank e.feasible A else .ok []) = .ok e.ranking

theorem decides_of_evaluate (h : catalog.evaluate A = .ok e) : catalog.Decides A e := by
  obtain ⟨feasible, hfeasible, h⟩ := Except.bind_eq_ok.mp h
  dsimp only at h
  cases hpending : catalog.pending catalog.mandatory (catalog.relevant feasible A) A with
  | cons name rest =>
    rw [hpending] at h
    obtain rfl := Except.pure_eq_ok.mp h
    exact ⟨rfl, hfeasible, rfl, rfl, hpending.symm, rfl, rfl⟩
  | nil =>
    rw [hpending] at h
    cases feasible with
    | nil =>
      obtain rfl := Except.pure_eq_ok.mp h
      exact ⟨rfl, hfeasible, rfl, rfl, hpending.symm, rfl, rfl⟩
    | cons output rest =>
      obtain ⟨ranking, hranking, h⟩ := Except.bind_eq_ok.mp h
      obtain rfl := Except.pure_eq_ok.mp h
      exact ⟨rfl, hfeasible, rfl, rfl, hpending.symm, rfl, hranking⟩

namespace Decides

theorem pending_eq (h : catalog.Decides A e) :
    e.pending = catalog.pending catalog.mandatory (catalog.relevant e.feasible A) A := by
  rw [h.pending, h.mandatory, h.relevant]

theorem state_eq_awaitingInput_iff (h : catalog.Decides A e) :
    e.state = .awaitingInput ↔ e.pending ≠ [] := by
  rw [h.state]
  cases e.pending with
  | cons name rest => simp [standing]
  | nil => cases e.feasible <;> simp [standing]

theorem state_eq_ranked_iff (h : catalog.Decides A e) :
    e.state = .ranked ↔ e.feasible ≠ [] ∧ e.pending = [] := by
  rw [h.state]
  cases e.pending with
  | cons name rest => simp [standing]
  | nil => cases e.feasible <;> simp [standing]

theorem state_ne_loaded (h : catalog.Decides A e) : e.state ≠ .loaded := by
  rw [h.state]
  cases e.pending with
  | cons name rest => simp [standing]
  | nil => cases e.feasible <;> simp [standing]

theorem ranking_of_not_ranked (h : catalog.Decides A e) (hstate : e.state ≠ .ranked) :
    e.ranking = [] := by
  have hranking := h.ranking
  rw [if_neg hstate] at hranking
  exact (Except.ok.inj hranking).symm

theorem pending_of_ranked (h : catalog.Decides A e) {r : Ranked} (hr : r ∈ e.ranking) :
    e.pending = [] := by
  by_contra hpending
  have hstate : e.state ≠ .ranked := fun hstate => hpending (h.state_eq_ranked_iff.mp hstate).2
  rw [h.ranking_of_not_ranked hstate] at hr
  cases hr

end Decides

/-! ### Assignments with the same values -/

theorem relevant_congr {feasible : List Output} (hA : A.Filled) (hB : B.Filled)
    (h : ∀ name, A.value? name = B.value? name) :
    catalog.relevant feasible A = catalog.relevant feasible B := by
  refine Text.sortedSet_congr fun name => ?_
  rw [List.mem_append, List.mem_append, mem_assigned_iff hA, mem_assigned_iff hB, h name]

theorem pending_congr {mandatory relevant : List String} (hA : A.Filled) (hB : B.Filled)
    (h : ∀ name, A.value? name = B.value? name) :
    catalog.pending mandatory relevant A = catalog.pending mandatory relevant B := by
  refine List.filter_congr fun name _ => ?_
  have hopen : isOpen A name = isOpen B name := by
    rw [Bool.eq_iff_iff, isOpen_iff hA, isOpen_iff hB, h name]
  rw [hopen]

/-- An evaluation reads the values of variables and not the order in which they were given. -/
theorem evaluate_congr (hA : A.Filled) (hB : B.Filled)
    (h : ∀ name, A.value? name = B.value? name) :
    catalog.evaluate B = (catalog.evaluate A).map fun e => { e with assignment := B } := by
  have hagree : ∀ output, catalog.AgreeOnFields A B output := fun output bundle _ name _ => h name
  have hfeasible : catalog.feasible A = catalog.feasible B :=
    selectM_congr fun output _ => isFeasible_congr (hagree output)
  rw [evaluate, evaluate, hfeasible]
  cases catalog.feasible B with
  | error f => rfl
  | ok feasible =>
    have hrelevant : catalog.relevant feasible A = catalog.relevant feasible B :=
      relevant_congr hA hB h
    have hrank : catalog.rank feasible A = catalog.rank feasible B :=
      rank_congr fun output _ => hagree output
    rw [Except.ok_bind, Except.ok_bind]
    simp only [hrelevant, pending_congr hA hB h, hrank]
    split
    · rfl
    · split
      · rfl
      · cases catalog.rank feasible B <;> rfl

/-! ### The ranked outputs -/

theorem length_shares {scores : List Number} {shares : List Binary64}
    (h : Softmax.shares scores = .ok shares) : shares.length = scores.length := by
  cases scores with
  | nil =>
    obtain rfl := Except.ok.inj h
    rfl
  | cons first rest =>
    obtain ⟨weights, hweights, h⟩ := Except.bind_eq_ok.mp h
    obtain rfl := Except.pure_eq_ok.mp h
    rw [Softmax.normalize, List.length_map]
    exact (mapM_eq_ok_iff.mp hweights).length_eq.symm

theorem name_of_score {output : Output} {s : Scored} (h : catalog.score A output = .ok s) :
    s.name = output.name := by
  obtain ⟨contributions, -, h⟩ := Except.bind_eq_ok.mp h
  obtain rfl := Except.pure_eq_ok.mp h
  rfl

theorem names_rank {outputs : List Output} {ranking : List Ranked}
    (h : catalog.rank outputs A = .ok ranking) :
    (ranking.map (·.name)).Perm (outputs.map (·.name)) := by
  obtain ⟨scored, hscored, h⟩ := Except.bind_eq_ok.mp h
  obtain ⟨shares, hshares, h⟩ := Except.bind_eq_ok.mp h
  obtain rfl := Except.pure_eq_ok.mp h
  have hscores : scored.map (·.name) = outputs.map (·.name) :=
    map_eq_of_mapM (fun _ _ => name_of_score) hscored
  have hlength : scored.length ≤ shares.length := by
    rw [length_shares hshares, List.length_map]
  refine ((List.mergeSort_perm _ _).map _).trans ?_
  rw [List.map_map, ← hscores]
  conv_rhs => rw [← List.map_fst_zip hlength, List.map_map]
  exact .refl _

theorem length_rank {outputs : List Output} {ranking : List Ranked}
    (h : catalog.rank outputs A = .ok ranking) : ranking.length = outputs.length := by
  simpa using (names_rank h).length_eq

/-- With nothing pending, an assignment is evaluated as soon as its feasible outputs are ranked. -/
theorem exists_evaluation_of_rank {output : Output} {rest : List Output}
    (hfeasible : catalog.feasible A = .ok (output :: rest))
    (hpending : catalog.pending catalog.mandatory (catalog.relevant (output :: rest) A) A = [])
    (hrank : (catalog.rank (output :: rest) A).isOk = true) :
    ∃ e, catalog.evaluate A = .ok e ∧ e.feasible = output :: rest ∧ e.ranking ≠ [] := by
  obtain ⟨ranking, hranking⟩ := Except.exists_of_isOk hrank
  have hne : ranking ≠ [] := by
    intro hnil
    have hlength := length_rank hranking
    rw [hnil] at hlength
    cases hlength
  refine ⟨⟨.ranked, A, output :: rest, catalog.relevant (output :: rest) A, catalog.mandatory, [],
    ranking⟩, Except.bind_eq_ok.mpr ⟨output :: rest, hfeasible, ?_⟩, rfl, hne⟩
  dsimp only
  rw [hpending]
  exact Except.bind_eq_ok.mpr ⟨ranking, hranking, rfl⟩

theorem exists_of_mem_rank {outputs : List Output} {ranking : List Ranked}
    (h : catalog.rank outputs A = .ok ranking) {r : Ranked} (hr : r ∈ ranking) :
    ∃ output ∈ outputs, output.name = r.name :=
  List.mem_map.mp ((names_rank h).mem_iff.mp (List.mem_map_of_mem hr))

theorem Decides.feasible_of_ranked (h : catalog.Decides A e) {r : Ranked} (hr : r ∈ e.ranking) :
    ∃ output ∈ e.feasible, output.name = r.name := by
  have hranking := h.ranking
  split at hranking
  · exact exists_of_mem_rank hranking hr
  · rw [← Except.ok.inj hranking] at hr
    cases hr

end Catalog

/-! ### Settled bundles -/

namespace Bundle

variable {bundle : Bundle} {A : Assignment} {D : List String}

/-- Every hard rule of a bundle is decided in favour of its output. -/
structure Settled (bundle : Bundle) (A : Assignment) (D : List String) : Prop where
  conditions : ∀ c ∈ bundle.conditions, ∃ v, A.value? c.1 = some v ∧ c.2.isMetBy v = true
  inclusions : ∀ text ∈ bundle.inclusions, Rule.truthOf text A D = .ok .holds
  exclusions : ∀ text ∈ bundle.exclusions, Rule.truthOf text A D = .ok .fails

theorem Settled.decided (h : bundle.Settled A D) :
    ∀ text ∈ bundle.hardTexts, Rule.truthOf text A D ≠ .ok .undecided := by
  intro text htext hundecided
  rcases List.mem_append.mp htext with hin | hex
  · rw [h.inclusions text hin] at hundecided
    cases hundecided
  · rw [h.exclusions text hex] at hundecided
    cases hundecided

theorem decided_of_assigned (hassigned : ∀ name ∈ bundle.hardFields D, ∃ v, A.value? name = some v)
    {text : String} (htext : text ∈ bundle.hardTexts) :
    Rule.truthOf text A D ≠ .ok .undecided := by
  intro hundecided
  obtain ⟨name, hname, hnone⟩ := Rule.truthOf_eq_undecided_iff.mp hundecided
  obtain ⟨v, hv⟩ := hassigned name (mem_hardFields.mpr (.inr ⟨text, htext, hname⟩))
  rw [hnone] at hv
  cases hv

/-- The filter lets undecided rules pass, so with all fields filled in it settles the bundle. -/
theorem Passes.settled (h : bundle.Passes A D)
    (hassigned : ∀ name ∈ bundle.hardFields D, ∃ v, A.value? name = some v) :
    bundle.Settled A D := by
  constructor
  · intro c hc
    obtain ⟨v, hv⟩ := hassigned c.1 (mem_hardFields.mpr (.inl (List.mem_map_of_mem hc)))
    exact ⟨v, hv, h.conditions c hc v hv⟩
  · intro text htext
    obtain ⟨t, ht, hne⟩ := h.inclusions text htext
    have hdecided := decided_of_assigned hassigned (List.mem_append_left bundle.exclusions htext)
    cases t with
    | holds => exact ht
    | fails => exact absurd rfl hne
    | undecided => exact absurd ht hdecided
  · intro text htext
    obtain ⟨t, ht, hne⟩ := h.exclusions text htext
    have hdecided := decided_of_assigned hassigned (List.mem_append_right bundle.inclusions htext)
    cases t with
    | holds => exact absurd rfl hne
    | fails => exact ht
    | undecided => exact absurd ht hdecided

end Bundle

/-- An output is ranked only once its hard rules are settled: it is feasible, and nothing that they
refer to is pending. -/
theorem Catalog.Decides.settled_of_ranked {catalog : Catalog} {A : Assignment} {e : Evaluation}
    (h : catalog.Decides A e) {r : Ranked} (hr : r ∈ e.ranking) :
    ∃ output ∈ e.feasible, output.name = r.name ∧
      ∃ bundle, catalog.bundleFor? output.name = some bundle ∧
        bundle.Settled A catalog.declared := by
  have hnone := h.pending_of_ranked hr
  rw [h.pending_eq] at hnone
  obtain ⟨output, houtput, hname⟩ := h.feasible_of_ranked hr
  obtain ⟨-, bundle, hbundle, hpasses⟩ := (mem_feasible h.feasible).mp houtput
  exact ⟨output, houtput, hname, bundle, hbundle,
    hpasses.settled fun name => value?_of_pending_eq_nil houtput hbundle hnone⟩

end Shortlist
