import Shortlist.Proofs.Session.Run

/-!
# The history of a session

A session is a map in which the last answer for a variable counts, together with the evaluation of
that map. Of its history only the requests that succeeded matter (`adopted`), and of these, for one
variable, only the last that touches it. What a single request does to the map is one equation
(`Change.get?_target`), and an evaluation reads the map through its values, whatever their order.
The laws of requests follow from these two: requests on different variables commute up to the order
of the answers, a repeated request changes nothing, and a new value is dropped without a trace.
-/

namespace Shortlist

open Rule (Assignment)

namespace Session

variable {catalog : Catalog} {session next : Session} {change : Change} {A B : Assignment}
  {registry : Registry}

/-! ### What one request does to a variable -/

/-- Whether a change touches a variable: it gives an answer for it, be it an empty one, or takes
back everything. -/
def Change.touches (name : String) (change : Change) : Bool :=
  match change.answers? with
  | some answers => Entries.has answers name
  | none => true

/-- The value that a change which touches a variable leaves it with; none if it clears it. -/
def Change.leaves (registry : Registry) (name : String) (change : Change) : Option Value := do
  let raw ← lastFilled? (← change.answers?) name
  (registry.accept name raw).toOption

theorem Change.get?_target (h : change.target registry A = .ok B) (name : String) :
    Entries.get? B name =
      if change.touches name then change.leaves registry name else Entries.get? A name := by
  unfold touches leaves
  rcases change.target_cases h with ⟨hnone, rfl⟩ | ⟨answers, staged, hanswers, hstaged, rfl⟩
  · rw [hnone]
    rfl
  · have hget := get?_applyStaged hstaged A name
    rw [hanswers]
    simp only [Option.bind_eq_bind, Option.bind_some]
    cases hlast : lastFilled? answers name with
    | some raw =>
      rw [hlast] at hget
      obtain ⟨value, hvalue, hget⟩ := hget
      have hhas : Entries.has answers name = true := by
        by_contra hno
        rw [lastFilled?_of_not_has (Bool.eq_false_iff.mpr hno)] at hlast
        cases hlast
      rw [hget, hhas, Option.bind_some, hvalue]
      rfl
    | none =>
      rw [hlast] at hget
      exact hget

/-- Whether a change is rejected does not depend on the answers given so far. -/
theorem Change.exists_target (h : change.target registry A = .ok B) (C : Assignment) :
    ∃ D, change.target registry C = .ok D := by
  cases hanswers : change.answers? with
  | none => exact ⟨[], target_of_no_answers hanswers registry C⟩
  | some answers =>
    rw [target_of_answers hanswers] at h
    obtain ⟨staged, hstaged, -⟩ := Except.map_eq_ok.mp h
    exact ⟨applyStaged C staged, by rw [target_of_answers hanswers, hstaged]; rfl⟩

/-! ### The requests that succeeded -/

def adopted (session : Session) : List Change → List Change
  | [] => []
  | change :: rest =>
    match session.apply change with
    | .ok next => change :: next.adopted rest
    | .error _ => session.adopted rest

def lastTouching (name : String) (changes : List Change) : Option Change :=
  (changes.filter (·.touches name)).getLast?

theorem adopted_of_ok (h : session.apply change = .ok next) (rest : List Change) :
    session.adopted (change :: rest) = change :: next.adopted rest := by
  rw [adopted, h]

theorem adopted_of_error {error : AnswerError} (h : session.apply change = .error error)
    (rest : List Change) : session.adopted (change :: rest) = session.adopted rest := by
  rw [adopted, h]

theorem run_of_ok (h : session.apply change = .ok next) (rest : List Change) :
    session.run (change :: rest) = next.run rest := by
  rw [run, List.foldl_cons, after, h]
  rfl

theorem run_of_error {error : AnswerError} (h : session.apply change = .error error)
    (rest : List Change) : session.run (change :: rest) = session.run rest := by
  rw [run, List.foldl_cons, after, h]
  rfl

theorem lastTouching_cons (name : String) (change : Change) (rest : List Change) :
    lastTouching name (change :: rest) =
      (lastTouching name rest).or (if change.touches name then some change else none) := by
  unfold lastTouching
  cases h : change.touches name with
  | false => rw [List.filter_cons_of_neg (by simp [h])]; simp
  | true =>
    rw [List.filter_cons_of_pos h, List.getLast?_cons]
    cases List.getLast? _ <;> rfl

/-- Behind a run a variable holds what the last change that touches it left it with, or what it held
before if there is none. -/
theorem get?_run (session : Session) (changes : List Change) (name : String) :
    Entries.get? (session.run changes).assignment name =
      match lastTouching name (session.adopted changes) with
      | some change => change.leaves session.catalog.registry name
      | none => Entries.get? session.assignment name := by
  induction changes generalizing session with
  | nil => rfl
  | cons change rest ih =>
    cases happly : session.apply change with
    | error e => rw [run_of_error happly, adopted_of_error happly, ih]
    | ok next =>
      rw [run_of_ok happly, adopted_of_ok happly, ih, lastTouching_cons]
      obtain ⟨B, e, htarget, -, rfl⟩ := apply_eq_ok.mp happly
      have hget := change.get?_target htarget name
      -- a later request that touches the variable outdoes this one
      cases lastTouching name (Session.adopted _ rest) with
      | some later => rfl
      | none =>
        dsimp only
        rw [hget, Option.none_or]
        cases change.touches name <;> rfl

theorem changed_run (session : Session) (changes : List Change) :
    (session.run changes).changed = (session.changed || !(session.adopted changes).isEmpty) := by
  induction changes generalizing session with
  | nil => simp [run, adopted]
  | cons change rest ih =>
    cases happly : session.apply change with
    | error e => rw [run_of_error happly, adopted_of_error happly, ih]
    | ok next =>
      rw [run_of_ok happly, adopted_of_ok happly, ih]
      obtain ⟨B, e, -, -, rfl⟩ := apply_eq_ok.mp happly
      simp

theorem Sound.state_eq_loaded_iff (h : Sound catalog session) :
    session.state = .loaded ↔ session.changed = false := by
  rw [state]
  cases session.changed with
  | false => simp
  | true => simp [h.decides.state_ne_loaded]

/-! ### Laws of requests -/

/-- Requests that touch different variables lead to the same values and the same evaluation in
either order. -/
theorem Reachable.apply_comm (hreach : Reachable catalog session) {c d : Change}
    {left both right : Session}
    (hapart : ∀ name, c.touches name = false ∨ d.touches name = false)
    (hc : session.apply c = .ok left) (hcd : left.apply d = .ok both)
    (hd : session.apply d = .ok right) :
    ∃ other, right.apply c = .ok other ∧ both.assignment.Perm other.assignment ∧
      other.evaluation = { both.evaluation with assignment := other.assignment } := by
  obtain rfl := hreach.sound.catalog_eq
  have hboth := (hreach.apply hc).apply hcd
  have hright := hreach.apply hd
  obtain ⟨A, e, htargetC, -, rfl⟩ := apply_eq_ok.mp hc
  obtain ⟨B, e', htargetCD, hevaluateB, rfl⟩ := apply_eq_ok.mp hcd
  obtain ⟨C, e'', htargetD, -, rfl⟩ := apply_eq_ok.mp hd
  obtain ⟨D, htargetDC⟩ := c.exists_target htargetC C
  -- both orders lead to the same values, so that they can differ in the order of the entries only
  have hsame : ∀ name, Entries.get? B name = Entries.get? D name := by
    intro name
    rw [d.get?_target htargetCD, c.get?_target htargetC, c.get?_target htargetDC,
      d.get?_target htargetD]
    rcases hapart name with h | h <;> simp [h]
  have hfilledB : B.Filled := hboth.sound.admits.filled
  have hfilledD : D.Filled := (c.target_admits hright.sound.admits htargetDC).filled
  have hvalues : ∀ name, B.value? name = D.value? name := by
    intro name
    rw [value?_eq_get? hfilledB, value?_eq_get? hfilledD, hsame name]
  have hevaluateD : session.catalog.evaluate D = _ :=
    Catalog.evaluate_congr hfilledB hfilledD hvalues
  rw [hevaluateB] at hevaluateD
  exact ⟨_, apply_eq_ok.mpr ⟨D, _, htargetDC, hevaluateD, rfl⟩,
    Entries.perm_of_get?_eq hboth.distinct (c.target_distinct hright.distinct htargetDC) hsame, rfl⟩

/-- No variable is answered twice in one request. -/
def Change.Distinct (change : Change) : Prop :=
  ∀ answers, change.answers? = some answers → (Entries.names answers).Nodup

/-- With one answer for each variable, what is stored and what is cleared are apart, and a second
request finds both done. -/
theorem Change.target_target (hdistinct : change.Distinct)
    (h : change.target registry A = .ok B) : change.target registry B = .ok B := by
  rcases change.target_cases h with ⟨hnone, rfl⟩ | ⟨answers, staged, hanswers, hstaged, rfl⟩
  · exact target_of_no_answers hnone registry []
  · have hnames := hdistinct answers hanswers
    have hcleared : ∀ name ∈ staged.cleared,
        Entries.get? (applyStaged A staged) name = none := by
      intro name hname
      obtain ⟨answer, hmem, hanswer, hempty⟩ :=
        ((mem_cleared hstaged name).mp hname).resolve_left List.not_mem_nil
      have hget := get?_applyStaged hstaged A name
      -- the empty answer is the only one for this variable, so nothing was stored after it
      have hlast : lastFilled? answers name = none := by
        refine lastFilled?_eq_none_iff.mpr fun other hother heq => ?_
        obtain rfl : other = answer :=
          List.inj_on_of_nodup_map hnames hother hmem (heq.trans hanswer.symm)
        exact hempty
      rw [hlast, Entries.has_iff.mpr ⟨answer, hmem, hanswer⟩] at hget
      exact hget
    have hstored : ∀ pair ∈ staged.stored,
        Entries.get? (applyStaged A staged) pair.1 = some pair.2 := by
      intro pair hpair
      have hget := (Entries.get?_eq_some_iff (nodup_stored hstaged)).mpr hpair
      rw [applyStaged, Entries.get?_insertAll (nodup_stored hstaged), hget, Option.some_or]
    have hfixed : applyStaged (applyStaged A staged) staged = applyStaged A staged := by
      conv_lhs => rw [applyStaged]
      rw [Entries.foldl_erase_eq_self hcleared, Entries.insertAll_eq_self hstored]
    rw [target_of_answers hanswers, hstaged]
    exact congrArg Except.ok hfixed

theorem apply_twice (hdistinct : change.Distinct) (h : session.apply change = .ok next) :
    next.apply change = .ok next := by
  obtain ⟨B, e, htarget, he, rfl⟩ := apply_eq_ok.mp h
  exact apply_eq_ok.mpr ⟨B, e, change.target_target hdistinct htarget, he, rfl⟩

theorem Change.target_unset_of_set {name : String} {raw : Value} (hnew : Entries.get? A name = none)
    (h : (Change.set name raw).target registry A = .ok B) :
    (Change.unset name).target registry B = .ok A := by
  rw [target] at h
  rw [target]
  split at h
  · obtain ⟨v, hv, h⟩ := Except.bind_eq_ok.mp h
    obtain rfl := Except.pure_eq_ok.mp h
    rw [hv, Entries.erase_eq_self hnew, Except.ok_bind, Entries.erase_eq_self hnew]
    rfl
  · obtain ⟨value, hvalue, h⟩ := Except.bind_eq_ok.mp h
    obtain rfl := Except.pure_eq_ok.mp h
    obtain ⟨v, hv, -⟩ := Except.bind_eq_ok.mp hvalue
    rw [hv, Except.ok_bind, Entries.erase_insert_of_get?_eq_none hnew]
    rfl

theorem Reachable.unset_of_set (hreach : Reachable catalog session) {name : String} {raw : Value}
    (hnew : Entries.get? session.assignment name = none) (h : session.set name raw = .ok next) :
    ∃ last, next.unset name = .ok last ∧ last.assignment = session.assignment ∧
      last.evaluation = session.evaluation := by
  obtain rfl := hreach.sound.catalog_eq
  have happly : session.apply (.set name raw) = .ok next := h
  obtain ⟨B, e, htarget, -, rfl⟩ := apply_eq_ok.mp happly
  have hback : Session.apply ⟨session.catalog, B, e, true⟩ (.unset name) =
      .ok ⟨session.catalog, session.assignment, session.evaluation, true⟩ :=
    apply_of_evaluate (Change.target_unset_of_set hnew htarget) hreach.sound.evaluated
  exact ⟨_, hback, rfl, rfl⟩

/-! ### The last answers and their evaluation -/

/-- A session holds for every variable what the last request that touched it and succeeded left it
with, and the evaluation of just that; a request that fails changes nothing. So the requests of one
variable do not disturb those of another, and can be repeated and undone. -/
theorem last_answers_count {first : Session} {changes : List Change}
    (hstart : start catalog = .ok first) (hrun : session = first.run changes) :
    ((Entries.names session.assignment).Nodup ∧
      ∀ name v, Entries.get? session.assignment name = some v ↔
        ∃ change, lastTouching name (first.adopted changes) = some change ∧
          change.leaves catalog.registry name = some v) ∧
    (catalog.evaluate session.assignment = .ok session.evaluation ∧
      session.evaluation.assignment = session.assignment) ∧
    (∀ change error, session.apply change = .error error → session.after change = session) ∧
    (session.state = .loaded ↔ first.adopted changes = []) ∧
    (∀ c d left both right, (∀ name, c.touches name = false ∨ d.touches name = false) →
      session.apply c = .ok left → left.apply d = .ok both → session.apply d = .ok right →
      ∃ other, right.apply c = .ok other ∧ both.assignment.Perm other.assignment ∧
        other.evaluation = { both.evaluation with assignment := other.assignment }) ∧
    (∀ change next, change.Distinct → session.apply change = .ok next →
      next.apply change = .ok next) ∧
    ∀ name raw next, Entries.get? session.assignment name = none →
      session.set name raw = .ok next →
      ∃ last, next.unset name = .ok last ∧ last.assignment = session.assignment ∧
        last.evaluation = session.evaluation := by
  have hreach : Reachable catalog session := ⟨first, changes, hstart, hrun⟩
  obtain ⟨e, -, rfl⟩ := start_eq_ok.mp hstart
  refine ⟨⟨hreach.distinct, fun name v => ?_⟩, ⟨hreach.sound.evaluated, ?_⟩, ?_, ?_, ?_, ?_, ?_⟩
  · rw [hrun, get?_run]
    cases lastTouching name (Session.adopted _ changes) with
    | none => simp
    | some change => simp
  · exact hreach.sound.decides.assignment
  · intro change error herror
    rw [after, herror]
  · rw [hreach.sound.state_eq_loaded_iff, hrun, changed_run]
    simp
  · intro c d left both right hapart hc hcd hd
    exact hreach.apply_comm hapart hc hcd hd
  · intro change next hdistinct happly
    exact apply_twice hdistinct happly
  · intro name raw next hnew hset
    exact hreach.unset_of_set hnew hset

/-- A garden is promised and taken back; between the two the kind of home is answered, first in a
way that is rejected. -/
def hesitantChanges : List Change :=
  [.set "garden" (.boolean true), .set "kind" (.text "nowhere"), .set "kind" (.text "home"),
    .unset "garden"]

/-- What counts in the end is the second answer for the kind of home. -/
theorem specimen_hesitant_changes :
    ∃ first session, start Catalog.specimen = .ok first ∧ session = first.run hesitantChanges ∧
      Entries.get? session.assignment "kind" = some (.text "home") ∧
      Entries.get? session.assignment "garden" = none ∧ session.state ≠ .loaded := by
  obtain ⟨e, he⟩ := Except.exists_of_isOk (x := Catalog.specimen.evaluate []) (by decide +kernel)
  obtain ⟨e₁, he₁⟩ := Except.exists_of_isOk
    (x := Catalog.specimen.evaluate [("garden", .boolean true)]) (by decide +kernel)
  obtain ⟨e₂, he₂⟩ := Except.exists_of_isOk
    (x := Catalog.specimen.evaluate [("garden", .boolean true), ("kind", .text "home")])
    (by decide +kernel)
  obtain ⟨e₃, he₃⟩ := Except.exists_of_isOk
    (x := Catalog.specimen.evaluate [("kind", .text "home")]) (by decide +kernel)
  have hstart : start Catalog.specimen = .ok ⟨Catalog.specimen, [], e, false⟩ :=
    start_eq_ok.mpr ⟨e, he, rfl⟩
  have hpromised : apply ⟨Catalog.specimen, [], e, false⟩ (.set "garden" (.boolean true)) =
      .ok ⟨Catalog.specimen, [("garden", .boolean true)], e₁, true⟩ := apply_of_evaluate rfl he₁
  obtain ⟨error, hrejected⟩ : ∃ error, apply ⟨Catalog.specimen, [("garden", .boolean true)], e₁,
      true⟩ (.set "kind" (.text "nowhere")) = .error error := ⟨_, rfl⟩
  have hanswered : apply ⟨Catalog.specimen, [("garden", .boolean true)], e₁, true⟩
      (.set "kind" (.text "home")) =
      .ok ⟨Catalog.specimen, [("garden", .boolean true), ("kind", .text "home")], e₂, true⟩ :=
    apply_of_evaluate rfl he₂
  have hdropped : apply ⟨Catalog.specimen, [("garden", .boolean true), ("kind", .text "home")], e₂,
      true⟩ (.unset "garden") = .ok ⟨Catalog.specimen, [("kind", .text "home")], e₃, true⟩ :=
    apply_of_evaluate rfl he₃
  have hadopted : adopted ⟨Catalog.specimen, [], e, false⟩ hesitantChanges =
      [.set "garden" (.boolean true), .set "kind" (.text "home"), .unset "garden"] := by
    rw [hesitantChanges, adopted_of_ok hpromised, adopted_of_error hrejected,
      adopted_of_ok hanswered, adopted_of_ok hdropped]
    rfl
  obtain ⟨⟨-, hvalues⟩, -, -, hloaded, -⟩ := last_answers_count hstart rfl
  rw [hadopted] at hvalues hloaded
  refine ⟨_, _, hstart, rfl, (hvalues "kind" _).mpr ⟨_, rfl, rfl⟩, ?_, ?_⟩
  · refine Option.eq_none_iff_forall_not_mem.mpr fun v hv => ?_
    obtain ⟨change, hlast, hleaves⟩ := (hvalues "garden" v).mp hv
    obtain rfl := Option.some.inj hlast
    cases hleaves
  · intro hstate
    cases hloaded.mp hstate

end Session

end Shortlist
