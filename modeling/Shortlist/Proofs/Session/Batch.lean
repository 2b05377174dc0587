import Shortlist.Proofs.Session.Run

/-!
# Several answers at once

Answers that are given at once are sorted before anything happens: what has to be cleared is cleared
first and what has to be stored is stored then. Given one after the other, clearing and storing come
in the order of the answers. With one answer for each variable the two agree, down to the order of
the entries (`Change.target_setAll`), because an operation on one name passes through those on
others. From this a session can be rebuilt: its own answers, given at once to a new session, are
accepted as they are.
-/

namespace Shortlist

open Rule (Assignment)

namespace Session

variable {catalog : Catalog} {session last : Session} {registry : Registry} {A : Assignment}
  {name : String} {raw : Value} {answers : Entries Value} {staged : Staged}

/-! ### One answer -/

/-- The value that an answer gives its variable; none if it is empty. -/
def taken (registry : Registry) (name : String) (raw : Value) : Except AnswerError (Option Value) :=
  if raw.isEmptyAnswer then do
    let _ ← registry.require name
    return none
  else do
    return some (← registry.accept name raw)

def put (A : Assignment) (name : String) : Option Value → Assignment
  | none => Entries.erase A name
  | some value => Entries.insert A name value

def Staged.put (staged : Staged) (name : String) : Option Value → Staged
  | none => { staged with cleared := staged.cleared ++ [name] }
  | some value => { staged with stored := staged.stored.insert name value }

theorem faultless_taken (hraw : raw.isWritable = true) : Faultless (taken registry name raw) := by
  unfold taken
  split
  · exact Registry.faultless_require.bind fun _ => faultless_ok _
  · exact (Registry.faultless_accept hraw).bind fun _ => faultless_ok _

theorem stage_eq_map (registry : Registry) (staged : Staged) (name : String) (raw : Value) :
    stage registry staged (name, raw) = (taken registry name raw).map (staged.put name) := by
  unfold stage taken
  split
  · cases registry.require name <;> rfl
  · cases registry.accept name raw <;> rfl

theorem target_set_eq_map (registry : Registry) (A : Assignment) (name : String) (raw : Value) :
    (Change.set name raw).target registry A = (taken registry name raw).map (put A name) := by
  unfold Change.target taken
  dsimp only
  split
  · cases registry.require name <;> rfl
  · cases registry.accept name raw <;> rfl

theorem applyStaged_put (hnew : name ∉ staged.stored.names) (value : Option Value) :
    applyStaged A (staged.put name value) = put (applyStaged A staged) name value := by
  cases value with
  | none =>
    unfold applyStaged Staged.put put
    rw [List.foldl_append, Entries.erase_insertAll_of_not_mem hnew]
    rfl
  | some value => exact Entries.insertAll_insert hnew

theorem not_mem_names_put {other : String} (hne : other ≠ name)
    (hother : other ∉ staged.stored.names) (value : Option Value) :
    other ∉ (staged.put name value).stored.names := by
  cases value with
  | none => exact hother
  | some value =>
    rw [Staged.put, Entries.names_insert]
    split
    · exact hother
    · simpa [hne] using hother

/-! ### All answers -/

/-- The assignment that answers ask for when they are given one after the other. -/
def targetOfEach (registry : Registry) (A : Assignment) (answers : Entries Value) :
    Except AnswerError Assignment :=
  answers.foldlM (fun A answer => (Change.set answer.1 answer.2).target registry A) A

theorem targetOfEach_applyStaged (hnames : answers.names.Nodup)
    (hnew : ∀ name ∈ answers.names, name ∉ staged.stored.names) :
    targetOfEach registry (applyStaged A staged) answers =
      (answers.foldlM (stage registry) staged).map (applyStaged A) := by
  induction answers generalizing staged with
  | nil => rfl
  | cons answer rest ih =>
    obtain ⟨name, raw⟩ := answer
    obtain ⟨hfirst, hrest⟩ := List.nodup_cons.mp hnames
    have hname : name ∉ staged.stored.names := hnew name List.mem_cons_self
    rw [targetOfEach, List.foldlM_cons, List.foldlM_cons, stage_eq_map, target_set_eq_map]
    cases taken registry name raw with
    | error e => rfl
    | ok value =>
      have hnext : ∀ other ∈ Entries.names rest, other ∉ (staged.put name value).stored.names := by
        intro other hother
        refine not_mem_names_put ?_ (hnew other (List.mem_cons_of_mem name hother)) value
        rintro rfl
        exact hfirst hother
      have hput := ih hrest hnext
      rw [applyStaged_put hname] at hput
      exact hput

/-- With one answer for each variable, all of them at once ask for the same assignment as one after
the other, and fail alike. -/
theorem Change.target_setAll (hnames : answers.names.Nodup) (A : Assignment) :
    (Change.setAll answers).target registry A = targetOfEach registry A answers := by
  have hstaged : ∀ name ∈ answers.names, name ∉ (Staged.mk [] []).stored.names :=
    fun _ _ => List.not_mem_nil
  rw [target_of_answers rfl, ← targetOfEach_applyStaged hnames hstaged]
  rfl

/-! ### Sessions -/

/-- Gives answers one after the other; the first one that fails ends the run. -/
def setEach (session : Session) (answers : Entries Value) : Except AnswerError Session :=
  answers.foldlM (fun session answer => session.set answer.1 answer.2) session

theorem set_eq_bind (session : Session) (name : String) (raw : Value) :
    session.set name raw =
      (taken session.catalog.registry name raw).map (put session.assignment name) >>=
        session.adopt := by
  rw [← target_set_eq_map]
  exact apply_eq session (.set name raw)

/-- Only the answer itself is rejected: what goes wrong with the new assignment is a fault. -/
theorem set_eq_rejected_iff {r : Rejection} :
    session.set name raw = .error (.rejected r) ↔
      taken session.catalog.registry name raw = .error (.rejected r) := by
  rw [set_eq_bind]
  cases taken session.catalog.registry name raw with
  | error e =>
    change Except.error e = _ ↔ _
    rw [Except.error.injEq, Except.error.injEq]
  | ok value =>
    refine iff_of_false (fun h => ?_) (fun h => by cases h)
    change session.adopt _ = _ at h
    unfold adopt at h
    cases hevaluate : session.catalog.evaluate (put session.assignment name value) with
    | error f =>
      rw [hevaluate] at h
      cases h
    | ok e =>
      rw [hevaluate] at h
      cases h

theorem setEach_cons_of_ok {next : Session} (h : session.set name raw = .ok next)
    (rest : Entries Value) : session.setEach ((name, raw) :: rest) = next.setEach rest := by
  rw [setEach, List.foldlM_cons, h]
  rfl

theorem setEach_cons_of_error {e : AnswerError} (h : session.set name raw = .error e)
    (rest : Entries Value) : session.setEach ((name, raw) :: rest) = .error e := by
  rw [setEach, List.foldlM_cons, h]
  rfl

theorem exists_taken_of_setEach {r : Rejection} (hsound : Sound catalog session)
    (h : session.setEach answers = .error (.rejected r)) :
    ∃ answer ∈ answers, taken catalog.registry answer.1 answer.2 = .error (.rejected r) := by
  induction answers generalizing session with
  | nil => cases h
  | cons answer rest ih =>
    obtain ⟨name, raw⟩ := answer
    cases hset : session.set name raw with
    | error e =>
      rw [setEach_cons_of_error hset] at h
      obtain rfl := Except.error.inj h
      rw [set_eq_rejected_iff, hsound.catalog_eq] at hset
      exact ⟨(name, raw), List.mem_cons_self, hset⟩
    | ok next =>
      rw [setEach_cons_of_ok hset] at h
      have happly : session.apply (.set name raw) = .ok next := hset
      obtain ⟨answer, hmem, htaken⟩ := ih (apply_sound hsound happly) h
      exact ⟨answer, List.mem_cons_of_mem _ hmem, htaken⟩

/-- The session behind answers given one after the other holds the assignment that they ask for,
together with its evaluation. -/
theorem setEach_sound (hsound : Sound catalog session) (h : session.setEach answers = .ok last) :
    Sound catalog last ∧
      targetOfEach catalog.registry session.assignment answers = .ok last.assignment := by
  induction answers generalizing session with
  | nil =>
    obtain rfl := Except.pure_eq_ok.mp h
    exact ⟨hsound, rfl⟩
  | cons answer rest ih =>
    obtain ⟨name, raw⟩ := answer
    obtain ⟨next, hnext, hrest⟩ := Except.bind_eq_ok.mp h
    have happly : session.apply (.set name raw) = .ok next := hnext
    obtain ⟨hlast, htarget⟩ := ih (apply_sound hsound happly) hrest
    obtain ⟨B, e, hB, -, rfl⟩ := apply_eq_ok.mp happly
    rw [hsound.catalog_eq] at hB
    refine ⟨hlast, ?_⟩
    rw [targetOfEach, List.foldlM_cons, hB]
    exact htarget

theorem setAll_of_setEach (hsound : Sound catalog session) (hnames : answers.names.Nodup)
    (h : session.setEach answers = .ok last) :
    session.setAll answers = .ok ⟨session.catalog, last.assignment, last.evaluation, true⟩ := by
  obtain ⟨hlast, htarget⟩ := setEach_sound hsound h
  rw [← Change.target_setAll hnames] at htarget
  obtain rfl := hsound.catalog_eq
  exact apply_eq_ok.mpr ⟨_, _, htarget, hlast.evaluated, rfl⟩

/-- The first answer that is rejected is what all of them at once are rejected for. -/
theorem setAll_of_taken {before behind : Entries Value} {e : AnswerError}
    (hbefore : ∀ answer ∈ before, ∃ value,
      taken session.catalog.registry answer.1 answer.2 = .ok value)
    (h : taken session.catalog.registry name raw = .error e) :
    session.setAll (before ++ (name, raw) :: behind) = .error e := by
  have hstaged : (before ++ (name, raw) :: behind).foldlM (stage session.catalog.registry)
      ⟨[], []⟩ = .error e := by
    refine foldlM_eq_error (fun answer hanswer staged => ?_) (fun staged => ?_) _
    · obtain ⟨value, hvalue⟩ := hbefore answer hanswer
      exact ⟨staged.put answer.1 value, by rw [stage_eq_map, hvalue]; rfl⟩
    · rw [stage_eq_map, h]
      rfl
  rw [setAll, hstaged]
  rfl

/-- Answers at once and one by one: if some answer is rejected, all of them are, for the first one
that is, and the session stays as it was. Otherwise, unless a fault stops an evaluation, both lead
to the same entries in the same order with the same evaluation. -/
theorem batch_eq_one_by_one (hreach : Reachable catalog session) {answers : Entries Value}
    (hnames : answers.names.Nodup) (hwritable : ∀ answer ∈ answers, answer.2.isWritable = true) :
    (∀ before name raw behind r, answers = before ++ (name, raw) :: behind →
      (∀ answer ∈ before, ∀ r, session.set answer.1 answer.2 ≠ .error (.rejected r)) →
      session.set name raw = .error (.rejected r) →
      session.setAll answers = .error (.rejected r) ∧
        session.after (.setAll answers) = session) ∧
    ((∀ answer ∈ answers, ∀ r, session.set answer.1 answer.2 ≠ .error (.rejected r)) →
      Faultless (session.setEach answers) →
      ∃ next last, session.setAll answers = .ok next ∧ session.setEach answers = .ok last ∧
        next.assignment = last.assignment ∧ next.evaluation = last.evaluation) := by
  have hsound := hreach.sound
  obtain rfl := hsound.catalog_eq
  constructor
  · rintro before name raw behind r rfl hbefore hfirst
    have htaken : ∀ answer ∈ before, ∃ value,
        taken session.catalog.registry answer.1 answer.2 = .ok value := by
      intro answer hanswer
      have hraw := hwritable answer (List.mem_append_left _ hanswer)
      exact (faultless_taken hraw).exists_ok fun r hr =>
        hbefore answer hanswer r (set_eq_rejected_iff.mpr hr)
    have hrejected : session.apply (.setAll (before ++ (name, raw) :: behind)) =
        .error (.rejected r) := setAll_of_taken htaken (set_eq_rejected_iff.mp hfirst)
    exact ⟨hrejected, by rw [after, hrejected]⟩
  · intro haccepted hfaultless
    obtain ⟨last, hlast⟩ := hfaultless.exists_ok fun r hr => by
      obtain ⟨answer, hanswer, htaken⟩ := exists_taken_of_setEach hsound hr
      exact haccepted answer hanswer r (set_eq_rejected_iff.mpr htaken)
    exact ⟨_, last, setAll_of_setEach hsound hnames hlast, hlast, rfl, rfl⟩

def movingAnswers : Entries Value :=
  [("garden", .text " "), ("vault", .boolean true), ("kind", .text "shop")]

def strayAnswers : Entries Value :=
  [("garden", .boolean false), ("kind", .text "nowhere"), ("cellar", .int 2)]

/-- What is cleared and what is stored may be mixed; and of two bad answers the first one counts. -/
theorem specimen_batches :
    ∃ session, Reachable Catalog.specimen session ∧
      session.setAll strayAnswers =
        .error (.rejected ⟨"kind", .text "nowhere", .notInDomain ["home", "shop"]⟩) ∧
      ∃ next last, session.setAll movingAnswers = .ok next ∧
        session.setEach movingAnswers = .ok last ∧
        next.assignment = last.assignment ∧ next.evaluation = last.evaluation := by
  obtain ⟨e, hreach, -, -⟩ := specimen_homeWithGarden
  refine ⟨_, hreach, ?_, ?_⟩
  · have hnames : (Entries.names strayAnswers).Nodup := by decide
    have hwritable : ∀ answer ∈ strayAnswers, answer.2.isWritable = true := by decide +kernel
    obtain ⟨hrejected, -⟩ := batch_eq_one_by_one hreach hnames hwritable
    refine (hrejected [("garden", .boolean false)] "kind" (.text "nowhere") [("cellar", .int 2)] _
      rfl (fun answer hanswer r hr => ?_) (set_eq_rejected_iff.mpr rfl)).1
    rw [List.mem_singleton.mp hanswer] at hr
    cases set_eq_rejected_iff.mp hr
  · have hnames : (Entries.names movingAnswers).Nodup := by decide
    have hwritable : ∀ answer ∈ movingAnswers, answer.2.isWritable = true := by decide
    obtain ⟨-, hagree⟩ := batch_eq_one_by_one hreach hnames hwritable
    have htaken : ∀ answer ∈ movingAnswers,
        (taken Catalog.specimen.registry answer.1 answer.2).isOk = true := by decide +kernel
    refine hagree (fun answer hanswer r hr => ?_) ?_
    · have hok := htaken answer hanswer
      rw [set_eq_rejected_iff.mp hr] at hok
      cases hok
    · obtain ⟨e₁, hcleared⟩ : ∃ e₁,
          apply ⟨Catalog.specimen, homeWithGarden, e, true⟩ (.set "garden" (.text " ")) =
            .ok ⟨Catalog.specimen, [("kind", .text "home")], e₁, true⟩ :=
        exists_apply rfl (by decide +kernel)
      obtain ⟨e₂, hstored⟩ : ∃ e₂,
          apply ⟨Catalog.specimen, [("kind", .text "home")], e₁, true⟩
            (.set "vault" (.boolean true)) =
            .ok ⟨Catalog.specimen, [("kind", .text "home"), ("vault", .boolean true)], e₂, true⟩ :=
        exists_apply rfl (by decide +kernel)
      obtain ⟨e₃, hchanged⟩ : ∃ e₃,
          apply ⟨Catalog.specimen, [("kind", .text "home"), ("vault", .boolean true)], e₂, true⟩
            (.set "kind" (.text "shop")) =
            .ok ⟨Catalog.specimen, [("kind", .text "shop"), ("vault", .boolean true)], e₃, true⟩ :=
        exists_apply rfl (by decide +kernel)
      rw [movingAnswers, setEach_cons_of_ok hcleared, setEach_cons_of_ok hstored,
        setEach_cons_of_ok hchanged]
      exact faultless_ok _

/-! ### A session from its answers -/

theorem taken_of_admits {v : Variable} {value : Value} (hv : registry.get? name = some v)
    (hadmits : v.Admits value) : taken registry name value = .ok (some value) := by
  rw [taken, hadmits.isEmptyAnswer_eq_false, Registry.accept_of_admits hv hadmits]
  rfl

theorem targetOfEach_of_admits {stored : Assignment} (hA : registry.Admits A) :
    targetOfEach registry stored A = .ok (Entries.insertAll stored A) := by
  induction A generalizing stored with
  | nil => rfl
  | cons entry rest ih =>
    obtain ⟨⟨v, hv, hadmits⟩, hrest⟩ := List.forall_mem_cons.mp hA
    rw [targetOfEach, List.foldlM_cons, target_set_eq_map, taken_of_admits hv hadmits]
    exact ih hrest

/-- The answers that a session holds, given at once to a new session on the same catalog, are
accepted and lead to the same entries in the same order with the same evaluation. -/
theorem own_answers_rebuild (hreach : Reachable catalog session) :
    ∃ first next, start catalog = .ok first ∧ first.setAll session.assignment = .ok next ∧
      next.assignment = session.assignment ∧ next.evaluation = session.evaluation := by
  have hsound := hreach.sound
  have hdistinct := hreach.distinct
  obtain ⟨first, -, hstart, -⟩ := hreach
  obtain ⟨e, -, rfl⟩ := start_eq_ok.mp hstart
  have htarget : (Change.setAll session.assignment).target catalog.registry [] =
      .ok session.assignment := by
    rw [Change.target_setAll hdistinct, targetOfEach_of_admits hsound.admits,
      Entries.insertAll_eq_append hdistinct fun _ _ => List.not_mem_nil]
    rfl
  exact ⟨_, _, hstart, apply_of_evaluate htarget hsound.evaluated, rfl, rfl⟩

theorem specimen_home_rebuilt :
    ∃ session first next, Reachable Catalog.specimen session ∧
      session.assignment = homeWithGarden ∧ start Catalog.specimen = .ok first ∧
      first.setAll homeWithGarden = .ok next ∧ next.assignment = homeWithGarden ∧
      next.evaluation = session.evaluation := by
  obtain ⟨e, hreach, -, -⟩ := specimen_homeWithGarden
  obtain ⟨first, next, hstart, hnext, hassignment, hevaluation⟩ := own_answers_rebuild hreach
  exact ⟨_, first, next, hreach, rfl, hstart, hnext, hassignment, hevaluation⟩

end Session

end Shortlist
