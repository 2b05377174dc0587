import Shortlist.Proofs.Decision.Filling
import Shortlist.Session

/-!
# Changes of a session

Every request for a change works out an assignment from the answers (`Change.target`) and then
adopts it together with its evaluation. All requests but the one that takes back everything are
lists of answers, a value that is dropped being an empty answer, so what a change does to a variable
is read off the staged answers once (`get?_applyStaged`) and holds of every kind of request.
-/

namespace Shortlist

open Rule (Assignment)

namespace Session

inductive Change
  | set (name : String) (raw : Value)
  | setAll (answers : Entries Value)
  | unset (name : String)
  | reset

/-- The session that a change leads to, unless it fails. -/
def apply (session : Session) : Change → Except AnswerError Session
  | .set name raw => session.set name raw
  | .setAll answers => session.setAll answers
  | .unset name => session.unset name
  | .reset => session.reset

/-! ### The assignment that a change asks for -/

/-- The assignment that a change asks for. -/
def Change.target (registry : Registry) (A : Assignment) : Change → Except AnswerError Assignment
  | .set name raw =>
    if raw.isEmptyAnswer then do
      let _ ← registry.require name
      return Entries.erase A name
    else do
      return Entries.insert A name (← registry.accept name raw)
  | .setAll answers => do
    return applyStaged A (← answers.foldlM (stage registry) ⟨[], []⟩)
  | .unset name => do
    let _ ← registry.require name
    return Entries.erase A name
  | .reset => .ok []

variable {catalog : Catalog} {session next : Session} {change : Change} {A B : Assignment}
  {registry : Registry}

theorem apply_eq (session : Session) (change : Change) :
    session.apply change =
      change.target session.catalog.registry session.assignment >>= session.adopt := by
  cases change with
  | set name raw =>
    rw [apply, set, Change.target]
    split
    · rw [unset, bind_assoc]
      rfl
    · rw [bind_assoc]
      rfl
  | setAll answers =>
    rw [apply, setAll, Change.target, bind_assoc]
    rfl
  | unset name =>
    rw [apply, unset, Change.target, bind_assoc]
    rfl
  | reset => rfl

theorem adopt_eq_ok :
    session.adopt A = .ok next ↔
      ∃ e, session.catalog.evaluate A = .ok e ∧ next = ⟨session.catalog, A, e, true⟩ := by
  rw [adopt, Except.bind_eq_ok]
  refine exists_congr fun e => ?_
  rw [Except.mapError_eq_ok, Except.pure_eq_ok, eq_comm (a := next)]

theorem apply_eq_ok :
    session.apply change = .ok next ↔
      ∃ B e, change.target session.catalog.registry session.assignment = .ok B ∧
        session.catalog.evaluate B = .ok e ∧ next = ⟨session.catalog, B, e, true⟩ := by
  rw [apply_eq, Except.bind_eq_ok]
  refine exists_congr fun B => ?_
  rw [adopt_eq_ok, exists_and_left]

theorem apply_of_evaluate {e e' : Evaluation} {changed : Bool}
    (htarget : change.target catalog.registry A = .ok B) (he : catalog.evaluate B = .ok e') :
    apply ⟨catalog, A, e, changed⟩ change = .ok ⟨catalog, B, e', true⟩ :=
  apply_eq_ok.mpr ⟨B, e', htarget, he, rfl⟩

theorem exists_apply {e : Evaluation} {changed : Bool}
    (htarget : change.target catalog.registry A = .ok B)
    (hevaluate : (catalog.evaluate B).isOk = true) :
    ∃ e', apply ⟨catalog, A, e, changed⟩ change = .ok ⟨catalog, B, e', true⟩ := by
  obtain ⟨e', he'⟩ := Except.exists_of_isOk hevaluate
  exact ⟨e', apply_of_evaluate htarget he'⟩

theorem state_of_apply (h : session.apply change = .ok next) :
    next.state = next.evaluation.state := by
  obtain ⟨B, e, -, -, rfl⟩ := apply_eq_ok.mp h
  rfl

/-! ### Changes as lists of answers -/

/-- The answers that a change gives, one after the other: to drop a value is to give an empty one.
Only taking back everything is no such change. -/
def Change.answers? : Change → Option (Entries Value)
  | .set name raw => some [(name, raw)]
  | .setAll answers => some answers
  | .unset name => some [(name, .null)]
  | .reset => none

theorem Change.target_of_answers {answers : Entries Value}
    (h : change.answers? = some answers) (registry : Registry) (A : Assignment) :
    change.target registry A =
      (answers.foldlM (stage registry) ⟨[], []⟩).map (applyStaged A) := by
  cases change with
  | set name raw =>
    obtain rfl := Option.some.inj h
    rw [target, List.foldlM_cons, stage]
    cases raw.isEmptyAnswer with
    | true =>
      cases registry.require name <;> rfl
    | false =>
      dsimp only
      cases registry.accept name raw <;> rfl
  | setAll answers =>
    obtain rfl := Option.some.inj h
    rw [target]
    cases answers.foldlM (stage registry) ⟨[], []⟩ <;> rfl
  | unset name =>
    obtain rfl := Option.some.inj h
    rw [target, List.foldlM_cons, stage]
    cases registry.require name <;> rfl
  | reset => cases h

theorem Change.target_of_no_answers (h : change.answers? = none) (registry : Registry)
    (A : Assignment) : change.target registry A = .ok [] := by
  cases change with
  | reset => rfl
  | set name raw => cases h
  | setAll answers => cases h
  | unset name => cases h

/-- What a change asks for is an empty assignment, or the current one with staged answers. -/
theorem Change.target_cases (h : change.target registry A = .ok B) :
    (change.answers? = none ∧ B = []) ∨
      ∃ answers staged, change.answers? = some answers ∧
        answers.foldlM (stage registry) ⟨[], []⟩ = .ok staged ∧ B = applyStaged A staged := by
  cases hanswers : change.answers? with
  | none =>
    rw [target_of_no_answers hanswers, Except.ok.injEq] at h
    exact .inl ⟨rfl, h.symm⟩
  | some answers =>
    rw [target_of_answers hanswers] at h
    obtain ⟨staged, hstaged, h⟩ := Except.map_eq_ok.mp h
    exact .inr ⟨answers, staged, rfl, hstaged, h.symm⟩

/-! ### Staged answers -/

theorem stage_eq_ok {staged next : Staged} {answer : String × Value} :
    stage registry staged answer = .ok next ↔
      (answer.2.isEmptyAnswer = true ∧ (∃ v, registry.require answer.1 = .ok v) ∧
        next = { staged with cleared := staged.cleared ++ [answer.1] }) ∨
      (answer.2.isEmptyAnswer = false ∧ ∃ value, registry.accept answer.1 answer.2 = .ok value ∧
        next = { staged with stored := staged.stored.insert answer.1 value }) := by
  unfold stage
  cases answer.2.isEmptyAnswer with
  | true =>
    simp only [if_true, Except.bind_eq_ok, Except.pure_eq_ok, true_and, exists_and_right,
      eq_comm (a := next), reduceCtorEq, false_and, or_false]
  | false =>
    simp only [Bool.false_eq_true, if_false, Except.bind_eq_ok, Except.pure_eq_ok, true_and,
      eq_comm (a := next), false_and, false_or]

/-- The last answer for a variable that is not empty. -/
def lastFilled? (answers : Entries Value) (name : String) : Option Value :=
  ((answers.filter fun answer => answer.1 == name && !answer.2.isEmptyAnswer).map (·.2)).getLast?

theorem lastFilled?_cons (answer : String × Value) (rest : Entries Value) (name : String) :
    lastFilled? (answer :: rest) name = (lastFilled? rest name).or
      (if answer.1 = name ∧ answer.2.isEmptyAnswer = false then some answer.2 else none) := by
  unfold lastFilled?
  by_cases h : answer.1 = name ∧ answer.2.isEmptyAnswer = false
  · rw [List.filter_cons_of_pos (by simpa using h), List.map_cons, List.getLast?_cons, if_pos h]
    cases List.getLast? _ <;> rfl
  · rw [List.filter_cons_of_neg (by simpa using h), if_neg h, Option.or_none]

theorem lastFilled?_eq_none_iff {answers : Entries Value} {name : String} :
    lastFilled? answers name = none ↔
      ∀ answer ∈ answers, answer.1 = name → answer.2.isEmptyAnswer = true := by
  simp [lastFilled?]

theorem lastFilled?_of_not_has {answers : Entries Value} {name : String}
    (h : Entries.has answers name = false) : lastFilled? answers name = none := by
  refine lastFilled?_eq_none_iff.mpr fun answer hmem hname => ?_
  rw [Entries.has_iff.mpr ⟨answer, hmem, hname⟩] at h
  cases h

theorem get?_stored {answers : Entries Value} {staged last : Staged}
    (h : answers.foldlM (stage registry) staged = .ok last) (name : String) :
    match lastFilled? answers name with
    | some raw => ∃ value, registry.accept name raw = .ok value ∧
        Entries.get? last.stored name = some value
    | none => Entries.get? last.stored name = Entries.get? staged.stored name := by
  induction answers generalizing staged with
  | nil =>
    obtain rfl := Except.pure_eq_ok.mp h
    rfl
  | cons answer rest ih =>
    rw [List.foldlM_cons] at h
    obtain ⟨middle, hmiddle, h⟩ := Except.bind_eq_ok.mp h
    have hrest := ih h
    rw [lastFilled?_cons]
    cases hlast : lastFilled? rest name with
    | some raw =>
      rw [hlast] at hrest
      exact hrest
    | none =>
      rw [hlast] at hrest
      dsimp only at hrest
      rw [Option.none_or, hrest]
      rcases stage_eq_ok.mp hmiddle with ⟨hempty, -, rfl⟩ | ⟨hfilled, value, hvalue, rfl⟩
      · simp [hempty]
      · rw [Entries.get?_insert]
        by_cases hname : answer.1 = name
        · rw [if_pos ⟨hname, hfilled⟩, if_pos hname, ← hname]
          exact ⟨value, hvalue, rfl⟩
        · simp [hname]

theorem mem_cleared {answers : Entries Value} {staged last : Staged}
    (h : answers.foldlM (stage registry) staged = .ok last) (name : String) :
    name ∈ last.cleared ↔ name ∈ staged.cleared ∨
      ∃ answer ∈ answers, answer.1 = name ∧ answer.2.isEmptyAnswer = true := by
  induction answers generalizing staged with
  | nil =>
    obtain rfl := Except.pure_eq_ok.mp h
    simp
  | cons answer rest ih =>
    rw [List.foldlM_cons] at h
    obtain ⟨middle, hmiddle, h⟩ := Except.bind_eq_ok.mp h
    rw [ih h]
    rcases stage_eq_ok.mp hmiddle with ⟨hempty, -, rfl⟩ | ⟨hfilled, value, -, rfl⟩
    · rw [List.mem_append, List.mem_singleton, or_assoc, eq_comm (a := name)]
      simp only [List.mem_cons, exists_eq_or_imp, hempty, and_true]
    · simp [hfilled]

theorem nodup_stored {answers : Entries Value} {staged : Staged}
    (h : answers.foldlM (stage registry) ⟨[], []⟩ = .ok staged) : staged.stored.names.Nodup := by
  have hstart : (Staged.mk [] []).stored.names.Nodup := List.nodup_nil
  refine foldlM_keeps (fun s : Staged => s.stored.names.Nodup) (fun s answer s' _ hs hstep => ?_)
    hstart h
  rcases stage_eq_ok.mp hstep with ⟨-, -, rfl⟩ | ⟨-, value, -, rfl⟩
  · exact hs
  · exact Entries.nodup_names_insert hs

/-- What staged answers leave a variable with: the last answer for it that is not empty, or nothing
if all of them are empty, or what it had if there is none. -/
theorem get?_applyStaged {answers : Entries Value} {staged : Staged}
    (h : answers.foldlM (stage registry) ⟨[], []⟩ = .ok staged) (A : Assignment) (name : String) :
    match lastFilled? answers name with
    | some raw => ∃ value, registry.accept name raw = .ok value ∧
        Entries.get? (applyStaged A staged) name = some value
    | none => Entries.get? (applyStaged A staged) name =
        if Entries.has answers name then none else Entries.get? A name := by
  have hstored := get?_stored h name
  rw [applyStaged, Entries.get?_insertAll (nodup_stored h), Entries.get?_foldl_erase]
  cases hlast : lastFilled? answers name with
  | some raw =>
    rw [hlast] at hstored
    obtain ⟨value, hvalue, hget⟩ := hstored
    exact ⟨value, hvalue, by rw [hget, Option.some_or]⟩
  | none =>
    rw [hlast] at hstored
    have hempty := lastFilled?_eq_none_iff.mp hlast
    have hcleared : name ∈ staged.cleared ↔ Entries.has answers name = true := by
      rw [mem_cleared h, or_iff_right List.not_mem_nil, Entries.has_iff]
      exact exists_congr fun answer => and_congr_right fun hmem =>
        and_iff_left_of_imp (hempty answer hmem)
    dsimp only at hstored ⊢
    rw [hstored, Entries.get?_nil, Option.none_or]
    simp only [hcleared]

/-! ### Admitted values -/

theorem admits_nil : registry.Admits [] := by
  intro entry hentry
  cases hentry

theorem stage_admits {staged staged' : Staged} {answer : String × Value}
    (hstored : registry.Admits staged.stored) (h : stage registry staged answer = .ok staged') :
    registry.Admits staged'.stored := by
  rcases stage_eq_ok.mp h with ⟨-, -, rfl⟩ | ⟨-, value, hvalue, rfl⟩
  · exact hstored
  · exact Entries.forall_insert hstored (Registry.admits_of_accept hvalue)

theorem Change.target_admits (hA : registry.Admits A) (h : change.target registry A = .ok B) :
    registry.Admits B := by
  rcases change.target_cases h with ⟨-, rfl⟩ | ⟨answers, staged, -, hstaged, rfl⟩
  · exact admits_nil
  · have hstored : registry.Admits staged.stored :=
      foldlM_keeps (fun s : Staged => registry.Admits s.stored)
        (fun _ _ _ _ hs hstep => stage_admits hs hstep) admits_nil hstaged
    exact Entries.forall_insertAll (Entries.forall_foldl_erase hA) hstored

theorem Change.target_distinct (hA : (Entries.names A).Nodup)
    (h : change.target registry A = .ok B) : (Entries.names B).Nodup := by
  rcases change.target_cases h with ⟨-, rfl⟩ | ⟨answers, staged, -, -, rfl⟩
  · exact List.nodup_nil
  · exact Entries.nodup_names_insertAll (Entries.nodup_names_foldl_erase hA)

/-! ### Changes that fill in variables -/

/-- The change gives an answer for each of some variables and does nothing else. -/
def Change.Fills (names : List String) : Change → Prop
  | .set name raw => raw.isEmptyAnswer = false ∧ ∀ other, other ∈ names ↔ other = name
  | .setAll answers =>
    (∀ answer ∈ answers, answer.2.isEmptyAnswer = false) ∧
      ∀ name, name ∈ names ↔ name ∈ Entries.names answers
  | .unset _ => False
  | .reset => False

theorem Change.answers_of_fills {names : List String} (hfills : change.Fills names) :
    ∃ answers, change.answers? = some answers ∧
      (∀ answer ∈ answers, answer.2.isEmptyAnswer = false) ∧
      ∀ name, name ∈ names ↔ Entries.has answers name = true := by
  cases change with
  | set name raw =>
    refine ⟨[(name, raw)], rfl, List.forall_mem_singleton.mpr hfills.1, fun other => ?_⟩
    rw [hfills.2 other, Entries.has_iff]
    simp [eq_comm]
  | setAll answers =>
    refine ⟨answers, rfl, hfills.1, fun name => ?_⟩
    rw [hfills.2 name, Entries.has_iff]
    exact List.mem_map
  | unset name => exact hfills.elim
  | reset => exact hfills.elim

theorem Change.get?_of_fills {names : List String} (hfills : change.Fills names)
    (h : change.target registry A = .ok B) :
    (∀ name, name ∉ names → Entries.get? B name = Entries.get? A name) ∧
      ∀ name ∈ names, ∃ v, Entries.get? B name = some v := by
  obtain ⟨answers, hanswers, hfilled, hnames⟩ := change.answers_of_fills hfills
  rw [target_of_answers hanswers] at h
  obtain ⟨staged, hstaged, rfl⟩ := Except.map_eq_ok.mp h
  have hget := get?_applyStaged hstaged A
  constructor
  · intro name hname
    have hhas : Entries.has answers name = false :=
      Bool.eq_false_iff.mpr fun hhas => hname ((hnames name).mpr hhas)
    have hkept := hget name
    rw [lastFilled?_of_not_has hhas, hhas] at hkept
    exact hkept
  · intro name hname
    have hgiven := hget name
    cases hlast : lastFilled? answers name with
    | some raw =>
      rw [hlast] at hgiven
      obtain ⟨value, -, hvalue⟩ := hgiven
      exact ⟨value, hvalue⟩
    | none =>
      obtain ⟨answer, hmem, heq⟩ := Entries.has_iff.mp ((hnames name).mp hname)
      have hempty := lastFilled?_eq_none_iff.mp hlast answer hmem heq
      rw [hfilled answer hmem] at hempty
      cases hempty

theorem Change.fillsIn_of_fills {names : List String} (hA : A.Filled) (hB : B.Filled)
    (hfills : change.Fills names) (h : change.target registry A = .ok B) : A.FillsIn B names := by
  obtain ⟨hkept, hgiven⟩ := change.get?_of_fills hfills h
  constructor
  · intro name hname
    rw [value?_eq_get? hB, value?_eq_get? hA, hkept name hname]
  · intro name hname
    rw [value?_eq_get? hB]
    exact hgiven name hname

end Session

end Shortlist
