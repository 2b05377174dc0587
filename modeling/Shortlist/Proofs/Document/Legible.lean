import Mathlib.Tactic.Common
import Shortlist.Proofs.Catalog.Checks
import Shortlist.Proofs.Document.Declaration

/-!
# Problems can be put into words

A problem that quotes a value can be put into words if the value can be written. The values that are
quoted stand in the document, so all problems of a document that can be written have a text.
-/

namespace Shortlist

def Defect.IsLegible (defect : Defect) : Prop := ∃ text, defect.text = .ok text

theorem Value.exists_written? {v : Value} (h : v.isWritable = true) :
    ∃ text, v.written? = .ok text :=
  ⟨v.written, if_pos h⟩

theorem Value.exists_plain? {v : Value} (h : v.isWritable = true) :
    ∃ text, v.plain? = .ok text := by
  cases v with
  | text s => exact ⟨s, rfl⟩
  | _ => exact exists_written? h

theorem exists_wording {x : Except Fault String} {wording : String → String}
    (h : ∃ text, x = .ok text) : ∃ text, (do return wording (← x)) = .ok text := by
  obtain ⟨text, rfl⟩ := h
  exact ⟨wording text, rfl⟩

def AllLegible (problems : List Problem) : Prop := ∀ problem ∈ problems, problem.defect.IsLegible

section AllLegible

variable {problems others : List Problem} {place : Place}

theorem allLegible_nil : AllLegible [] := nofun

theorem allLegible_cons {problem : Problem} :
    AllLegible (problem :: problems) ↔ problem.defect.IsLegible ∧ AllLegible problems :=
  List.forall_mem_cons

theorem allLegible_singleton {problem : Problem} (h : problem.defect.IsLegible) :
    AllLegible [problem] :=
  List.forall_mem_singleton.mpr h

theorem allLegible_append :
    AllLegible (problems ++ others) ↔ AllLegible problems ∧ AllLegible others :=
  List.forall_mem_append

theorem allLegible_map {α : Type} {defect : α → Defect} {as : List α}
    (h : ∀ a ∈ as, (defect a).IsLegible) : AllLegible (as.map fun a => ⟨place, defect a⟩) := by
  intro problem hmem
  obtain ⟨a, ha, rfl⟩ := List.mem_map.mp hmem
  exact h a ha

theorem AllLegible.exists_texts (h : AllLegible problems) :
    ∃ texts, Problem.texts problems = .ok texts := by
  refine exists_mapM fun problem hmem => ?_
  obtain ⟨text, htext⟩ := h problem hmem
  rw [Problem.text, htext]
  dsimp only [Except.ok_bind]
  cases problem.place.text? with
  | none => exact ⟨text, rfl⟩
  | some place => exact ⟨place ++ ": " ++ text, rfl⟩

theorem allLegible_flatten_mapM {α : Type} {f : α → Except Fault (List Problem)} {xs : List α}
    (hstep : ∀ x ∈ xs, ∀ found, f x = .ok found → AllLegible found)
    (h : (xs.mapM f >>= fun found => pure found.flatten) = .ok problems) : AllLegible problems := by
  obtain ⟨found, hfound, hflat⟩ := Except.bind_eq_ok.mp h
  obtain rfl := Except.pure_eq_ok.mp hflat
  intro problem hmem
  obtain ⟨part, hpart, hproblem⟩ := List.mem_flatten.mp hmem
  obtain ⟨x, hx, hresult⟩ := exists_of_forall₂_right (mapM_eq_ok_iff.mp hfound) hpart
  exact hstep x hx part hresult problem hproblem

end AllLegible

namespace Document

variable {entries : Entries Value} {problems : List Problem} {place : Place} {v : Value}

/-! ### Declarations -/

theorem isLegible_variableNameDefect? {seen : List String} {name : Option String} :
    ∀ defect ∈ variableNameDefect? seen name, defect.IsLegible := by
  intro defect hdefect
  unfold variableNameDefect? at hdefect
  split at hdefect
  · cases hdefect
    exact ⟨_, rfl⟩
  · split at hdefect
    · cases hdefect
      exact ⟨_, rfl⟩
    · split at hdefect
      · cases hdefect
        exact ⟨_, rfl⟩
      · cases hdefect

theorem isLegible_domainDefect? : ∀ defect ∈ domainDefect? v, defect.IsLegible := by
  intro defect hdefect
  unfold domainDefect? at hdefect
  split at hdefect
  · cases hdefect
    exact ⟨_, rfl⟩
  · split at hdefect
    · cases hdefect
      exact ⟨_, rfl⟩
    · split at hdefect
      · cases hdefect
      · cases hdefect
        exact ⟨_, rfl⟩
  · cases hdefect
    exact ⟨_, rfl⟩

theorem isLegible_typeDefect? (h : (Value.object entries).isWritable = true) :
    ∀ defect ∈ typeDefect? entries, defect.IsLegible := by
  intro defect hdefect
  unfold typeDefect? at hdefect
  dsimp only at hdefect
  split at hdefect
  · cases hdefect
    exact exists_wording (Value.exists_written? (Value.isWritable_getD h rfl))
  · exact isLegible_domainDefect? defect hdefect
  · cases hdefect

theorem allLegible_variableProblemsFrom {index : Nat} {seen : List String} {items : List Value}
    (h : ∀ item ∈ items, item.isWritable = true) :
    AllLegible (variableProblemsFrom index seen items) := by
  fun_induction variableProblemsFrom index seen items with
  | case1 index seen => exact allLegible_nil
  | case2 index seen entries rest place name nameDefect seen' ih =>
    obtain ⟨hentries, hrest⟩ := List.forall_mem_cons.mp h
    refine allLegible_append.mpr ⟨allLegible_map fun defect hdefect => ?_, ih hrest⟩
    rcases List.mem_append.mp hdefect with hname | htype
    · exact isLegible_variableNameDefect? defect (Option.mem_toList.mp hname)
    · exact isLegible_typeDefect? hentries defect (Option.mem_toList.mp htype)
  | case3 index seen item rest hother ih =>
    exact allLegible_cons.mpr ⟨⟨_, rfl⟩, ih (List.forall_mem_cons.mp h).2⟩

theorem allLegible_variableProblems (h : v.isWritable = true) :
    AllLegible (variableProblems v) := by
  unfold variableProblems
  split
  · exact allLegible_singleton ⟨_, rfl⟩
  · exact allLegible_variableProblemsFrom (Value.isWritable_list.mp h)
  · exact allLegible_singleton ⟨_, rfl⟩

theorem isLegible_outputNameDefect? {seen : List String} {name : Option String} :
    ∀ defect ∈ outputNameDefect? seen name, defect.IsLegible := by
  intro defect hdefect
  unfold outputNameDefect? at hdefect
  split at hdefect
  · cases hdefect
    exact ⟨_, rfl⟩
  · split at hdefect
    · cases hdefect
      exact ⟨_, rfl⟩
    · cases hdefect

theorem isLegible_descriptionDefect? :
    ∀ defect ∈ descriptionDefect? entries, defect.IsLegible := by
  intro defect hdefect
  unfold descriptionDefect? at hdefect
  split at hdefect
  · cases hdefect
  · cases hdefect
    exact ⟨_, rfl⟩

theorem allLegible_outputProblemsFrom {index : Nat} {seen : List String} {items : List Value} :
    AllLegible (outputProblemsFrom index seen items) := by
  fun_induction outputProblemsFrom index seen items with
  | case1 index seen => exact allLegible_nil
  | case2 index seen entries rest place name nameDefect seen' ih =>
    refine allLegible_append.mpr ⟨allLegible_map fun defect hdefect => ?_, ih⟩
    rcases List.mem_append.mp hdefect with hname | hdescription
    · exact isLegible_outputNameDefect? defect (Option.mem_toList.mp hname)
    · exact isLegible_descriptionDefect? defect (Option.mem_toList.mp hdescription)
  | case3 index seen item rest hother ih => exact allLegible_cons.mpr ⟨⟨_, rfl⟩, ih⟩

theorem allLegible_outputProblems : AllLegible (outputProblems v) := by
  unfold outputProblems
  split
  · exact allLegible_singleton ⟨_, rfl⟩
  · exact allLegible_outputProblemsFrom
  · exact allLegible_singleton ⟨_, rfl⟩

/-! ### Rules -/

variable {registered : Entries Variable} {declared : List String} {output : String}

theorem allLegible_unknownKeyProblems {known : List String} :
    AllLegible (unknownKeyProblems known place entries) :=
  allLegible_map fun _ _ => ⟨_, rfl⟩

theorem isLegible_expectedDefect? {demanded : Variable} (h : v.isWritable = true) :
    ∀ defect ∈ expectedDefect? demanded v, defect.IsLegible := by
  have hboolean : (Defect.expectedBoolean v).IsLegible := exists_wording (Value.exists_written? h)
  have hnumber : (Defect.expectedNumber v).IsLegible := exists_wording (Value.exists_written? h)
  have hdomain : (Defect.notInDomain v).IsLegible := exists_wording (Value.exists_written? h)
  intro defect hdefect
  unfold expectedDefect? at hdefect
  split at hdefect
  · split at hdefect
    · cases hdefect
    · cases hdefect
      exact hboolean
  · split at hdefect
    · split at hdefect
      · cases hdefect
      · cases hdefect
        exact hnumber
    · cases hdefect
      exact hnumber
  · split at hdefect
    · split at hdefect
      · cases hdefect
      · cases hdefect
        exact hdomain
    · cases hdefect
      exact hdomain

theorem isWritable_of_mem_allowedValues (h : v.isWritable = true) :
    ∀ value ∈ allowedValues v, value.isWritable = true := by
  cases v with
  | list items => exact Value.isWritable_list.mp h
  | _ => exact List.forall_mem_singleton.mpr h

theorem allLegible_conditionProblems {name : String} (h : v.isWritable = true) :
    AllLegible (conditionProblems registered place name v) := by
  unfold conditionProblems
  split
  · exact allLegible_singleton ⟨_, rfl⟩
  · refine allLegible_append.mpr ⟨?_, allLegible_map fun reason hreason => ?_⟩
    · split
      · exact allLegible_singleton ⟨_, rfl⟩
      · exact allLegible_nil
    · obtain ⟨value, hvalue, hdefect⟩ := List.mem_filterMap.mp hreason
      exact exists_wording
        (isLegible_expectedDefect? (isWritable_of_mem_allowedValues h value hvalue) reason hdefect)

theorem allLegible_conditionsProblems (h : v.isWritable = true) :
    AllLegible (conditionsProblems registered place v) := by
  unfold conditionsProblems
  split
  · intro problem hproblem
    obtain ⟨entry, hentry, hmem⟩ := List.mem_flatMap.mp hproblem
    exact allLegible_conditionProblems (Value.isWritable_object.mp h entry hentry) problem hmem
  · exact allLegible_singleton ⟨_, rfl⟩

theorem allLegible_expressionProblems (h : expressionProblems v declared place = .ok problems) :
    AllLegible problems := by
  unfold expressionProblems at h
  split at h
  · split at h
    · cases h
      exact allLegible_singleton ⟨_, rfl⟩
    · split at h
      · cases h
        exact allLegible_map fun _ _ => ⟨_, rfl⟩
      · cases h
        exact allLegible_singleton ⟨_, rfl⟩
      · cases h
  · cases h
    exact allLegible_singleton ⟨_, rfl⟩

theorem allLegible_ruleListProblems {list : RuleList}
    (h : ruleListProblems declared output list v = .ok problems) : AllLegible problems := by
  unfold ruleListProblems at h
  split at h
  · exact allLegible_flatten_mapM (fun _ _ _ => allLegible_expressionProblems) h
  · cases h
    exact allLegible_singleton ⟨_, rfl⟩

theorem isLegible_weightDefect? (h : v.isWritable = true) :
    ∀ defect ∈ weightDefect? v, defect.IsLegible := by
  intro defect hdefect
  unfold weightDefect? at hdefect
  split at hdefect
  · cases hdefect
  · split at hdefect
    · cases hdefect
      exact ⟨_, rfl⟩
    · split at hdefect
      · cases hdefect
        exact ⟨_, rfl⟩
      · cases hdefect
  · cases hdefect
    exact exists_wording (Value.exists_written? h)

theorem allLegible_subjectProblems (h : v.isWritable = true) :
    AllLegible (subjectProblems declared place v) := by
  unfold subjectProblems
  split
  · exact allLegible_nil
  · split
    · exact allLegible_nil
    · exact allLegible_singleton ⟨_, rfl⟩
  · exact allLegible_singleton (exists_wording (Value.exists_plain? h))

theorem allLegible_softRuleProblems (hv : v.isWritable = true)
    (h : softRuleProblems declared place v = .ok problems) : AllLegible problems := by
  unfold softRuleProblems at h
  split at h
  · obtain ⟨condition, hcondition, h⟩ := Except.bind_eq_ok.mp h
    obtain rfl := Except.pure_eq_ok.mp h
    have hfield : ∀ key, (field _ key).isWritable = true := fun key =>
      Value.isWritable_getD hv rfl
    simp only [allLegible_append]
    refine ⟨⟨⟨allLegible_unknownKeyProblems, allLegible_expressionProblems hcondition⟩,
      allLegible_map fun defect hdefect => ?_⟩, allLegible_subjectProblems (hfield _)⟩
    exact isLegible_weightDefect? (hfield _) defect (Option.mem_toList.mp hdefect)
  · cases h
    exact allLegible_singleton ⟨_, rfl⟩

theorem allLegible_softRulesProblems (hv : v.isWritable = true)
    (h : softRulesProblems declared output v = .ok problems) : AllLegible problems := by
  unfold softRulesProblems at h
  split at h
  · refine allLegible_flatten_mapM (fun item hitem found => ?_) h
    have hmem := mem_iff_exists_indexed.mpr ⟨item.1, hitem⟩
    exact allLegible_softRuleProblems (Value.isWritable_list.mp hv item.2 hmem)
  · cases h
    exact allLegible_singleton ⟨_, rfl⟩

theorem allLegible_bundleProblems (hv : v.isWritable = true)
    (h : bundleProblems registered output v = .ok problems) : AllLegible problems := by
  unfold bundleProblems at h
  split at h
  · rename_i entries
    obtain ⟨inclusion, hinclusion, h⟩ := Except.bind_eq_ok.mp h
    obtain ⟨exclusion, hexclusion, h⟩ := Except.bind_eq_ok.mp h
    obtain ⟨soft, hsoft, h⟩ := Except.bind_eq_ok.mp h
    obtain rfl := Except.pure_eq_ok.mp h
    have hconditions : (conditions entries).isWritable = true := Value.isWritable_getD hv rfl
    have hrules : (softRuleList entries).isWritable = true := Value.isWritable_getD hv rfl
    simp only [allLegible_append]
    exact ⟨⟨⟨⟨allLegible_unknownKeyProblems, allLegible_conditionsProblems hconditions⟩,
      allLegible_ruleListProblems hinclusion⟩, allLegible_ruleListProblems hexclusion⟩,
      allLegible_softRulesProblems hrules hsoft⟩
  · cases h
    exact allLegible_singleton ⟨_, rfl⟩

theorem allLegible_ruleProblems {outputs : List String} (hv : v.isWritable = true)
    (h : ruleProblems registered outputs v = .ok problems) : AllLegible problems := by
  unfold ruleProblems at h
  split at h
  · refine allLegible_flatten_mapM (fun entry hentry found hfound => ?_) h
    obtain ⟨own, hown, hfound⟩ := Except.bind_eq_ok.mp hfound
    obtain rfl := Except.pure_eq_ok.mp hfound
    refine allLegible_append.mpr ⟨?_, ?_⟩
    · split
      · exact allLegible_nil
      · exact allLegible_singleton ⟨_, rfl⟩
    · exact allLegible_bundleProblems (Value.isWritable_object.mp hv entry hentry) hown
  · cases h
    exact allLegible_singleton ⟨_, rfl⟩

end Document

end Shortlist
