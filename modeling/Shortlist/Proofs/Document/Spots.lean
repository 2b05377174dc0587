import Mathlib.Tactic.Common
import Shortlist.Proofs.Document.Rules

/-!
# No defect hides another

The check of a section of rules walks objects and lists inside each other and leaves a part early
where its shape is wrong. Here the section is taken apart first: its spots are the names, shapes,
keys, conditions, rules, weights and subjects that it has, each with its place. Checking every spot
on its own and putting the problems one behind the other is the same as the walk. So what is found
at a spot does not depend on any other spot, and a spot is silent only if nothing is wrong there.
-/

namespace Shortlist.Document

/-! ### Spots -/

/-- What is looked at in one spot. -/
inductive Aspect
  /-- The name of the output that a bundle is for. -/
  | output (name : String)
  /-- A bundle, which has to be an object. -/
  | bundle (v : Value)
  /-- A key of an object in which some keys are known. -/
  | key (known : List String) (name : String)
  /-- The section of mandatory conditions, which has to be an object. -/
  | conditions (v : Value)
  | condition (name : String) (expected : Value)
  /-- A section of hard rules, which has to be a list. -/
  | rules (list : RuleList) (v : Value)
  /-- The text of a hard rule, or the condition of a soft one. -/
  | expression (v : Value)
  /-- The section of soft rules, which has to be a list. -/
  | softRules (v : Value)
  /-- A soft rule, which has to be an object. -/
  | softRule (v : Value)
  | weight (v : Value)
  | subject (v : Value)

/-- An aspect of a section of rules and its place. -/
structure Spot where
  place : Place
  aspect : Aspect

/-- The spots of the keys of an object, in order. -/
def keySpots (known : List String) (place : Place) (entries : Entries Value) : List Spot :=
  (Text.sorted entries.names).map (⟨place, .key known ·⟩)

def conditionSpots (place : Place) (v : Value) : List Spot :=
  ⟨place, .conditions v⟩ ::
    match v with
    | .object found => found.map fun entry => ⟨place, .condition entry.1 entry.2⟩
    | _ => []

def ruleSpots (output : String) (list : RuleList) (v : Value) : List Spot :=
  ⟨.bundle output, .rules list v⟩ ::
    match v with
    | .list items => (indexed items).map fun item => ⟨.rule output list item.1, .expression item.2⟩
    | _ => []

def softRuleSpots (place : Place) (v : Value) : List Spot :=
  ⟨place, .softRule v⟩ ::
    match v with
    | .object entries =>
      keySpots softRuleKeys place entries ++
        [⟨place, .expression (field entries "condition")⟩,
          ⟨place, .weight (field entries "weight")⟩,
          ⟨place, .subject (field entries "variable")⟩]
    | _ => []

def softRulesSpots (output : String) (v : Value) : List Spot :=
  ⟨.bundle output, .softRules v⟩ ::
    match v with
    | .list items => (indexed items).flatMap fun item =>
      softRuleSpots (.softRule output item.1) item.2
    | _ => []

def bundleSpots (output : String) (v : Value) : List Spot :=
  ⟨.bundle output, .output output⟩ :: ⟨.bundle output, .bundle v⟩ ::
    match v with
    | .object entries =>
      keySpots bundleKeys (.bundle output) entries ++
        conditionSpots (.bundle output) (conditions entries) ++
        ruleSpots output .inclusion (ruleList entries .inclusion) ++
        ruleSpots output .exclusion (ruleList entries .exclusion) ++
        softRulesSpots output (softRuleList entries)
    | _ => []

/-- The spots of a section of rules, in the order in which they are checked. -/
def spots (found : Entries Value) : List Spot :=
  List.flatMap (fun entry => bundleSpots entry.1 entry.2) found

variable {registered : Entries Variable} {outputs : List String}

/-- Whether something is wrong in a spot, whatever else is in the section. -/
def Aspect.Defective (registered : Entries Variable) (outputs : List String) : Aspect → Prop
  | output name => name ∉ outputs
  | bundle v => ¬IsObject (fun _ => True) v
  | key known name => name ∉ known
  | conditions v => ¬IsObject (fun _ => True) v
  | condition name expected => ¬ConditionFits registered (name, expected)
  | rules _ v => ∀ items, v ≠ .list items
  | expression v => ¬∃ text, v = .text text ∧ Rule.Fits registered.names text
  | softRules v => ∀ items, v ≠ .list items
  | softRule v => ¬IsObject (fun _ => True) v
  | weight v => ¬v.IsWeight
  | subject v => ¬(v = .null ∨ ∃ name ∈ registered.names, v = .text name)

def unlessObject (defect : Defect) : Value → List Defect
  | .object _ => []
  | _ => [defect]

def unlessList (defect : Defect) : Value → List Defect
  | .list _ => []
  | _ => [defect]

/-- The problems of an aspect that is checked on its own. -/
def Aspect.problems (registered : Entries Variable) (outputs : List String) (place : Place) :
    Aspect → Except Fault (List Problem)
  | output name =>
    .ok (if outputs.contains name then [] else [⟨place, .outputNotDeclared⟩])
  | bundle v => .ok ((unlessObject .bundleNotObject v).map (⟨place, ·⟩))
  | key known name => .ok (if known.contains name then [] else [⟨place, .unknownKey name⟩])
  | conditions v => .ok ((unlessObject .conditionsNotObject v).map (⟨place, ·⟩))
  | condition name expected => .ok (conditionProblems registered place name expected)
  | rules list v => .ok ((unlessList (.rulesNotList list) v).map (⟨place, ·⟩))
  | expression v => expressionProblems v registered.names place
  | softRules v => .ok ((unlessList .softRulesNotList v).map (⟨place, ·⟩))
  | softRule v => .ok ((unlessObject .notObject v).map (⟨place, ·⟩))
  | weight v => .ok ((weightDefect? v).toList.map (⟨place, ·⟩))
  | subject v => .ok (subjectProblems registered.names place v)

namespace Spot

variable (registered outputs)

def problems (spot : Spot) : Except Fault (List Problem) :=
  spot.aspect.problems registered outputs spot.place

/-- The problems of spots, one spot after the other. -/
def walk (spots : List Spot) : Except Fault (List Problem) := do
  return (← spots.mapM (problems registered outputs)).flatten

variable {registered outputs}

theorem walk_append (before behind : List Spot) :
    walk registered outputs (before ++ behind) = do
      let first ← walk registered outputs before
      let second ← walk registered outputs behind
      return first ++ second := by
  simp [walk, List.mapM_append]

theorem walk_cons (spot : Spot) (behind : List Spot) :
    walk registered outputs (spot :: behind) = do
      let own ← spot.problems registered outputs
      let others ← walk registered outputs behind
      return own ++ others := by
  simp [walk]

theorem walk_cons_of_nil {spot : Spot} (h : spot.problems registered outputs = .ok [])
    (behind : List Spot) :
    walk registered outputs (spot :: behind) = walk registered outputs behind := by
  rw [walk_cons, h, Except.ok_bind]
  exact bind_pure _

theorem walk_flatMap {α : Type} (spots : α → List Spot) (xs : List α) :
    walk registered outputs (xs.flatMap spots) = do
      let found ← xs.mapM fun x => walk registered outputs (spots x)
      return found.flatten := by
  induction xs with
  | nil => rfl
  | cons x xs ih => simp [walk_append, ih]

theorem walk_map {α : Type} {spot : α → Spot} {found : α → List Problem}
    (h : ∀ x, (spot x).problems registered outputs = .ok (found x)) (xs : List α) :
    walk registered outputs (xs.map spot) = .ok (xs.flatMap found) := by
  induction xs with
  | nil => rfl
  | cons x xs ih =>
    rw [List.map_cons, walk_cons, h, ih]
    rfl

end Spot

/-! ### The check is a walk over the spots -/

open Spot

variable {place : Place} {output : String} {v : Value} {entries : Entries Value}

theorem walk_keySpots {known : List String} :
    walk registered outputs (keySpots known place entries) =
      .ok (unknownKeyProblems known place entries) := by
  have hspot : ∀ name, (⟨place, .key known name⟩ : Spot).problems registered outputs =
      .ok (if known.contains name then [] else [⟨place, .unknownKey name⟩]) := fun _ => rfl
  rw [keySpots, walk_map hspot, unknownKeyProblems, ← Text.filter_sorted]
  generalize Text.sorted entries.names = names
  induction names with
  | nil => rfl
  | cons name rest ih => by_cases h : name ∈ known <;> simp_all

theorem walk_conditionSpots :
    walk registered outputs (conditionSpots place v) =
      .ok (conditionsProblems registered place v) := by
  cases v with
  | object found =>
    have hspot : ∀ entry : String × Value,
        (⟨place, .condition entry.1 entry.2⟩ : Spot).problems registered outputs =
          .ok (conditionProblems registered place entry.1 entry.2) := fun _ => rfl
    rw [conditionSpots, walk_cons_of_nil rfl, walk_map hspot]
    rfl
  | _ => rfl

theorem walk_ruleSpots {list : RuleList} :
    walk registered outputs (ruleSpots output list v) =
      ruleListProblems registered.names output list v := by
  cases v with
  | list items =>
    rw [ruleSpots, walk_cons_of_nil rfl, walk, List.mapM_map]
    rfl
  | _ => rfl

theorem walk_softRuleSpots :
    walk registered outputs (softRuleSpots place v) =
      softRuleProblems registered.names place v := by
  cases v with
  | object entries =>
    have hcondition :
        (⟨place, .expression (field entries "condition")⟩ : Spot).problems registered outputs =
          expressionProblems (field entries "condition") registered.names place := rfl
    have hlast : walk registered outputs [⟨place, .weight (field entries "weight")⟩,
        ⟨place, .subject (field entries "variable")⟩] =
          .ok ((weightDefect? (field entries "weight")).toList.map (⟨place, ·⟩) ++
            subjectProblems registered.names place (field entries "variable")) :=
      (walk_cons _ _).trans (congrArg Except.ok (congrArg _ (List.append_nil _)))
    rw [softRuleSpots, walk_cons_of_nil rfl, walk_append, walk_keySpots, Except.ok_bind,
      softRuleProblems, walk_cons, hcondition, hlast]
    simp only [bind_assoc, pure_bind, Except.ok_bind, List.append_assoc]
  | _ => rfl

theorem walk_softRulesSpots :
    walk registered outputs (softRulesSpots output v) =
      softRulesProblems registered.names output v := by
  cases v with
  | list items =>
    rw [softRulesSpots, walk_cons_of_nil rfl, walk_flatMap]
    simp only [walk_softRuleSpots]
    rfl
  | _ => rfl

theorem walk_bundleSpots :
    walk registered outputs (bundleSpots output v) = do
      let own ← bundleProblems registered output v
      return (if outputs.contains output then []
        else [⟨.bundle output, .outputNotDeclared⟩]) ++ own := by
  cases v with
  | object entries =>
    rw [bundleSpots, walk_cons, walk_cons_of_nil rfl]
    simp only [walk_append, walk_keySpots, walk_conditionSpots, walk_ruleSpots, walk_softRulesSpots,
      bundleProblems, bind_assoc, Except.ok_bind, pure_bind, List.append_assoc]
    rfl
  | _ => rfl

/-- The check of a section of rules is a walk over its spots. -/
theorem ruleProblems_eq_walk {found : Entries Value} :
    ruleProblems registered outputs (.object found) = walk registered outputs (spots found) := by
  rw [spots, walk_flatMap]
  simp only [walk_bundleSpots]
  rfl

/-! ### What a spot contributes -/

theorem unlessObject_eq_nil_iff {defect : Defect} :
    unlessObject defect v = [] ↔ IsObject (fun _ => True) v := by
  cases v with
  | object entries => simp [unlessObject]
  | _ => exact iff_of_false (List.cons_ne_nil _ _) (not_isObject fun _ h => Value.noConfusion h)

theorem unlessList_eq_nil_iff {defect : Defect} :
    unlessList defect v = [] ↔ ∃ items, v = .list items := by
  cases v <;> simp [unlessList]

theorem Aspect.problems_eq_nil_iff {aspect : Aspect} :
    aspect.problems registered outputs place = .ok [] ↔ ¬aspect.Defective registered outputs := by
  cases aspect with
  | output name => simp [problems, Defective]
  | bundle v => simp [problems, Defective, unlessObject_eq_nil_iff]
  | key known name => simp [problems, Defective]
  | conditions v => simp [problems, Defective, unlessObject_eq_nil_iff]
  | condition name expected => simp [problems, Defective, conditionProblems_eq_nil_iff]
  | rules list v => simp [problems, Defective, unlessList_eq_nil_iff]
  | expression v =>
    rw [problems, expressionProblems_eq_nil_iff, Defective, not_not]
  | softRules v => simp [problems, Defective, unlessList_eq_nil_iff]
  | softRule v => simp [problems, Defective, unlessObject_eq_nil_iff]
  | weight v => simp [problems, Defective, weightDefect?_eq_none_iff]
  | subject v =>
    rw [problems, Except.ok.injEq, subjectProblems_eq_nil_iff, Defective, not_not]

def AllAt (place : Place) (found : List Problem) : Prop := ∀ problem ∈ found, problem.place = place

theorem allAt_map {α : Type} {defect : α → Defect} {xs : List α} :
    AllAt place (xs.map fun x => ⟨place, defect x⟩) := by
  intro problem hproblem
  obtain ⟨x, -, rfl⟩ := List.mem_map.mp hproblem
  rfl

theorem allAt_singleton {defect : Defect} : AllAt place [⟨place, defect⟩] :=
  List.forall_mem_singleton.mpr rfl

theorem allAt_ite {p : Prop} [Decidable p] {defect : Defect} :
    AllAt place (if p then [] else [⟨place, defect⟩]) := by
  split
  · exact List.forall_mem_nil _
  · exact allAt_singleton

theorem allAt_conditionProblems {name : String} {expected : Value} :
    AllAt place (conditionProblems registered place name expected) := by
  unfold conditionProblems
  split
  · exact allAt_singleton
  · refine List.forall_mem_append.mpr ⟨?_, allAt_map⟩
    split
    · exact allAt_singleton
    · exact List.forall_mem_nil _

theorem allAt_expressionProblems {declared : List String} {found : List Problem}
    (h : expressionProblems v declared place = .ok found) : AllAt place found := by
  unfold expressionProblems at h
  split at h
  · split at h
    · exact Except.ok.inj h ▸ allAt_singleton
    · split at h
      · exact Except.ok.inj h ▸ allAt_map
      · exact Except.ok.inj h ▸ allAt_singleton
      · cases h
  · exact Except.ok.inj h ▸ allAt_singleton

theorem allAt_subjectProblems {declared : List String} :
    AllAt place (subjectProblems declared place v) := by
  unfold subjectProblems
  split
  · exact List.forall_mem_nil _
  · exact allAt_ite
  · exact allAt_singleton

theorem Aspect.allAt_problems {aspect : Aspect} {found : List Problem}
    (h : aspect.problems registered outputs place = .ok found) : AllAt place found := by
  cases aspect with
  | output name => exact Except.ok.inj h ▸ allAt_ite
  | key known name => exact Except.ok.inj h ▸ allAt_ite
  | condition name expected => exact Except.ok.inj h ▸ allAt_conditionProblems
  | expression v => exact allAt_expressionProblems h
  | subject v => exact Except.ok.inj h ▸ allAt_subjectProblems
  | _ => exact Except.ok.inj h ▸ allAt_map

theorem exists_text_eq {problem : Problem} {location text : String}
    (hlocation : problem.place.text? = some location) (h : problem.text = .ok text) :
    ∃ rest, text = location ++ ": " ++ rest := by
  obtain ⟨defect, -, h⟩ := Except.bind_eq_ok.mp h
  rw [hlocation] at h
  exact ⟨defect, (Except.pure_eq_ok.mp h).symm⟩

namespace Spot

def check (registered : Entries Variable) (outputs : List String) (spot : Spot) :
    Except Fault (List String) := do
  Problem.texts (← spot.problems registered outputs)

def Defective (registered : Entries Variable) (outputs : List String) (spot : Spot) : Prop :=
  spot.aspect.Defective registered outputs

/-- What a spot contributes to the problems of a section: what is found by looking at it alone,
something exactly if it is defective, and each text with its location in front. -/
structure Contributes (registered : Entries Variable) (outputs : List String) (spot : Spot)
    (own : List String) : Prop where
  alone : spot.check registered outputs = .ok own
  defective : own ≠ [] ↔ spot.Defective registered outputs
  located : ∃ location, spot.place.text? = some location ∧
    ∀ text ∈ own, ∃ rest, text = location ++ ": " ++ rest

/-- The place of a spot has a wording, so that its problems are located. -/
def IsPlaced (spot : Spot) : Prop := ∃ location, spot.place.text? = some location

theorem isPlaced_keySpots {known : List String} {location : String}
    (h : place.text? = some location) : ∀ spot ∈ keySpots known place entries, spot.IsPlaced := by
  intro spot hspot
  obtain ⟨key, -, rfl⟩ := List.mem_map.mp hspot
  exact ⟨location, h⟩

theorem isPlaced_conditionSpots {location : String} (h : place.text? = some location) :
    ∀ spot ∈ conditionSpots place v, spot.IsPlaced := by
  refine List.forall_mem_cons.mpr ⟨⟨location, h⟩, ?_⟩
  split
  · intro spot hspot
    obtain ⟨entry, -, rfl⟩ := List.mem_map.mp hspot
    exact ⟨location, h⟩
  · exact List.forall_mem_nil _

theorem isPlaced_ruleSpots {list : RuleList} :
    ∀ spot ∈ ruleSpots output list v, spot.IsPlaced := by
  refine List.forall_mem_cons.mpr ⟨⟨_, rfl⟩, ?_⟩
  split
  · intro spot hspot
    obtain ⟨item, -, rfl⟩ := List.mem_map.mp hspot
    exact ⟨_, rfl⟩
  · exact List.forall_mem_nil _

theorem isPlaced_softRuleSpots {location : String} (h : place.text? = some location) :
    ∀ spot ∈ softRuleSpots place v, spot.IsPlaced := by
  refine List.forall_mem_cons.mpr ⟨⟨location, h⟩, ?_⟩
  split
  · refine List.forall_mem_append.mpr ⟨isPlaced_keySpots h, ?_⟩
    simp [IsPlaced, h]
  · exact List.forall_mem_nil _

theorem isPlaced_softRulesSpots : ∀ spot ∈ softRulesSpots output v, spot.IsPlaced := by
  refine List.forall_mem_cons.mpr ⟨⟨_, rfl⟩, ?_⟩
  split
  · intro spot hspot
    obtain ⟨item, -, hspot⟩ := List.mem_flatMap.mp hspot
    exact isPlaced_softRuleSpots rfl spot hspot
  · exact List.forall_mem_nil _

theorem isPlaced_bundleSpots : ∀ spot ∈ bundleSpots output v, spot.IsPlaced := by
  refine List.forall_mem_cons.mpr ⟨⟨_, rfl⟩, List.forall_mem_cons.mpr ⟨⟨_, rfl⟩, ?_⟩⟩
  split
  · simp only [List.forall_mem_append]
    exact ⟨⟨⟨⟨isPlaced_keySpots rfl, isPlaced_conditionSpots rfl⟩, isPlaced_ruleSpots⟩,
      isPlaced_ruleSpots⟩, isPlaced_softRulesSpots⟩
  · exact List.forall_mem_nil _

theorem isPlaced_of_mem_spots {found : Entries Value} : ∀ spot ∈ spots found, spot.IsPlaced := by
  intro spot hspot
  obtain ⟨entry, -, hspot⟩ := List.mem_flatMap.mp hspot
  exact isPlaced_bundleSpots spot hspot

theorem contributes_of_check {spot : Spot} {own : List String} (hplaced : spot.IsPlaced)
    (h : spot.check registered outputs = .ok own) :
    spot.Contributes registered outputs own := by
  obtain ⟨location, hlocation⟩ := hplaced
  obtain ⟨found, hfound, htexts⟩ := Except.bind_eq_ok.mp h
  have hpaired : List.Forall₂ (fun problem text => problem.text = .ok text) found own :=
    mapM_eq_ok_iff.mp htexts
  refine ⟨h, ?_, location, hlocation, fun text htext => ?_⟩
  · have hsilent : found = [] ↔ ¬spot.Defective registered outputs := by
      have hspot : spot.problems registered outputs = .ok [] ↔ _ := Aspect.problems_eq_nil_iff
      refine Iff.trans ?_ hspot
      exact ⟨fun hnil => hnil ▸ hfound, fun hnil => Except.ok.inj (hfound.symm.trans hnil)⟩
    have hlength := hpaired.length_eq
    rw [← not_iff_not, not_not, ← hsilent, ← List.length_eq_zero_iff, ← hlength,
      List.length_eq_zero_iff]
  · obtain ⟨problem, hproblem, hwording⟩ := exists_of_forall₂_right hpaired htext
    have hplace := Aspect.allAt_problems hfound problem hproblem
    exact exists_text_eq (hplace ▸ hlocation) hwording

end Spot

/-- Whenever the check of a section of rules ends, its problems are those that its spots contribute,
one spot after the other. So a defective spot has problems of its own in the list whatever else is
wrong, and there are none exactly if no spot is defective. -/
theorem no_defect_hides_another {found : Entries Value} {texts : List String}
    (h : (ruleProblems registered outputs (.object found) >>= Problem.texts) = .ok texts) :
    (∃ parts, List.Forall₂ (Spot.Contributes registered outputs) (spots found) parts ∧
      texts = parts.flatten) ∧
    (texts = [] ↔ ∀ spot ∈ spots found, ¬spot.Defective registered outputs) := by
  rw [ruleProblems_eq_walk, walk] at h
  obtain ⟨problems, hproblems, htexts⟩ := Except.bind_eq_ok.mp h
  obtain ⟨each, heach, hflatten⟩ := Except.bind_eq_ok.mp hproblems
  obtain rfl := Except.pure_eq_ok.mp hflatten
  obtain ⟨parts, hparts, rfl⟩ := exists_parts_of_mapM heach htexts
  have hcontributes : List.Forall₂ (Spot.Contributes registered outputs) (spots found) parts :=
    ((List.forall₂_and_left _ _).mpr ⟨Spot.isPlaced_of_mem_spots, hparts⟩).imp fun _ _ hspot =>
      Spot.contributes_of_check hspot.1 hspot.2
  refine ⟨⟨parts, hcontributes, rfl⟩, ?_⟩
  rw [List.flatten_eq_nil_iff]
  refine (forall_mem_iff_of_forall₂ hcontributes fun spot own hspot => ?_).symm
  rw [← hspot.defective, not_not]

theorem garden_named : "garden" ≠ "" := by decide

theorem garden_without_domain : VariableType.boolean = .choice → ([] : List String) ≠ [] := by
  decide

def gardenField : Variable := ⟨"garden", .boolean, [], garden_named, garden_without_domain⟩

/-- Rules with defects in every part of a bundle, and a bundle that is none. -/
def flawedRules : Entries Value :=
  [("A", .object [
      ("mandatory_conditions", .object [("cellar", .boolean true), ("garden", .int 1)]),
      ("colour", .null),
      ("inclusion_rules", .list [.text "garden", .text "cellar"]),
      ("exclusion_rules", .null),
      ("soft_rules", .list [.null,
        .object [("weight", .text "much"), ("variable", .text "pool")]])]),
   ("B", .null)]

def flawTexts : List String :=
  ["rules 'A': unknown key 'colour'",
   "rules 'A': unknown variable 'cellar' in mandatory_conditions",
   "rules 'A': mandatory condition on 'garden': expected a boolean, got 1",
   "rules 'A' inclusion_rules[1]: unknown variable 'cellar'",
   "rules 'A': exclusion_rules must be a list",
   "rules 'A' soft_rules[0]: must be an object",
   "rules 'A' soft_rules[1]: expression must be non-empty text",
   "rules 'A' soft_rules[1]: weight must be a number, got 'much'",
   "rules 'A' soft_rules[1]: unknown variable 'pool'",
   "rules 'B': output not declared",
   "rules 'B': bundle must be an object"]

theorem flaws_of_flawedRules :
    (ruleProblems [("garden", gardenField)] ["A"] (.object flawedRules) >>= Problem.texts) =
        .ok flawTexts ∧
      (∃ parts, List.Forall₂ (Spot.Contributes [("garden", gardenField)] ["A"])
        (spots flawedRules) parts ∧ flawTexts = parts.flatten) ∧
      (flawTexts = [] ↔ ∀ spot ∈ spots flawedRules,
        ¬spot.Defective [("garden", gardenField)] ["A"]) := by
  have hends : (ruleProblems [("garden", gardenField)] ["A"] (.object flawedRules) >>=
      Problem.texts) = .ok flawTexts := by
    decide +kernel
  exact ⟨hends, no_defect_hides_another hends⟩

end Shortlist.Document
