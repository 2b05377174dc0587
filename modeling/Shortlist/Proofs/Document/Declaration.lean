import Mathlib.Tactic.Common
import Shortlist.Proofs.Document.Value
import Shortlist.Proofs.Fallible

/-!
# Declarations without problems

The sections of variables and outputs are lists of objects. Where the check of such a section finds
nothing, every object spells what is declared by it, in the order of the section, with a name that
is new there. So reading the section cannot fail, although it reads missing keys as defaults.
-/

namespace Shortlist

theorem VariableType.ofWord?_eq_some_iff {word : String} {type : VariableType} :
    ofWord? word = some type ↔ word = type.word := by
  constructor
  · intro h
    have hfound := List.find?_some h
    exact (by simpa using hfound : type.word = word).symm
  · rintro rfl
    cases type <;> decide

/-- The name is one that rules may use, and no choice stands twice in the domain. -/
structure Variable.Proper (v : Variable) : Prop where
  identifier : Text.isIdentifier v.name = true
  not_reserved : Rule.isReserved v.name = false
  distinct : v.domain.Nodup

namespace Document

/-- An object declares a variable: it gives the name, the word of the type and, for a choice, the
domain. -/
structure SpellsVariable (v : Variable) (entries : Entries Value) : Prop where
  name : entries.get? "name" = some (.text v.name)
  type : entries.get? "type" = some (.text v.type.word)
  domain : v.type = .choice → entries.get? "domain" = some (.list (v.domain.map .text))
  no_domain : v.type ≠ .choice → v.domain = []

/-- An object declares an output: it gives the name and the description, which is empty if it is
left out. -/
structure SpellsOutput (output : Output) (entries : Entries Value) : Prop where
  name : entries.get? "name" = some (.text output.name)
  description : (entries.get? "description").getD (.text "") = .text output.description

/-- Items are objects that declare, one by one, what was found in them, under names that are
distinct and new. -/
structure Declares {α : Type} (name : α → String) (Spells : α → Entries Value → Prop)
    (seen : List String) (items : List Value) (found : List α) : Prop where
  spelled : List.Forall₂ (fun item a => IsObject (Spells a) item) items found
  distinct : (found.map name).Nodup
  new : ∀ a ∈ found, name a ∉ seen

variable {entries : Entries Value} {seen : List String}

theorem name?_of_get? {s : String} (h : name? entries = some s) :
    entries.get? "name" = some (.text s) :=
  get?_of_field (name?_eq_some_iff.mp h).1 nofun

section Declares

variable {α : Type} {name : α → String} {Spells : α → Entries Value → Prop}

theorem Declares.nil : Declares name Spells seen [] [] := ⟨.nil, .nil, nofun⟩

theorem Declares.cons {a : α} {items : List Value} {found : List α} (ha : Spells a entries)
    (hnew : name a ∉ seen) (h : Declares name Spells (name a :: seen) items found) :
    Declares name Spells seen (.object entries :: items) (a :: found) := by
  refine ⟨.cons ⟨entries, rfl, ha⟩ h.spelled, ?_, ?_⟩
  · refine List.nodup_cons.mpr ⟨fun hmem => ?_, h.distinct⟩
    obtain ⟨b, hb, hsame⟩ := List.mem_map.mp hmem
    exact h.new b hb (hsame ▸ List.mem_cons_self)
  · refine List.forall_mem_cons.mpr ⟨hnew, fun b hb hmem => ?_⟩
    exact h.new b hb (List.mem_cons_of_mem _ hmem)

theorem Declares.exists_spelled {items : List Value} {found : List α}
    (h : Declares name Spells seen items found) {a : α} (ha : a ∈ found) :
    ∃ entries, Value.object entries ∈ items ∧ Spells a entries := by
  obtain ⟨item, hitem, entries, rfl, hspells⟩ := exists_of_forall₂_right h.spelled ha
  exact ⟨entries, hitem, hspells⟩

end Declares

/-! ### Variables -/

theorem domainDefect?_eq_none_iff {domain : Value} :
    domainDefect? domain = none ↔
      ∃ texts, domain = .list (texts.map .text) ∧ texts ≠ [] ∧ texts.Nodup := by
  constructor
  · intro h
    unfold domainDefect? at h
    split at h
    · cases h
    · rename_i items hne
      split at h
      · cases h
      · rename_i texts htexts
        split at h
        · rename_i hdistinct
          obtain rfl := mapM_text?_eq_some_iff.mp htexts
          refine ⟨texts, rfl, ?_, hdistinct⟩
          rintro rfl
          exact hne rfl
        · cases h
    · cases h
  · rintro ⟨texts, rfl, hne, hdistinct⟩
    cases texts with
    | nil => exact absurd rfl hne
    | cons first rest =>
      have htexts := mapM_text?_eq_some_iff.mpr (rfl : (first :: rest).map Value.text = _)
      rw [List.map_cons] at htexts ⊢
      simp only [domainDefect?, htexts, if_pos hdistinct]

theorem typeDefect?_eq_none_iff :
    typeDefect? entries = none ↔
      ∃ type : VariableType, entries.get? "type" = some (.text type.word) ∧
        (type = .choice → domainDefect? (field entries "domain") = none) := by
  have hword : ∀ type : VariableType,
      (field entries "type").text?.bind VariableType.ofWord? = some type ↔
        entries.get? "type" = some (.text type.word) := by
    intro type
    rw [Option.bind_eq_some_iff]
    constructor
    · rintro ⟨word, hword, htype⟩
      obtain rfl := VariableType.ofWord?_eq_some_iff.mp htype
      exact get?_of_field (Value.text?_eq_some_iff.mp hword) nofun
    · intro h
      rw [field_of_get? h]
      exact ⟨type.word, rfl, VariableType.ofWord?_eq_some_iff.mpr rfl⟩
  unfold typeDefect?
  dsimp only
  split
  · rename_i hnone
    refine iff_of_false nofun ?_
    rintro ⟨type, htype, -⟩
    rw [(hword type).mpr htype] at hnone
    cases hnone
  · rename_i hchoice
    constructor
    · exact fun h => ⟨.choice, (hword _).mp hchoice, fun _ => h⟩
    · rintro ⟨type, htype, hdomain⟩
      rw [(hword type).mpr htype] at hchoice
      exact hdomain (Option.some.inj hchoice)
  · rename_i type hne htype
    exact iff_of_true rfl ⟨type, (hword type).mp htype, fun h => absurd h hne⟩

theorem variableNameDefect?_eq_none_iff {name : Option String} :
    variableNameDefect? seen name = none ↔ ∃ s, name = some s ∧
      Text.isIdentifier s = true ∧ Rule.isReserved s = false ∧ s ∉ seen := by
  cases name with
  | none => simp [variableNameDefect?]
  | some s =>
    rw [variableNameDefect?]
    simp only [Option.some.injEq, exists_eq_left']
    split
    · rename_i hbad
      refine iff_of_false nofun fun h => ?_
      simp [h.1, h.2.1] at hbad
    · rename_i hgood
      simp only [Bool.or_eq_true, Bool.not_eq_true', not_or, Bool.not_eq_false,
        Bool.not_eq_true] at hgood
      rw [and_iff_right hgood.1, and_iff_right hgood.2]
      by_cases hseen : s ∈ seen <;> simp [hseen]

theorem exists_declaredVariable (hname : variableNameDefect? seen (name? entries) = none)
    (htype : typeDefect? entries = none) :
    ∃ v, declaredVariable entries = .ok v ∧ (SpellsVariable v entries ∧ v.Proper) ∧
      name? entries = some v.name ∧ v.name ∉ seen := by
  obtain ⟨s, hs, hidentifier, hreserved, hnew⟩ := variableNameDefect?_eq_none_iff.mp hname
  obtain ⟨type, hword, hdomain⟩ := typeDefect?_eq_none_iff.mp htype
  have hne : s ≠ "" := (name?_eq_some_iff.mp hs).2
  have hread : (field entries "type").text?.bind VariableType.ofWord? = some type := by
    rw [field_of_get? hword]
    exact VariableType.ofWord?_eq_some_iff.mpr rfl
  by_cases hchoice : type = .choice
  · subst hchoice
    obtain ⟨texts, hlist, htexts, hdistinct⟩ := domainDefect?_eq_none_iff.mp (hdomain rfl)
    refine ⟨⟨s, .choice, texts, hne, fun _ => htexts⟩, ?_,
      ⟨⟨name?_of_get? hs, hword, fun _ => get?_of_field hlist nofun, fun h => absurd rfl h⟩,
        hidentifier, hreserved, hdistinct⟩, hs, hnew⟩
    rw [declaredVariable, hread, hs, hlist]
    simp [Variable.declare, hne, htexts]
  · refine ⟨⟨s, type, [], hne, fun h => absurd h hchoice⟩, ?_,
      ⟨⟨name?_of_get? hs, hword, fun h => absurd h hchoice, fun _ => rfl⟩,
        hidentifier, hreserved, .nil⟩, hs, hnew⟩
    rw [declaredVariable, hread, hs]
    simp [Variable.declare, hne, hchoice]

theorem exists_variables {index : Nat} {items : List Value}
    (h : variableProblemsFrom index seen items = []) :
    ∃ vs, (objectsOf (.list items)).mapM declaredVariable = .ok vs ∧
      Declares (·.name) (fun v entries => SpellsVariable v entries ∧ v.Proper) seen items vs := by
  fun_induction variableProblemsFrom index seen items with
  | case1 index seen => exact ⟨[], rfl, .nil⟩
  | case2 index seen entries rest place name nameDefect seen' ih =>
    simp only [List.append_eq_nil_iff, List.map_eq_nil_iff, Option.toList_eq_nil_iff] at h
    obtain ⟨⟨hname, htype⟩, hrest⟩ := h
    obtain ⟨v, hv, hspells, hs, hnew⟩ := exists_declaredVariable hname htype
    obtain ⟨vs, hvs, hdeclares⟩ := ih hrest
    have hseen : seen' = v.name :: seen := by simp [seen', name, nameDefect, hname, hs]
    rw [hseen] at hdeclares
    exact ⟨v :: vs, mapM_eq_ok_iff.mpr (.cons hv (mapM_eq_ok_iff.mp hvs)),
      hdeclares.cons hspells hnew⟩
  | case3 index seen item rest hother ih => cases h

/-- The section of variables is a list that declares the variables that are read from it. -/
theorem readVariables_of_problems {document : Entries Value}
    (h : variableProblems (field document "variables") = []) :
    ∃ items vs, document.get? "variables" = some (.list items) ∧ readVariables document = .ok vs ∧
      Declares (·.name) (fun v entries => SpellsVariable v entries ∧ v.Proper) [] items vs := by
  unfold variableProblems at h
  split at h
  · cases h
  · rename_i items hne hitems
    obtain ⟨vs, hvs, hdeclares⟩ := exists_variables h
    refine ⟨items, vs, get?_of_field hitems nofun, ?_, hdeclares⟩
    rw [readVariables, hitems, hvs]
  · cases h

/-! ### Outputs -/

theorem outputNameDefect?_eq_none_iff {name : Option String} :
    outputNameDefect? seen name = none ↔ ∃ s, name = some s ∧ s ∉ seen := by
  cases name with
  | none => simp [outputNameDefect?]
  | some s => by_cases hseen : s ∈ seen <;> simp [outputNameDefect?, hseen]

theorem descriptionDefect?_eq_none_iff :
    descriptionDefect? entries = none ↔ ∃ s, description entries = .text s := by
  unfold descriptionDefect?
  split
  · rename_i s hs
    exact iff_of_true rfl ⟨s, hs⟩
  · rename_i hother
    exact iff_of_false nofun fun ⟨s, hs⟩ => hother s hs

theorem exists_declaredOutput (hname : outputNameDefect? seen (name? entries) = none)
    (hdescription : descriptionDefect? entries = none) :
    ∃ output, declaredOutput entries = .ok output ∧ SpellsOutput output entries ∧
      name? entries = some output.name ∧ output.name ∉ seen := by
  obtain ⟨s, hs, hnew⟩ := outputNameDefect?_eq_none_iff.mp hname
  obtain ⟨text, htext⟩ := descriptionDefect?_eq_none_iff.mp hdescription
  have hne : s ≠ "" := (name?_eq_some_iff.mp hs).2
  refine ⟨⟨s, text, hne⟩, ?_, ⟨name?_of_get? hs, htext⟩, hs, hnew⟩
  rw [declaredOutput, hs, htext]
  exact dif_neg hne

theorem exists_outputs {index : Nat} {items : List Value}
    (h : outputProblemsFrom index seen items = []) :
    ∃ outputs, (objectsOf (.list items)).mapM declaredOutput = .ok outputs ∧
      Declares (·.name) SpellsOutput seen items outputs := by
  fun_induction outputProblemsFrom index seen items with
  | case1 index seen => exact ⟨[], rfl, .nil⟩
  | case2 index seen entries rest place name nameDefect seen' ih =>
    simp only [List.append_eq_nil_iff, List.map_eq_nil_iff, Option.toList_eq_nil_iff] at h
    obtain ⟨⟨hname, hdescription⟩, hrest⟩ := h
    obtain ⟨output, houtput, hspells, hs, hnew⟩ := exists_declaredOutput hname hdescription
    obtain ⟨outputs, houtputs, hdeclares⟩ := ih hrest
    have hseen : seen' = output.name :: seen := by simp [seen', name, nameDefect, hname, hs]
    rw [hseen] at hdeclares
    exact ⟨output :: outputs, mapM_eq_ok_iff.mpr (.cons houtput (mapM_eq_ok_iff.mp houtputs)),
      hdeclares.cons hspells hnew⟩
  | case3 index seen item rest hother ih => cases h

theorem readOutputs_of_problems {document : Entries Value}
    (h : outputProblems (field document "outputs") = []) :
    ∃ items outputs, document.get? "outputs" = some (.list items) ∧
      readOutputs document = .ok outputs ∧
      Declares (·.name) SpellsOutput [] items outputs := by
  unfold outputProblems at h
  split at h
  · cases h
  · rename_i items hne hitems
    obtain ⟨outputs, houtputs, hdeclares⟩ := exists_outputs h
    refine ⟨items, outputs, get?_of_field hitems nofun, ?_, hdeclares⟩
    rw [readOutputs, hitems, houtputs]
  · cases h

end Document

end Shortlist
