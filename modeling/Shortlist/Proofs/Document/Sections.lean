import Mathlib.Tactic.Common
import Shortlist.Proofs.Catalog.Stored
import Shortlist.Proofs.Document.Migration

/-!
# Documents in three parts

A document that is stored in three files is put together again from its sections. The version that
it states is lost with its other keys, so it is told from the first variable: a name stands under
another key in each version. A document of version 0 is recognized because it is accepted, since
its first variable then has a name under the old key. A document of the current version is
recognized unless its first variable has the old key besides, which the check of a document lets
pass like any key of a variable that it does not know.
-/

namespace Shortlist

namespace Document

/-- The keys of the sections of variables, outputs and rules in a version. -/
def sectionKeys (stated : Number) : String × String × String :=
  if stated.isZero then ("entradas", "salidas", "reglas") else ("variables", "outputs", "rules")

structure HasSections (document : Entries Value) (stated : Number)
    (declared outputs rules : Value) : Prop where
  declared : document.get? (sectionKeys stated).1 = some declared
  outputs : document.get? (sectionKeys stated).2.1 = some outputs
  rules : document.get? (sectionKeys stated).2.2 = some rules

variable {document others : Entries Value} {declared outputs rules v : Value}

theorem HasSections.of_isZero {stated : Number} (hzero : stated.isZero = true)
    (hdeclared : document.get? "entradas" = some declared)
    (houtputs : document.get? "salidas" = some outputs)
    (hrules : document.get? "reglas" = some rules) :
    HasSections document stated declared outputs rules := by
  have hkeys : sectionKeys stated = ("entradas", "salidas", "reglas") := if_pos hzero
  exact ⟨hkeys ▸ hdeclared, hkeys ▸ houtputs, hkeys ▸ hrules⟩

theorem HasSections.of_not_isZero {stated : Number} (hzero : stated.isZero = false)
    (hdeclared : document.get? "variables" = some declared)
    (houtputs : document.get? "outputs" = some outputs)
    (hrules : document.get? "rules" = some rules) :
    HasSections document stated declared outputs rules := by
  have hkeys : sectionKeys stated = ("variables", "outputs", "rules") :=
    if_neg (Bool.eq_false_iff.mp hzero)
  exact ⟨hkeys ▸ hdeclared, hkeys ▸ houtputs, hkeys ▸ hrules⟩

/-! ### What a version makes of the sections alone -/

theorem isZero_zero : (Number.int 0).isZero = true := Number.equal_int_iff.mpr rfl

theorem isZero_currentVersion : (Number.int currentVersion).isZero = false :=
  Bool.eq_false_iff.mpr fun h => by
    rw [Number.isZero, Number.equal_int_iff] at h
    exact absurd h (by decide)

theorem isSupportedVersion_currentVersion :
    isSupportedVersion (.int currentVersion) = true :=
  (Bool.or_eq_true _ _).mpr (.inr (Number.equal_int_iff.mpr rfl))

theorem migrate_sections (hdeclared : document.get? "entradas" = some declared)
    (houtputs : document.get? "salidas" = some outputs)
    (hrules : document.get? "reglas" = some rules) :
    migrate [("entradas", declared), ("salidas", outputs), ("reglas", rules)] =
      migrate document := by
  rw [migrate, migrate, field, field, field, field, hdeclared, houtputs, hrules]
  rfl

theorem current_former_sections :
    current [("entradas", declared), ("salidas", outputs), ("reglas", rules)] =
      .ok (migrate [("entradas", declared), ("salidas", outputs), ("reglas", rules)]) := by
  have hversion : version [("entradas", declared), ("salidas", outputs), ("reglas", rules)] =
      .ok (.int 0) := rfl
  rw [current_of_version hversion, if_pos isZero_zero]

theorem current_sections :
    current [("schema_version", .int currentVersion), ("variables", declared),
        ("outputs", outputs), ("rules", rules)] =
      .ok [("schema_version", .int currentVersion), ("variables", declared), ("outputs", outputs),
        ("rules", rules)] := by
  have hstated : Entries.get? [("schema_version", .int currentVersion), ("variables", declared),
      ("outputs", outputs), ("rules", rules)] "schema_version" = some (.int currentVersion) := rfl
  have hversion : version [("schema_version", .int currentVersion), ("variables", declared),
      ("outputs", outputs), ("rules", rules)] = .ok (.int currentVersion) := by
    rw [version, hstated]
    exact if_pos isSupportedVersion_currentVersion
  rw [current_of_version hversion, isZero_currentVersion, if_neg Bool.false_ne_true]

/-! ### The mark of version 0 -/

theorem exists_first_name (h : variableProblems v = []) :
    ∃ entries rest s, v = .list (.object entries :: rest) ∧ name? entries = some s := by
  unfold variableProblems at h
  split at h
  · cases h
  · rename_i items hne
    obtain _ | ⟨item, rest⟩ := items
    · exact absurd rfl hne
    · cases item with
      | object entries =>
        rw [variableProblemsFrom] at h
        have hdefects := (List.append_eq_nil_iff.mp h).1
        rw [List.map_eq_nil_iff, List.append_eq_nil_iff, Option.toList_eq_nil_iff] at hdefects
        obtain ⟨s, hs, -⟩ := variableNameDefect?_eq_none_iff.mp hdefects.1
        exact ⟨entries, rest, s, rfl, hs⟩
      | _ => cases h
  · cases h

theorem variableProblems_of_problems (h : problems document = .ok []) :
    variableProblems (field document "variables") = [] := by
  rw [problems] at h
  split at h
  · rename_i hsections
    exact (List.append_eq_nil_iff.mp hsections).1
  · rename_i hfound
    exact absurd (Except.ok.inj h) hfound

/-- A section of variables that has no problems after migration shows that it is of version 0. -/
theorem looksLegacy_of_migrated
    (h : variableProblems (onItems (onObject migrateVariable) v) = []) :
    Catalog.looksLegacy v = true := by
  obtain ⟨entries, rest, s, hlist, hname⟩ := exists_first_name h
  obtain ⟨items, rfl, hitems⟩ := onItems_eq_list_iff.mp hlist
  obtain ⟨first, behind, rfl, hfirst, -⟩ := List.map_eq_cons_iff.mp hitems
  obtain ⟨old, rfl, rfl⟩ := onObject_eq_object_iff.mp hfirst
  have hold : field old "nombre" = .text s := (name?_eq_some_iff.mp hname).1
  exact Entries.has_iff.mpr ⟨_, Entries.mem_of_get?_eq_some (get?_of_field hold nofun), rfl⟩

end Document

namespace Catalog

open Document

variable {files : Files} {first second third : String} {document others : Entries Value}
  {declared outputs rules : Value} {stated : Number} {catalog : Catalog}

theorem ofCurrent_congr (hdeclared : others.get? "variables" = document.get? "variables")
    (houtputs : others.get? "outputs" = document.get? "outputs")
    (hrules : others.get? "rules" = document.get? "rules") :
    ofCurrent others = ofCurrent document := by
  have hvariables : readVariables others = readVariables document := by
    rw [readVariables, field, hdeclared, readVariables, field]
  have hread : readOutputs others = readOutputs document := by
    rw [readOutputs, field, houtputs, readOutputs, field]
  have hsection : rulesSection others = rulesSection document := by
    rw [rulesSection, hrules, rulesSection]
  have hbundles : readBundles others = readBundles document := by
    rw [readBundles, hsection, readBundles]
  have hproblems : Document.problems others = Document.problems document := by
    rw [Document.problems, Document.problems, field, field, field, field, hdeclared, houtputs,
      hvariables, hread, hsection]
  rw [ofCurrent, ofCurrent, hproblems, hvariables, hread, hbundles]

/-- The sections of an accepted document make up a document that is loaded as the same catalog,
unless it is of the current version and its first variable bears the mark of version 0. -/
theorem load_joinSections (hload : load (.object document) = .ok catalog)
    (hversion : version document = .ok stated)
    (hsections : HasSections document stated declared outputs rules)
    (hmark : stated.isZero = false → looksLegacy declared = false) :
    load (joinSections declared outputs rules) = .ok catalog := by
  obtain ⟨hdeclared, houtputs, hrules⟩ := hsections
  rw [load_object (current_of_version hversion)] at hload
  cases hzero : stated.isZero with
  | true =>
    rw [hzero, if_pos rfl] at hload
    rw [sectionKeys, hzero, if_pos rfl] at hdeclared houtputs hrules
    have hproblems := (ofCurrent_eq_ok_iff.mp hload).1
    have hnone : variableProblems (field (migrate document) "variables") = [] :=
      variableProblems_of_problems hproblems
    have hfield : field (migrate document) "variables" =
        onItems (onObject migrateVariable) (field document "entradas") := rfl
    rw [hfield, field_of_get? hdeclared] at hnone
    rw [joinSections, if_pos (looksLegacy_of_migrated hnone),
      load_object current_former_sections, migrate_sections hdeclared houtputs hrules, hload]
  | false =>
    rw [hzero, if_neg Bool.false_ne_true] at hload
    rw [sectionKeys, hzero, if_neg Bool.false_ne_true] at hdeclared houtputs hrules
    rw [joinSections, hmark hzero, if_neg Bool.false_ne_true, load_object current_sections,
      ← hload]
    exact ofCurrent_congr hdeclared.symm houtputs.symm hrules.symm

/-- Three files with the sections of an accepted document are loaded as the same catalog as the
document, unless it is of the current version and its first variable bears the mark of
version 0. -/
theorem split_files_load_alike (hload : load (.object document) = .ok catalog)
    (hversion : version document = .ok stated)
    (hsections : HasSections document stated declared outputs rules)
    (hmark : stated.isZero = false → looksLegacy declared = false)
    (hfirst : Stores files first declared) (hsecond : Stores files second outputs)
    (hthird : Stores files third rules) :
    loadFiles files first second third = .ok catalog := by
  rw [loadFiles_of_stores hfirst hsecond hthird]
  exact load_joinSections hload hversion hsections hmark

/-! ### Documents given by their texts -/

/-- The texts of the sections of variables, outputs and rules. -/
structure Texts where
  declared : String
  outputs : String
  rules : String

namespace Texts

variable {texts : Texts}

def spelled (text : String) : Value := (Json.read text).toOption.getD .null

/-- A text spells a value, and its lines end with line feeds. -/
def isPlain (text : String) : Bool := (Json.read text).isOk && !text.toList.contains '\r'

def folder (texts : Texts) : Folder :=
  [(["variables.json"], texts.declared.toUTF8), (["outputs.json"], texts.outputs.toUTF8),
    (["rules.json"], texts.rules.toUTF8)]

/-- The document of version 0 with the sections that the texts spell. -/
def former (texts : Texts) : Entries Value :=
  [("entradas", spelled texts.declared), ("salidas", spelled texts.outputs),
    ("reglas", spelled texts.rules)]

/-- The document without a version with the sections that the texts spell. -/
def latest (texts : Texts) : Entries Value :=
  [("variables", spelled texts.declared), ("outputs", spelled texts.outputs),
    ("rules", spelled texts.rules)]

theorem version_former : version texts.former = .ok (.int 0) := rfl

theorem version_latest : version texts.latest = .ok (.int currentVersion) := rfl

theorem hasSections_former : HasSections texts.former (.int 0) (spelled texts.declared)
    (spelled texts.outputs) (spelled texts.rules) :=
  .of_isZero isZero_zero rfl rfl rfl

theorem hasSections_latest : HasSections texts.latest (.int currentVersion)
    (spelled texts.declared) (spelled texts.outputs) (spelled texts.rules) :=
  .of_not_isZero isZero_currentVersion rfl rfl rfl

theorem read_of_isPlain {text : String} (h : isPlain text = true) :
    Json.read text = .ok (spelled text) ∧ '\r' ∉ text.toList := by
  rw [isPlain, Bool.and_eq_true, Bool.not_eq_true', List.contains_eq_mem,
    decide_eq_false_iff_not] at h
  obtain ⟨v, hv⟩ := Except.exists_of_isOk h.1
  refine ⟨?_, h.2⟩
  rw [spelled, hv]
  rfl

theorem stores_of_isPlain {text : String} (h : isPlain text = true)
    (hstored : files (.ofText path) = .ok (some text.toUTF8)) : Stores files path (spelled text) :=
  stores_of_text hstored (read_of_isPlain h).2 (read_of_isPlain h).1

theorem stores_folder (hdeclared : isPlain texts.declared = true)
    (houtputs : isPlain texts.outputs = true) (hrules : isPlain texts.rules = true) :
    Stores texts.folder.files "variables.json" (spelled texts.declared) ∧
      Stores texts.folder.files "outputs.json" (spelled texts.outputs) ∧
      Stores texts.folder.files "rules.json" (spelled texts.rules) :=
  ⟨stores_of_isPlain hdeclared (by with_unfolding_all rfl),
    stores_of_isPlain houtputs (by with_unfolding_all rfl),
    stores_of_isPlain hrules (by with_unfolding_all rfl)⟩

end Texts

/-- Texts of version 0, for one variable and one output. -/
def formerGarden : Texts where
  declared := "[\x7b\"nombre\": \"garden\", \"tipo\": \"booleano\"\x7d]"
  outputs := "[\x7b\"nombre\": \"A\"\x7d]"
  rules := "\x7b\"A\": \x7b\x7d\x7d"

theorem formerGarden_loads_alike :
    ∃ catalog, load (.object formerGarden.former) = .ok catalog ∧
      loadFiles formerGarden.folder.files "variables.json" "outputs.json" "rules.json" =
        .ok catalog := by
  have haccepted : (load (.object formerGarden.former)).isOk = true := by decide +kernel
  obtain ⟨catalog, hload⟩ := Except.exists_of_isOk haccepted
  obtain ⟨hfirst, hsecond, hthird⟩ :=
    formerGarden.stores_folder (by decide +kernel) (by decide +kernel) (by decide +kernel)
  exact ⟨catalog, hload, split_files_load_alike hload Texts.version_former
    Texts.hasSections_former (fun h => absurd isZero_zero (Bool.eq_false_iff.mp h)) hfirst hsecond
    hthird⟩

/-- Texts of the current version for a variable with a name in two languages. -/
def bilingual : Texts where
  declared :=
    "[\x7b\"name\": \"garden\", \"type\": \"boolean\", \"nombre\": \"jardin\"\x7d]"
  outputs := "[\x7b\"name\": \"A\"\x7d]"
  rules := "\x7b\"A\": \x7b\x7d\x7d"

/-- The whole document is accepted, but its sections are taken for those of version 0. -/
theorem bilingual_sections_are_refused : ∃ catalog declared outputs rules,
    load (.object bilingual.latest) = .ok catalog ∧
      version bilingual.latest = .ok (.int currentVersion) ∧
      HasSections bilingual.latest (.int currentVersion) declared outputs rules ∧
      Stores bilingual.folder.files "variables.json" declared ∧
      Stores bilingual.folder.files "outputs.json" outputs ∧
      Stores bilingual.folder.files "rules.json" rules ∧
      ∀ other, loadFiles bilingual.folder.files "variables.json" "outputs.json" "rules.json" ≠
        .ok other := by
  have haccepted : (load (.object bilingual.latest)).isOk = true := by decide +kernel
  have hrefused : (load (joinSections (Texts.spelled bilingual.declared)
      (Texts.spelled bilingual.outputs) (Texts.spelled bilingual.rules))).isOk = false := by
    decide +kernel
  obtain ⟨catalog, hload⟩ := Except.exists_of_isOk haccepted
  obtain ⟨hfirst, hsecond, hthird⟩ :=
    bilingual.stores_folder (by decide +kernel) (by decide +kernel) (by decide +kernel)
  refine ⟨catalog, _, _, _, hload, Texts.version_latest, Texts.hasSections_latest, hfirst, hsecond,
    hthird, fun other h => ?_⟩
  rw [loadFiles_of_stores hfirst hsecond hthird] at h
  rw [h] at hrefused
  cases hrefused

end Catalog

end Shortlist
