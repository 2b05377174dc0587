import Mathlib.Tactic.Common
import Shortlist.Proofs.Document.Former
import Shortlist.Proofs.Document.Loading

/-!
# Migration keeps the meaning of a document

A document that is rendered in the old spelling and migrated has the problems that it had before,
and the same is read from it. The section of rules comes back as it was. Variables and outputs come
back with the keys that matter only, and with defaults in the place of what is missing, which the
check and the reading do not tell apart.
-/

namespace Shortlist

namespace Document

variable {document entries : Entries Value}

/-! ### Rules -/

theorem renameKeys_respell {there back : Entries String} {change : String → Value → Value}
    (hdistinct : entries.names.Nodup)
    (hback : ∀ key ∈ entries.names, renamed back (renamed there key) = key) :
    renameKeys back (respell there change entries) = entries.mapValues change := by
  have hmap : (respell there change entries).map (fun entry => (renamed back entry.1, entry.2)) =
      entries.mapValues change := by
    rw [respell, List.map_map, Entries.mapValues]
    refine List.map_congr_left fun entry hentry => ?_
    rw [Function.comp_apply, hback entry.1 (List.mem_map_of_mem hentry)]
  rw [renameKeys, hmap]
  refine Entries.insertAll_eq_append ?_ fun _ _ => List.not_mem_nil
  rw [Entries.names_mapValues]
  exact hdistinct

theorem renameKeys_formerSoftRule (hdistinct : entries.names.Nodup)
    (hlacks : Lacks ["condicion", "apoyo"] entries) :
    renameKeys legacySoftRuleKeys (formerSoftRule entries) = entries := by
  have hback : ∀ key ∈ entries.names,
      renamed legacySoftRuleKeys (renamed formerSoftRuleKeys key) = key := by
    intro key hkey
    refine renamed_renamed (by decide) ?_
    by_cases hvariable : key = "variable"
    · rw [hvariable]
      rfl
    · refine renamed_of_not_mem fun hmem => ?_
      simp only [legacySoftRuleKeys, Entries.names, List.map_cons, List.map_nil, List.mem_cons,
        hvariable, List.not_mem_nil, or_false] at hmem
      exact hlacks key (by simpa using hmem) hkey
  rw [formerSoftRule, renameKeys_respell hdistinct hback]
  exact Entries.mapValues_eq_self fun _ _ => rfl

theorem onItems_eq_list_iff {f : Value → Value} {v : Value} {found : List Value} :
    onItems f v = .list found ↔ ∃ items, v = .list items ∧ items.map f = found := by
  cases v <;> simp [onItems]

theorem onItems_of_ne_list {f : Value → Value} {v : Value} (h : ∀ items, v ≠ .list items) :
    onItems f v = v := by
  cases v with
  | list items => exact absurd rfl (h items)
  | _ => rfl

theorem onObject_comp_eq_self {f g : Entries Value → Entries Value} {v : Value}
    (h : ∀ entries, v = .object entries → g (f entries) = entries) :
    onObject g (onObject f v) = v := by
  cases v with
  | object entries => exact congrArg Value.object (h entries rfl)
  | _ => rfl

theorem formerBundleField_of_ne {key : String} {v : Value} (h : key ≠ "soft_rules") :
    formerBundleField key v = v := by
  unfold formerBundleField
  split
  · exact absurd rfl h
  · rfl

/-- Soft rules come back as they were, and so does what stands among them. -/
theorem map_renameKeys_formerSoftRule {items : List Value}
    (h : ∀ rule, .object rule ∈ items → rule.names.Nodup ∧ Lacks ["condicion", "apoyo"] rule) :
    (items.map (onObject formerSoftRule)).map (onObject (renameKeys legacySoftRuleKeys)) =
      items := by
  rw [List.map_map]
  refine (List.map_congr_left fun item hitem => ?_).trans (List.map_id items)
  refine onObject_comp_eq_self fun rule hrule => ?_
  obtain ⟨hdistinct, hlacks⟩ := h rule (hrule ▸ hitem)
  exact renameKeys_formerSoftRule hdistinct hlacks

theorem mapValues_formerBundleField (hdistinct : entries.names.Nodup)
    (h : ∀ items, entries.get? "soft_rules" ≠ some (.list items)) :
    entries.mapValues formerBundleField = entries := by
  refine Entries.mapValues_eq_self fun entry hentry => ?_
  by_cases hkey : entry.1 = "soft_rules"
  · have hget := (Entries.get?_eq_some_iff hdistinct).mpr hentry
    rw [hkey] at hget ⊢
    exact onItems_of_ne_list fun items hitems => h items (hitems ▸ hget)
  · exact formerBundleField_of_ne hkey

theorem nodup_of_mem_softRules {rule : Entries Value}
    (hkeys : (Value.object entries).hasDistinctKeys = true)
    (hrule : rule ∈ objectsOf (softRuleList entries)) : rule.names.Nodup := by
  obtain ⟨items, hitems, hitem⟩ := mem_objectsOf.mp hrule
  have hsoft : (softRuleList entries).hasDistinctKeys = true :=
    Value.hasDistinctKeys_getD hkeys rfl
  rw [hitems] at hsoft
  exact (Value.hasDistinctKeys_object.mp (Value.hasDistinctKeys_list.mp hsoft _ hitem)).1

theorem migrateBundle_formerBundle (hkeys : (Value.object entries).hasDistinctKeys = true)
    (hlacks : Lacks ["condiciones_obligatorias", "reglas_inclusion", "reglas_exclusion",
      "reglas_blandas"] entries)
    (hrules : ∀ rule ∈ objectsOf (softRuleList entries), Lacks ["condicion", "apoyo"] rule) :
    migrateBundle (formerBundle entries) = entries := by
  have hdistinct := (Value.hasDistinctKeys_object.mp hkeys).1
  have hback : ∀ key ∈ entries.names,
      renamed legacyBundleKeys (renamed formerBundleKeys key) = key := fun key hkey =>
    renamed_renamed (by decide) (renamed_of_not_mem fun hmem => hlacks key hmem hkey)
  have hchanged : (entries.mapValues formerBundleField).get? "soft_rules" =
      (entries.get? "soft_rules").map (onItems (onObject formerSoftRule)) :=
    Entries.get?_mapValues
  rw [migrateBundle, formerBundle, renameKeys_respell hdistinct hback, hchanged]
  -- With its keys renamed, the bundle is as it was but for the list of soft rules, if it has one.
  by_cases hlist : ∃ items, entries.get? "soft_rules" = some (.list items)
  · obtain ⟨items, hitems⟩ := hlist
    have hsoft : softRuleList entries = .list items := by
      rw [softRuleList, hitems]
      rfl
    have hrestored : (items.map (onObject formerSoftRule)).map
        (onObject (renameKeys legacySoftRuleKeys)) = items := by
      refine map_renameKeys_formerSoftRule fun rule hitem => ?_
      have hmem := mem_objectsOf.mpr ⟨items, hsoft, hitem⟩
      exact ⟨nodup_of_mem_softRules hkeys hmem, hrules rule hmem⟩
    rw [hitems]
    dsimp only [Option.map_some, onItems]
    rw [hrestored]
    exact Entries.insert_mapValues hdistinct hitems fun _ _ => formerBundleField_of_ne
  · split
    · rename_i items hitems
      obtain ⟨v, hv, hlistv⟩ := Option.map_eq_some_iff.mp hitems
      obtain ⟨found, rfl, -⟩ := onItems_eq_list_iff.mp hlistv
      exact absurd ⟨found, hv⟩ hlist
    · exact mapValues_formerBundleField hdistinct fun items hitems => hlist ⟨items, hitems⟩

theorem rulesSection_migrate_former (hkeys : (Value.object document).hasDistinctKeys = true)
    (hnew : NewWordsOnly document) :
    rulesSection (migrate (former document)) = rulesSection document := by
  have hget : (former document).get? "reglas" =
      (document.get? "rules").map (formerSection "rules") :=
    spellsWith_sectionKeys.get?_respell (by decide) hnew.sections
  have hsection : ((former document).get? "reglas").getD (.object []) =
      formerSection "rules" (rulesSection document) := by
    rw [hget]
    exact Option.getD_map (formerSection "rules") (.object []) (document.get? "rules")
  change onObject (Entries.mapValues fun _ => onObject migrateBundle)
    (((former document).get? "reglas").getD (.object [])) = _
  rw [hsection]
  refine onObject_comp_eq_self fun found hfound => ?_
  rw [Entries.mapValues_mapValues]
  refine Entries.mapValues_eq_self fun entry hentry => ?_
  refine onObject_comp_eq_self fun bundle hbundle => ?_
  have hmem : bundle ∈ bundlesOf (rulesSection document) :=
    mem_bundlesOf.mpr ⟨found, hfound, entry, hentry, hbundle⟩
  have hrules : (rulesSection document).hasDistinctKeys = true :=
    Value.hasDistinctKeys_getD hkeys rfl
  rw [hfound] at hrules
  have hdistinct := (Value.hasDistinctKeys_object.mp hrules).2 entry hentry
  rw [hbundle] at hdistinct
  exact migrateBundle_formerBundle hdistinct (hnew.bundle_keys bundle hmem)
    (hnew.soft_rule_keys bundle hmem)

/-! ### Variables -/

theorem objectsOf_onItems {g : Entries Value → Entries Value} {v : Value} :
    objectsOf (onItems (onObject g) v) = (objectsOf v).map g := by
  cases v with
  | list items =>
    rw [onItems, objectsOf, objectsOf, List.filterMap_map, List.map_filterMap]
    refine List.filterMap_congr fun item _ => ?_
    cases item <;> rfl
  | _ => rfl

theorem onItems_onItems {f g : Entries Value → Entries Value} {v : Value} :
    onItems (onObject g) (onItems (onObject f) v) = onItems (onObject (g ∘ f)) v := by
  cases v with
  | list items =>
    rw [onItems, onItems, onItems, List.map_map]
    refine congrArg Value.list (List.map_congr_left fun item _ => ?_)
    cases item <;> rfl
  | _ => rfl

/-- What the check and the reading see of a variable: the name, the type, and the domain as far as
it is given. -/
structure SameVariable (entries others : Entries Value) : Prop where
  name : field others "name" = field entries "name"
  type : field others "type" = field entries "type"
  domain : field others "domain" =
    if (field entries "domain").isTruthy then field entries "domain" else .null

theorem domainDefect?_of_isTruthy_eq_false {v : Value} (h : v.isTruthy = false) :
    domainDefect? v = domainDefect? .null := by
  cases v with
  | list items => cases items <;> first | rfl | cases h
  | _ => rfl

theorem textsOf_of_isTruthy_eq_false {v : Value} (h : v.isTruthy = false) : textsOf v = [] := by
  cases v with
  | list items => cases items <;> first | rfl | cases h
  | _ => rfl

namespace SameVariable

variable {others : Entries Value} (h : SameVariable entries others)

include h

theorem name?_eq : name? others = name? entries := by
  rw [name?, name?, h.name]

theorem typeDefect?_eq : typeDefect? others = typeDefect? entries := by
  have hdomain :
      domainDefect? (field others "domain") = domainDefect? (field entries "domain") := by
    rw [h.domain]
    split
    · rfl
    · rename_i hfalsy
      exact (domainDefect?_of_isTruthy_eq_false (Bool.not_eq_true _ ▸ hfalsy)).symm
  rw [typeDefect?, typeDefect?, h.type, hdomain]

theorem declaredVariable_eq : declaredVariable others = declaredVariable entries := by
  have hdomain : textsOf (field others "domain") = textsOf (field entries "domain") := by
    rw [h.domain]
    split
    · rfl
    · rename_i hfalsy
      exact (textsOf_of_isTruthy_eq_false (Bool.not_eq_true _ ▸ hfalsy)).symm
  rw [declaredVariable, declaredVariable, h.type, h.name?_eq, hdomain]

end SameVariable

theorem onText_onText {v : Value}
    (h : ∀ word ∈ ["booleano", "numero", "texto"], v.text? ≠ some word) :
    onText (renamed legacyTypes) (onText (renamed formerTypes) v) = v := by
  cases v with
  | text s =>
    have hkept : renamed legacyTypes s = s :=
      renamed_of_not_mem fun hmem => h s hmem rfl
    exact congrArg Value.text (renamed_renamed (by decide) hkept)
  | _ => rfl

theorem sameVariable_migrateVariable (hlacks : Lacks ["nombre", "tipo", "opciones"] entries)
    (htype : ∀ word ∈ ["booleano", "numero", "texto"], (field entries "type").text? ≠ some word) :
    SameVariable entries
      (migrateVariable (respell formerVariableKeys formerVariableField entries)) := by
  have hfield : ∀ source target : String, (source, target) ∈ formerVariableKeys →
      field (respell formerVariableKeys formerVariableField entries) target =
        formerVariableField source (field entries source) := by
    intro source target hpair
    refine spellsWith_variableKeys.field_respell hpair hlacks ?_
    unfold formerVariableField
    split <;> rfl
  have hword := hfield "type" "tipo" (by decide)
  have hdomain : field (respell formerVariableKeys formerVariableField entries) "opciones" =
      field entries "domain" := hfield "domain" "opciones" (by decide)
  refine ⟨hfield "name" "nombre" (by decide), ?_, ?_⟩
  · change onText (renamed legacyTypes)
      (field (respell formerVariableKeys formerVariableField entries) "tipo") = _
    rw [hword]
    exact onText_onText htype
  · rw [migrateVariable, hdomain]
    by_cases hgiven : (field entries "domain").isTruthy = true
    · rw [if_pos hgiven, if_pos hgiven]
      rfl
    · rw [if_neg hgiven, if_neg hgiven]
      rfl

theorem variableProblemsFrom_map {g : Entries Value → Entries Value} {items : List Value}
    (h : ∀ entries, .object entries ∈ items → SameVariable entries (g entries)) {index : Nat}
    {seen : List String} :
    variableProblemsFrom index seen (items.map (onObject g)) =
      variableProblemsFrom index seen items := by
  induction items generalizing index seen with
  | nil => rfl
  | cons item rest ih =>
    have hrest := fun {index} {seen} => @ih (fun entries hmem =>
      h entries (List.mem_cons_of_mem _ hmem)) index seen
    cases item with
    | object entries =>
      have hsame := h entries List.mem_cons_self
      rw [List.map_cons, onObject, variableProblemsFrom, variableProblemsFrom, hsame.name?_eq,
        hsame.typeDefect?_eq, hrest]
    | _ => exact congrArg (List.cons ⟨.variableAt index, .notObject⟩) hrest

/-- Rendering and migrating the section of variables changes neither its problems nor what is read
from it. -/
theorem variables_onItems {g : Entries Value → Entries Value} {v : Value}
    (h : ∀ entries ∈ objectsOf v, SameVariable entries (g entries)) :
    variableProblems (onItems (onObject g) v) = variableProblems v ∧
      (objectsOf (onItems (onObject g) v)).mapM declaredVariable =
        (objectsOf v).mapM declaredVariable := by
  constructor
  · cases v with
    | list items =>
      have hitems := fun entries hmem => h entries (mem_objectsOf.mpr ⟨items, rfl, hmem⟩)
      cases items with
      | nil => rfl
      | cons item rest => exact variableProblemsFrom_map hitems
    | _ => rfl
  · rw [objectsOf_onItems, List.mapM_map]
    exact mapM_congr fun entries hentries => (h entries hentries).declaredVariable_eq

/-! ### Outputs -/

/-- What the check and the reading see of an output: the name and the description. -/
structure SameOutput (entries others : Entries Value) : Prop where
  name : field others "name" = field entries "name"
  description : description others = description entries

theorem SameOutput.name?_eq {others : Entries Value} (h : SameOutput entries others) :
    name? others = name? entries := by
  rw [name?, name?, h.name]

theorem sameOutput_migrateOutput (hlacks : Lacks ["nombre", "descripcion"] entries) :
    SameOutput entries (migrateOutput (respell formerOutputKeys (fun _ v => v) entries)) := by
  have hget : ∀ source target : String, (source, target) ∈ formerOutputKeys →
      (respell formerOutputKeys (fun _ v => v) entries).get? target = entries.get? source := by
    intro source target hpair
    rw [spellsWith_outputKeys.get?_respell hpair hlacks, Option.map_id']
  have hname := hget "name" "nombre" (by decide)
  have hdescription := hget "description" "descripcion" (by decide)
  refine ⟨?_, ?_⟩
  · change ((respell formerOutputKeys (fun _ v => v) entries).get? "nombre").getD .null = _
    rw [hname]
    rfl
  · change ((respell formerOutputKeys (fun _ v => v) entries).get? "descripcion").getD
      (.text "") = _
    rw [hdescription]
    rfl

theorem outputProblemsFrom_map {g : Entries Value → Entries Value} {items : List Value}
    (h : ∀ entries, .object entries ∈ items → SameOutput entries (g entries)) {index : Nat}
    {seen : List String} :
    outputProblemsFrom index seen (items.map (onObject g)) =
      outputProblemsFrom index seen items := by
  induction items generalizing index seen with
  | nil => rfl
  | cons item rest ih =>
    have hrest := fun {index} {seen} => @ih (fun entries hmem =>
      h entries (List.mem_cons_of_mem _ hmem)) index seen
    cases item with
    | object entries =>
      have hsame := h entries List.mem_cons_self
      rw [List.map_cons, onObject, outputProblemsFrom, outputProblemsFrom, hsame.name?_eq,
        descriptionDefect?, descriptionDefect?, hsame.description, hrest]
    | _ => exact congrArg (List.cons ⟨.outputAt index, .notObject⟩) hrest

theorem outputs_onItems {g : Entries Value → Entries Value} {v : Value}
    (h : ∀ entries ∈ objectsOf v, SameOutput entries (g entries)) :
    outputProblems (onItems (onObject g) v) = outputProblems v ∧
      (objectsOf (onItems (onObject g) v)).mapM declaredOutput =
        (objectsOf v).mapM declaredOutput := by
  constructor
  · cases v with
    | list items =>
      have hitems := fun entries hmem => h entries (mem_objectsOf.mpr ⟨items, rfl, hmem⟩)
      cases items with
      | nil => rfl
      | cons item rest => exact outputProblemsFrom_map hitems
    | _ => rfl
  · rw [objectsOf_onItems, List.mapM_map]
    refine mapM_congr fun entries hentries => ?_
    have hsame := h entries hentries
    change declaredOutput (g entries) = declaredOutput entries
    unfold declaredOutput
    rw [hsame.name?_eq, hsame.description]

/-! ### Documents -/

theorem fields_migrate_former (hnew : NewWordsOnly document) :
    field (migrate (former document)) "variables" = onItems (onObject fun entries =>
        migrateVariable (respell formerVariableKeys formerVariableField entries))
          (field document "variables") ∧
      field (migrate (former document)) "outputs" = onItems (onObject fun entries =>
        migrateOutput (respell formerOutputKeys (fun _ v => v) entries))
          (field document "outputs") := by
  have hvariables : field (former document) "entradas" =
      formerSection "variables" (field document "variables") :=
    spellsWith_sectionKeys.field_respell (by decide) hnew.sections rfl
  have houtputs : field (former document) "salidas" =
      formerSection "outputs" (field document "outputs") :=
    spellsWith_sectionKeys.field_respell (by decide) hnew.sections rfl
  constructor
  · change onItems (onObject migrateVariable) (field (former document) "entradas") = _
    rw [hvariables]
    exact onItems_onItems
  · change onItems (onObject migrateOutput) (field (former document) "salidas") = _
    rw [houtputs]
    exact onItems_onItems

/-- A document that is rendered and migrated has the problems of the document, and the same parts
are read from it. -/
theorem parts_migrate_former (hkeys : (Value.object document).hasDistinctKeys = true)
    (hnew : NewWordsOnly document) :
    problems (migrate (former document)) = problems document ∧
      readVariables (migrate (former document)) = readVariables document ∧
      readOutputs (migrate (former document)) = readOutputs document ∧
      readBundles (migrate (former document)) = readBundles document := by
  obtain ⟨hvariablefield, houtputfield⟩ := fields_migrate_former hnew
  obtain ⟨hvariableproblems, hvariables⟩ := variables_onItems (v := field document "variables")
    fun entries hmem => sameVariable_migrateVariable (hnew.variable_keys entries hmem)
      (hnew.variable_types entries hmem)
  obtain ⟨houtputproblems, houtputs⟩ := outputs_onItems (v := field document "outputs")
    fun entries hmem => sameOutput_migrateOutput (hnew.output_keys entries hmem)
  rw [← hvariablefield] at hvariableproblems hvariables
  rw [← houtputfield] at houtputproblems houtputs
  have hrules := rulesSection_migrate_former hkeys hnew
  refine ⟨?_, hvariables, houtputs, ?_⟩
  · rw [problems, problems, hvariableproblems, houtputproblems, hrules]
    rw [readVariables, readVariables, readOutputs, readOutputs, hvariables, houtputs]
  · rw [readBundles, readBundles, hrules]

theorem version_former (hlacks : Lacks ["entradas", "salidas", "reglas"] document) {v : Value}
    (hvariables : document.get? "variables" = some v) :
    version (former document) = .ok (.int 0) := by
  have hstated : (former document).get? "schema_version" =
      (document.get? "schema_version").map (formerSection "schema_version") :=
    get?_respell rfl fun _ _ => eq_of_renamed (by decide) id
  have hsection : (former document).get? "entradas" = some (formerSection "variables" v) := by
    rw [← Option.map_some, ← hvariables]
    exact spellsWith_sectionKeys.get?_respell (by decide) hlacks
  have hlegacy : (former document).has "entradas" = true :=
    Entries.has_iff.mpr ⟨_, Entries.mem_of_get?_eq_some hsection, rfl⟩
  have hsupported : isSupportedVersion (.int 0) = true :=
    (Bool.or_eq_true _ _).mpr (.inl (Number.equal_int_iff.mpr rfl))
  rw [version, hstated]
  cases document.get? "schema_version" with
  | none =>
    dsimp only [Option.map_none]
    rw [hlegacy]
    rfl
  | some w => exact if_pos hsupported

/-- Rendering a document in the old spelling and migrating it changes nothing that matters: the
problems are the same, and if there are none, the document and its rendering are loaded as the same
catalog. -/
theorem migration_keeps_meaning (hkeys : (Value.object document).hasDistinctKeys = true)
    {stated : Number} (hversion : version document = .ok stated)
    (hcurrent : stated.equal (.int currentVersion) = true) (hnew : NewWordsOnly document) :
    problems (migrate (former document)) = problems document ∧
      (problems document = .ok [] → ∃ catalog, Catalog.load (.object document) = .ok catalog ∧
        Catalog.load (.object (former document)) = .ok catalog) := by
  obtain ⟨hproblems, hvariables, houtputs, hbundles⟩ := parts_migrate_former hkeys hnew
  refine ⟨hproblems, fun hnone => ?_⟩
  have hnonzero : ¬stated.isZero = true := by
    rw [Number.isZero, Number.equal_congr hcurrent, Number.equal_int_iff]
    decide
  have hsame : current document = .ok document := by
    rw [current_of_version hversion, if_neg hnonzero]
  obtain ⟨catalog, hcatalog, hholds⟩ := Catalog.exists_ofCurrent hnone
    fun _ => nodup_rulesSection hkeys hsame
  obtain ⟨items, hitems, -⟩ := hholds.variable_section
  have hzero : (Number.int 0).isZero = true := Number.equal_int_iff.mpr rfl
  have hformer : current (former document) = .ok (migrate (former document)) := by
    rw [current_of_version (version_former hnew.sections hitems), if_pos hzero]
  obtain ⟨-, hread⟩ := Catalog.ofCurrent_eq_ok_iff.mp hcatalog
  have hmigrated : Catalog.ofCurrent (migrate (former document)) = .ok catalog :=
    Catalog.ofCurrent_eq_ok_iff.mpr ⟨hproblems.trans hnone, hvariables.trans hread.registry,
      houtputs.trans hread.outputs, hbundles.trans hread.bundles⟩
  exact ⟨catalog, (Catalog.load_object hsame).trans hcatalog,
    (Catalog.load_object hformer).trans hmigrated⟩

/-- A document in the new spelling, with a variable of every type and a rule of every kind. -/
def specimen : Entries Value :=
  [("variables", .list [
      .object [("name", .text "kind"), ("type", .text "enum"),
        ("domain", .list [.text "home", .text "shop"])],
      .object [("name", .text "garden"), ("type", .text "boolean")],
      .object [("name", .text "rooms"), ("type", .text "number")]]),
   ("outputs", .list [.object [("name", .text "A"), ("description", .text "for homes")]]),
   ("rules", .object [("A", .object [
      ("mandatory_conditions", .object [("kind", .text "home")]),
      ("inclusion_rules", .list [.text "rooms > 2"]),
      ("exclusion_rules", .list [.text "!garden"]),
      ("soft_rules", .list [.object [("condition", .text "garden"), ("weight", .int 2),
        ("variable", .text "rooms")]])])])]

theorem specimen_keeps_meaning :
    problems specimen = .ok [] ∧ ∃ catalog, Catalog.load (.object specimen) = .ok catalog ∧
      Catalog.load (.object (former specimen)) = .ok catalog := by
  have hnone : problems specimen = .ok [] := Except.eq_ok_nil_of_length (by decide +kernel)
  have hnew : NewWordsOnly specimen :=
    ⟨by decide, by decide, by decide, by decide, by decide, by decide⟩
  exact ⟨hnone, (migration_keeps_meaning (by decide) rfl
    (Number.equal_int_iff.mpr rfl) hnew).2 hnone⟩

end Document

end Shortlist
