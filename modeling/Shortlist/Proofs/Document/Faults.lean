import Mathlib.Tactic.Common
import Shortlist.Proofs.Document.Declaration
import Shortlist.Proofs.Document.Legible
import Shortlist.Proofs.Document.Loading
import Shortlist.Proofs.Rule.Judgement

/-!
# Where loading is a fault

Loading a document that can be written yields a catalog or a refusal, with one exception. The rules
are read while the document is checked, and a numeral without a value stops the reading as a fault
that no step catches. Every step of the check passes such a fault on, so loading is a fault exactly
if one of the texts that stand as rules has such a numeral. The rules are not looked at if the
variables or the outputs have problems.
-/

namespace Shortlist

/-! ### Steps that fail -/

def Fails {ε α : Type} (x : Except ε α) : Prop := ∃ e, x = .error e

section Fails

variable {ε α β : Type}

theorem not_fails_ok {a : α} : ¬Fails (.ok a : Except ε α) := nofun

theorem fails_bind {x : Except ε α} {f : α → Except ε β} {P : Prop} (h : ∀ a, Fails (f a) ↔ P) :
    Fails (x >>= f) ↔ Fails x ∨ P := by
  cases x with
  | error e => exact iff_of_true ⟨e, rfl⟩ (.inl ⟨e, rfl⟩)
  | ok a => exact (h a).trans (or_iff_right not_fails_ok).symm

theorem fails_map {x : Except ε α} {f : α → β} :
    Fails (x >>= fun a => pure (f a)) ↔ Fails x :=
  (fails_bind fun _ => iff_false_intro not_fails_ok).trans (or_iff_left not_false)

theorem fails_mapM {f : α → Except ε β} {xs : List α} :
    Fails (xs.mapM f) ↔ ∃ x ∈ xs, Fails (f x) := by
  induction xs with
  | nil => exact iff_of_false not_fails_ok (by rintro ⟨x, hx, -⟩; cases hx)
  | cons x xs ih =>
    rw [List.mapM_cons, fails_bind (P := ∃ y ∈ xs, Fails (f y)) fun _ => fails_map.trans ih]
    simp

end Fails

/-! ### Texts of rules -/

theorem Rule.Lexer.Reaches.exists_not_blank {cs later : List Char} (h : Reaches cs later)
    (hbad : Unreadable later) : ∃ c ∈ cs, Text.isBlank c = false := by
  induction h with
  | start cs =>
    obtain ⟨c, rest, rfl, -⟩ := hbad.starts
    exact ⟨c, List.mem_cons_self, hbad.not_isBlank⟩
  | blank _ _ ih =>
    obtain ⟨c, hc, hfilled⟩ := ih hbad
    exact ⟨c, List.mem_cons_of_mem _ hc, hfilled⟩
  | token hfilled _ _ _ => exact ⟨_, List.mem_cons_self, hfilled⟩

theorem Rule.not_hasUnreadableNumeral_of_isBlankText {text : String}
    (h : Text.isBlankText text = true) : ¬HasUnreadableNumeral text := by
  rintro ⟨later, hreach, hbad⟩
  obtain ⟨c, hc, hfilled⟩ := hreach.exists_not_blank hbad
  rw [Text.isBlankText, List.all_eq_true] at h
  rw [h c hc] at hfilled
  cases hfilled

theorem fails_expressionProblems {v : Value} {declared : List String} {place : Place} :
    Fails (expressionProblems v declared place) ↔
      ∃ text, v = .text text ∧ Rule.HasUnreadableNumeral text := by
  unfold expressionProblems
  split
  · rename_i text
    have htext : (∃ other, Value.text text = .text other ∧ Rule.HasUnreadableNumeral other) ↔
        Rule.HasUnreadableNumeral text :=
      ⟨by rintro ⟨_, ⟨⟩, h⟩; exact h, fun h => ⟨text, rfl, h⟩⟩
    rw [htext]
    split
    · rename_i hblank
      exact iff_of_false not_fails_ok (Rule.not_hasUnreadableNumeral_of_isBlankText hblank)
    · rw [← Rule.read_fault_iff]
      cases hread : Rule.read text with
      | ok rule => simp [Fails]
      | error e => cases e <;> simp [Fails]
  · rename_i hother
    refine iff_of_false not_fails_ok ?_
    rintro ⟨text, rfl, -⟩
    exact hother text rfl

namespace Document

/-- A text stands as a rule in a bundle: in one of the two lists or as the condition of a soft
rule. -/
def StandsIn (text : String) (bundle : Entries Value) : Prop :=
  (∃ list items, ruleList bundle list = .list items ∧ .text text ∈ items) ∨
    ∃ rule ∈ objectsOf (softRuleList bundle), field rule "condition" = .text text

/-- The variables and outputs have no problems, and a text that stands as a rule has a numeral
without a value. -/
structure HasUnreadableRule (document : Entries Value) : Prop where
  variable_section : variableProblems (field document "variables") = []
  output_section : outputProblems (field document "outputs") = []
  rule : ∃ bundle ∈ bundlesOf (rulesSection document), ∃ text, StandsIn text bundle ∧
    Rule.HasUnreadableNumeral text

variable {registered : Entries Variable} {declared : List String} {place : Place}
  {output : String} {v : Value}

theorem fails_flatten_mapM_indexed {α β : Type} {f : Nat × α → Except Fault (List β)}
    {items : List α} {Bad : α → Prop} (hf : ∀ index item, Fails (f (index, item)) ↔ Bad item) :
    Fails ((indexed items).mapM f >>= fun found => pure found.flatten) ↔
      ∃ item ∈ items, Bad item := by
  rw [fails_map, fails_mapM]
  constructor
  · rintro ⟨⟨index, item⟩, hmem, hfails⟩
    exact ⟨item, mem_iff_exists_indexed.mpr ⟨index, hmem⟩, (hf index item).mp hfails⟩
  · rintro ⟨item, hitem, hbad⟩
    obtain ⟨index, hmem⟩ := mem_iff_exists_indexed.mp hitem
    exact ⟨(index, item), hmem, (hf index item).mpr hbad⟩

theorem fails_ruleListProblems {list : RuleList} :
    Fails (ruleListProblems declared output list v) ↔
      ∃ text, (∃ items, v = .list items ∧ .text text ∈ items) ∧
        Rule.HasUnreadableNumeral text := by
  unfold ruleListProblems
  split
  · rename_i items
    rw [fails_flatten_mapM_indexed fun _ _ => fails_expressionProblems]
    constructor
    · rintro ⟨item, hitem, text, rfl, hbad⟩
      exact ⟨text, ⟨items, rfl, hitem⟩, hbad⟩
    · rintro ⟨text, ⟨_, ⟨⟩, hitem⟩, hbad⟩
      exact ⟨_, hitem, text, rfl, hbad⟩
  · rename_i hother
    refine iff_of_false not_fails_ok ?_
    rintro ⟨text, ⟨items, rfl, -⟩, -⟩
    exact hother items rfl

theorem fails_softRuleProblems :
    Fails (softRuleProblems declared place v) ↔ IsObject (fun rule =>
      ∃ text, field rule "condition" = .text text ∧ Rule.HasUnreadableNumeral text) v := by
  unfold softRuleProblems
  split
  · dsimp only
    rw [fails_map, fails_expressionProblems, isObject_object]
  · rename_i hother
    exact iff_of_false not_fails_ok (not_isObject hother)

theorem fails_softRulesProblems :
    Fails (softRulesProblems declared output v) ↔
      ∃ text, (∃ rule ∈ objectsOf v, field rule "condition" = .text text) ∧
        Rule.HasUnreadableNumeral text := by
  unfold softRulesProblems
  split
  · rename_i items
    rw [fails_flatten_mapM_indexed fun _ _ => fails_softRuleProblems]
    constructor
    · rintro ⟨item, hitem, rule, rfl, text, htext, hbad⟩
      exact ⟨text, ⟨rule, mem_objectsOf.mpr ⟨items, rfl, hitem⟩, htext⟩, hbad⟩
    · rintro ⟨text, ⟨rule, hrule, htext⟩, hbad⟩
      obtain ⟨_, ⟨⟩, hitem⟩ := mem_objectsOf.mp hrule
      exact ⟨_, hitem, rule, rfl, text, htext, hbad⟩
  · rename_i hother
    refine iff_of_false not_fails_ok ?_
    rintro ⟨text, ⟨rule, hrule, -⟩, -⟩
    obtain ⟨items, rfl, -⟩ := mem_objectsOf.mp hrule
    exact hother items rfl

theorem fails_bundleProblems :
    Fails (bundleProblems registered output v) ↔ IsObject (fun bundle =>
      ∃ text, StandsIn text bundle ∧ Rule.HasUnreadableNumeral text) v := by
  unfold bundleProblems
  split
  · dsimp only
    rw [isObject_object, fails_bind fun _ => fails_bind fun _ => fails_map, fails_ruleListProblems,
      fails_ruleListProblems, fails_softRulesProblems]
    constructor
    · rintro (⟨text, hitem, hbad⟩ | ⟨text, hitem, hbad⟩ | ⟨text, hrule, hbad⟩)
      · exact ⟨text, .inl ⟨.inclusion, hitem⟩, hbad⟩
      · exact ⟨text, .inl ⟨.exclusion, hitem⟩, hbad⟩
      · exact ⟨text, .inr hrule, hbad⟩
    · rintro ⟨text, ⟨list, hitem⟩ | hrule, hbad⟩
      · cases list with
        | inclusion => exact .inl ⟨text, hitem, hbad⟩
        | exclusion => exact .inr (.inl ⟨text, hitem, hbad⟩)
      · exact .inr (.inr ⟨text, hrule, hbad⟩)
  · rename_i hother
    exact iff_of_false not_fails_ok (not_isObject hother)

theorem fails_ruleProblems {outputs : List String} :
    Fails (ruleProblems registered outputs v) ↔ ∃ bundle ∈ bundlesOf v,
      ∃ text, StandsIn text bundle ∧ Rule.HasUnreadableNumeral text := by
  unfold ruleProblems
  split
  · rename_i found
    rw [fails_map, fails_mapM]
    constructor
    · rintro ⟨⟨output, value⟩, hentry, hfails⟩
      obtain ⟨bundle, rfl, hbad⟩ := fails_bundleProblems.mp (fails_map.mp hfails)
      exact ⟨bundle, mem_bundlesOf.mpr ⟨found, rfl, _, hentry, rfl⟩, hbad⟩
    · rintro ⟨bundle, hbundle, hbad⟩
      obtain ⟨_, ⟨⟩, ⟨output, value⟩, hentry, rfl⟩ := mem_bundlesOf.mp hbundle
      exact ⟨_, hentry, fails_map.mpr (fails_bundleProblems.mpr ⟨bundle, rfl, hbad⟩)⟩
  · rename_i hother
    refine iff_of_false not_fails_ok ?_
    rintro ⟨bundle, hbundle, -⟩
    obtain ⟨found, rfl, -⟩ := mem_bundlesOf.mp hbundle
    exact hother found rfl

/-! ### Documents -/

variable {document canonical : Entries Value}

/-- The check of a document is a fault if a rule has a numeral without a value. -/
theorem fails_problems : Fails (problems document) ↔ HasUnreadableRule document := by
  rw [problems]
  split
  · rename_i hsections
    obtain ⟨hvariables, houtputs⟩ := List.append_eq_nil_iff.mp hsections
    obtain ⟨items, vs, -, hvs, -⟩ := readVariables_of_problems hvariables
    obtain ⟨others, outputs, -, hread, -⟩ := readOutputs_of_problems houtputs
    rw [hvs, hread]
    exact fails_ruleProblems.trans ⟨fun h => ⟨hvariables, houtputs, h⟩, fun h => h.rule⟩
  · rename_i hfound
    refine iff_of_false not_fails_ok fun h => hfound ?_
    rw [h.variable_section, h.output_section]
    rfl

theorem allLegible_problems {found : List Problem} (hw : (Value.object document).isWritable = true)
    (h : problems document = .ok found) : AllLegible found := by
  rw [problems] at h
  split at h
  · rename_i hsections
    obtain ⟨hvariables, houtputs⟩ := List.append_eq_nil_iff.mp hsections
    obtain ⟨items, vs, -, hvs, -⟩ := readVariables_of_problems hvariables
    obtain ⟨others, outputs, -, hread, -⟩ := readOutputs_of_problems houtputs
    rw [hvs, hread] at h
    exact allLegible_ruleProblems (Value.isWritable_getD hw rfl) h
  · obtain rfl := Except.ok.inj h
    exact allLegible_append.mpr ⟨allLegible_variableProblems (Value.isWritable_getD hw rfl),
      allLegible_outputProblems⟩

/-! ### Migrated documents can be written -/

section Writable

variable {entries : Entries Value}

theorem isWritable_onObject {f : Entries Value → Entries Value}
    (hf : ∀ entries, (Value.object entries).isWritable = true →
      (Value.object (f entries)).isWritable = true) (hv : v.isWritable = true) :
    (onObject f v).isWritable = true := by
  cases v with
  | object entries => exact hf entries hv
  | _ => exact hv

theorem isWritable_onItems {f : Value → Value}
    (hf : ∀ item, item.isWritable = true → (f item).isWritable = true) (hv : v.isWritable = true) :
    (onItems f v).isWritable = true := by
  cases v with
  | list items =>
    refine Value.isWritable_list.mpr fun item hitem => ?_
    obtain ⟨old, hold, rfl⟩ := List.mem_map.mp hitem
    exact hf old (Value.isWritable_list.mp hv old hold)
  | _ => exact hv

theorem isWritable_renameKeys {table : Entries String}
    (h : (Value.object entries).isWritable = true) :
    (Value.object (renameKeys table entries)).isWritable = true := by
  have hempty : ∀ entry ∈ ([] : Entries Value), entry.2.isWritable = true := by simp
  refine Value.isWritable_object.mpr (Entries.forall_insertAll hempty ?_)
  intro pair hpair
  obtain ⟨entry, hentry, rfl⟩ := List.mem_map.mp hpair
  exact Value.isWritable_object.mp h entry hentry

theorem isWritable_migrateVariable (h : (Value.object entries).isWritable = true) :
    (Value.object (migrateVariable entries)).isWritable = true := by
  have hfield : ∀ key, (field entries key).isWritable = true := fun key =>
    Value.isWritable_getD h rfl
  rw [Value.isWritable_object, migrateVariable]
  refine List.forall_mem_append.mpr ⟨List.forall_mem_cons.mpr ⟨hfield _, ?_⟩, ?_⟩
  · refine List.forall_mem_singleton.mpr ?_
    split
    · rfl
    · exact hfield _
  · split
    · exact List.forall_mem_singleton.mpr (hfield _)
    · exact nofun

theorem isWritable_migrateOutput (h : (Value.object entries).isWritable = true) :
    (Value.object (migrateOutput entries)).isWritable = true :=
  Value.isWritable_object.mpr (List.forall_mem_cons.mpr
    ⟨Value.isWritable_getD h rfl, List.forall_mem_singleton.mpr (Value.isWritable_getD h rfl)⟩)

theorem isWritable_migrateBundle (h : (Value.object entries).isWritable = true) :
    (Value.object (migrateBundle entries)).isWritable = true := by
  have hrenamed : (Value.object (renameKeys legacyBundleKeys entries)).isWritable = true :=
    isWritable_renameKeys h
  rw [migrateBundle]
  split
  · rename_i items hitems
    have hsoft := Value.isWritable_object.mp hrenamed _ (Entries.mem_of_get?_eq_some hitems)
    refine Value.isWritable_object.mpr
      (Entries.forall_insert (Value.isWritable_object.mp hrenamed) ?_)
    exact isWritable_onItems (fun _ => isWritable_onObject fun _ => isWritable_renameKeys) hsoft
  · exact hrenamed

theorem isWritable_mapValues {f : Value → Value}
    (hf : ∀ value, value.isWritable = true → (f value).isWritable = true)
    (h : (Value.object entries).isWritable = true) :
    (Value.object (entries.mapValues fun _ => f)).isWritable = true := by
  refine Value.isWritable_object.mpr fun entry hentry => ?_
  obtain ⟨old, hold, rfl⟩ := List.mem_map.mp hentry
  exact hf old.2 (Value.isWritable_object.mp h old hold)

theorem isWritable_current (h : (Value.object document).isWritable = true)
    (hcurrent : current document = .ok canonical) :
    (Value.object canonical).isWritable = true := by
  obtain ⟨stated, -, hcurrent⟩ := Except.bind_eq_ok.mp hcurrent
  obtain rfl := Except.pure_eq_ok.mp hcurrent
  split
  · refine Value.isWritable_object.mpr (List.forall_mem_cons.mpr ⟨?_, List.forall_mem_cons.mpr
      ⟨?_, List.forall_mem_cons.mpr ⟨?_, List.forall_mem_singleton.mpr ?_⟩⟩⟩)
    · decide +kernel
    · exact isWritable_onItems (fun _ => isWritable_onObject fun _ => isWritable_migrateVariable)
        (Value.isWritable_getD h rfl)
    · exact isWritable_onItems (fun _ => isWritable_onObject fun _ => isWritable_migrateOutput)
        (Value.isWritable_getD h rfl)
    · exact isWritable_onObject (fun _ => isWritable_mapValues fun _ =>
        isWritable_onObject fun _ => isWritable_migrateBundle) (Value.isWritable_getD h rfl)
  · exact h

end Writable

theorem refused_of_version (h : (Value.object document).isWritable = true)
    {e : ConfigurationError} (hversion : version document = .error e) :
    ∃ found, e = .refused found ∧ AllLegible found := by
  have hlegible : ∀ stated, document.get? "schema_version" = some stated →
      AllLegible [.ofDocument (.unsupportedVersion stated)] := fun stated hstated =>
    allLegible_singleton (exists_wording (Value.exists_written?
      (Value.isWritable_object.mp h _ (Entries.mem_of_get?_eq_some hstated))))
  unfold version at hversion
  split at hversion
  · rename_i n hstated
    split at hversion
    · cases hversion
    · cases hversion
      exact ⟨_, rfl, hlegible _ hstated⟩
  · rename_i stated _ hstated
    cases hversion
    exact ⟨_, rfl, hlegible _ hstated⟩
  · cases hversion

end Document

namespace Catalog

/-- Loading yields a catalog or a refusal in words. -/
def Concludes (result : Except ConfigurationError Catalog) : Prop :=
  (∃ catalog, result = .ok catalog) ∨
    ∃ problems texts, result = .error (.refused problems) ∧ Problem.texts problems = .ok texts

theorem concludes_of_allLegible {found : List Problem} (h : AllLegible found) :
    Concludes (.error (.refused found)) := by
  obtain ⟨texts, htexts⟩ := h.exists_texts
  exact .inr ⟨found, texts, rfl, htexts⟩

variable {document canonical : Entries Value}

/-- A document that can be written is loaded or refused unless the check of it is a fault. -/
theorem concludes_ofCurrent_iff (hw : (Value.object canonical).isWritable = true)
    (hdistinct : ∀ found : Entries Value, Document.rulesSection canonical = .object found →
      found.names.Nodup) :
    Concludes (ofCurrent canonical) ↔ ¬Document.HasUnreadableRule canonical := by
  rw [← Document.fails_problems]
  cases hproblems : Document.problems canonical with
  | error f =>
    have hfault : ofCurrent canonical = .error (.fault f) := by
      rw [ofCurrent, hproblems]
      rfl
    refine iff_of_false ?_ (not_not_intro ⟨f, rfl⟩)
    rw [hfault]
    rintro (⟨catalog, ⟨⟩⟩ | ⟨problems, texts, ⟨⟩, -⟩)
  | ok found =>
    refine iff_of_true ?_ not_fails_ok
    by_cases hnone : found = []
    · subst hnone
      obtain ⟨catalog, hcatalog, -⟩ := exists_ofCurrent hproblems hdistinct
      exact .inl ⟨catalog, hcatalog⟩
    · rw [ofCurrent_of_problems hproblems hnone]
      exact concludes_of_allLegible (Document.allLegible_problems hw hproblems)

/-- Loading any value of which every integer can be written yields a catalog or a refusal in words,
unless it is a document in which a rule has a numeral without a value; then it yields neither. -/
theorem loading_concludes_iff {v : Value} (hw : v.isWritable = true)
    (hkeys : v.hasDistinctKeys = true) :
    Concludes (load v) ↔ ¬∃ document canonical, v = .object document ∧
      Document.current document = .ok canonical ∧ Document.HasUnreadableRule canonical := by
  cases v with
  | object document =>
    cases hcurrent : Document.current document with
    | error e =>
      have hrefused : load (.object document) = .error e := by
        rw [load, hcurrent]
        rfl
      refine iff_of_true ?_ (by rintro ⟨_, _, ⟨⟩, hother, -⟩; rw [hcurrent] at hother; cases hother)
      rcases Except.bind_eq_error.mp hcurrent with hversion | ⟨stated, -, ⟨⟩⟩
      obtain ⟨found, rfl, hlegible⟩ := Document.refused_of_version hw hversion
      rw [hrefused]
      exact concludes_of_allLegible hlegible
    | ok canonical =>
      rw [load_object hcurrent, concludes_ofCurrent_iff (Document.isWritable_current hw hcurrent)
        fun _ => Document.nodup_rulesSection hkeys hcurrent]
      refine not_congr ⟨fun h => ⟨document, canonical, rfl, hcurrent, h⟩, ?_⟩
      rintro ⟨_, other, ⟨⟩, hother, h⟩
      rw [hcurrent] at hother
      exact Except.ok.inj hother ▸ h
  | _ =>
    refine iff_of_true ?_ (by rintro ⟨_, _, ⟨⟩, -⟩)
    exact concludes_of_allLegible (allLegible_singleton ⟨_, rfl⟩)

theorem legacySpecimen_reads :
    ¬Document.HasUnreadableRule (Document.migrate Document.legacySpecimen) := by
  obtain ⟨catalog, hcatalog, -⟩ := exists_ofCurrent Document.problems_legacySpecimen
    fun _ => Document.nodup_rulesSection (by decide) Document.current_legacySpecimen
  have hload := (load_object Document.current_legacySpecimen).trans hcatalog
  exact fun h => (loading_concludes_iff (by decide +kernel) (by decide)).mp (.inl ⟨catalog, hload⟩)
    ⟨_, _, rfl, Document.current_legacySpecimen, h⟩

/-- A document with a superscript as its only rule; a superscript is a digit without a decimal
value. -/
def superscriptDocument : Entries Value :=
  [("variables", .list [.object [("name", .text "a"), ("type", .text "boolean")]]),
   ("outputs", .list [.object [("name", .text "A")]]),
   ("rules", .object [("A", .object [("inclusion_rules", .list [.text "²"])])])]

/-- Such a document is neither loaded nor refused, although every integer in it can be written. -/
theorem loading_escapes : (Value.object superscriptDocument).isWritable = true ∧
    (Value.object superscriptDocument).hasDistinctKeys = true ∧
      ¬Concludes (load (.object superscriptDocument)) := by
  have hfault : Fails (Document.problems superscriptDocument) := by
    have hstops : (Document.problems superscriptDocument).isOk = false := by decide +kernel
    cases hproblems : Document.problems superscriptDocument with
    | ok found =>
      rw [hproblems] at hstops
      cases hstops
    | error f => exact ⟨f, rfl⟩
  have hone : ¬(Number.int 1).isZero = true := by
    rw [Number.isZero, Number.equal_int_iff]
    decide
  have hcurrent : Document.current superscriptDocument = .ok superscriptDocument := by
    have hversion : Document.version superscriptDocument = .ok (.int 1) := rfl
    rw [Document.current_of_version hversion, if_neg hone]
  have hkeys : (Value.object superscriptDocument).hasDistinctKeys = true := by decide
  refine ⟨by decide, hkeys, ?_⟩
  rw [load_object hcurrent, concludes_ofCurrent_iff (by decide)
    fun _ => Document.nodup_rulesSection hkeys hcurrent]
  exact not_not_intro (Document.fails_problems.mp hfault)

end Catalog

end Shortlist
