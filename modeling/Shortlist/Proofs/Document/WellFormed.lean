import Mathlib.Tactic.Common
import Shortlist.Proofs.Catalog.Answer
import Shortlist.Proofs.Document.Loading
import Shortlist.Proofs.Rule.Binding

/-!
# Loaded catalogs are well formed

A catalog that comes out of a document is more than sound. The check of a catalog looks at names,
rules and weights, and it is the check of the document that makes the names of variables identifiers
and keeps the demands of the conditions within the types. With both, the rules of a loaded catalog
can always be read, and judging them never comes to a name that has no value.
-/

namespace Shortlist.Catalog

/-- What a catalog that has been loaded is known to be. -/
structure WellFormed (catalog : Catalog) : Prop where
  distinct_names : (catalog.registry.toList.map (·.name)).Nodup
  identifiers : ∀ v ∈ catalog.registry.toList,
    Text.isIdentifier v.name = true ∧ Rule.isReserved v.name = false
  domains : ∀ v ∈ catalog.registry.toList, v.type = .choice → v.domain ≠ [] ∧ v.domain.Nodup
  distinct_outputs : (catalog.outputs.map (·.name)).Nodup
  named_outputs : ∀ output ∈ catalog.outputs, output.name ≠ ""
  distinct_bundles : (catalog.bundles.map (·.output)).Nodup
  declared_bundles : ∀ b ∈ catalog.bundles, b.output ∈ catalog.outputs.map (·.name)
  texts : ∀ b ∈ catalog.bundles, ∀ text ∈ b.allTexts, ∃ rule, Rule.read text = .ok rule ∧
    ∀ name ∈ rule.tree.names, name ∈ catalog.declared
  conditions : ∀ b ∈ catalog.bundles, ∀ condition ∈ b.conditions,
    ∃ v ∈ catalog.registry.toList, v.name = condition.1 ∧ condition.2.Suits v
  subjects : ∀ b ∈ catalog.bundles, ∀ rule ∈ b.softRules, ∀ name, rule.subject = some name →
    name ∈ catalog.declared
  weights : ∀ b ∈ catalog.bundles, ∀ rule ∈ b.softRules, rule.weight.IsWeight

variable {catalog : Catalog}

theorem exists_of_load {v : Value} (h : load v = .ok catalog) :
    ∃ document canonical, v = .object document ∧ Document.current document = .ok canonical ∧
      ofCurrent canonical = .ok catalog := by
  cases v with
  | object document =>
    obtain ⟨canonical, hcurrent, hcatalog⟩ := Except.bind_eq_ok.mp h
    exact ⟨document, canonical, rfl, hcurrent, hcatalog⟩
  | _ => cases h

theorem soundParts_of_ofCurrent {document : Entries Value} (h : ofCurrent document = .ok catalog) :
    Document.SoundParts catalog.registry catalog.outputs catalog.bundles := by
  obtain ⟨hproblems, hread⟩ := ofCurrent_eq_ok_iff.mp h
  obtain ⟨registry, outputs, bundles, hparts, -, hsound⟩ := Document.exists_parts hproblems
  have hlist := Except.ok.inj (hparts.registry.symm.trans hread.registry)
  have hregistry : registry = catalog.registry := by
    cases registry
    cases hc : catalog.registry
    simpa [hc] using hlist
  obtain rfl := Except.ok.inj (hparts.outputs.symm.trans hread.outputs)
  obtain rfl := Except.ok.inj (hparts.bundles.symm.trans hread.bundles)
  exact hregistry ▸ hsound

theorem wellFormed_of_soundParts
    (h : Document.SoundParts catalog.registry catalog.outputs catalog.bundles) :
    catalog.WellFormed where
  distinct_names := catalog.registry.distinct
  identifiers v hv := ⟨(h.proper v hv).identifier, (h.proper v hv).not_reserved⟩
  domains v hv hchoice := ⟨v.domain_ne hchoice, (h.proper v hv).distinct⟩
  distinct_outputs := h.distinct
  named_outputs output _ := output.name_ne
  distinct_bundles := (problems_eq_nil_iff.mp catalog.sound).2.1
  declared_bundles b hb := (h.fitting b hb).1
  texts b hb text htext := by
    obtain ⟨rule, hread, hnames⟩ := ((h.fitting b hb).2.texts text htext).readable
    refine ⟨rule, hread, fun name hname => hnames name ?_⟩
    rw [Rule.names_of_read hread]
    exact List.mem_eraseDups.mpr hname
  conditions b hb condition hcondition := by
    obtain ⟨v, hv, hsuits⟩ := h.typed b hb condition hcondition
    obtain ⟨hmem, hname⟩ := Registry.get?_eq_some hv
    exact ⟨v, hmem, hname, hsuits⟩
  subjects b hb := (h.fitting b hb).2.subjects
  weights b hb := (h.fitting b hb).2.weights

/-- A loaded catalog is well formed. So its rules can be read, and whatever the assignment, judging
one of them fails neither at a name that is not declared nor at a variable that has no value. -/
theorem wellFormed_of_load {v : Value} (h : load v = .ok catalog) :
    catalog.WellFormed ∧ ∀ b ∈ catalog.bundles, ∀ text ∈ b.allTexts, ∀ A : Rule.Assignment,
      (∀ e, Rule.judgeText text A catalog.declared ≠ .ok (.rejected (.unreadable e))) ∧
      (∀ name, Rule.judgeText text A catalog.declared ≠
        .ok (.rejected (.failed (.unknownName name)))) ∧
      ∀ name, Rule.judgeText text A catalog.declared ≠
        .ok (.rejected (.failed (.unassigned name))) := by
  obtain ⟨document, canonical, rfl, -, hcatalog⟩ := exists_of_load h
  have hwell := wellFormed_of_soundParts (soundParts_of_ofCurrent hcatalog)
  refine ⟨hwell, fun b hb text htext A => ?_⟩
  obtain ⟨rule, hread, hnames⟩ := hwell.texts b hb text htext
  rw [Rule.judgeText, hread, Rule.judgeReading]
  refine ⟨fun e hrejected => ?_, fun name => Rule.judge_ne_rejected hread hnames rfl,
    fun name => Rule.judge_ne_rejected hread hnames rfl⟩
  exact Rule.judge_ne_unreadable hrejected

theorem wellFormed_legacySpecimen :
    ∃ catalog, load (.object Document.legacySpecimen) = .ok catalog ∧ catalog.WellFormed := by
  obtain ⟨catalog, hcatalog, -⟩ := exists_ofCurrent Document.problems_legacySpecimen
    fun _ => Document.nodup_rulesSection (by decide) Document.current_legacySpecimen
  have hload := (load_object Document.current_legacySpecimen).trans hcatalog
  exact ⟨catalog, hload, (wellFormed_of_load hload).1⟩

end Shortlist.Catalog
