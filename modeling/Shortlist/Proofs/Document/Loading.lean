import Mathlib.Tactic.Common
import Shortlist.Proofs.Document.Declaration
import Shortlist.Proofs.Document.Reading

/-!
# Documents without problems are loaded

A document is checked, and what is read from it is checked twice more, as a registry and as a
catalog. A document without problems has sections that spell variables, outputs and bundles, and
these parts pass the later checks, so that the first check decides alone. The only thing that the
parts do not show is that no output has two bundles; it comes from the keys of the object.
-/

namespace Shortlist

namespace Document

variable {document : Entries Value} {registry : Registry} {outputs : List Output}
  {bundles : List Bundle}

/-- The sections of a document spell variables, outputs and bundles in order; a section of rules
that is left out spells no bundles. -/
structure Spells (document : Entries Value) (vs : List Variable) (outputs : List Output)
    (bundles : List Bundle) : Prop where
  variable_section : ∃ items, document.get? "variables" = some (.list items) ∧
    List.Forall₂ (fun item v => IsObject (SpellsVariable v) item) items vs
  output_section : ∃ items, document.get? "outputs" = some (.list items) ∧
    List.Forall₂ (fun item output => IsObject (SpellsOutput output) item) items outputs
  rule_section : IsObject (fun found =>
      List.Forall₂ (fun entry b => b.output = entry.1 ∧ IsObject (SpellsBundle b) entry.2)
        found bundles)
    ((document.get? "rules").getD (.object []))

/-- The parts that a document without problems has. -/
structure SoundParts (registry : Registry) (outputs : List Output) (bundles : List Bundle) :
    Prop where
  proper : ∀ v ∈ registry.toList, v.Proper
  distinct : (outputs.map (·.name)).Nodup
  fitting : ∀ b ∈ bundles, b.output ∈ outputs.map (·.name) ∧ b.Fits registry
  typed : ∀ b ∈ bundles, ∀ condition ∈ b.conditions,
    ∃ v, registry.get? condition.1 = some v ∧ condition.2.Suits v

structure ReadParts (document : Entries Value) (vs : List Variable) (outputs : List Output)
    (bundles : List Bundle) : Prop where
  registry : readVariables document = .ok vs
  outputs : readOutputs document = .ok outputs
  bundles : readBundles document = .ok bundles

/-- The variables by name, as the check of the rules looks them up. -/
def registered (vs : List Variable) : Entries Variable := .ofList (vs.map fun v => (v.name, v))

theorem registered_eq (registry : Registry) :
    registered registry.toList = registry.toList.map fun v => (v.name, v) := by
  refine Entries.insertAll_eq_append ?_ fun _ _ => List.not_mem_nil
  rw [Entries.names, List.map_map]
  exact registry.distinct

theorem names_registered (registry : Registry) :
    (registered registry.toList).names = registry.names := by
  rw [registered_eq, Entries.names, List.map_map]
  rfl

theorem get?_registered (registry : Registry) (name : String) :
    (registered registry.toList).get? name = registry.get? name := by
  rw [registered_eq, Entries.get?, List.find?_map, Option.map_map, Registry.get?]
  exact congrFun Option.map_id _

theorem spelled_of_declares {α : Type} {name : α → String} {Spells : α → Entries Value → Prop}
    {P : α → Prop} {seen : List String} {items : List Value} {found : List α}
    (h : Declares name (fun a entries => Spells a entries ∧ P a) seen items found) :
    List.Forall₂ (fun item a => IsObject (Spells a) item) items found :=
  h.spelled.imp fun _ _ hitem => by
    obtain ⟨entries, rfl, hspells, -⟩ := hitem
    exact ⟨entries, rfl, hspells⟩

/-- A document without problems can be read, and it spells parts that are sound. -/
theorem exists_parts (h : problems document = .ok []) :
    ∃ (registry : Registry) (outputs : List Output) (bundles : List Bundle),
      ReadParts document registry.toList outputs bundles ∧
        Spells document registry.toList outputs bundles ∧ SoundParts registry outputs bundles := by
  rw [problems] at h
  split at h
  · rename_i hsections
    obtain ⟨hvariables, houtputs⟩ := List.append_eq_nil_iff.mp hsections
    obtain ⟨items, vs, hitems, hvs, hdeclares⟩ := readVariables_of_problems hvariables
    obtain ⟨others, outputs, hothers, hread, hspelled⟩ := readOutputs_of_problems houtputs
    rw [hvs, hread] at h
    obtain ⟨found, hfound, hbundles⟩ := ruleProblems_eq_nil_iff.mp h
    obtain ⟨bundles, hbundlesread, hspells⟩ :=
      exists_readBundles hfound fun entry hentry => (hbundles entry hentry).2
    let registry : Registry := ⟨vs, hdeclares.distinct⟩
    refine ⟨registry, outputs, bundles, ⟨hvs, hread, hbundlesread⟩,
      ⟨⟨items, hitems, spelled_of_declares hdeclares⟩, ⟨others, hothers, hspelled.spelled⟩,
        found, hfound, hspells⟩, ?_, hspelled.distinct, ?_, ?_⟩
    · intro v hv
      obtain ⟨entries, -, -, hproper⟩ := hdeclares.exists_spelled hv
      exact hproper
    · intro b hb
      obtain ⟨entry, hentry, houtput, hspell⟩ := exists_of_forall₂_right hspells hb
      obtain ⟨hdeclared, entries, hentries, hfits⟩ := hbundles entry hentry
      rw [hentries, isObject_object] at hspell
      exact ⟨houtput ▸ hdeclared, fits_of_spells hfits hspell (names_registered registry)⟩
    · intro b hb condition hcondition
      obtain ⟨entry, hentry, -, hspell⟩ := exists_of_forall₂_right hspells hb
      obtain ⟨-, entries, hentries, hfits⟩ := hbundles entry hentry
      rw [hentries, isObject_object] at hspell
      obtain ⟨v, hv, hsuits⟩ := typedConditions_of_spells hfits hspell condition hcondition
      exact ⟨v, (get?_registered registry _).symm.trans hv, hsuits⟩
  · rename_i hfound
    exact absurd (Except.ok.inj h) hfound

theorem output_of_bundle {output : String} {v : Value} {b : Bundle} (h : bundle output v = .ok b) :
    b.output = output := by
  obtain ⟨conditions, -, h⟩ := Except.bind_eq_ok.mp h
  obtain rfl := Except.pure_eq_ok.mp h
  rfl

theorem outputs_of_readBundles {found : Entries Value}
    (hsection : rulesSection document = .object found) (h : readBundles document = .ok bundles) :
    bundles.map (·.output) = found.names := by
  rw [readBundles, hsection] at h
  exact map_eq_of_mapM (fun _ _ => output_of_bundle) h

end Document

namespace Catalog

variable {document canonical : Entries Value} {catalog : Catalog}

theorem refuseOne_eq_ok {α : Type} {x : Except Problem α} {a : α} :
    refuseOne x = .ok a ↔ x = .ok a := by
  cases x <;> simp [refuseOne]

/-- A document is loaded as a catalog if it has no problems and the parts of the catalog are read
from it. -/
theorem ofCurrent_eq_ok_iff :
    ofCurrent document = .ok catalog ↔ Document.problems document = .ok [] ∧
      Document.ReadParts document catalog.registry.toList catalog.outputs catalog.bundles := by
  unfold ofCurrent
  rw [Except.bind_eq_ok]
  constructor
  · rintro ⟨found, hfound, h⟩
    cases found with
    | nil =>
      obtain ⟨vs, hvs, h⟩ := Except.bind_eq_ok.mp h
      obtain ⟨registry, hregistry, h⟩ := Except.bind_eq_ok.mp h
      obtain ⟨outputs, houtputs, h⟩ := Except.bind_eq_ok.mp h
      obtain ⟨bundles, hbundles, h⟩ := Except.bind_eq_ok.mp h
      obtain ⟨rfl, rfl, rfl⟩ := build_eq_ok_iff.mp h
      obtain rfl := Registry.ofList_eq_ok_iff.mp hregistry
      exact ⟨Except.mapError_eq_ok.mp hfound, refuseOne_eq_ok.mp hvs, refuseOne_eq_ok.mp houtputs,
        Except.mapError_eq_ok.mp hbundles⟩
    | cons problem rest => cases h
  · rintro ⟨hfound, hparts⟩
    refine ⟨[], Except.mapError_eq_ok.mpr hfound, ?_⟩
    have hregistry := Registry.ofList_eq_ok_iff.mpr (rfl : catalog.registry.toList = _)
    refine Except.bind_eq_ok.mpr ⟨_, refuseOne_eq_ok.mpr hparts.registry, ?_⟩
    refine Except.bind_eq_ok.mpr ⟨_, hregistry, ?_⟩
    refine Except.bind_eq_ok.mpr ⟨_, refuseOne_eq_ok.mpr hparts.outputs, ?_⟩
    refine Except.bind_eq_ok.mpr ⟨_, Except.mapError_eq_ok.mpr hparts.bundles, ?_⟩
    exact build_eq_ok_iff.mpr ⟨rfl, rfl, rfl⟩

theorem ofCurrent_of_problems {found : List Problem}
    (h : Document.problems document = .ok found) (hne : found ≠ []) :
    ofCurrent document = .error (.refused found) := by
  rw [ofCurrent, h]
  cases found with
  | nil => exact absurd rfl hne
  | cons problem rest => rfl

def Holds (catalog : Catalog) (document : Entries Value) : Prop :=
  Document.Spells document catalog.registry.toList catalog.outputs catalog.bundles

/-- A document without problems is loaded if no output has two bundles in it. -/
theorem exists_ofCurrent (hproblems : Document.problems document = .ok [])
    (hdistinct : ∀ found : Entries Value, Document.rulesSection document = .object found →
      found.names.Nodup) :
    ∃ catalog, ofCurrent document = .ok catalog ∧ catalog.Holds document := by
  obtain ⟨registry, outputs, bundles, hread, hspells, hsound⟩ := Document.exists_parts hproblems
  obtain ⟨found, hfound, -⟩ := hspells.rule_section
  have honce : (bundles.map (·.output)).Nodup := by
    rw [Document.outputs_of_readBundles hfound hread.bundles]
    exact hdistinct found hfound
  exact ⟨⟨registry, outputs, bundles, problems_eq_nil_iff.mpr ⟨hsound.distinct, honce,
    hsound.fitting⟩⟩, ofCurrent_eq_ok_iff.mpr ⟨hproblems, hread⟩, hspells⟩

theorem load_object (hcurrent : Document.current document = .ok canonical) :
    load (.object document) = ofCurrent canonical := by
  rw [load, hcurrent]
  rfl

end Catalog

namespace Document

variable {document canonical : Entries Value}

theorem current_of_version {stated : Number} (h : version document = .ok stated) :
    current document = .ok (if stated.isZero then migrate document else document) := by
  rw [current, h]
  rfl

theorem onObject_eq_object_iff {f : Entries Value → Entries Value} {v : Value}
    {found : Entries Value} :
    onObject f v = .object found ↔ ∃ entries, v = .object entries ∧ f entries = found := by
  cases v <;> simp [onObject]

/-- Migration keeps the keys of the section of rules, so they are distinct in either version. -/
theorem nodup_rulesSection (hkeys : (Value.object document).hasDistinctKeys = true)
    (hcurrent : current document = .ok canonical) {found : Entries Value}
    (hfound : rulesSection canonical = .object found) : found.names.Nodup := by
  have hsection : ∀ {key : String} {entries : Entries Value},
      (document.get? key).getD (.object []) = .object entries → entries.names.Nodup := by
    intro key entries hentries
    have hvalue : ((document.get? key).getD (.object [])).hasDistinctKeys = true :=
      Value.hasDistinctKeys_getD hkeys rfl
    rw [hentries] at hvalue
    exact (Value.hasDistinctKeys_object.mp hvalue).1
  obtain ⟨stated, -, h⟩ := Except.bind_eq_ok.mp hcurrent
  obtain rfl := Except.pure_eq_ok.mp h
  split at hfound
  · obtain ⟨entries, hentries, rfl⟩ := onObject_eq_object_iff.mp hfound
    rw [Entries.names_mapValues]
    exact hsection hentries
  · exact hsection hfound

end Document

namespace Catalog

variable {document canonical : Entries Value}

/-- The check of a document decides alone whether it is loaded. If it finds problems, loading
reports just these; otherwise it yields a catalog, and the catalog holds what the document
spells. -/
theorem check_decides_loading (hkeys : (Value.object document).hasDistinctKeys = true)
    (hcurrent : Document.current document = .ok canonical) {found : List Problem}
    (hproblems : Document.problems canonical = .ok found) :
    (found ≠ [] → load (.object document) = .error (.refused found)) ∧
      (found = [] →
        ∃ catalog, load (.object document) = .ok catalog ∧ catalog.Holds canonical) := by
  rw [load_object hcurrent]
  refine ⟨ofCurrent_of_problems hproblems, ?_⟩
  rintro rfl
  exact exists_ofCurrent hproblems fun _ => Document.nodup_rulesSection hkeys hcurrent

end Catalog

/-! ### A small document -/

namespace Document

/-- A document of version 0 with one output, which is for homes with a garden. -/
def legacySpecimen : Entries Value :=
  [("entradas", .list [
      .object [("nombre", .text "kind"), ("tipo", .text "texto"),
        ("opciones", .list [.text "home", .text "shop"])],
      .object [("nombre", .text "garden"), ("tipo", .text "booleano")]]),
   ("salidas", .list [.object [("nombre", .text "A")]]),
   ("reglas", .object [("A", .object [
      ("condiciones_obligatorias", .object [("kind", .list [.text "home", .text "home"])]),
      ("reglas_inclusion", .list [.text "garden"]),
      ("reglas_blandas", .list [.object [("condicion", .text "kind == 'home'"),
        ("apoyo", .int 2), ("variable", .text "garden")]])])])]

theorem problems_legacySpecimen : problems (migrate legacySpecimen) = .ok [] :=
  Except.eq_ok_nil_of_length (by decide +kernel)

theorem current_legacySpecimen : current legacySpecimen = .ok (migrate legacySpecimen) := by
  have hversion : version legacySpecimen = .ok (.int 0) := rfl
  have hzero : (Number.int 0).isZero = true := Number.equal_int_iff.mpr rfl
  rw [current_of_version hversion, if_pos hzero]

end Document

theorem Catalog.loading_legacySpecimen :
    ∃ catalog, load (.object Document.legacySpecimen) = .ok catalog ∧
      catalog.Holds (Document.migrate Document.legacySpecimen) :=
  (check_decides_loading (by decide) Document.current_legacySpecimen
    Document.problems_legacySpecimen).2 rfl

end Shortlist
