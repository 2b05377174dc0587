import Mathlib.Tactic.Common
import Shortlist.Catalog.Basic
import Shortlist.Proofs.Fallible

/-!
# What soundness of a catalog says

The checks of a catalog are one long list of problems; that it is empty is read back here as facts
about the single bundles.
-/

namespace Shortlist.Catalog

variable {catalog : Catalog} {bundle : Bundle}

theorem bundleFor?_eq_some {output : String} (h : catalog.bundleFor? output = some bundle) :
    bundle ∈ catalog.bundles ∧ bundle.output = output :=
  ⟨List.mem_of_find?_eq_some h, by simpa using List.find?_some h⟩

theorem problems_of_bundleProblems {registry : Registry} {outputs seen : List String}
    {bundles : List Bundle} (h : bundleProblems registry outputs seen bundles = .ok [])
    (hmem : bundle ∈ bundles) : bundle.problems registry = .ok [] := by
  induction bundles generalizing seen with
  | nil => cases hmem
  | cons first rest ih =>
    obtain ⟨own, hown, h⟩ := Except.bind_eq_ok.mp h
    obtain ⟨others, hothers, h⟩ := Except.bind_eq_ok.mp h
    have hnil := Except.pure_eq_ok.mp h
    simp only [List.append_eq_nil_iff] at hnil
    obtain ⟨⟨-, rfl⟩, rfl⟩ := hnil
    rcases List.mem_cons.mp hmem with rfl | hmem
    · exact hown
    · exact ih hothers hmem

theorem problems_of_mem (hmem : bundle ∈ catalog.bundles) :
    bundle.problems catalog.registry = .ok [] := by
  obtain ⟨problems, hproblems, h⟩ := Except.bind_eq_ok.mp catalog.sound
  have hnil := Except.pure_eq_ok.mp h
  obtain rfl := (List.append_eq_nil_iff.mp hnil).2
  exact problems_of_bundleProblems hproblems hmem

theorem condition_declared (hmem : bundle ∈ catalog.bundles) {name : String}
    (hname : name ∈ bundle.conditions.names) : name ∈ catalog.declared := by
  obtain ⟨texts, -, h⟩ := Except.bind_eq_ok.mp (problems_of_mem hmem)
  have hnil := Except.pure_eq_ok.mp h
  simp only [List.append_eq_nil_iff, List.map_eq_nil_iff, List.filter_eq_nil_iff] at hnil
  simpa [Registry.has, declared] using hnil.1.1 name hname

theorem nodup_of_repeatedNames_go {seen names : List String}
    (h : repeatedNames.go seen names = []) : names.Nodup ∧ ∀ name ∈ names, name ∉ seen := by
  induction names generalizing seen with
  | nil => exact ⟨.nil, fun name hname => absurd hname List.not_mem_nil⟩
  | cons first rest ih =>
    rw [repeatedNames.go] at h
    split at h
    · cases h
    · rename_i hseen
      obtain ⟨hrest, hnew⟩ := ih h
      refine ⟨List.nodup_cons.mpr ⟨fun hfirst => ?_, hrest⟩, fun name hname hin => ?_⟩
      · exact hnew first hfirst List.mem_cons_self
      · rcases List.mem_cons.mp hname with rfl | hname
        · exact hseen (List.contains_iff_mem.mpr hin)
        · exact hnew name hname (List.mem_cons_of_mem first hin)

theorem distinct_outputs (catalog : Catalog) : (catalog.outputs.map (·.name)).Nodup := by
  obtain ⟨problems, -, h⟩ := Except.bind_eq_ok.mp catalog.sound
  have hrepeated := (List.append_eq_nil_iff.mp (Except.pure_eq_ok.mp h)).1
  exact (nodup_of_repeatedNames_go (List.map_eq_nil_iff.mp hrepeated)).1

theorem problems_eq_nil {registry : Registry} {outputs : List Output} {bundles : List Bundle}
    (h : (problems registry outputs bundles).map List.length = .ok 0) :
    problems registry outputs bundles = .ok [] :=
  Except.eq_ok_nil_of_length h

/-! ### A small catalog -/

def forHomes : Output := ⟨"A", "", by decide⟩

def forShops : Output := ⟨"B", "", by decide⟩

/-- A home needs a garden; a shop must have none, and no vault either. -/
def specimenBundles : List Bundle :=
  [⟨"A", [("kind", .exactly (.text "home"))], ["garden"], [],
    [⟨"kind == 'home'", .int 2, some "garden"⟩]⟩,
   ⟨"B", [("kind", .oneOf [.text "shop"])], [], ["vault || garden"], []⟩]

def specimenRegistry : Registry :=
  ⟨[⟨"kind", .choice, ["home", "shop"], by decide, by decide⟩,
    ⟨"garden", .boolean, [], by decide, by decide⟩,
    ⟨"vault", .boolean, [], by decide, by decide⟩], by decide⟩

/-- A catalog on which general statements can be tried. -/
def specimen : Catalog :=
  ⟨specimenRegistry, [forHomes, forShops], specimenBundles, problems_eq_nil (by decide +kernel)⟩

end Shortlist.Catalog
