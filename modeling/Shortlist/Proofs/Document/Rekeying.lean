import Mathlib.Tactic.Common
import Shortlist.Proofs.Document.Migration

/-!
# What migration keeps of the rules

Migration brings the keys of bundles and soft rules into the new spelling. The new spelling of a
key may be there already, and of entries that come to the same key the last one stays. So an entry
is kept if its key is spelled once, which holds of every key that the tables do not know; an entry
whose key is spelled twice may be gone, and the check of the migrated document cannot tell.
-/

namespace Shortlist.Document

/-! ### Entries under new keys -/

/-- No other key of the entries has the same new spelling. -/
def SpelledOnce (table : Entries String) (entries : Entries Value) (key : String) : Prop :=
  ∀ other ∈ entries.names, renamed table other = renamed table key → other = key

/-- A key is a word of the table in the old or the new spelling. -/
def Knows (table : Entries String) (key : String) : Prop :=
  key ∈ table.names ∨ ∃ pair ∈ table, pair.2 = key

/-- Entries stand under the new spelling of their keys, with values that are related to the old
ones. -/
structure Rekeyed (table : Entries String) (Carried : String → Value → Value → Prop)
    (old new : Entries Value) : Prop where
  /-- An entry is there if its key is spelled once. -/
  kept : ∀ key v, (key, v) ∈ old → SpelledOnce table old key →
    ∃ w, new.get? (renamed table key) = some w ∧ Carried (renamed table key) v w
  /-- Of entries whose keys have the same new spelling, the last is there. -/
  last : ∀ before key v behind, old = before ++ (key, v) :: behind →
    (∀ other ∈ Entries.names behind, renamed table other ≠ renamed table key) →
      ∃ w, new.get? (renamed table key) = some w ∧ Carried (renamed table key) v w
  /-- An entry whose key is not known is there as it was. -/
  unknown : ∀ key v, (key, v) ∈ old → ¬Knows table key → new.get? key = some v
  /-- Nothing else is there. -/
  only : ∀ name ∈ new.names, ∃ key ∈ old.names, renamed table key = name

variable {table : Entries String} {old new : Entries Value} {key : String} {v : Value}

theorem renamed_of_not_knows (h : ¬Knows table key) : renamed table key = key :=
  renamed_of_not_mem fun hmem => h (.inl hmem)

/-- A key that is not known is spelled once, since only itself comes to it. -/
theorem spelledOnce_of_not_knows (h : ¬Knows table key) : SpelledOnce table old key := by
  intro other _ hother
  rw [renamed_of_not_knows h] at hother
  refine eq_of_renamed (fun pair hpair htarget => ?_) id hother
  exact absurd (.inr ⟨pair, hpair, htarget⟩) h

theorem get?_renameKeys_last {before behind : Entries Value}
    (h : ∀ other ∈ behind.names, renamed table other ≠ renamed table key) :
    (renameKeys table (before ++ (key, v) :: behind)).get? (renamed table key) = some v := by
  have hbehind : renamed table key ∉
      Entries.names (behind.map fun entry => (renamed table entry.1, entry.2)) := by
    rw [Entries.names, List.map_map]
    intro hmem
    obtain ⟨entry, hentry, heq⟩ := List.mem_map.mp hmem
    exact h entry.1 (List.mem_map_of_mem hentry) heq
  rw [renameKeys, List.map_append, List.map_cons]
  exact Entries.get?_insertAll_last hbehind

theorem mem_names_renameKeys {name : String} :
    name ∈ (renameKeys table old).names ↔ ∃ key ∈ old.names, renamed table key = name := by
  rw [renameKeys, Entries.ofList, Entries.mem_names_insertAll]
  simp [Entries.names]

/-- Renamed entries whose values are changed are rekeyed if every change carries its value. -/
theorem rekeyed_of_get? {Carried : String → Value → Value → Prop}
    {change : String → Value → Value} (hdistinct : old.names.Nodup)
    (hget : ∀ name, new.get? name = ((renameKeys table old).get? name).map (change name))
    (hcarried : ∀ key v, (key, v) ∈ old →
      Carried (renamed table key) v (change (renamed table key) v))
    (hunknown : ∀ name v, ¬Knows table name → change name v = v) :
    Rekeyed table Carried old new := by
  have hlast : ∀ before key v behind, old = before ++ (key, v) :: behind →
      (∀ other ∈ Entries.names behind, renamed table other ≠ renamed table key) →
        new.get? (renamed table key) = some (change (renamed table key) v) := by
    intro before key v behind hold hbehind
    rw [hget, hold, get?_renameKeys_last hbehind, Option.map_some]
  have hkept : ∀ key v, (key, v) ∈ old → SpelledOnce table old key →
      new.get? (renamed table key) = some (change (renamed table key) v) := by
    intro key v hmem honce
    obtain ⟨before, behind, rfl⟩ := List.append_of_mem hmem
    refine hlast before key v behind rfl fun other hother heq => ?_
    -- The key itself does not stand behind its entry, as keys are distinct.
    have hsame : other = key := honce other (by simp_all [Entries.names]) heq
    simp_all [Entries.names, List.nodup_append]
  refine ⟨fun key v hmem honce => ⟨_, hkept key v hmem honce, hcarried key v hmem⟩, ?_, ?_, ?_⟩
  · intro before key v behind hold hbehind
    exact ⟨_, hlast before key v behind hold hbehind, hcarried key v (by simp [hold])⟩
  · intro key v hmem hnot
    have h := hkept key v hmem (spelledOnce_of_not_knows hnot)
    rwa [renamed_of_not_knows hnot, hunknown key v hnot] at h
  · intro name hname
    obtain ⟨w, hw⟩ := Entries.exists_get?_iff.mpr hname
    rw [hget] at hw
    obtain ⟨found, hfound, -⟩ := Option.map_eq_some_iff.mp hw
    exact mem_names_renameKeys.mp (Entries.exists_get?_iff.mp ⟨found, hfound⟩)

/-! ### Bundles and soft rules -/

/-- Objects are related by their entries; any other value stays as it is. -/
def ObjectsRelate (R : Entries Value → Entries Value → Prop) : Value → Value → Prop
  | .object old, w => ∃ new, w = .object new ∧ R old new
  | v, w => w = v

/-- Lists are related item by item; any other value stays as it is. -/
def ItemsRelate (R : Value → Value → Prop) : Value → Value → Prop
  | .list old, w => ∃ new, w = .list new ∧ List.Forall₂ R old new
  | v, w => w = v

def RekeyedSoftRule : Entries Value → Entries Value → Prop :=
  Rekeyed legacySoftRuleKeys fun _ v w => w = v

/-- What stands in a bundle is carried over. Only among soft rules are there keys to spell anew. -/
def SectionCarried (name : String) (v w : Value) : Prop :=
  if name = "soft_rules" then ItemsRelate (ObjectsRelate RekeyedSoftRule) v w else w = v

/-- A bundle with its keys, and those of its soft rules, in the new spelling. -/
def RekeyedBundle : Entries Value → Entries Value → Prop :=
  Rekeyed legacyBundleKeys SectionCarried

theorem objectsRelate_onObject {R : Entries Value → Entries Value → Prop}
    {f : Entries Value → Entries Value}
    (h : ∀ entries, v = .object entries → R entries (f entries)) :
    ObjectsRelate R v (onObject f v) := by
  cases v with
  | object entries => exact ⟨f entries, rfl, h entries rfl⟩
  | _ => rfl

theorem itemsRelate_onItems {R : Value → Value → Prop} {f : Value → Value}
    (h : ∀ items, v = .list items → ∀ item ∈ items, R item (f item)) :
    ItemsRelate R v (onItems f v) := by
  cases v with
  | list items =>
    refine ⟨items.map f, rfl, ?_⟩
    rw [List.forall₂_map_right_iff, List.forall₂_same]
    exact h items rfl
  | _ => rfl

theorem rekeyedSoftRule_renameKeys (hdistinct : old.names.Nodup) :
    RekeyedSoftRule old (renameKeys legacySoftRuleKeys old) :=
  rekeyed_of_get? hdistinct (fun _ => (congrFun Option.map_id _).symm) (fun _ _ _ => rfl)
    fun _ _ _ => rfl

def carrySection (name : String) (v : Value) : Value :=
  if name = "soft_rules" then onItems (onObject (renameKeys legacySoftRuleKeys)) v else v

theorem sectionCarried_carrySection {name : String} (h : v.hasDistinctKeys = true) :
    SectionCarried name v (carrySection name v) := by
  unfold SectionCarried carrySection
  split
  · refine itemsRelate_onItems fun items hitems item hitem => objectsRelate_onObject ?_
    rintro entries rfl
    rw [hitems, Value.hasDistinctKeys_list] at h
    exact rekeyedSoftRule_renameKeys (Value.hasDistinctKeys_object.mp (h _ hitem)).1
  · rfl

theorem carrySection_of_ne {name : String} (h : name ≠ "soft_rules") :
    carrySection name v = v := by
  rw [carrySection, if_neg h]

theorem carrySection_of_ne_list {name : String} (h : ∀ items, v ≠ .list items) :
    carrySection name v = v := by
  rw [carrySection, onItems_of_ne_list h, ite_self]

theorem get?_migrateBundle {name : String} :
    (migrateBundle old).get? name =
      ((renameKeys legacyBundleKeys old).get? name).map (carrySection name) := by
  have hkept : ∀ found : Option Value, (∀ v, found = some v → carrySection name v = v) →
      found = found.map (carrySection name) := by
    rintro (_ | v) h
    · rfl
    · rw [Option.map_some, h v rfl]
  unfold migrateBundle
  dsimp only
  split
  · rename_i items hitems
    rw [Entries.get?_insert]
    by_cases hname : "soft_rules" = name
    · rw [if_pos hname, ← hname, hitems]
      rfl
    · rw [if_neg hname]
      exact hkept _ fun _ _ => carrySection_of_ne (Ne.symm hname)
  · rename_i hother
    refine hkept _ fun v hv => ?_
    by_cases hname : name = "soft_rules"
    · exact carrySection_of_ne_list fun items hlist => hother items (by rw [← hname, hv, hlist])
    · exact carrySection_of_ne hname

theorem rekeyedBundle_migrateBundle (h : (Value.object old).hasDistinctKeys = true) :
    RekeyedBundle old (migrateBundle old) := by
  obtain ⟨hdistinct, hvalues⟩ := Value.hasDistinctKeys_object.mp h
  refine rekeyed_of_get? hdistinct (fun _ => get?_migrateBundle) (fun key v hmem => ?_) ?_
  · exact sectionCarried_carrySection (hvalues _ hmem)
  · intro name v hunknown
    have hne : name ≠ "soft_rules" := by
      rintro rfl
      exact hunknown (.inr (by decide))
    exact carrySection_of_ne hne

/-! ### The section of rules -/

variable {document rules : Entries Value}

/-- Migration keeps the outputs of the rules and every entry of a bundle or a soft rule whose key is
spelled once, words that are not known among them; of entries whose keys have the same new spelling
it keeps the last. -/
theorem migration_keeps_entries_spelled_once
    (hkeys : (Value.object document).hasDistinctKeys = true)
    (hrules : document.get? "reglas" = some (.object rules)) :
    ∃ migrated : Entries Value, (migrate document).get? "rules" = some (.object migrated) ∧
      List.Forall₂ (fun old new => new.1 = old.1 ∧ ObjectsRelate RekeyedBundle old.2 new.2)
        rules migrated := by
  refine ⟨rules.mapValues fun _ => onObject migrateBundle, ?_, ?_⟩
  · have hsection : (migrate document).get? "rules" =
        some (onObject (Entries.mapValues fun _ => onObject migrateBundle)
          ((document.get? "reglas").getD (.object []))) := rfl
    rw [hsection, hrules]
    rfl
  · have hdistinct := (Value.hasDistinctKeys_object.mp hkeys).2 _
      (Entries.mem_of_get?_eq_some hrules)
    have hbundles := (Value.hasDistinctKeys_object.mp hdistinct).2
    rw [Entries.mapValues, List.forall₂_map_right_iff, List.forall₂_same]
    refine fun entry hentry => ⟨rfl, objectsRelate_onObject fun bundle hbundle => ?_⟩
    exact rekeyedBundle_migrateBundle (hbundle ▸ hbundles entry hentry)

theorem legacySpecimen_keeps_entries : ∃ rules migrated : Entries Value,
    legacySpecimen.get? "reglas" = some (.object rules) ∧
      (migrate legacySpecimen).get? "rules" = some (.object migrated) ∧
      List.Forall₂ (fun old new => new.1 = old.1 ∧ ObjectsRelate RekeyedBundle old.2 new.2)
        rules migrated := by
  have hrules : legacySpecimen.get? "reglas" = some (.object _) := rfl
  obtain ⟨migrated, hmigrated, hrelated⟩ :=
    migration_keeps_entries_spelled_once (by decide) hrules
  exact ⟨_, migrated, hrules, hmigrated, hrelated⟩

/-- Every entry of a bundle is in the migrated bundle under the new spelling of its key. -/
def KeepsEveryEntry (document : Entries Value) : Prop :=
  ∀ (rules bundle : Entries Value) (output key : String) (v : Value),
    document.get? "reglas" = some (.object rules) → (output, .object bundle) ∈ rules →
      (key, v) ∈ bundle → ∃ migrated found : Entries Value, ∃ w,
        (migrate document).get? "rules" = some (.object migrated) ∧
          migrated.get? output = some (.object found) ∧
            found.get? (renamed legacyBundleKeys key) = some w ∧
              SectionCarried (renamed legacyBundleKeys key) v w

/-- A document of version 0 in which a bundle has inclusion rules in the new and in the old
spelling. -/
def twiceSpelled : Entries Value :=
  [("entradas", .list [
      .object [("nombre", .text "garden"), ("tipo", .text "booleano")],
      .object [("nombre", .text "pool"), ("tipo", .text "booleano")]]),
   ("salidas", .list [.object [("nombre", .text "A")]]),
   ("reglas", .object [("A", .object [
      ("inclusion_rules", .list [.text "garden"]),
      ("reglas_inclusion", .list [.text "pool"])])])]

/-- The former rules are gone after migration, and the check finds nothing wrong. -/
theorem entry_spelled_twice_vanishes :
    ¬KeepsEveryEntry twiceSpelled ∧ problems (migrate twiceSpelled) = .ok [] := by
  refine ⟨fun h => ?_, Except.eq_ok_nil_of_length (by decide +kernel)⟩
  have hmigrated : (migrate twiceSpelled).get? "rules" =
      some (.object [("A", .object [("inclusion_rules", .list [.text "pool"])])]) := rfl
  obtain ⟨migrated, found, w, hrules, hbundle, hvalue, hcarried⟩ :=
    h _ _ "A" "inclusion_rules" (.list [.text "garden"]) rfl (List.mem_singleton.mpr rfl)
      List.mem_cons_self
  rw [hmigrated] at hrules
  obtain rfl := Value.object.inj (Option.some.inj hrules)
  obtain rfl := Value.object.inj (Option.some.inj hbundle)
  obtain rfl := Option.some.inj hvalue
  have hsame : Value.list [.text "pool"] = .list [.text "garden"] := hcarried
  simp at hsame

end Shortlist.Document
