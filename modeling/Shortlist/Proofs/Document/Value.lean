import Mathlib.Tactic.Common
import Shortlist.Catalog.Document
import Shortlist.Proofs.Entries

/-!
# Values inside documents

A document is read through its entries and items, and what is said of a whole value (that it can be
written, that no object in it has a key twice) is passed down to them. Both are stated of all
entries and items at once, so that a property of what is looked up follows from membership.
-/

namespace Shortlist

namespace Value

variable {items : List Value} {entries : Entries Value}

mutual

/-- Whether no object in the value has a key twice. -/
def hasDistinctKeys : Value → Bool
  | .list items => haveDistinctKeys items
  | .object entries => decide (Entries.names entries).Nodup && entriesHaveDistinctKeys entries
  | _ => true

def haveDistinctKeys : List Value → Bool
  | [] => true
  | item :: rest => hasDistinctKeys item && haveDistinctKeys rest

def entriesHaveDistinctKeys : List (String × Value) → Bool
  | [] => true
  | (_, value) :: rest => hasDistinctKeys value && entriesHaveDistinctKeys rest

end

theorem hasDistinctKeys_list :
    hasDistinctKeys (.list items) = true ↔ ∀ item ∈ items, item.hasDistinctKeys = true := by
  rw [hasDistinctKeys]
  induction items with
  | nil => simp [haveDistinctKeys]
  | cons item rest ih => rw [haveDistinctKeys, Bool.and_eq_true, ih, List.forall_mem_cons]

theorem hasDistinctKeys_object :
    hasDistinctKeys (.object entries) = true ↔
      entries.names.Nodup ∧ ∀ entry ∈ entries, entry.2.hasDistinctKeys = true := by
  rw [hasDistinctKeys, Bool.and_eq_true, decide_eq_true_iff]
  refine and_congr_right fun _ => ?_
  clear * -
  induction entries with
  | nil => simp [entriesHaveDistinctKeys]
  | cons entry rest ih =>
    rw [entriesHaveDistinctKeys, Bool.and_eq_true, ih, List.forall_mem_cons]

theorem text?_eq_some_iff {v : Value} {s : String} : v.text? = some s ↔ v = .text s := by
  cases v <;> simp [text?]

theorem object?_eq_some_iff {v : Value} : v.object? = some entries ↔ v = .object entries := by
  cases v <;> simp [object?]

theorem isWritable_list :
    isWritable (.list items) = true ↔ ∀ item ∈ items, item.isWritable = true := by
  rw [isWritable]
  induction items with
  | nil => simp [areWritable]
  | cons item rest ih => rw [areWritable, Bool.and_eq_true, ih, List.forall_mem_cons]

theorem isWritable_object :
    isWritable (.object entries) = true ↔ ∀ entry ∈ entries, entry.2.isWritable = true := by
  rw [isWritable]
  induction entries with
  | nil => simp [entriesWritable]
  | cons entry rest ih => rw [entriesWritable, Bool.and_eq_true, ih, List.forall_mem_cons]

end Value

namespace Value

variable {entries : Entries Value} {key : String} {v : Value}

theorem hasDistinctKeys_getD (h : (object entries).hasDistinctKeys = true)
    (hdefault : v.hasDistinctKeys = true) :
    ((entries.get? key).getD v).hasDistinctKeys = true :=
  Entries.forall_getD (Q := fun v : Value => v.hasDistinctKeys = true)
    (hasDistinctKeys_object.mp h).2 hdefault

theorem isWritable_getD (h : (object entries).isWritable = true) (hdefault : v.isWritable = true) :
    ((entries.get? key).getD v).isWritable = true :=
  Entries.forall_getD (Q := fun v : Value => v.isWritable = true) (isWritable_object.mp h) hdefault

end Value

namespace Document

/-- A value is an object with a property. -/
def IsObject (P : Entries Value → Prop) (v : Value) : Prop :=
  ∃ entries, v = .object entries ∧ P entries

variable {entries : Entries Value} {key s : String}

@[simp] theorem isObject_object {P : Entries Value → Prop} :
    IsObject P (.object entries) ↔ P entries :=
  ⟨by rintro ⟨_, ⟨⟩, h⟩; exact h, fun h => ⟨entries, rfl, h⟩⟩

theorem not_isObject {P : Entries Value → Prop} {v : Value} (h : ∀ entries, v ≠ .object entries) :
    ¬IsObject P v :=
  fun ⟨entries, hv, _⟩ => h entries hv

theorem field_of_get? {v : Value} (h : entries.get? key = some v) : field entries key = v := by
  rw [field, h]
  rfl

theorem get?_of_field {v : Value} (h : field entries key = v) (hv : v ≠ .null) :
    entries.get? key = some v := by
  cases hget : entries.get? key with
  | none =>
    rw [field, hget] at h
    exact absurd h.symm hv
  | some found => rw [← h, field_of_get? hget]

theorem name?_eq_some_iff : name? entries = some s ↔ field entries "name" = .text s ∧ s ≠ "" := by
  unfold name?
  split
  · rename_i text htext
    rw [htext]
    split
    · rename_i hempty
      refine iff_of_false nofun ?_
      rintro ⟨⟨⟩, hne⟩
      exact hne hempty
    · rename_i hne
      constructor
      · rintro ⟨⟩
        exact ⟨rfl, hne⟩
      · rintro ⟨⟨⟩, -⟩
        rfl
  · rename_i hother
    exact iff_of_false nofun fun h => hother s h.1

theorem mem_objectsOf {v : Value} :
    entries ∈ objectsOf v ↔ ∃ items, v = .list items ∧ .object entries ∈ items := by
  unfold objectsOf
  split
  · rename_i items
    simp [Value.object?_eq_some_iff]
  · rename_i hother
    refine iff_of_false List.not_mem_nil ?_
    rintro ⟨items, rfl, -⟩
    exact hother items rfl

def bundlesOf : Value → List (Entries Value)
  | .object found => List.filterMap (fun entry => entry.2.object?) found
  | _ => []

theorem mem_bundlesOf {v : Value} {bundle : Entries Value} :
    bundle ∈ bundlesOf v ↔
      ∃ found, v = .object found ∧ ∃ entry ∈ found, entry.2 = .object bundle := by
  unfold bundlesOf
  split
  · simp [Value.object?_eq_some_iff]
  · rename_i hother
    refine iff_of_false List.not_mem_nil ?_
    rintro ⟨found, rfl, -⟩
    exact hother found rfl

theorem mem_iff_exists_indexed {α : Type} {items : List α} {item : α} :
    item ∈ items ↔ ∃ index, (index, item) ∈ indexed items := by
  have hzip : (indexed items).map (·.2) = items := by
    rw [indexed, List.map_snd_zip (by simp)]
  constructor
  · intro h
    rw [← hzip] at h
    obtain ⟨⟨index, other⟩, hmem, rfl⟩ := List.mem_map.mp h
    exact ⟨index, hmem⟩
  · rintro ⟨index, hmem⟩
    rw [← hzip]
    exact List.mem_map_of_mem hmem

theorem mapM_text?_eq_some_iff {items : List Value} {texts : List String} :
    items.mapM Value.text? = some texts ↔ items = texts.map .text := by
  induction items generalizing texts with
  | nil => cases texts <;> simp
  | cons item rest ih =>
    rw [List.mapM_cons]
    constructor
    · intro h
      obtain ⟨text, htext, h⟩ := Option.bind_eq_some_iff.mp h
      obtain ⟨others, hothers, h⟩ := Option.bind_eq_some_iff.mp h
      obtain rfl := Option.some.inj h
      rw [Value.text?_eq_some_iff.mp htext, ih.mp hothers, List.map_cons]
    · intro h
      cases texts with
      | nil => cases h
      | cons text others =>
        obtain ⟨rfl, hrest⟩ := List.cons.inj h
        rw [ih.mpr hrest]
        rfl

theorem exists_texts {P : String → Prop} {items : List Value}
    (h : ∀ item ∈ items, ∃ text, item = .text text ∧ P text) :
    ∃ texts, items = List.map .text texts ∧ ∀ text ∈ texts, P text := by
  induction items with
  | nil => exact ⟨[], rfl, nofun⟩
  | cons item rest ih =>
    obtain ⟨⟨text, rfl, htext⟩, hrest⟩ := List.forall_mem_cons.mp h
    obtain ⟨texts, rfl, htexts⟩ := ih hrest
    exact ⟨text :: texts, rfl, List.forall_mem_cons.mpr ⟨htext, htexts⟩⟩

@[simp] theorem textsOf_texts (texts : List String) :
    textsOf (.list (texts.map .text)) = texts := by
  rw [textsOf, List.filterMap_map]
  exact List.filterMap_some

end Document

end Shortlist
