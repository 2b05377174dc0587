import Mathlib.Tactic.Common
import Shortlist.Catalog.Legacy
import Shortlist.Proofs.Document.Value

/-!
# Documents in the former spelling

Every document of the current version has a rendering of version 0: its sections, the keys of its
entries, bundles and soft rules and the words for the types are put into the old spelling, and
nothing else changes. The rendering is defined by tables of its own, so what migration does with it
says that the words of the two versions correspond. A document that uses old words itself has no
such rendering, as they would then stand for the new ones.
-/

namespace Shortlist.Document

/-! ### The rendering -/

/-- Entries with their keys in another spelling, and with their values changed. -/
def respell (table : Entries String) (change : String → Value → Value) (entries : Entries Value) :
    Entries Value :=
  entries.map fun entry => (renamed table entry.1, change entry.1 entry.2)

def formerSectionKeys : Entries String :=
  [("variables", "entradas"), ("outputs", "salidas"), ("rules", "reglas")]

def formerVariableKeys : Entries String :=
  [("name", "nombre"), ("type", "tipo"), ("domain", "opciones")]

def formerOutputKeys : Entries String := [("name", "nombre"), ("description", "descripcion")]

def formerBundleKeys : Entries String :=
  [("mandatory_conditions", "condiciones_obligatorias"), ("inclusion_rules", "reglas_inclusion"),
   ("exclusion_rules", "reglas_exclusion"), ("soft_rules", "reglas_blandas")]

def formerSoftRuleKeys : Entries String := [("condition", "condicion"), ("weight", "apoyo")]

def formerTypes : Entries String :=
  [("boolean", "booleano"), ("number", "numero"), ("enum", "texto")]

def onText (f : String → String) : Value → Value
  | .text s => .text (f s)
  | v => v

def formerVariableField : String → Value → Value
  | "type", v => onText (renamed formerTypes) v
  | _, v => v

def formerSoftRule : Entries Value → Entries Value := respell formerSoftRuleKeys fun _ v => v

def formerBundleField : String → Value → Value
  | "soft_rules", v => onItems (onObject formerSoftRule) v
  | _, v => v

def formerBundle : Entries Value → Entries Value := respell formerBundleKeys formerBundleField

/-- What is put into the old spelling in a document: its sections, and the version if it states
one. -/
def formerSection : String → Value → Value
  | "schema_version", _ => .int 0
  | "variables", v => onItems (onObject (respell formerVariableKeys formerVariableField)) v
  | "outputs", v => onItems (onObject (respell formerOutputKeys fun _ v => v)) v
  | "rules", v => onObject (Entries.mapValues fun _ => onObject formerBundle) v
  | _, v => v

/-- The rendering of a document as one of version 0. -/
def former : Entries Value → Entries Value := respell formerSectionKeys formerSection

/-! ### Documents without old words -/

/-- None of the words is a key of the entries. -/
def Lacks (words : List String) (entries : Entries Value) : Prop :=
  ∀ word ∈ words, word ∉ entries.names

instance (words : List String) (entries : Entries Value) : Decidable (Lacks words entries) :=
  inferInstanceAs (Decidable (∀ word ∈ words, word ∉ entries.names))

/-- A document uses no key and no word for a type of version 0. -/
structure NewWordsOnly (document : Entries Value) : Prop where
  sections : Lacks ["entradas", "salidas", "reglas"] document
  variable_keys : ∀ entries ∈ objectsOf (field document "variables"),
    Lacks ["nombre", "tipo", "opciones"] entries
  variable_types : ∀ entries ∈ objectsOf (field document "variables"),
    ∀ word ∈ ["booleano", "numero", "texto"], (field entries "type").text? ≠ some word
  output_keys : ∀ entries ∈ objectsOf (field document "outputs"),
    Lacks ["nombre", "descripcion"] entries
  bundle_keys : ∀ bundle ∈ bundlesOf (rulesSection document),
    Lacks ["condiciones_obligatorias", "reglas_inclusion", "reglas_exclusion", "reglas_blandas"]
      bundle
  soft_rule_keys : ∀ bundle ∈ bundlesOf (rulesSection document),
    ∀ rule ∈ objectsOf (softRuleList bundle), Lacks ["condicion", "apoyo"] rule

/-! ### Words of the two versions -/

section Words

variable {table there back : Entries String} {source target key : String}
  {change : String → Value → Value} {entries : Entries Value}

theorem renamed_of_not_mem (h : key ∉ table.names) : renamed table key = key := by
  rw [renamed, Entries.get?_eq_none_iff.mpr h]
  rfl

theorem eq_of_renamed (htable : ∀ pair ∈ table, pair.2 = target → pair.1 = source)
    (hkey : key = target → key = source) (h : renamed table key = target) : key = source := by
  rw [renamed] at h
  cases hget : table.get? key with
  | none =>
    rw [hget] at h
    exact hkey h
  | some word =>
    rw [hget] at h
    exact htable _ (Entries.mem_of_get?_eq_some hget) h

/-- Words go there and back if the second table undoes the first and keeps the words that the first
one keeps. -/
theorem renamed_renamed (hback : ∀ pair ∈ there, renamed back pair.2 = pair.1)
    (hkept : renamed back key = key) : renamed back (renamed there key) = key := by
  cases hget : there.get? key with
  | none => rw [renamed_of_not_mem (Entries.get?_eq_none_iff.mp hget), hkept]
  | some word =>
    have hword : renamed there key = word := by rw [renamed, hget]; rfl
    rw [hword]
    exact hback _ (Entries.mem_of_get?_eq_some hget)

theorem get?_respell (hsource : renamed table source = target)
    (honly : ∀ key ∈ entries.names, renamed table key = target → key = source) :
    (respell table change entries).get? target = (entries.get? source).map (change source) := by
  induction entries with
  | nil => rfl
  | cons entry rest ih =>
    have hrest := ih fun key hkey => honly key (Entries.mem_names_cons.mpr (.inr hkey))
    have hentry := honly entry.1 (Entries.mem_names_cons.mpr (.inl rfl))
    rw [respell, List.map_cons, ← respell, Entries.get?_cons, Entries.get?_cons, hrest]
    by_cases hname : entry.1 = source
    · rw [if_pos (hname ▸ hsource), if_pos hname, Option.map_some, hname]
    · rw [if_neg fun h => hname (hentry h), if_neg hname]

/-- A table spells its keys with some of the words, each word for one key. -/
def SpellsWith (table : Entries String) (words : List String) : Prop :=
  ∀ pair ∈ table, renamed table pair.1 = pair.2 ∧ pair.2 ∈ words ∧
    ∀ other ∈ table, other.2 = pair.2 → other.1 = pair.1

instance (table : Entries String) (words : List String) : Decidable (SpellsWith table words) :=
  inferInstanceAs (Decidable (∀ pair ∈ table, renamed table pair.1 = pair.2 ∧ pair.2 ∈ words ∧
    ∀ other ∈ table, other.2 = pair.2 → other.1 = pair.1))

variable {words : List String}

theorem SpellsWith.get?_respell (h : SpellsWith table words) (hpair : (source, target) ∈ table)
    (hlacks : Lacks words entries) :
    (respell table change entries).get? target = (entries.get? source).map (change source) := by
  obtain ⟨hsource, hword, htable⟩ := h _ hpair
  refine Document.get?_respell hsource fun _ hkey => eq_of_renamed htable ?_
  rintro rfl
  exact absurd hkey (hlacks _ hword)

theorem SpellsWith.field_respell (h : SpellsWith table words) (hpair : (source, target) ∈ table)
    (hlacks : Lacks words entries) (hnull : change source .null = .null) :
    field (respell table change entries) target = change source (field entries source) := by
  have hdefault := Option.getD_map (change source) .null (entries.get? source)
  rw [hnull] at hdefault
  rw [field, h.get?_respell hpair hlacks, field]
  exact hdefault

end Words

theorem spellsWith_sectionKeys :
    SpellsWith formerSectionKeys ["entradas", "salidas", "reglas"] := by
  decide

theorem spellsWith_variableKeys :
    SpellsWith formerVariableKeys ["nombre", "tipo", "opciones"] := by
  decide

theorem spellsWith_outputKeys : SpellsWith formerOutputKeys ["nombre", "descripcion"] := by
  decide

end Shortlist.Document
