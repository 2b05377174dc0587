import Mathlib.Tactic.Common
import Shortlist.Catalog.Loading
import Shortlist.Proofs.Document.Rules
import Shortlist.Proofs.Number.Line

/-!
# What is read from rules without problems

A bundle that fits can be read, and what is read is what the object spells: its conditions, texts,
weights and subjects, in the order of the object. The one thing that changes its form is a list that
a condition allows. It becomes a set, which drops items that are the same as an earlier one, and the
set is met by the same answers as the list.
-/

namespace Shortlist

/-! ### What a condition demands -/

namespace Expected

/-- Members are kept of a list so that every item is among them, and no two of them are the same. -/
structure Keeps (members items : List Value) : Prop where
  sublist : members.Sublist items
  apart : members.Pairwise fun a b => a.same b = false
  covers : ∀ item ∈ items, item ∈ members ∨ ∃ member ∈ members, member.same item = true

/-- A value of a document spells a demand: a list spells a set of its items, any other value spells
itself. -/
inductive Spelled : Value → Expected → Prop
  | alone {v : Value} (h : v.list? = none) : Spelled v (.exactly v)
  | set {items members : List Value} (h : Keeps members items) :
      Spelled (.list items) (.oneOf members)

variable {value : Value} {expected : Expected}

theorem Keeps.step {kept before : List Value} (h : Keeps kept before) (v : Value) :
    Keeps (if kept.any (·.same v) then kept else kept ++ [v]) (before ++ [v]) := by
  split
  · rename_i hsame
    refine ⟨h.sublist.trans (List.sublist_append_left _ _), h.apart, fun item hitem => ?_⟩
    rcases List.mem_append.mp hitem with hitem | hitem
    · exact h.covers item hitem
    · obtain rfl := List.mem_singleton.mp hitem
      exact .inr (List.any_eq_true.mp hsame)
  · rename_i hnew
    refine ⟨h.sublist.append_right [v], ?_, fun item hitem => ?_⟩
    · refine List.pairwise_append.mpr ⟨h.apart, List.pairwise_singleton _ _, fun a ha b hb => ?_⟩
      obtain rfl := List.mem_singleton.mp hb
      simp only [List.any_eq_true, not_exists, not_and, Bool.not_eq_true] at hnew
      exact hnew a ha
    · rcases List.mem_append.mp hitem with hitem | hitem
      · rcases h.covers item hitem with hkept | ⟨member, hmember, hsame⟩
        · exact .inl (List.mem_append_left _ hkept)
        · exact .inr ⟨member, List.mem_append_left _ hmember, hsame⟩
      · exact .inl (List.mem_append_right _ hitem)

theorem Keeps.foldl {kept before : List Value} (h : Keeps kept before) (items : List Value) :
    Keeps (items.foldl (fun kept v => if kept.any (·.same v) then kept else kept ++ [v]) kept)
      (before ++ items) := by
  induction items generalizing kept before with
  | nil => simpa using h
  | cons item rest ih => simpa using ih (h.step item)

theorem keeps_distinct (items : List Value) : Keeps (distinct items) items :=
  Keeps.foldl ⟨.slnil, .nil, nofun⟩ items

theorem exists_ofValue (h : ∀ v ∈ Document.allowedValues value, v.isKey = true) :
    ∃ expected, ofValue value = .ok expected ∧ Spelled value expected := by
  cases value with
  | list items =>
    refine ⟨.oneOf (distinct items), ?_, .set (keeps_distinct items)⟩
    have hkeys : items.all Value.isKey = true := List.all_eq_true.mpr h
    rw [ofValue, ofMembers, if_pos hkeys]
  | _ => exact ⟨_, rfl, .alone rfl⟩

theorem allowedValues_of_list?_eq_none (h : value.list? = none) :
    Document.allowedValues value = [value] := by
  cases value with
  | list items => cases h
  | _ => rfl

end Expected

namespace Variable

variable {v : Variable} {a b actual : Value}

theorem Takes.isKey (h : v.Takes a) : a.isKey = true := by
  unfold Takes at h
  cases htype : v.type with
  | boolean =>
    rw [htype] at h
    obtain ⟨b, rfl⟩ := h
    rfl
  | number =>
    rw [htype] at h
    obtain ⟨n, rfl, -⟩ := h
    rfl
  | choice =>
    rw [htype] at h
    obtain ⟨s, -, rfl⟩ := h
    rfl

/-- Two values that a variable may take and that are the same are met by the same answers. -/
theorem Takes.strictlySame_congr (ha : v.Takes a) (hb : v.Takes b) (h : a.same b = true) :
    a.strictlySame actual = b.strictlySame actual := by
  unfold Takes at ha hb
  cases htype : v.type with
  | boolean =>
    rw [htype] at ha hb
    obtain ⟨x, rfl⟩ := ha
    obtain ⟨y, rfl⟩ := hb
    rw [Value.same, Value.asNumber?, Number.equal_int_iff] at h
    have hxy : x = y := by
      revert h
      cases x <;> cases y <;> decide
    rw [hxy]
  | number =>
    rw [htype] at ha hb
    obtain ⟨m, rfl, -⟩ := ha
    obtain ⟨n, rfl, -⟩ := hb
    rw [Value.same, Value.asNumber?] at h
    have hsame : (Value.number m).same actual = (Value.number n).same actual := by
      rw [Value.same, Value.same]
      cases actual.asNumber? with
      | none => rfl
      | some k => exact Number.equal_congr h
    rw [Value.strictlySame, Value.strictlySame, hsame]
    rfl
  | choice =>
    rw [htype] at ha hb
    obtain ⟨s, -, rfl⟩ := ha
    obtain ⟨t, -, rfl⟩ := hb
    rw [Value.same, beq_iff_eq] at h
    rw [h]

end Variable

/-- A demand is met by an answer exactly if the answer is one of the allowed values. -/
theorem Expected.Spelled.isMetBy {value : Value} {expected : Expected} {v : Variable}
    (h : Spelled value expected) (htakes : ∀ a ∈ Document.allowedValues value, v.Takes a)
    (actual : Value) :
    expected.isMetBy actual = (Document.allowedValues value).any (·.strictlySame actual) := by
  cases h with
  | alone hlist =>
    rw [allowedValues_of_list?_eq_none hlist, List.any_cons, List.any_nil, Bool.or_false]
    rfl
  | @set items members hkeeps =>
    rw [Bool.eq_iff_iff, Expected.isMetBy, List.any_eq_true, List.any_eq_true]
    constructor
    · rintro ⟨member, hmember, hmet⟩
      exact ⟨member, hkeeps.sublist.subset hmember, hmet⟩
    · rintro ⟨item, hitem, hmet⟩
      rcases hkeeps.covers item hitem with hmember | ⟨member, hmember, hsame⟩
      · exact ⟨item, hmember, hmet⟩
      · have htaken := htakes member (hkeeps.sublist.subset hmember)
        refine ⟨member, hmember, ?_⟩
        rw [htaken.strictlySame_congr (htakes item hitem) hsame]
        exact hmet

/-- The values that meet a demand on a variable are values that it may take, and there are some. -/
def Expected.Suits (v : Variable) : Expected → Prop
  | .exactly value => v.Takes value
  | .oneOf members => members ≠ [] ∧ ∀ member ∈ members, v.Takes member

theorem Expected.Spelled.suits {value : Value} {expected : Expected} {v : Variable}
    (h : Spelled value expected) (hsome : Document.allowedValues value ≠ [])
    (htakes : ∀ a ∈ Document.allowedValues value, v.Takes a) : expected.Suits v := by
  cases h with
  | alone hlist =>
    rw [allowedValues_of_list?_eq_none hlist] at htakes
    exact htakes value List.mem_cons_self
  | @set items members hkeeps =>
    refine ⟨?_, fun member hmember => htakes member (hkeeps.sublist.subset hmember)⟩
    rintro rfl
    obtain ⟨item, hitem⟩ := List.exists_mem_of_ne_nil _ hsome
    rcases hkeeps.covers item hitem with hmember | ⟨member, hmember, -⟩
    · cases hmember
    · cases hmember

namespace Document

variable {registered : Entries Variable} {declared : List String} {entries : Entries Value}
  {output : String}

/-- An entry of the mandatory conditions spells a condition that is met by the allowed values. -/
structure SpellsCondition (entry : String × Value) (condition : String × Expected) : Prop where
  name : condition.1 = entry.1
  demand : Expected.Spelled entry.2 condition.2
  met : ∀ actual, condition.2.isMetBy actual = (allowedValues entry.2).any (·.strictlySame actual)

/-- An object spells a soft rule: it gives the text of the condition, and the weight and the subject
unless there is none. -/
structure SpellsSoftRule (rule : SoftRule) (entries : Entries Value) : Prop where
  condition : entries.get? "condition" = some (.text rule.condition)
  weight : field entries "weight" = rule.weight
  subject : field entries "variable" = rule.subject.elim .null .text

/-- An object spells a bundle: it gives the conditions, the texts of the rules and the soft rules in
order, where a list that is left out is empty. -/
structure SpellsBundle (bundle : Bundle) (entries : Entries Value) : Prop where
  conditions : IsObject (fun found => List.Forall₂ SpellsCondition found bundle.conditions)
    ((entries.get? "mandatory_conditions").getD (.object []))
  inclusions : (entries.get? "inclusion_rules").getD (.list []) =
    .list (bundle.inclusions.map .text)
  exclusions : (entries.get? "exclusion_rules").getD (.list []) =
    .list (bundle.exclusions.map .text)
  softRules : ∃ items, (entries.get? "soft_rules").getD (.list []) = .list items ∧
    List.Forall₂ (fun item rule => IsObject (SpellsSoftRule rule) item) items bundle.softRules

theorem exists_condition {name : String} {value : Value}
    (h : ConditionFits registered (name, value)) :
    ∃ expected, Expected.ofValue value = .ok expected ∧
      SpellsCondition (name, value) (name, expected) := by
  obtain ⟨v, -, -, htakes⟩ := h
  obtain ⟨expected, hexpected, hspelled⟩ :=
    Expected.exists_ofValue fun a ha => (htakes a ha).isKey
  exact ⟨expected, hexpected, rfl, hspelled, hspelled.isMetBy htakes⟩

theorem exists_expectations {found : Entries Value}
    (h : ∀ condition ∈ found, ConditionFits registered condition) :
    ∃ conditions, expectations (.object found) = .ok conditions ∧
      List.Forall₂ SpellsCondition found conditions := by
  rw [expectations]
  induction found with
  | nil => exact ⟨[], rfl, .nil⟩
  | cons entry rest ih =>
    obtain ⟨name, value⟩ := entry
    obtain ⟨hentry, hrest⟩ := List.forall_mem_cons.mp h
    obtain ⟨expected, hexpected, hspells⟩ := exists_condition hentry
    obtain ⟨conditions, hconditions, hspelled⟩ := ih hrest
    refine ⟨(name, expected) :: conditions,
      mapM_eq_ok_iff.mpr (.cons ?_ (mapM_eq_ok_iff.mp hconditions)), .cons hspells hspelled⟩
    exact Except.bind_eq_ok.mpr ⟨expected, hexpected, rfl⟩

theorem spellsSoftRule_softRule (h : SoftRuleFits declared entries) :
    SpellsSoftRule (softRule entries) entries := by
  obtain ⟨text, htext, -⟩ := h.condition
  refine ⟨?_, rfl, ?_⟩
  · rw [softRule, htext]
    exact get?_of_field htext nofun
  · rw [softRule]
    rcases h.subject with hnull | ⟨name, -, hname⟩
    · rw [hnull]
      rfl
    · rw [hname]
      rfl

theorem forall₂_softRules {items : List Value}
    (h : ∀ item ∈ items, IsObject (SoftRuleFits declared) item) :
    List.Forall₂ (fun item rule => IsObject (SpellsSoftRule rule) item) items
      ((objectsOf (.list items)).map softRule) := by
  induction items with
  | nil => exact .nil
  | cons item rest ih =>
    obtain ⟨⟨entries, rfl, hfits⟩, hrest⟩ := List.forall_mem_cons.mp h
    exact .cons ⟨entries, rfl, spellsSoftRule_softRule hfits⟩ (ih hrest)

theorem exists_bundle (h : BundleFits registered entries) :
    ∃ b, bundle output (.object entries) = .ok b ∧ b.output = output ∧ SpellsBundle b entries := by
  obtain ⟨found, hfound, hconditions⟩ := h.conditions
  obtain ⟨inclusions, hinclusions, -⟩ := h.hard .inclusion
  obtain ⟨exclusions, hexclusions, -⟩ := h.hard .exclusion
  obtain ⟨items, hitems, hsoft⟩ := h.soft
  obtain ⟨expected, hexpected, hspelled⟩ := exists_expectations hconditions
  refine ⟨⟨output, expected, inclusions, exclusions, (objectsOf (.list items)).map softRule⟩, ?_,
    rfl, ⟨⟨found, hfound, hspelled⟩, hinclusions, hexclusions, items, hitems,
      forall₂_softRules hsoft⟩⟩
  rw [bundle, Value.object?, Option.getD_some, hfound, hexpected, hinclusions, hexclusions, hitems,
    textsOf_texts, textsOf_texts]
  rfl

/-- The conditions of a bundle are on variables that may take what is demanded of them. -/
def TypedConditions (registered : Entries Variable) (b : Bundle) : Prop :=
  ∀ condition ∈ b.conditions, ∃ v, registered.get? condition.1 = some v ∧ condition.2.Suits v

section Fitting

variable {b : Bundle}

theorem typedConditions_of_spells (hfits : BundleFits registered entries)
    (hspells : SpellsBundle b entries) : TypedConditions registered b := by
  obtain ⟨found, hfound, hspelled⟩ := hspells.conditions
  obtain ⟨_, hother, hconditions⟩ := hfits.conditions
  obtain rfl := Value.object.inj (hfound.symm.trans hother)
  intro condition hcondition
  obtain ⟨entry, hentry, hspell⟩ := exists_of_forall₂_right hspelled hcondition
  obtain ⟨v, hv, hsome, htakes⟩ := hconditions entry hentry
  exact ⟨v, hspell.name ▸ hv, hspell.demand.suits hsome htakes⟩

theorem texts_of_rulesFit {v : Value} {texts : List String} (hfits : RulesFit declared v)
    (hv : v = .list (texts.map .text)) : ∀ text ∈ texts, Rule.Fits declared text := by
  obtain ⟨others, rfl, hothers⟩ := hfits
  have hsame := congrArg textsOf hv
  rw [textsOf_texts, textsOf_texts] at hsame
  exact hsame ▸ hothers

/-- What is read from a bundle that fits passes the check of the catalog. -/
theorem fits_of_spells {registry : Registry} (hfits : BundleFits registered entries)
    (hspells : SpellsBundle b entries) (hnames : registered.names = registry.names) :
    b.Fits registry := by
  obtain ⟨items, hitems, hspelled⟩ := hspells.softRules
  obtain ⟨_, hother, hsoft⟩ := hfits.soft
  obtain rfl := Value.list.inj (hitems.symm.trans hother)
  have hrule : ∀ rule ∈ b.softRules, ∃ entries, SpellsSoftRule rule entries ∧
      SoftRuleFits registered.names entries := by
    intro rule hmem
    obtain ⟨item, hitem, entries, rfl, hspell⟩ := exists_of_forall₂_right hspelled hmem
    exact ⟨entries, hspell, isObject_object.mp (hsoft _ hitem)⟩
  refine ⟨fun name hname => ?_, fun text htext => ?_, fun rule hmem => ?_,
    fun rule hmem name hname => ?_⟩
  · obtain ⟨condition, hcondition, rfl⟩ := List.mem_map.mp hname
    obtain ⟨v, hv, -⟩ := typedConditions_of_spells hfits hspells condition hcondition
    exact hnames ▸ Entries.exists_get?_iff.mp ⟨v, hv⟩
  · rw [← hnames]
    simp only [Bundle.allTexts, Bundle.hardTexts, List.mem_append, List.mem_map] at htext
    rcases htext with (htext | htext) | ⟨rule, hmem, rfl⟩
    · exact texts_of_rulesFit (hfits.hard .inclusion) hspells.inclusions text htext
    · exact texts_of_rulesFit (hfits.hard .exclusion) hspells.exclusions text htext
    · obtain ⟨entries, hspell, hsoft⟩ := hrule rule hmem
      obtain ⟨text, htext, hreadable⟩ := hsoft.condition
      rw [field_of_get? hspell.condition] at htext
      exact Value.text.inj htext ▸ hreadable
  · obtain ⟨entries, hspell, hsoft⟩ := hrule rule hmem
    exact hspell.weight ▸ hsoft.weight
  · obtain ⟨entries, hspell, hsoft⟩ := hrule rule hmem
    have hsubject := hspell.subject
    rw [hname] at hsubject
    rcases hsoft.subject with hnull | ⟨other, hdeclared, hother⟩
    · rw [hnull] at hsubject
      cases hsubject
    · rw [hother] at hsubject
      exact hnames ▸ Value.text.inj hsubject ▸ hdeclared

end Fitting

theorem exists_readBundles {document found : Entries Value}
    (hsection : rulesSection document = .object found)
    (h : ∀ entry ∈ found, IsObject (BundleFits registered) entry.2) :
    ∃ bundles, readBundles document = .ok bundles ∧
      List.Forall₂ (fun entry b => b.output = entry.1 ∧ IsObject (SpellsBundle b) entry.2) found
        bundles := by
  rw [readBundles, hsection, Value.object?, Option.getD_some]
  clear hsection
  induction found with
  | nil => exact ⟨[], rfl, .nil⟩
  | cons entry rest ih =>
    obtain ⟨output, v⟩ := entry
    obtain ⟨⟨entries, rfl, hfits⟩, hrest⟩ := List.forall_mem_cons.mp h
    obtain ⟨b, hb, houtput, hspells⟩ := exists_bundle hfits
    obtain ⟨bundles, hbundles, hspelled⟩ := ih hrest
    exact ⟨b :: bundles, mapM_eq_ok_iff.mpr (.cons hb (mapM_eq_ok_iff.mp hbundles)),
      .cons ⟨houtput, entries, rfl, hspells⟩ hspelled⟩

end Document

end Shortlist
