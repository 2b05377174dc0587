import Mathlib.Data.List.Induction
import Mathlib.Data.List.Nodup
import Shortlist.Entries

/-!
# Reading entries back

Entries are read through `get?`, and every operation on them is described by what can be read
afterwards. Storing what is there already and dropping what is not change nothing, so an operation
that is done twice is done once. What is said of all stored values is kept by storing and dropping,
and so is that names are distinct; entries with distinct names are known up to their order by what
can be read. Pairs with repeated names spell the entries in which later values replace earlier ones
in place.
-/

namespace Shortlist.Entries

variable {α : Type} {entries : Entries α} {name : String} {a : α}

theorem mem_names_cons {entry : String × α} :
    name ∈ names (entry :: entries) ↔ name = entry.1 ∨ name ∈ entries.names := by
  rw [names, names, List.map_cons, List.mem_cons]

theorem has_iff : entries.has name = true ↔ ∃ entry ∈ entries, entry.1 = name := by
  simp [has]

theorem mem_of_get?_eq_some (h : entries.get? name = some a) : (name, a) ∈ entries := by
  obtain ⟨entry, hfind, rfl⟩ := Option.map_eq_some_iff.mp h
  have hname : entry.1 = name := by simpa using List.find?_some hfind
  exact hname ▸ List.mem_of_find?_eq_some hfind

theorem exists_get?_iff : (∃ a, entries.get? name = some a) ↔ name ∈ entries.names := by
  induction entries with
  | nil => simp [names]
  | cons entry rest ih =>
    rw [get?_cons]
    by_cases h : entry.1 = name
    · simp [h, names]
    · have hne : name ≠ entry.1 := fun hn => h hn.symm
      rw [if_neg h, ih, mem_names_cons, or_iff_right hne]

theorem get?_eq_none_iff : entries.get? name = none ↔ name ∉ entries.names := by
  rw [← exists_get?_iff, Option.eq_none_iff_forall_ne_some]
  exact not_exists.symm

/-! ### Storing several pairs -/

theorem get?_insertAll {pairs : Entries α} (h : pairs.names.Nodup) (entries : Entries α) :
    (entries.insertAll pairs).get? name = (pairs.get? name).or (entries.get? name) := by
  induction pairs generalizing entries with
  | nil => rfl
  | cons pair rest ih =>
    obtain ⟨hfirst, hrest⟩ := List.nodup_cons.mp h
    rw [insertAll, List.foldl_cons, ← insertAll, ih hrest, get?_insert, get?_cons]
    by_cases hname : pair.1 = name
    · have hnone : get? rest name = none := get?_eq_none_iff.mpr (hname ▸ hfirst)
      rw [if_pos hname, if_pos hname, hnone]
      rfl
    · rw [if_neg hname, if_neg hname]

theorem get?_insertAll_of_not_mem {pairs : Entries α} (h : name ∉ pairs.names) :
    (entries.insertAll pairs).get? name = entries.get? name := by
  induction pairs generalizing entries with
  | nil => rfl
  | cons pair rest ih =>
    rw [mem_names_cons, not_or] at h
    rw [insertAll, List.foldl_cons, ← insertAll, ih h.2, get?_insert, if_neg (Ne.symm h.1)]

theorem get?_insertAll_last {before behind : Entries α} (h : name ∉ behind.names) :
    (entries.insertAll (before ++ (name, a) :: behind)).get? name = some a := by
  rw [insertAll, List.foldl_append, List.foldl_cons, ← insertAll, get?_insertAll_of_not_mem h,
    get?_insert, if_pos rfl]

theorem mem_names_insertAll {pairs : Entries α} :
    name ∈ (entries.insertAll pairs).names ↔ name ∈ entries.names ∨ name ∈ pairs.names := by
  induction pairs generalizing entries with
  | nil => simp [insertAll, names]
  | cons pair rest ih =>
    rw [insertAll, List.foldl_cons, ← insertAll, ih, names_insert, mem_names_cons]
    by_cases h : pair.1 ∈ entries.names
    · rw [if_pos h]
      have hold : name = pair.1 → name ∈ entries.names := fun heq => heq ▸ h
      tauto
    · rw [if_neg h, List.mem_append, List.mem_singleton, or_assoc]

theorem get?_foldl_erase {cleared : List String} :
    (cleared.foldl erase entries).get? name =
      if name ∈ cleared then none else entries.get? name := by
  induction cleared generalizing entries with
  | nil => rfl
  | cons other rest ih =>
    rw [List.foldl_cons, ih, get?_erase]
    by_cases hrest : name ∈ rest
    · rw [if_pos hrest, if_pos (List.mem_cons_of_mem _ hrest)]
    · simp only [hrest, if_false, List.mem_cons, or_false, eq_comm]

/-! ### Operations that change nothing -/

theorem insert_eq_self (h : entries.get? name = some a) : entries.insert name a = entries := by
  induction entries with
  | nil => cases h
  | cons entry rest ih =>
    rw [get?_cons] at h
    by_cases hname : entry.1 = name
    · rw [if_pos hname] at h
      obtain rfl := Option.some.inj h
      simp [insert, ← hname]
    · rw [if_neg hname] at h
      simp [insert, hname, ih h]

theorem erase_eq_self (h : entries.get? name = none) : entries.erase name = entries := by
  have hmem := get?_eq_none_iff.mp h
  refine List.filter_eq_self.mpr fun entry hentry => ?_
  have hne : entry.1 ≠ name := fun heq => hmem (heq ▸ List.mem_map_of_mem hentry)
  simpa using hne

theorem insertAll_eq_self {pairs : Entries α}
    (h : ∀ pair ∈ pairs, entries.get? pair.1 = some pair.2) :
    entries.insertAll pairs = entries := by
  induction pairs with
  | nil => rfl
  | cons pair rest ih =>
    rw [List.forall_mem_cons] at h
    rw [insertAll, List.foldl_cons, insert_eq_self h.1]
    exact ih h.2

theorem foldl_erase_eq_self {cleared : List String}
    (h : ∀ name ∈ cleared, entries.get? name = none) : cleared.foldl erase entries = entries := by
  induction cleared with
  | nil => rfl
  | cons name rest ih =>
    rw [List.forall_mem_cons] at h
    rw [List.foldl_cons, erase_eq_self h.1]
    exact ih h.2

/-- A new name is stored at the end, so dropping it again restores the entries. -/
theorem erase_insert_of_get?_eq_none (h : entries.get? name = none) :
    (entries.insert name a).erase name = entries := by
  induction entries with
  | nil => simp [insert, erase]
  | cons entry rest ih =>
    rw [get?_cons] at h
    by_cases hname : entry.1 = name
    · simp [hname] at h
    · rw [if_neg hname] at h
      have hrest := ih h
      unfold erase at hrest ⊢
      simp [insert, hname, hrest]

/-! ### Changed values -/

theorem names_mapValues {β : Type} {f : String → α → β} :
    (entries.mapValues f).names = entries.names := by
  simp [names, mapValues, List.map_map, Function.comp_def]

section Changes

variable {change : String → α → α}

theorem get?_mapValues {name : String} :
    (entries.mapValues change).get? name = (entries.get? name).map (change name) := by
  induction entries with
  | nil => rfl
  | cons entry rest ih =>
    rw [mapValues, List.map_cons, ← mapValues, get?_cons, get?_cons, ih]
    by_cases hname : entry.1 = name
    · rw [if_pos hname, if_pos hname, Option.map_some, hname]
    · rw [if_neg hname, if_neg hname]

theorem mapValues_mapValues {next : String → α → α} :
    (entries.mapValues change).mapValues next =
      entries.mapValues fun name a => next name (change name a) := by
  rw [mapValues, mapValues, List.map_map]
  rfl

theorem mapValues_eq_self (h : ∀ entry ∈ entries, change entry.1 entry.2 = entry.2) :
    entries.mapValues change = entries := by
  have hself : ∀ entry ∈ entries, (entry.1, change entry.1 entry.2) = id entry := by
    intro entry hentry
    rw [h entry hentry]
    rfl
  rw [mapValues, List.map_congr_left hself, List.map_id]

theorem insert_mapValues {name : String} {a : α} (hdistinct : entries.names.Nodup)
    (hget : entries.get? name = some a)
    (hothers : ∀ other b, other ≠ name → change other b = b) :
    (entries.mapValues change).insert name a = entries := by
  induction entries with
  | nil => cases hget
  | cons entry rest ih =>
    obtain ⟨hfirst, hrest⟩ := List.nodup_cons.mp hdistinct
    rw [get?_cons] at hget
    rw [mapValues, List.map_cons, insert, ← mapValues]
    by_cases hname : entry.1 = name
    · rw [if_pos hname] at hget
      obtain rfl := Option.some.inj hget
      have hsame : mapValues change rest = rest := mapValues_eq_self fun other hother =>
        hothers _ _ fun h => hfirst (List.mem_map.mpr ⟨other, hother, h.trans hname.symm⟩)
      rw [if_pos (by simpa using hname), hsame, ← hname]
    · rw [if_neg hname] at hget
      rw [if_neg (by simpa using hname), hothers _ _ hname, ih hrest hget]

end Changes

/-! ### Operations on different names -/

theorem insert_eq_append (h : name ∉ entries.names) :
    entries.insert name a = entries ++ [(name, a)] := by
  induction entries with
  | nil => rfl
  | cons entry rest ih =>
    rw [mem_names_cons, not_or] at h
    rw [insert, if_neg (by simpa using Ne.symm h.1), ih h.2, List.cons_append]

theorem erase_insert_of_ne {other : String} (h : name ≠ other) :
    (entries.insert name a).erase other = (entries.erase other).insert name a := by
  induction entries with
  | nil => simp [insert, erase, h]
  | cons entry rest ih =>
    unfold erase at ih ⊢
    by_cases hname : entry.1 = name
    · simp [insert, hname, h]
    · by_cases hother : entry.1 = other
      · simp [insert, hother, h.symm, ih]
      · simp [insert, hname, hother, ih]

theorem erase_insertAll_of_not_mem {pairs : Entries α} {other : String} (h : other ∉ pairs.names) :
    (entries.insertAll pairs).erase other = (entries.erase other).insertAll pairs := by
  induction pairs generalizing entries with
  | nil => rfl
  | cons pair rest ih =>
    rw [mem_names_cons, not_or] at h
    rw [insertAll, List.foldl_cons, ← insertAll, ih h.2, erase_insert_of_ne (Ne.symm h.1)]
    rfl

/-- To store a new pair last is to store it behind all others. -/
theorem insertAll_insert {pairs : Entries α} (h : name ∉ pairs.names) :
    entries.insertAll (pairs.insert name a) = (entries.insertAll pairs).insert name a := by
  rw [insert_eq_append h, insertAll, List.foldl_append]
  rfl

theorem insertAll_eq_append {pairs : Entries α} (hpairs : pairs.names.Nodup)
    (hnew : ∀ name ∈ pairs.names, name ∉ entries.names) :
    entries.insertAll pairs = entries ++ pairs := by
  induction pairs generalizing entries with
  | nil => simp [insertAll]
  | cons pair rest ih =>
    obtain ⟨hfirst, hrest⟩ := List.nodup_cons.mp hpairs
    have hpair : pair.1 ∉ entries.names := hnew pair.1 (mem_names_cons.mpr (.inl rfl))
    rw [insertAll, List.foldl_cons, insert_eq_append hpair, ← insertAll, ih hrest]
    · simp
    · intro name hname
      have hold : name ∉ entries.names := hnew name (mem_names_cons.mpr (.inr hname))
      have hne : name ≠ pair.1 := by
        rintro rfl
        exact hfirst hname
      simpa [names, hne] using hold

/-! ### Distinct names -/

theorem nodup_names_insert (h : entries.names.Nodup) : (entries.insert name a).names.Nodup := by
  rw [names_insert]
  split
  · exact h
  · rename_i hnew
    rw [← List.concat_eq_append]
    exact h.concat hnew

theorem nodup_names_erase (h : entries.names.Nodup) : (entries.erase name).names.Nodup :=
  h.sublist (List.filter_sublist.map _)

theorem nodup_names_foldl_erase {cleared : List String} (h : entries.names.Nodup) :
    (names (cleared.foldl erase entries)).Nodup := by
  induction cleared generalizing entries with
  | nil => exact h
  | cons name rest ih => exact ih (nodup_names_erase h)

theorem nodup_names_insertAll {pairs : Entries α} (h : entries.names.Nodup) :
    (entries.insertAll pairs).names.Nodup := by
  induction pairs generalizing entries with
  | nil => exact h
  | cons pair rest ih => exact ih (nodup_names_insert h)

theorem get?_eq_some_iff (h : entries.names.Nodup) :
    entries.get? name = some a ↔ (name, a) ∈ entries := by
  refine ⟨mem_of_get?_eq_some, fun hmem => ?_⟩
  induction entries with
  | nil => cases hmem
  | cons entry rest ih =>
    obtain ⟨hfirst, hrest⟩ := List.nodup_cons.mp h
    rw [get?_cons]
    rcases List.mem_cons.mp hmem with rfl | hmem
    · rw [if_pos rfl]
    · have hne : entry.1 ≠ name := fun heq =>
        hfirst (List.mem_map.mpr ⟨(name, a), hmem, heq.symm⟩)
      rw [if_neg hne, ih hrest hmem]

/-- Entries with distinct names that read alike differ in their order only. -/
theorem perm_of_get?_eq {others : Entries α} (hentries : entries.names.Nodup)
    (hothers : others.names.Nodup) (h : ∀ name, entries.get? name = others.get? name) :
    entries.Perm others := by
  refine (List.perm_ext_iff_of_nodup hentries.of_map hothers.of_map).mpr fun entry => ?_
  rw [← get?_eq_some_iff hentries, ← get?_eq_some_iff hothers, h entry.1]

/-! ### What holds of all entries -/

variable {P : String × α → Prop}

theorem forall_getD {Q : α → Prop} (hentries : ∀ entry ∈ entries, Q entry.2) (hdefault : Q a) :
    Q ((entries.get? name).getD a) := by
  cases h : entries.get? name with
  | none => exact hdefault
  | some found => exact hentries _ (mem_of_get?_eq_some h)

theorem forall_insert (hentries : ∀ entry ∈ entries, P entry) (hnew : P (name, a)) :
    ∀ entry ∈ entries.insert name a, P entry := by
  induction entries with
  | nil =>
    intro entry hentry
    rw [List.mem_singleton.mp hentry]
    exact hnew
  | cons first rest ih =>
    rw [List.forall_mem_cons] at hentries
    rw [insert]
    split
    · exact List.forall_mem_cons.mpr ⟨hnew, hentries.2⟩
    · exact List.forall_mem_cons.mpr ⟨hentries.1, ih hentries.2⟩

theorem forall_erase (hentries : ∀ entry ∈ entries, P entry) :
    ∀ entry ∈ entries.erase name, P entry :=
  fun entry hentry => hentries entry (List.mem_filter.mp hentry).1

theorem forall_foldl_erase {cleared : List String} (hentries : ∀ entry ∈ entries, P entry) :
    ∀ entry ∈ cleared.foldl erase entries, P entry := by
  induction cleared generalizing entries with
  | nil => exact hentries
  | cons name rest ih => exact ih (forall_erase hentries)

theorem forall_insertAll {pairs : Entries α} (hentries : ∀ entry ∈ entries, P entry)
    (hpairs : ∀ pair ∈ pairs, P pair) : ∀ entry ∈ entries.insertAll pairs, P entry := by
  induction pairs generalizing entries with
  | nil => exact hentries
  | cons pair rest ih =>
    rw [List.forall_mem_cons] at hpairs
    exact ih (forall_insert hentries hpairs.1) hpairs.2

/-! ### Repeated names -/

/-- Entries hold every name of some pairs once, in order of first appearance, with the value of the
last pair that bears it. -/
structure LastWins (pairs entries : Entries α) : Prop where
  names : entries.names = pairs.names.eraseDups
  last : ∀ ⦃before behind : Entries α⦄ ⦃name a⦄, pairs = before ++ (name, a) :: behind →
    name ∉ behind.names → entries.get? name = some a

theorem ofList_append_singleton (pairs : Entries α) (pair : String × α) :
    ofList (pairs ++ [pair]) = (ofList pairs).insert pair.1 pair.2 := by
  rw [ofList, insertAll, List.foldl_append]
  rfl

theorem eraseDups_append_singleton (names : List String) (name : String) :
    (names ++ [name]).eraseDups =
      if name ∈ names then names.eraseDups else names.eraseDups ++ [name] := by
  rw [List.eraseDups_append, List.cons_removeAll]
  by_cases h : name ∈ names
  · simp [h]
  · simp [h, List.eraseDups_cons]

theorem names_ofList (pairs : Entries α) : (ofList pairs).names = pairs.names.eraseDups := by
  induction pairs using List.reverseRecOn with
  | nil => rfl
  | append_singleton front pair ih =>
    have hnames : names (front ++ [pair]) = names front ++ [pair.1] := List.map_append
    rw [ofList_append_singleton, names_insert, ih, hnames, eraseDups_append_singleton]
    simp only [List.mem_eraseDups]

theorem lastWins_ofList (pairs : Entries α) : LastWins pairs (ofList pairs) where
  names := names_ofList pairs
  last := by
    rintro before behind name a rfl hlast
    exact get?_insertAll_last hlast

theorem exists_last {pairs : Entries α} (h : name ∈ pairs.names) :
    ∃ (before behind : Entries α) (a : α), pairs = before ++ (name, a) :: behind ∧
      name ∉ behind.names := by
  induction pairs with
  | nil => cases h
  | cons pair rest ih =>
    by_cases hrest : name ∈ names rest
    · obtain ⟨before, behind, a, rfl, hlast⟩ := ih hrest
      exact ⟨pair :: before, behind, a, rfl, hlast⟩
    · obtain rfl : name = pair.1 := (mem_names_cons.mp h).resolve_right hrest
      exact ⟨[], rest, pair.2, rfl, hrest⟩

/-- Entries with the same distinct names in the same order are known by what can be read. -/
theorem eq_of_names_eq {others : Entries α} (hnames : entries.names = others.names)
    (hdistinct : entries.names.Nodup)
    (h : ∀ name ∈ entries.names, entries.get? name = others.get? name) : entries = others := by
  induction entries generalizing others with
  | nil =>
    cases others with
    | nil => rfl
    | cons other more => cases hnames
  | cons entry rest ih =>
    cases others with
    | nil => cases hnames
    | cons other more =>
      obtain ⟨hname, hrest⟩ := List.cons.inj hnames
      replace hname : entry.1 = other.1 := hname
      obtain ⟨hfirst, hdistinct⟩ := List.nodup_cons.mp hdistinct
      have hvalue := h entry.1 List.mem_cons_self
      rw [get?_cons, get?_cons, if_pos rfl, if_pos hname.symm] at hvalue
      have htail : rest = more := by
        refine ih hrest hdistinct fun name hmem => ?_
        have hne : entry.1 ≠ name := by
          rintro rfl
          exact hfirst hmem
        have hread := h name (List.mem_cons_of_mem _ hmem)
        rwa [get?_cons, get?_cons, if_neg hne, if_neg (hname ▸ hne)] at hread
      rw [htail, Prod.ext hname (Option.some.inj hvalue)]

/-- Only one list of entries holds each name once with its last value. -/
theorem lastWins_iff {pairs : Entries α} : LastWins pairs entries ↔ entries = ofList pairs := by
  refine ⟨fun h => ?_, fun h => h ▸ lastWins_ofList pairs⟩
  have hnames : entries.names = (ofList pairs).names := h.names.trans (names_ofList pairs).symm
  have hdistinct : (ofList pairs).names.Nodup := nodup_names_insertAll List.nodup_nil
  refine eq_of_names_eq hnames (hnames ▸ hdistinct) fun name hmem => ?_
  rw [h.names, List.mem_eraseDups] at hmem
  obtain ⟨before, behind, a, hpairs, hlast⟩ := exists_last hmem
  rw [h.last hpairs hlast, (lastWins_ofList pairs).last hpairs hlast]

end Shortlist.Entries
