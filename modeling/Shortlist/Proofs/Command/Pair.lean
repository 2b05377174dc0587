import Mathlib.Tactic.Common
import Shortlist.Command.Run
import Shortlist.Proofs.Entries
import Shortlist.Proofs.Rule.Words

/-!
# Reading pairs

A pair is cut at its first equals sign. The name of a declared variable is an identifier, which has
neither an equals sign nor a blank character, so the pair of such a name and a text is read as the
name itself and the text without the blank characters around it. Several pairs are read unless one
of them has no name, and of the pairs with one name the last one counts.
-/

namespace Shortlist

namespace Text

theorem plain_of_continuesIdentifier {c : Char} (h : continuesIdentifier c = true) :
    isBlank c = false ∧ c ≠ '=' := by
  by_cases hc : c.toNat < 128
  · have hword := continuesWord_of_ascii hc h
    refine ⟨not_isBlank_of_continuesWord hword, ?_⟩
    rintro rfl
    exact absurd hword (by decide)
  · have hequals : c ≠ '=' := by
      rintro rfl
      exact hc (by decide)
    refine ⟨?_, hequals⟩
    have hclass : (letterRanges.holds c = true ∧ excludedStartRanges.holds c = false ∨
        extraStartRanges.holds c = true) ∨ (decimalDigit? c).isSome = true ∨
        extraContinueRanges.holds c = true := by
      simpa [continuesIdentifier, startsIdentifier, isLetter, hc, ne_underscore hc, or_assoc]
        using h
    rcases hclass with (⟨hletter, -⟩ | hstart) | hdecimal | hcontinue
    · exact not_isBlank_of_continuesWord (by simp [continuesWord, isAlphanumeric, hc, hletter])
    · exact Ranges.holds_eq_false_of_apart (by decide +kernel) hstart
    · exact not_isBlank_of_isDigit (by rw [isDigit, hdecimal, Bool.true_or])
    · exact Ranges.holds_eq_false_of_apart (by decide +kernel) hcontinue

theorem plain_of_isIdentifier {s : String} (h : isIdentifier s = true) :
    ∀ c ∈ s.toList, isBlank c = false ∧ c ≠ '=' := by
  obtain ⟨first, rest, hs, hfirst, hrest⟩ := isIdentifier_iff.mp h
  rw [hs]
  refine List.forall_mem_cons.mpr ⟨plain_of_continuesIdentifier ?_,
    fun c hc => plain_of_continuesIdentifier (hrest c hc)⟩
  rw [continuesIdentifier, hfirst, Bool.true_or, Bool.true_or]

/-! ### Cutting off both ends -/

/-- No character of a class stands at either end. -/
def Bare (skip : Char → Bool) (cs : List Char) : Prop :=
  (∀ c ∈ cs.head?, skip c = false) ∧ ∀ c ∈ cs.getLast?, skip c = false

theorem bare_iff {skip : Char → Bool} {cs : List Char} :
    Bare skip cs ↔ cs.head?.any skip = false ∧ cs.getLast?.any skip = false := by
  simp [Bare, Option.any_eq_false]

instance (skip : Char → Bool) (cs : List Char) : Decidable (Bare skip cs) :=
  decidable_of_iff' _ bare_iff

/-- What is left of some characters when those of a class are cut off both ends. -/
def Trims (skip : Char → Bool) (cs kept : List Char) : Prop :=
  Bare skip kept ∧ ∃ front back, cs = front ++ kept ++ back ∧
    (∀ c ∈ front, skip c = true) ∧ ∀ c ∈ back, skip c = true

variable {skip : Char → Bool} {cs kept : List Char}

theorem head?_dropWhile (skip : Char → Bool) (cs : List Char) :
    ∀ c ∈ (cs.dropWhile skip).head?, skip c = false := by
  intro c hc
  have hhead := List.head?_dropWhile_not skip cs
  rw [Option.mem_def.mp hc] at hhead
  exact hhead

theorem trims_trimList (skip : Char → Bool) (cs : List Char) :
    Trims skip cs (trimList skip cs) := by
  have hrun (xs : List Char) : ∀ c ∈ xs.takeWhile skip, skip c = true :=
    fun c hc => List.mem_takeWhile_imp hc
  -- the characters that are cut off behind are the first of the reversed rest
  have hrest : trimList skip cs ++ ((cs.dropWhile skip).reverse.takeWhile skip).reverse =
      cs.dropWhile skip := by
    rw [trimList, ← List.reverse_append, List.takeWhile_append_dropWhile, List.reverse_reverse]
  have hfirst : ∀ c ∈ (trimList skip cs).head?, skip c = false := by
    intro c hc
    refine head?_dropWhile skip cs c ?_
    rw [← hrest, List.head?_append, Option.mem_def.mp hc]
    rfl
  have hlast : ∀ c ∈ (trimList skip cs).getLast?, skip c = false := by
    intro c hc
    rw [trimList, List.getLast?_reverse] at hc
    exact head?_dropWhile skip _ c hc
  have hcs : cs.takeWhile skip ++ trimList skip cs ++
      ((cs.dropWhile skip).reverse.takeWhile skip).reverse = cs := by
    rw [List.append_assoc, hrest, List.takeWhile_append_dropWhile]
  exact ⟨⟨hfirst, hlast⟩, _, _, hcs.symm, hrun cs, fun c hc => hrun _ c (List.mem_reverse.mp hc)⟩

/-- Cutting off both ends leaves just what is bare between two runs of the class. -/
theorem trimList_eq_iff : trimList skip cs = kept ↔ Trims skip cs kept := by
  refine ⟨fun h => h ▸ trims_trimList skip cs, ?_⟩
  rintro ⟨⟨hfirst, hlast⟩, front, back, rfl, hfront, hback⟩
  have hback' : ∀ c ∈ back.reverse, skip c = true := fun c hc => hback c (List.mem_reverse.mp hc)
  cases kept with
  | nil =>
    have hnone : (front ++ [] ++ back).dropWhile skip = [] :=
      List.dropWhile_eq_nil_iff.mpr (by simpa [or_imp, forall_and] using ⟨hfront, hback⟩)
    rw [trimList, hnone]
    rfl
  | cons c rest =>
    have hdrop : (front ++ (c :: rest ++ back)).dropWhile skip = c :: rest ++ back := by
      refine (takeWhile_run hfront ?_).2
      rintro _ ⟨⟩
      exact hfirst c rfl
    have hreverse : (back.reverse ++ (c :: rest).reverse).dropWhile skip = (c :: rest).reverse := by
      refine (takeWhile_run hback' ?_).2
      rwa [List.head?_reverse]
    rw [trimList, List.append_assoc, hdrop, List.reverse_append, hreverse, List.reverse_reverse]

theorem trim_eq_iff {s t : String} : trim s = t ↔ Trims isBlank s.toList t.toList := by
  rw [← trimList_eq_iff, trim]
  constructor
  · rintro rfl
    rw [String.toList_ofList]
  · intro h
    rw [h, String.ofList_toList]

theorem trim_eq_empty_iff {s : String} : trim s = "" ↔ ∀ c ∈ s.toList, isBlank c = true := by
  rw [trim_eq_iff]
  constructor
  · rintro ⟨-, front, back, hs, hfront, hback⟩ c hc
    rw [hs] at hc
    simp only [String.toList_empty, List.append_nil, List.mem_append] at hc
    exact hc.elim (hfront c) (hback c)
  · intro h
    refine ⟨⟨by simp, by simp⟩, s.toList, [], by simp, h, by simp⟩

theorem trim_of_bare {s : String} (h : Bare isBlank s.toList) : trim s = s :=
  trim_eq_iff.mpr ⟨h, [], [], by simp, by simp, by simp⟩

end Text

namespace Command

theorem readPair_append {name text : String} (h : '=' ∉ name.toList) :
    readPair (name ++ "=" ++ text) =
      if Text.trim name = "" then .error ⟨name ++ "=" ++ text⟩
      else .ok (Text.trim name, Text.trim text) := by
  have hlist : (name ++ "=" ++ text).toList = name.toList ++ '=' :: text.toList := by
    rw [String.toList_append, String.toList_append, List.append_assoc]
    rfl
  have hname : ∀ c ∈ name.toList, (c != '=') = true :=
    fun c hc => bne_iff_ne.mpr fun heq => h (heq ▸ hc)
  have hsign : ∀ d ∈ ('=' :: text.toList).head?, (d != '=') = false := by simp
  obtain ⟨hfront, hbehind⟩ := Text.takeWhile_run hname hsign
  rw [readPair, hlist, hfront, hbehind, String.ofList_toList]
  dsimp only
  rw [String.ofList_toList]

theorem readPair_identifier {name : String} (h : Text.isIdentifier name = true) (text : String) :
    readPair (name ++ "=" ++ text) = .ok (name, Text.trim text) := by
  have hplain := Text.plain_of_isIdentifier h
  have hne : name ≠ "" := by
    rintro rfl
    cases h
  rw [readPair_append fun hc => (hplain _ hc).2 rfl, Text.trim_eq_self fun c hc => (hplain c hc).1,
    if_neg hne]

theorem readPairs_singleton (pair : String) :
    readPairs [pair] = (readPair pair).map fun entry => [entry] := by
  rw [readPairs, List.mapM_cons]
  cases readPair pair <;> rfl

/-! ### Several pairs -/

/-- A pair has no name: there is no equals sign in it, or nothing but blank characters before the
first one. -/
def Nameless (pair : String) : Prop :=
  '=' ∉ pair.toList ∨ ∃ front behind, pair = front ++ "=" ++ behind ∧ '=' ∉ front.toList ∧
    ∀ c ∈ front.toList, Text.isBlank c = true

/-- A pair gives a name and a text: its first equals sign stands between the two, and the blank
characters around them are cut off. -/
def Gives (pair : String) (part : String × String) : Prop :=
  ∃ front behind, pair = front ++ "=" ++ behind ∧ '=' ∉ front.toList ∧
    Text.Trims Text.isBlank front.toList part.1.toList ∧
    Text.Trims Text.isBlank behind.toList part.2.toList

theorem exists_first_sign {pair : String} (h : '=' ∈ pair.toList) :
    ∃ front behind, pair = front ++ "=" ++ behind ∧ '=' ∉ front.toList := by
  obtain ⟨before, after, hcut, hbefore⟩ := List.eq_append_cons_of_mem h
  refine ⟨String.ofList before, String.ofList after, ?_, by simpa using hbefore⟩
  rw [← String.toList_inj, hcut]
  simp

theorem readPair_of_no_sign {pair : String} (h : '=' ∉ pair.toList) :
    readPair pair = .error ⟨pair⟩ := by
  have hnone : pair.toList.dropWhile (· != '=') = [] :=
    List.dropWhile_eq_nil_iff.mpr fun c hc => bne_iff_ne.mpr fun heq => h (heq ▸ hc)
  rw [readPair, hnone]

theorem readPair_eq_error_iff {pair : String} {e : PairError} :
    readPair pair = .error e ↔ Nameless pair ∧ e = ⟨pair⟩ := by
  constructor
  · intro h
    by_cases hsign : '=' ∈ pair.toList
    · obtain ⟨front, behind, rfl, hfront⟩ := exists_first_sign hsign
      rw [readPair_append hfront] at h
      split at h
      · rename_i hempty
        cases h
        exact ⟨.inr ⟨front, behind, rfl, hfront, Text.trim_eq_empty_iff.mp hempty⟩, rfl⟩
      · cases h
    · rw [readPair_of_no_sign hsign] at h
      cases h
      exact ⟨.inl hsign, rfl⟩
  · rintro ⟨hnone | ⟨front, behind, rfl, hfront, hblank⟩, rfl⟩
    · exact readPair_of_no_sign hnone
    · rw [readPair_append hfront, if_pos (Text.trim_eq_empty_iff.mpr hblank)]

theorem readPair_eq_ok_iff {pair : String} {part : String × String} :
    readPair pair = .ok part ↔ ¬Nameless pair ∧ Gives pair part := by
  constructor
  · intro h
    have hnamed : ¬Nameless pair := by
      intro hnameless
      rw [readPair_eq_error_iff.mpr ⟨hnameless, rfl⟩] at h
      cases h
    have hsign : '=' ∈ pair.toList := not_not.mp fun hnone => hnamed (.inl hnone)
    obtain ⟨front, behind, rfl, hfront⟩ := exists_first_sign hsign
    rw [readPair_append hfront] at h
    split at h
    · cases h
    · cases h
      exact ⟨hnamed, front, behind, rfl, hfront, Text.trim_eq_iff.mp rfl, Text.trim_eq_iff.mp rfl⟩
  · rintro ⟨hnamed, front, behind, rfl, hfront, hname, htext⟩
    have hne : Text.trim front ≠ "" := fun hempty =>
      hnamed (.inr ⟨front, behind, rfl, hfront, Text.trim_eq_empty_iff.mp hempty⟩)
    rw [readPair_append hfront, if_neg hne, Text.trim_eq_iff.mpr hname, Text.trim_eq_iff.mpr htext]

theorem exists_readPair_iff {pair : String} :
    (∃ part, readPair pair = .ok part) ↔ ¬Nameless pair := by
  cases h : readPair pair with
  | ok part => simpa using (readPair_eq_ok_iff.mp h).1
  | error e => simpa using (readPair_eq_error_iff.mp h).1

theorem readPairs_eq_error_iff {pairs : List String} {e : PairError} :
    readPairs pairs = .error e ↔ ∃ before behind, pairs = before ++ e.pair :: behind ∧
      Nameless e.pair ∧ ∀ pair ∈ before, ¬Nameless pair := by
  rw [readPairs, Except.bind_pure_eq_error, mapM_eq_error_iff]
  simp only [exists_readPair_iff, readPair_eq_error_iff]
  constructor
  · rintro ⟨before, pair, behind, hpairs, ⟨hpair, rfl⟩, hbefore⟩
    exact ⟨before, behind, hpairs, hpair, hbefore⟩
  · rintro ⟨before, behind, hpairs, hpair, hbefore⟩
    exact ⟨before, e.pair, behind, hpairs, ⟨hpair, rfl⟩, hbefore⟩

theorem readPairs_eq_ok_iff {pairs : List String} {entries : Entries String} :
    readPairs pairs = .ok entries ↔ (∀ pair ∈ pairs, ¬Nameless pair) ∧
      ∃ parts, List.Forall₂ Gives pairs parts ∧ Entries.LastWins parts entries := by
  rw [readPairs, Except.bind_eq_ok, ← exists_and_left]
  refine exists_congr fun parts => ?_
  have hparts : pairs.mapM readPair = .ok parts ↔
      (∀ pair ∈ pairs, ¬Nameless pair) ∧ List.Forall₂ Gives pairs parts := by
    rw [mapM_eq_ok_iff, ← List.forall₂_and_left]
    simp only [readPair_eq_ok_iff]
  rw [hparts, Except.pure_eq_ok, Entries.lastWins_iff, eq_comm, and_assoc]

theorem answersOf_some (pairs : List String) :
    answersOf (pairs.map some) = (readPairs pairs).mapError .pair := by
  rw [answersOf, readPairs, List.mapM_map, Except.mapError_bind, mapError_mapM]
  rfl

theorem gives_append {part : String × String} (hsign : '=' ∉ part.1.toList)
    (hname : Text.Bare Text.isBlank part.1.toList) (htext : Text.Bare Text.isBlank part.2.toList) :
    Gives (part.1 ++ "=" ++ part.2) part :=
  ⟨part.1, part.2, rfl, hsign, Text.trim_eq_iff.mp (Text.trim_of_bare hname),
    Text.trim_eq_iff.mp (Text.trim_of_bare htext)⟩

theorem not_nameless_append {part : String × String} (hne : part.1 ≠ "")
    (hsign : '=' ∉ part.1.toList) (hname : Text.Bare Text.isBlank part.1.toList) :
    ¬Nameless (part.1 ++ "=" ++ part.2) := by
  rw [← exists_readPair_iff, readPair_append hsign, Text.trim_of_bare hname, if_neg hne]
  exact ⟨_, rfl⟩

/-- Pairs are refused exactly if one of them has no name, and the first such pair is reported.
Otherwise they are read into entries that hold every name once, in order of first appearance, with
the text of the last pair that bears it; a command takes its answers from them. So pairs that are
written from names and texts are read as the entries in which later texts replace earlier ones. -/
theorem last_pair_of_a_name_counts :
    (∀ pairs : List String,
      ((∃ e, readPairs pairs = .error e) ↔ ∃ pair ∈ pairs, Nameless pair) ∧
      (∀ e, readPairs pairs = .error e ↔ ∃ before behind, pairs = before ++ e.pair :: behind ∧
        Nameless e.pair ∧ ∀ pair ∈ before, ¬Nameless pair) ∧
      (∀ entries, readPairs pairs = .ok entries ↔ (∀ pair ∈ pairs, ¬Nameless pair) ∧
        ∃ parts, List.Forall₂ Gives pairs parts ∧ Entries.LastWins parts entries) ∧
      answersOf (pairs.map some) = (readPairs pairs).mapError .pair) ∧
    ∀ parts : Entries String,
      (∀ part ∈ parts, part.1 ≠ "" ∧ '=' ∉ part.1.toList ∧
        Text.Bare Text.isBlank part.1.toList ∧ Text.Bare Text.isBlank part.2.toList) →
      ∃ entries, readPairs (parts.map fun part => part.1 ++ "=" ++ part.2) = .ok entries ∧
        Entries.LastWins parts entries := by
  refine ⟨fun pairs => ⟨?_, fun e => readPairs_eq_error_iff, fun entries => readPairs_eq_ok_iff,
    answersOf_some pairs⟩, fun parts hparts => ?_⟩
  · cases h : readPairs pairs with
    | ok entries => simpa using (readPairs_eq_ok_iff.mp h).1
    | error e =>
      obtain ⟨before, behind, rfl, hpair, -⟩ := readPairs_eq_error_iff.mp h
      exact iff_of_true ⟨e, rfl⟩ ⟨e.pair, by simp, hpair⟩
  · refine ⟨Entries.ofList parts, readPairs_eq_ok_iff.mpr ⟨?_, parts, ?_,
      Entries.lastWins_ofList parts⟩, Entries.lastWins_ofList parts⟩
    · rw [List.forall_mem_map]
      intro part hpart
      obtain ⟨hne, hsign, hname, -⟩ := hparts part hpart
      exact not_nameless_append hne hsign hname
    · rw [List.forall₂_map_left_iff, List.forall₂_same]
      intro part hpart
      obtain ⟨-, hsign, hname, htext⟩ := hparts part hpart
      exact gives_append hsign hname htext

theorem later_kind_replaces_earlier :
    (∀ part ∈ ([("kind", "home"), ("note", "a=b"), ("kind", "shop")] : Entries String),
      part.1 ≠ "" ∧ '=' ∉ part.1.toList ∧ Text.Bare Text.isBlank part.1.toList ∧
        Text.Bare Text.isBlank part.2.toList) ∧
    ∃ entries, readPairs ["kind=home", "note=a=b", "kind=shop"] = .ok entries ∧
      Entries.LastWins [("kind", "home"), ("note", "a=b"), ("kind", "shop")] entries ∧
      entries = [("kind", "shop"), ("note", "a=b")] := by
  have hparts : ∀ part ∈ ([("kind", "home"), ("note", "a=b"), ("kind", "shop")] : Entries String),
      part.1 ≠ "" ∧ '=' ∉ part.1.toList ∧ Text.Bare Text.isBlank part.1.toList ∧
        Text.Bare Text.isBlank part.2.toList := by decide
  obtain ⟨entries, hread, hlast⟩ := last_pair_of_a_name_counts.2 _ hparts
  exact ⟨hparts, entries, hread, hlast, Entries.lastWins_iff.mp hlast⟩

end Command

end Shortlist
