/-!
# The order of texts

Texts are ordered by their code points. A set of names is shown as the list of its distinct members
in this order. Sorting is by insertion, which is computed without ado on the few names of a catalog.
-/

namespace Shortlist.Text

/-- Whether a text may stand before another. -/
def atMost (s t : String) : Bool := !decide (t < s)

/-- A text put into a list in front of the first one that it may stand before. -/
def orderedInsert (s : String) : List String → List String
  | [] => [s]
  | t :: rest => if atMost s t then s :: t :: rest else t :: orderedInsert s rest

def sorted (texts : List String) : List String := texts.foldr orderedInsert []

/-- The distinct texts of a list, in order. -/
def sortedSet (texts : List String) : List String := sorted texts.eraseDups

theorem orderedInsert_perm (s : String) (texts : List String) :
    (orderedInsert s texts).Perm (s :: texts) := by
  induction texts with
  | nil => exact .refl _
  | cons t rest ih =>
    rw [orderedInsert]
    split
    · exact .refl _
    · exact (ih.cons t).trans (.swap s t rest)

theorem sorted_perm (texts : List String) : (sorted texts).Perm texts := by
  induction texts with
  | nil => exact .refl _
  | cons s rest ih => exact (orderedInsert_perm s (sorted rest)).trans (ih.cons s)

theorem mem_sorted {s : String} {texts : List String} : s ∈ sorted texts ↔ s ∈ texts :=
  (sorted_perm texts).mem_iff

theorem mem_sortedSet {s : String} {texts : List String} : s ∈ sortedSet texts ↔ s ∈ texts := by
  simp [sortedSet, mem_sorted]

theorem atMost_iff {s t : String} : atMost s t = true ↔ s ≤ t := by
  rw [atMost, Bool.not_eq_true', decide_eq_false_iff_not, String.not_lt]

theorem pairwise_orderedInsert (s : String) {texts : List String} (h : texts.Pairwise (· ≤ ·)) :
    (orderedInsert s texts).Pairwise (· ≤ ·) := by
  induction texts with
  | nil => exact List.pairwise_singleton _ s
  | cons t rest ih =>
    have ⟨hfirst, hrest⟩ := List.pairwise_cons.mp h
    rw [orderedInsert]
    split
    · rename_i hle
      have hst : s ≤ t := atMost_iff.mp hle
      refine List.pairwise_cons.mpr ⟨fun u hu => ?_, h⟩
      rcases List.mem_cons.mp hu with rfl | hu
      · exact hst
      · exact String.le_trans hst (hfirst u hu)
    · rename_i hle
      have hts : t ≤ s := (String.le_total s t).resolve_left fun hst => hle (atMost_iff.mpr hst)
      refine List.pairwise_cons.mpr ⟨fun u hu => ?_, ih hrest⟩
      rcases List.mem_cons.mp ((orderedInsert_perm s rest).mem_iff.mp hu) with rfl | hu
      · exact hts
      · exact hfirst u hu

theorem pairwise_sorted (texts : List String) : (sorted texts).Pairwise (· ≤ ·) := by
  induction texts with
  | nil => exact .nil
  | cons s rest ih => exact pairwise_orderedInsert s ih

theorem sorted_eq_of_perm {xs ys : List String} (h : xs.Perm ys) : sorted xs = sorted ys :=
  List.Perm.eq_of_pairwise (fun _ _ _ _ => String.le_antisymm) (pairwise_sorted xs)
    (pairwise_sorted ys) ((sorted_perm xs).trans (h.trans (sorted_perm ys).symm))

theorem filter_sorted (keep : String → Bool) (texts : List String) :
    (sorted texts).filter keep = sorted (texts.filter keep) :=
  List.Perm.eq_of_pairwise (fun _ _ _ _ => String.le_antisymm)
    ((pairwise_sorted texts).filter keep) (pairwise_sorted _)
    (((sorted_perm texts).filter keep).trans (sorted_perm _).symm)

theorem nodup_eraseDups (texts : List String) : texts.eraseDups.Nodup := by
  match texts with
  | [] => exact .nil
  | s :: rest =>
    rw [List.eraseDups_cons, List.nodup_cons]
    exact ⟨by simp, nodup_eraseDups _⟩
termination_by texts.length
decreasing_by exact Nat.lt_succ_of_le (List.length_filter_le _ rest)

/-- A set of names is shown in one way only, whatever list it came from. -/
theorem sortedSet_congr {xs ys : List String} (h : ∀ s, s ∈ xs ↔ s ∈ ys) :
    sortedSet xs = sortedSet ys := by
  refine sorted_eq_of_perm
    ((List.perm_ext_iff_of_nodup (nodup_eraseDups xs) (nodup_eraseDups ys)).mpr fun s => ?_)
  rw [List.mem_eraseDups, List.mem_eraseDups, h s]

end Shortlist.Text
