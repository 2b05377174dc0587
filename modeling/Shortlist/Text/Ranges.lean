/-!
# Classes of characters as ranges of code points

A class of a character standard is data: a list of closed ranges of code points. Every class of
this library is such a list, so that whether a character belongs to one is a finite computation.
-/

namespace Shortlist

/-- Closed ranges of code points, first and last. -/
abbrev Ranges := List (Nat × Nat)

namespace Ranges

def holds (ranges : Ranges) (c : Char) : Bool :=
  ranges.any fun range => range.1 ≤ c.toNat && c.toNat ≤ range.2

theorem holds_iff {ranges : Ranges} {c : Char} :
    ranges.holds c = true ↔ ∃ range ∈ ranges, range.1 ≤ c.toNat ∧ c.toNat ≤ range.2 := by
  simp [holds]

/-- Whether no range of a list meets one of the other. -/
def apart (left right : Ranges) : Bool :=
  left.all fun l => right.all fun r => Nat.blt l.2 r.1 || Nat.blt r.2 l.1

theorem holds_eq_false_of_apart {left right : Ranges} (hapart : left.apart right = true) {c : Char}
    (h : left.holds c = true) : right.holds c = false := by
  obtain ⟨l, hl, hfrom, hto⟩ := holds_iff.mp h
  rw [← Bool.not_eq_true, holds_iff]
  rintro ⟨r, hr, hlow, hhigh⟩
  have hmeet := List.all_eq_true.mp (List.all_eq_true.mp hapart l hl) r hr
  rw [Bool.or_eq_true, Nat.blt_eq, Nat.blt_eq] at hmeet
  omega

end Ranges

end Shortlist
