import Shortlist.Text.Ranges

/-!
# Digits

A decimal digit of any script has a value below ten: the scripts list their ten digits in a row,
zero first. A few more characters look like digits (superscripts, circled digits) and are counted
as such by the class `isDigit`, but no numeral can be read from them.
-/

namespace Shortlist.Text

/-- The code points of the zeros of Unicode 14; the digits one to nine follow each of them. -/
def zeros : List Nat :=
  [48, 1632, 1776, 1984, 2406, 2534, 2662, 2790, 2918, 3046, 3174, 3302, 3430, 3558, 3664, 3792,
   3872, 4160, 4240, 6112, 6160, 6470, 6608, 6784, 6800, 6992, 7088, 7232, 7248, 42528, 43216,
   43264, 43472, 43504, 43600, 44016, 65296, 66720, 68912, 69734, 69872, 69942, 70096, 70384,
   70736, 70864, 71248, 71360, 71472, 71904, 72016, 72784, 73040, 73120, 92768, 92864, 93008,
   120782, 120792, 120802, 120812, 120822, 123200, 123632, 125264, 130032]

def decimalDigit? (c : Char) : Option Nat :=
  (zeros.find? fun first => first ≤ c.toNat && c.toNat < first + 10).map (c.toNat - ·)

/-- The characters that count as digits but have no decimal value. -/
def ornamentalDigitRanges : Ranges :=
  [(178, 179), (185, 185), (4969, 4977), (6618, 6618), (8304, 8304), (8308, 8313), (8320, 8329),
   (9312, 9320), (9332, 9340), (9352, 9360), (9450, 9450), (9461, 9469), (9471, 9471),
   (10102, 10110), (10112, 10120), (10122, 10130), (68160, 68163), (69216, 69224), (69714, 69722),
   (127232, 127242)]

/-- Whether a character is a digit, with or without a decimal value. -/
def isDigit (c : Char) : Bool := (decimalDigit? c).isSome || ornamentalDigitRanges.holds c

theorem decimalDigit?_lt {c : Char} {n : Nat} (h : decimalDigit? c = some n) : n < 10 := by
  simp only [decimalDigit?, Option.map_eq_some_iff] at h
  obtain ⟨first, found, rfl⟩ := h
  have := List.find?_some found
  simp only [Bool.and_eq_true, decide_eq_true_eq] at this
  omega

end Shortlist.Text
