import Mathlib.Data.List.TakeWhile
import Mathlib.Tactic.Common
import Shortlist.Proofs.Fallible
import Shortlist.Rule.Lexer

/-!
# Numerals that have no value

The class of digits is wider than that of decimal digits, and integers have a bounded length. So a
numeral may be well formed and still have no value; reading it is a fault and not a malformation.
-/

namespace Shortlist

open Text

/-! ### Characters of a numeral -/

theorem Text.mem_digits_of_decimalDigit? {c : Char} {n : Nat} (h : decimalDigit? c = some n) :
    ∃ first ∈ zeros, c.toNat = first + n := by
  rw [decimalDigit?, Option.map_eq_some_iff] at h
  obtain ⟨first, hfirst, rfl⟩ := h
  have hrange := List.find?_some hfirst
  rw [Bool.and_eq_true, decide_eq_true_iff, decide_eq_true_iff] at hrange
  exact ⟨first, List.mem_of_find?_eq_some hfirst, by omega⟩

/-- The decimal digits as ranges. -/
def Text.decimalRanges : Ranges := zeros.map fun first => (first, first + 9)

theorem Text.holds_decimalRanges {c : Char} (h : (decimalDigit? c).isSome = true) :
    decimalRanges.holds c = true := by
  obtain ⟨n, hn⟩ := Option.isSome_iff_exists.mp h
  obtain ⟨first, hfirst, hc⟩ := Text.mem_digits_of_decimalDigit? hn
  have hten := decimalDigit?_lt hn
  refine Ranges.holds_iff.mpr ⟨(first, first + 9), List.mem_map_of_mem hfirst, ?_⟩
  dsimp only
  omega

theorem Text.not_isBlank_of_isDigit {c : Char} (h : Text.isDigit c = true) : isBlank c = false := by
  rw [Text.isDigit, Bool.or_eq_true] at h
  rcases h with hdecimal | hornamental
  · exact Ranges.holds_eq_false_of_apart (by decide +kernel) (Text.holds_decimalRanges hdecimal)
  · exact Ranges.holds_eq_false_of_apart (by decide +kernel) hornamental

theorem Text.trimList_eq_self {skip : Char → Bool} {cs : List Char}
    (h : ∀ c ∈ cs, skip c = false) : trimList skip cs = cs := by
  have hdrop : ∀ xs : List Char, (∀ c ∈ xs, skip c = false) → xs.dropWhile skip = xs := by
    intro xs hxs
    cases xs with
    | nil => rfl
    | cons x rest =>
      rw [List.dropWhile_cons, hxs x List.mem_cons_self]
      rfl
  have hreverse : ∀ c ∈ cs.reverse, skip c = false := fun c hc => h c (List.mem_reverse.mp hc)
  rw [trimList, hdrop cs h, hdrop cs.reverse hreverse, List.reverse_reverse]

theorem Text.trim_eq_self {s : String} (h : ∀ c ∈ s.toList, isBlank c = false) : trim s = s := by
  rw [trim, trimList_eq_self h, String.ofList_toList]

theorem Text.takeWhile_run {p : Char → Bool} {run behind : List Char} (hrun : ∀ c ∈ run, p c = true)
    (hbehind : ∀ d ∈ behind.head?, p d = false) :
    (run ++ behind).takeWhile p = run ∧ (run ++ behind).dropWhile p = behind := by
  rw [List.takeWhile_append_of_pos hrun, List.dropWhile_append_of_pos hrun]
  cases behind with
  | nil => simp
  | cons d more => simp [hbehind d rfl]

namespace Numeral

open Rule.Lexer (isNumeric)

/-- In ASCII a point is itself, a decimal digit is a digit, and any other digit is neither. -/
theorem toAscii_cases {c : Char} (h : isNumeric c = true) :
    (c = '.' ∧ toAscii c = '.') ∨
      (c ≠ '.' ∧ (decimalDigit? c).isSome = true ∧ (toAscii c).isDigit = true) ∨
      (c ≠ '.' ∧ decimalDigit? c = none ∧ toAscii c = '?') := by
  by_cases hpoint : c = '.'
  · subst hpoint
    exact .inl ⟨rfl, by decide⟩
  · have hdigit : Text.isDigit c = true := by
      simpa [isNumeric, hpoint] using h
    right
    cases hvalue : decimalDigit? c with
    | some n =>
      have hascii : ∀ n < 10, (asciiDigit n).isDigit = true := by decide
      refine .inl ⟨hpoint, rfl, ?_⟩
      rw [toAscii, hvalue]
      exact hascii n (decimalDigit?_lt hvalue)
    | none =>
      have hornamental : ornamentalDigitRanges.holds c = true := by
        simpa [Text.isDigit, hvalue] using hdigit
      obtain ⟨range, hrange, hlow, -⟩ := Ranges.holds_iff.mp hornamental
      have hfar : ∀ range ∈ ornamentalDigitRanges, 128 ≤ range.1 := by decide
      have hbeyond : ¬c.toNat < 128 := by
        have := hfar range hrange
        omega
      refine .inr ⟨hpoint, rfl, ?_⟩
      rw [toAscii, hvalue]
      exact if_neg hbeyond

theorem toAscii_eq_point_iff {c : Char} (h : isNumeric c = true) : toAscii c = '.' ↔ c = '.' := by
  rcases toAscii_cases h with ⟨hc, hascii⟩ | ⟨hc, -, hdigit⟩ | ⟨hc, -, hascii⟩
  · exact iff_of_true hascii hc
  · refine iff_of_false (fun hascii => ?_) hc
    rw [hascii] at hdigit
    exact absurd hdigit (by decide)
  · rw [hascii]
    exact iff_of_false (by decide) hc

theorem toAscii_eq_question_iff {c : Char} (h : isNumeric c = true) :
    toAscii c = '?' ↔ c ≠ '.' ∧ decimalDigit? c = none := by
  rcases toAscii_cases h with ⟨rfl, hascii⟩ | ⟨hc, hvalue, hdigit⟩ | ⟨hc, hvalue, hascii⟩
  · rw [hascii]
    exact iff_of_false (by decide) fun hpoint => hpoint.1 rfl
  · refine iff_of_false (fun hascii => ?_) fun hnone => by simp [hnone.2] at hvalue
    rw [hascii] at hdigit
    exact absurd hdigit (by decide)
  · exact iff_of_true hascii ⟨hc, hvalue⟩

theorem not_isBlank_of_isNumeric {c : Char} (h : isNumeric c = true) : isBlank c = false := by
  rw [isNumeric, Bool.or_eq_true, beq_iff_eq] at h
  rcases h with hdigit | rfl
  · exact not_isBlank_of_isDigit hdigit
  · decide

theorem isPadding_eq_false {c : Char} (h : isNumeric c = true) : isPadding c = false := by
  rw [isPadding, not_isBlank_of_isNumeric h, Bool.false_and]

theorem dropUnderscores_eq_self {cs : List Char} (h : '_' ∉ cs) (afterDigit : Bool) :
    dropUnderscores afterDigit cs = some cs := by
  induction cs generalizing afterDigit with
  | nil => rfl
  | cons c rest ih =>
    rw [List.mem_cons, not_or] at h
    obtain ⟨hc, hrest⟩ := h
    rw [dropUnderscores, ih hrest]
    · rfl
    · exact fun heq => hc heq.symm

theorem splitSign_eq_self {cs : List Char} (h : ∀ c ∈ cs, c ≠ '-' ∧ c ≠ '+') :
    splitSign cs = (false, cs) := by
  unfold splitSign
  split
  · exact absurd rfl (h '-' List.mem_cons_self).1
  · exact absurd rfl (h '+' List.mem_cons_self).2
  · rfl

/-! ### Integers -/

variable {literal : List Char}

theorem toAscii_plain (h : ∀ c ∈ literal, isNumeric c = true) :
    ∀ c ∈ literal.map toAscii, c.isDigit = true ∨ c = '.' ∨ c = '?' := by
  intro c hc
  obtain ⟨source, hsource, rfl⟩ := List.mem_map.mp hc
  rcases toAscii_cases (h source hsource) with ⟨-, h⟩ | ⟨-, -, h⟩ | ⟨-, -, h⟩
  · exact .inr (.inl h)
  · exact .inl h
  · exact .inr (.inr h)

theorem plain_eq_map (h : ∀ c ∈ literal, isNumeric c = true) :
    plain (String.ofList literal) = some (literal.map toAscii) := by
  have hunderscore : '_' ∉ literal.map toAscii := by
    intro hmem
    have := toAscii_plain h _ hmem
    revert this
    decide
  rw [plain, String.toList_ofList, Text.trimList_eq_self fun c hc => isPadding_eq_false (h c hc)]
  exact dropUnderscores_eq_self hunderscore false

theorem unsigned (h : ∀ c ∈ literal, isNumeric c = true) :
    splitSign (literal.map toAscii) = (false, literal.map toAscii) := by
  refine splitSign_eq_self fun c hc => ?_
  have hc := toAscii_plain h c hc
  constructor <;>
  · rintro rfl
    revert hc
    decide

theorem isDigit_toAscii {c : Char} (h : (decimalDigit? c).isSome = true) :
    (toAscii c).isDigit = true := by
  have hnumeric : isNumeric c = true := by
    rw [isNumeric, Text.isDigit, h]
    rfl
  rcases toAscii_cases hnumeric with ⟨rfl, -⟩ | ⟨-, -, hascii⟩ | ⟨-, hnone, -⟩
  · exact absurd h (by decide)
  · exact hascii
  · rw [hnone] at h
    cases h

theorem integer?_eq_none_iff (hne : literal ≠ []) (h : ∀ c ∈ literal, isNumeric c = true)
    (hdecimal : ∀ c ∈ literal, (decimalDigit? c).isSome = true) :
    integer? (String.ofList literal) = none ↔ 4300 < literal.length := by
  have hdigits : ∀ c ∈ literal, (toAscii c).isDigit = true :=
    fun c hc => isDigit_toAscii (hdecimal c hc)
  simp only [integer?, plain_eq_map h, unsigned h, Option.bind_eq_bind, Option.bind_some,
    List.isEmpty_map, List.isEmpty_eq_false_iff.mpr hne, List.all_map, List.length_map, maxDigits]
  have hall : (literal.all (Char.isDigit ∘ toAscii)) = true := List.all_eq_true.mpr hdigits
  simp [hall]

/-! ### Decimals -/

theorem splitPoint_append {cs whole fraction rest : List Char}
    (h : splitPoint cs = (whole, fraction, rest)) :
    (∀ c ∈ whole ++ fraction, c.isDigit = true) ∧
      (cs = whole ++ rest ∨ cs = whole ++ '.' :: fraction ++ rest) := by
  unfold splitPoint at h
  dsimp only at h
  have htake : ∀ xs : List Char, ∀ c ∈ xs.takeWhile Char.isDigit, c.isDigit = true :=
    fun xs => List.all_eq_true.mp List.all_takeWhile
  split at h
  · rename_i more hmore
    cases h
    refine ⟨List.forall_mem_append.mpr ⟨htake cs, htake more⟩, .inr ?_⟩
    rw [List.append_assoc, List.cons_append, List.takeWhile_append_dropWhile, ← hmore,
      List.takeWhile_append_dropWhile]
  · cases h
    exact ⟨by simpa using htake cs, .inl List.takeWhile_append_dropWhile.symm⟩

theorem decimal?_of_splitPoint {cs whole fraction rest : List Char}
    (h : splitPoint cs = (whole, fraction, rest)) (hne : whole ++ fraction ≠ []) :
    decimal? cs =
      (exponent? rest).map fun e => ⟨value (whole ++ fraction), e - fraction.length⟩ := by
  have hnonempty : (whole.isEmpty && fraction.isEmpty) = false := by
    rw [← Bool.not_eq_true, Bool.and_eq_true, List.isEmpty_iff, List.isEmpty_iff]
    exact fun hempty => hne (List.append_eq_nil_iff.mpr hempty)
  rw [decimal?, h]
  dsimp only
  rw [hnonempty]
  cases exponent? rest <;> rfl

section Spelled

variable {whole fraction rest : List Char} (hwhole : ∀ c ∈ whole, c.isDigit = true)
  (hrest : ∀ c ∈ rest.head?, c.isDigit = false)

include hwhole hrest

theorem decimal?_point (hfraction : ∀ c ∈ fraction, c.isDigit = true)
    (hne : whole ++ fraction ≠ []) :
    decimal? (whole ++ '.' :: (fraction ++ rest)) =
      (exponent? rest).map fun e => ⟨value (whole ++ fraction), e - fraction.length⟩ := by
  have hpoint : ∀ c ∈ ('.' :: (fraction ++ rest)).head?, c.isDigit = false := by
    rintro _ ⟨⟩
    decide
  obtain ⟨hfront, hbehind⟩ := Text.takeWhile_run hwhole hpoint
  obtain ⟨hmiddle, hlast⟩ := Text.takeWhile_run hfraction hrest
  refine decimal?_of_splitPoint ?_ hne
  rw [splitPoint, hfront, hbehind]
  simp only [hmiddle, hlast]

theorem decimal?_whole (hpoint : rest.head? ≠ some '.') (hne : whole ≠ []) :
    decimal? (whole ++ rest) = (exponent? rest).map fun e => ⟨value whole, e⟩ := by
  obtain ⟨hfront, hbehind⟩ := Text.takeWhile_run hwhole hrest
  have hsplit : splitPoint (whole ++ rest) = (whole, [], rest) := by
    rw [splitPoint, hfront, hbehind]
    split
    · exact absurd rfl hpoint
    · rfl
  simpa using decimal?_of_splitPoint hsplit (by simpa using hne)

end Spelled

theorem decimal?_fraction {whole fraction : List Char} (hwhole : ∀ c ∈ whole, c.isDigit = true)
    (hfraction : ∀ c ∈ fraction, c.isDigit = true) (hne : whole ++ fraction ≠ []) :
    decimal? (whole ++ '.' :: fraction) = some ⟨value (whole ++ fraction), -fraction.length⟩ := by
  have hread := decimal?_point hwhole (fun c (hc : c ∈ [].head?) => by cases hc) hfraction hne
  rwa [List.append_nil, exponent?, Option.map_some, Int.zero_sub] at hread

theorem decimal?_eq_none_of_mem {cs : List Char}
    (h : ∀ c ∈ cs, c.isDigit = true ∨ c = '.' ∨ c = '?') (hmem : '?' ∈ cs) :
    decimal? cs = none := by
  have hquestion : Char.isDigit '?' = false := by decide
  obtain ⟨whole, fraction, rest, hsplit⟩ :
      ∃ whole fraction rest, splitPoint cs = (whole, fraction, rest) := ⟨_, _, _, rfl⟩
  obtain ⟨hdigits, hparts⟩ := splitPoint_append hsplit
  -- The digits end before the question mark, and what follows them is no exponent.
  have hout : '?' ∉ whole ++ fraction := fun hin => by simpa [hquestion] using hdigits _ hin
  rw [List.mem_append, not_or] at hout
  have hrest : '?' ∈ rest ∧ rest ⊆ cs := by
    rcases hparts with rfl | rfl
    · exact ⟨by simpa [hout.1] using hmem, List.subset_append_right _ _⟩
    · exact ⟨by simpa [hout.1, hout.2] using hmem, List.subset_append_right _ _⟩
  obtain ⟨hin, hsub⟩ := hrest
  cases rest with
  | nil => cases hin
  | cons c more =>
    have hletter : ¬(c = 'e' ∨ c = 'E') := by
      have hc := h c (hsub List.mem_cons_self)
      rintro (rfl | rfl) <;> revert hc <;> decide
    have hexponent : exponent? (c :: more) = none := by rw [exponent?, if_neg hletter]
    rw [decimal?, hsplit]
    simp [hexponent]

theorem decimal?_eq_none_iff {cs : List Char}
    (h : ∀ c ∈ cs, c.isDigit = true ∨ c = '.' ∨ c = '?') (hpoint : cs.count '.' = 1)
    (hmore : ∃ c ∈ cs, c ≠ '.') : decimal? cs = none ↔ '?' ∈ cs := by
  refine ⟨fun hnone => ?_, decimal?_eq_none_of_mem h⟩
  by_contra hdigits
  have hmem : '.' ∈ cs := List.count_pos_iff.mp (by omega)
  obtain ⟨whole, fraction, rfl⟩ := List.append_of_mem hmem
  rw [List.count_append, List.count_cons_self] at hpoint
  have hside : ∀ side : List Char, side.count '.' = 0 → side ⊆ whole ++ '.' :: fraction →
      ∀ c ∈ side, c.isDigit = true := by
    intro side hcount hsub c hc
    rcases h c (hsub hc) with hdigit | rfl | rfl
    · exact hdigit
    · exact absurd hc (List.count_eq_zero.mp hcount)
    · exact absurd (hsub hc) hdigits
  have hwhole := hside whole (by omega) (List.subset_append_left _ _)
  have hfraction := hside fraction (by omega)
    fun c hc => List.mem_append_right _ (List.mem_cons_of_mem _ hc)
  have hne : whole ++ fraction ≠ [] := by
    intro hempty
    obtain ⟨rfl, rfl⟩ := List.append_eq_nil_iff.mp hempty
    obtain ⟨c, hc, hpoint⟩ := hmore
    exact hpoint (List.mem_singleton.mp hc)
  rw [decimal?_fraction hwhole hfraction hne] at hnone
  cases hnone

/-- What holds of the ten digits holds of every digit. -/
theorem of_isDigit {P : Char → Prop} (hall : ∀ k < 10, P (Char.ofNat (48 + k))) {c : Char}
    (h : c.isDigit = true) : P c := by
  obtain ⟨hlow, hhigh⟩ : 48 ≤ c.toNat ∧ c.toNat ≤ 57 := Char.isDigit_iff_toNat.mp h
  have hk := hall (c.toNat - 48) (by omega)
  rwa [show 48 + (c.toNat - 48) = c.toNat by omega, Char.ofNat_toNat] at hk

theorem toLower_ne_n {c : Char} (h : c.isDigit = true ∨ c = '.' ∨ c = '?') : c.toLower ≠ 'n' := by
  rcases h with hdigit | rfl | rfl
  · exact of_isDigit (P := fun c => c.toLower ≠ 'n') (by decide) hdigit
  · decide
  · decide

theorem double?_of_splitSign {s : String} {text cs : List Char} {negative : Bool}
    (hplain : plain s = some text) (hsign : splitSign text = (negative, cs))
    (hletters : ∀ c ∈ cs, c.toLower ≠ 'n') :
    double? s = (decimal? cs).map (Decimal.toBinary64 negative) := by
  have hword : ∀ word : String, 'n' ∈ word.toList →
      String.ofList (cs.map Char.toLower) ≠ word := by
    rintro _ hn rfl
    rw [String.toList_ofList, List.mem_map] at hn
    obtain ⟨c, hc, hlower⟩ := hn
    exact hletters c hc hlower
  simp only [double?, hplain, Option.bind_eq_bind, Option.bind_some, hsign]
  split
  · rename_i hinf
    exact absurd hinf (hword "inf" (by decide))
  · rename_i hinfinity
    exact absurd hinfinity (hword "infinity" (by decide))
  · rename_i hnan
    exact absurd hnan (hword "nan" (by decide))
  · rfl

/-- A numeral with a point is a double unless one of its digits has no decimal value. -/
theorem double?_eq_none_iff (h : ∀ c ∈ literal, isNumeric c = true) (hpoint : literal.count '.' = 1)
    (hmore : ∃ c ∈ literal, c ≠ '.') :
    double? (String.ofList literal) = none ↔ ∃ c ∈ literal, c ≠ '.' ∧ decimalDigit? c = none := by
  have hcount : (literal.map toAscii).count '.' = 1 := by
    rw [← hpoint, List.count, List.countP_map]
    refine List.countP_congr fun c hc => ?_
    simpa using toAscii_eq_point_iff (h c hc)
  have hmoreAscii : ∃ c ∈ literal.map toAscii, c ≠ '.' := by
    obtain ⟨c, hc, hne⟩ := hmore
    exact ⟨_, List.mem_map_of_mem hc, mt (toAscii_eq_point_iff (h c hc)).mp hne⟩
  have hquestion : '?' ∈ literal.map toAscii ↔ ∃ c ∈ literal, c ≠ '.' ∧ decimalDigit? c = none := by
    rw [List.mem_map]
    exact exists_congr fun c => and_congr_right fun hc => toAscii_eq_question_iff (h c hc)
  rw [← hquestion, ← decimal?_eq_none_iff (toAscii_plain h) hcount hmoreAscii,
    double?_of_splitSign (plain_eq_map h) (unsigned h)
      fun c hc => toLower_ne_n (toAscii_plain h c hc)]
  exact Option.map_eq_none_iff

end Numeral

namespace Rule.Lexer

/-! ### Where reading a text is a fault -/

/-- The characters of a numeral that has no value: a digit has none, or the numeral is an integer of
too many digits. -/
def Valueless (literal : List Char) : Prop :=
  (∃ c ∈ literal, c ≠ '.' ∧ decimalDigit? c = none) ∨ ('.' ∉ literal ∧ 4300 < literal.length)

theorem numeralValue_fault_iff {literal : List Char} (h : ∀ c ∈ literal, isNumeric c = true)
    (hpoint : literal.count '.' ≤ 1) (hmore : ∃ c ∈ literal, c ≠ '.') :
    (∃ f, numeralValue literal = .error f) ↔ Valueless literal := by
  by_cases hmem : '.' ∈ literal
  · have hone : literal.count '.' = 1 := by
      have := List.count_pos_iff.mpr hmem
      omega
    have hdouble := Numeral.double?_eq_none_iff h hone hmore
    rw [numeralValue, if_pos (List.contains_iff_mem.mpr hmem), Valueless,
      or_iff_left fun hlong => hlong.1 hmem, ← hdouble]
    cases Numeral.double? (String.ofList literal) <;> simp
  · rw [numeralValue, if_neg (by simpa using hmem)]
    by_cases hdecimal : ∀ c ∈ literal, (decimalDigit? c).isSome = true
    · have hne : literal ≠ [] := by
        rintro rfl
        obtain ⟨c, hc, -⟩ := hmore
        cases hc
      have hnone : ¬∃ c ∈ literal, c ≠ '.' ∧ decimalDigit? c = none := by
        rintro ⟨c, hc, -, hvalue⟩
        simpa [hvalue] using hdecimal c hc
      have hall : (!literal.all fun c => (decimalDigit? c).isSome) = false := by
        simpa using hdecimal
      rw [hall, Valueless, or_iff_right hnone, and_iff_right hmem,
        ← Numeral.integer?_eq_none_iff hne h hdecimal]
      cases Numeral.integer? (String.ofList literal) <;> simp
    · have hall : (!literal.all fun c => (decimalDigit? c).isSome) = true := by
        simpa using hdecimal
      push Not at hdecimal
      obtain ⟨c, hc, hvalue⟩ := hdecimal
      rw [hall]
      exact iff_of_true ⟨_, rfl⟩
        (.inl ⟨c, hc, fun hpoint => hmem (hpoint ▸ hc), Option.not_isSome_iff_eq_none.mp hvalue⟩)

/-- Characters start with a well-formed numeral that has no value. -/
structure Unreadable (cs : List Char) : Prop where
  starts : ∃ c rest, cs = c :: rest ∧ startsNumeral c rest = true
  points : (cs.takeWhile isNumeric).count '.' ≤ 1
  ends : ∀ next ∈ (cs.dropWhile isNumeric).head?, startsWord next = false
  valueless : Valueless (cs.takeWhile isNumeric)

theorem Unreadable.not_isBlank {c : Char} {rest : List Char} (h : Unreadable (c :: rest)) :
    isBlank c = false := by
  obtain ⟨c, rest, ⟨⟩, hstart⟩ := h.starts
  refine Numeral.not_isBlank_of_isNumeric ?_
  rw [startsNumeral, Bool.or_eq_true, Bool.and_eq_true] at hstart
  rw [isNumeric, Bool.or_eq_true]
  exact hstart.imp_right And.left

theorem scanNumeral_fault_iff {position : Nat} {cs : List Char}
    (hmore : ∃ c ∈ cs.takeWhile isNumeric, c ≠ '.') :
    (∃ f, scanNumeral position cs = .error (.fault f)) ↔
      (cs.takeWhile isNumeric).count '.' ≤ 1 ∧
        (∀ next ∈ (cs.dropWhile isNumeric).head?, startsWord next = false) ∧
        Valueless (cs.takeWhile isNumeric) := by
  have hnumeric : ∀ c ∈ cs.takeWhile isNumeric, isNumeric c = true :=
    List.all_eq_true.mp List.all_takeWhile
  have hvalue : ∀ length : Nat, (cs.takeWhile isNumeric).count '.' ≤ 1 →
      ((∃ f, ((numeralValue (cs.takeWhile isNumeric)).map (Token.number ·, length)
        |>.mapError Trouble.fault) = .error (.fault f)) ↔ Valueless (cs.takeWhile isNumeric)) := by
    intro length hpoint
    rw [← numeralValue_fault_iff hnumeric hpoint hmore]
    cases numeralValue (cs.takeWhile isNumeric) <;> simp [Except.map, Except.mapError]
  unfold scanNumeral
  dsimp only
  split
  · rename_i htwo
    exact iff_of_false (by rintro ⟨f, ⟨⟩⟩) fun h => by omega
  · rename_i hpoint
    rw [and_iff_right (by omega)]
    split
    · rename_i next more hnext
      rw [hnext]
      split
      · rename_i hword
        exact iff_of_false (by rintro ⟨f, ⟨⟩⟩) fun h => by simp [hword] at h
      · rename_i hword
        rw [hvalue _ (by omega), and_iff_right (by simpa using hword)]
    · rename_i hnil
      rw [hvalue _ (by omega), and_iff_right (by simp [hnil])]

theorem exists_ne_point_of_startsNumeral {c : Char} {rest : List Char}
    (h : startsNumeral c rest = true) : ∃ d ∈ (c :: rest).takeWhile isNumeric, d ≠ '.' := by
  have hne : ∀ d, Text.isDigit d = true → d ≠ '.' := by
    rintro _ hdigit rfl
    exact absurd hdigit (by decide)
  have hnumeric : ∀ d, Text.isDigit d = true → isNumeric d = true := by
    intro d hdigit
    rw [isNumeric, hdigit, Bool.true_or]
  rw [startsNumeral, Bool.or_eq_true] at h
  rcases h with hdigit | hpoint
  · refine ⟨c, ?_, hne c hdigit⟩
    rw [List.takeWhile_cons_of_pos (hnumeric c hdigit)]
    exact List.mem_cons_self
  · rw [Bool.and_eq_true, beq_iff_eq] at hpoint
    obtain ⟨rfl, hnext⟩ := hpoint
    cases rest with
    | nil => cases hnext
    | cons d more =>
      refine ⟨d, ?_, hne d hnext⟩
      rw [List.takeWhile_cons_of_pos (by decide), List.takeWhile_cons_of_pos (hnumeric d hnext)]
      exact List.mem_cons_of_mem _ List.mem_cons_self

theorem scan_fault_iff {position : Nat} {c : Char} {rest : List Char} :
    (∃ f, scan position c rest = .error (.fault f)) ↔ Unreadable (c :: rest) := by
  unfold scan
  split
  · rename_i hstart
    rw [scanNumeral_fault_iff (exists_ne_point_of_startsNumeral hstart)]
    exact ⟨fun ⟨hpoint, hend, hvalue⟩ => ⟨⟨c, rest, rfl, hstart⟩, hpoint, hend, hvalue⟩,
      fun h => ⟨h.points, h.ends, h.valueless⟩⟩
  · rename_i hstart
    refine iff_of_false ?_ ?_
    · rintro ⟨f, h⟩
      repeat' split at h
      all_goals cases h
    · rintro ⟨⟨c', rest', ⟨⟩, hstart'⟩, -, -, -⟩
      exact hstart hstart'

theorem scan_eq_ok_iff {position : Nat} {c : Char} {rest : List Char} {read : Token × Nat} :
    scan position c rest = .ok read ↔ scan 0 c rest = .ok read := by
  have hnumeral : ∀ cs, scanNumeral position cs = .ok read ↔ scanNumeral 0 cs = .ok read := by
    intro cs
    unfold scanNumeral
    dsimp only
    split
    · simp
    · split
      · split <;> simp
      · rfl
  unfold scan
  split
  · exact hnumeral _
  · repeat' split
    all_goals simp

/-- The tokens before a place in the characters can be read. -/
inductive Reaches : List Char → List Char → Prop
  | start (cs : List Char) : Reaches cs cs
  | blank {c : Char} {rest later : List Char} (hblank : isBlank c = true)
      (h : Reaches rest later) : Reaches (c :: rest) later
  | token {c : Char} {rest later : List Char} {token : Token} {width : Nat}
      (hblank : isBlank c = false) (hscan : scan 0 c rest = .ok (token, width))
      (h : Reaches (rest.drop (width - 1)) later) : Reaches (c :: rest) later

theorem tokensFrom_fault_iff {position skip : Nat} {cs : List Char} :
    (∃ f, tokensFrom position skip cs = .error (.fault f)) ↔
      ∃ later, Reaches (cs.drop skip) later ∧ Unreadable later := by
  fun_induction tokensFrom position skip cs with
  | case1 position skip =>
    refine iff_of_false (by rintro ⟨f, ⟨⟩⟩) ?_
    rw [List.drop_nil]
    rintro ⟨later, hreach, hbad⟩
    cases hreach
    obtain ⟨c, rest, ⟨⟩, -⟩ := hbad.starts
  | case2 position skip c rest ih => rwa [List.drop_succ_cons]
  | case3 position c rest hblank ih =>
    rw [ih, List.drop_zero, List.drop_zero]
    constructor
    · rintro ⟨later, hreach, hbad⟩
      exact ⟨later, .blank hblank hreach, hbad⟩
    · rintro ⟨later, hreach, hbad⟩
      cases hreach with
      | start => exact absurd hblank (by simp [hbad.not_isBlank])
      | blank _ h => exact ⟨later, h, hbad⟩
      | token hnot => simp [hblank] at hnot
  | case4 position c rest hblank ih =>
    rw [List.drop_zero]
    constructor
    · rintro ⟨f, h⟩
      rcases Except.bind_eq_error.mp h with hscan | ⟨⟨token, width⟩, hscan, hmore⟩
      · exact ⟨c :: rest, .start _, scan_fault_iff.mp ⟨f, hscan⟩⟩
      · rcases Except.bind_eq_error.mp hmore with hrest | ⟨more, -, hpure⟩
        · obtain ⟨later, hreach, hbad⟩ := (ih width).mp ⟨f, hrest⟩
          exact ⟨later, .token (by simpa using hblank) (scan_eq_ok_iff.mp hscan) hreach, hbad⟩
        · cases hpure
    · rintro ⟨later, hreach, hbad⟩
      cases hreach with
      -- Either the token that starts here is the numeral, or reading goes on behind it.
      | start =>
        obtain ⟨f, hscan⟩ := scan_fault_iff.mpr hbad
        exact ⟨f, Except.bind_eq_error.mpr (.inl hscan)⟩
      | blank htrue => exact absurd htrue hblank
      | token _ hscan h =>
        obtain ⟨f, hrest⟩ := (ih _).mpr ⟨later, h, hbad⟩
        exact ⟨f, Except.bind_eq_error.mpr (.inr ⟨_, scan_eq_ok_iff.mpr hscan,
          Except.bind_eq_error.mpr (.inl hrest)⟩)⟩

end Rule.Lexer

namespace Rule

/-- A text has a numeral without a value, and all that stands before it can be read. -/
def HasUnreadableNumeral (text : String) : Prop :=
  ∃ later, Lexer.Reaches text.toList later ∧ Lexer.Unreadable later

theorem tokens_fault_iff {text : String} :
    (∃ f, tokens text = .error (.fault f)) ↔ HasUnreadableNumeral text := by
  have hfault : (∃ f, Lexer.tokensFrom 0 0 text.toList = .error (.fault f)) ↔
      HasUnreadableNumeral text := Lexer.tokensFrom_fault_iff
  rw [← hfault, tokens]
  cases Lexer.tokensFrom 0 0 text.toList with
  | ok ts => simp [Except.mapError]
  | error trouble => cases trouble <;> simp [Except.mapError, Trouble.inText]

end Rule

end Shortlist
