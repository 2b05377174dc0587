import Mathlib.Data.List.TakeWhile
import Mathlib.Tactic.Common
import Shortlist.Proofs.Rule.Numeral
import Shortlist.Proofs.Rule.Tokens
import Shortlist.Proofs.Rule.Yield
import Shortlist.Rule.Truth
import Shortlist.Text.Identifier

/-!
# The words of the rule language

The names that rules can use are the words that are not reserved: such a word is read as one name,
and whatever stands as a name in a rule is a word. The identifiers that a declaration may use are
another class. It agrees with the words on ASCII and goes its own way beyond, because accents that
stand as characters of their own continue an identifier and end a word.
-/

namespace Shortlist

namespace Ranges

/-! ### One walk through two classes -/

/-- Whether the ranges are not empty and each ends before the next one starts. -/
def ascending : Ranges → Bool
  | [] => true
  | [range] => Nat.ble range.1 range.2
  | range :: next :: rest =>
    Nat.ble range.1 range.2 && Nat.blt range.2 next.1 && ascending (next :: rest)

/-- Whether no range of an ascending list meets one of another, by one walk through both. -/
def parted : (fuel : Nat) → (left right : Ranges) → Bool
  | _, [], _ => true
  | _, _, [] => true
  | 0, _, _ => false
  | fuel + 1, l :: left, r :: right =>
    if Nat.blt l.2 r.1 then parted fuel left (r :: right)
    else Nat.blt r.2 l.1 && parted fuel (l :: left) right

theorem ascending_cons {range : Nat × Nat} {rest : Ranges}
    (h : ascending (range :: rest) = true) :
    range.1 ≤ range.2 ∧ ascending rest = true ∧ ∀ later ∈ rest, range.2 < later.1 := by
  induction rest generalizing range with
  | nil => exact ⟨Nat.le_of_ble_eq_true h, rfl, by simp⟩
  | cons next rest ih =>
    rw [ascending, Bool.and_eq_true, Bool.and_eq_true, Nat.blt_eq, Nat.ble_eq] at h
    obtain ⟨⟨hrange, hnext⟩, hrest⟩ := h
    obtain ⟨hfirst, -, hlater⟩ := ih hrest
    refine ⟨hrange, hrest, List.forall_mem_cons.mpr ⟨hnext, fun later hmem => ?_⟩⟩
    have := hlater later hmem
    omega

theorem apart_of_parted {fuel : Nat} {left right : Ranges} (hleft : left.ascending = true)
    (hright : right.ascending = true) (h : parted fuel left right = true) :
    ∀ l ∈ left, ∀ r ∈ right, l.2 < r.1 ∨ r.2 < l.1 := by
  fun_induction parted fuel left right with
  | case1 => simp
  | case2 => simp
  | case3 => cases h
  | case4 fuel l left r right hbefore ih =>
    rw [Nat.blt_eq] at hbefore
    obtain ⟨-, hleft, -⟩ := ascending_cons hleft
    obtain ⟨hr, -, hlater⟩ := ascending_cons hright
    refine List.forall_mem_cons.mpr ⟨List.forall_mem_cons.mpr ⟨.inl hbefore, fun s hs => ?_⟩,
      ih hleft hright h⟩
    have := hlater s hs
    omega
  | case5 fuel l left r right hbefore ih =>
    rw [Bool.and_eq_true, Nat.blt_eq] at h
    obtain ⟨-, hright, -⟩ := ascending_cons hright
    have hrest := ih hleft hright h.2
    obtain ⟨hl, -, hlater⟩ := ascending_cons hleft
    intro l' hl' s hs
    rcases List.mem_cons.mp hs with rfl | hs
    · rcases List.mem_cons.mp hl' with rfl | hl'
      · exact .inr h.1
      · have := hlater l' hl'
        omega
    · exact hrest l' hl' s hs

theorem holds_eq_false_of_parted {left right : Ranges} (hleft : left.ascending = true)
    (h : right.ascending = true ∧ parted (left.length + right.length) left right = true) {c : Char}
    (hc : left.holds c = true) : right.holds c = false := by
  refine holds_eq_false_of_apart (List.all_eq_true.mpr fun l hl => List.all_eq_true.mpr
    fun r hr => ?_) hc
  rw [Bool.or_eq_true, Nat.blt_eq, Nat.blt_eq]
  exact apart_of_parted hleft h.1 h.2 l hl r hr

end Ranges

namespace Text

/-! ### Classes of characters that are apart -/

theorem parted_letterRanges :
    letterRanges.ascending = true ∧ numeralRanges.apart blankRanges = true ∧
      ∀ ranges ∈ [decimalRanges, ornamentalDigitRanges, blankRanges], ranges.ascending = true ∧
        Ranges.parted (letterRanges.length + ranges.length) letterRanges ranges = true := by
  decide +kernel

theorem holds_eq_false_of_letter {ranges : Ranges} {c : Char}
    (hranges : ranges ∈ [decimalRanges, ornamentalDigitRanges, blankRanges])
    (h : letterRanges.holds c = true) : ranges.holds c = false :=
  Ranges.holds_eq_false_of_parted parted_letterRanges.1 (parted_letterRanges.2.2 ranges hranges) h

/-- The characters that only identifiers have are beyond ASCII. -/
theorem extraRanges_beyond_ascii :
    ∀ range ∈ extraStartRanges ++ extraContinueRanges, 128 ≤ range.1 := by
  decide +kernel

theorem ne_underscore {c : Char} (hc : ¬c.toNat < 128) : c ≠ '_' := by
  rintro rfl
  exact hc (by decide)

theorem beyond_ascii {ranges : Ranges} {c : Char} (hfar : ∀ range ∈ ranges, 128 ≤ range.1)
    (h : ranges.holds c = true) : ¬c.toNat < 128 := by
  obtain ⟨range, hmem, hlow, -⟩ := Ranges.holds_iff.mp h
  exact Nat.not_lt.mpr (Nat.le_trans (hfar range hmem) hlow)

theorem isDigit_of_ascii {c : Char} (hc : c.toNat < 128) (h : isDigit c = true) :
    c.isDigit = true := by
  rw [isDigit, Bool.or_eq_true] at h
  rcases h with hdecimal | hornamental
  · obtain ⟨n, hn⟩ := Option.isSome_iff_exists.mp hdecimal
    obtain ⟨first, hfirst, hvalue⟩ := mem_digits_of_decimalDigit? hn
    have hzeros : ∀ first ∈ zeros, first = 48 ∨ 128 ≤ first := by decide
    have hten := decimalDigit?_lt hn
    have hzero := hzeros first hfirst
    have hlow : 48 ≤ c.toNat := by omega
    have hhigh : c.toNat ≤ 57 := by omega
    exact Char.isDigit_iff_toNat.mpr ⟨hlow, hhigh⟩
  · exact absurd hc (beyond_ascii (by decide) hornamental)

theorem not_isDigit_of_startsWord {c : Char} (h : startsWord c = true) : isDigit c = false := by
  by_cases hc : c.toNat < 128
  · rw [← Bool.not_eq_true]
    intro hdigit
    have hnone : startsWord c = false :=
      Numeral.of_isDigit (P := fun c => startsWord c = false) (by decide)
        (isDigit_of_ascii hc hdigit)
    rw [h] at hnone
    cases hnone
  · have hletter : letterRanges.holds c = true := by
      simpa [startsWord, isLetter, hc, ne_underscore hc] using h
    have hdecimal : decimalRanges.holds c = false := holds_eq_false_of_letter (by simp) hletter
    have hornamental : ornamentalDigitRanges.holds c = false :=
      holds_eq_false_of_letter (by simp) hletter
    rw [isDigit, hornamental, Bool.or_false, ← Bool.not_eq_true]
    intro hdigit
    rw [holds_decimalRanges hdigit] at hdecimal
    cases hdecimal

theorem le_space_of_isBlank {c : Char} (hc : c.toNat < 128) (h : isBlank c = true) :
    c.toNat < 33 := by
  obtain ⟨range, hrange, hlow, hhigh⟩ := Ranges.holds_iff.mp h
  have hspace : ∀ range ∈ blankRanges, range.2 < 33 ∨ 128 ≤ range.1 := by decide
  have := hspace range hrange
  omega

theorem not_isBlank_of_continuesWord {c : Char} (h : continuesWord c = true) :
    isBlank c = false := by
  by_cases hc : c.toNat < 128
  · rw [← Bool.not_eq_true]
    intro hblank
    have hnone : ∀ n < 33, continuesWord (Char.ofNat n) = false := by decide
    have hc := hnone c.toNat (le_space_of_isBlank hc hblank)
    rw [Char.ofNat_toNat, h] at hc
    cases hc
  · have hclass : letterRanges.holds c = true ∨ (decimalDigit? c).isSome = true ∨
        numeralRanges.holds c = true := by
      simpa [continuesWord, isAlphanumeric, hc, ne_underscore hc, or_assoc] using h
    rcases hclass with hletter | hdecimal | hnumeral
    · exact holds_eq_false_of_letter (by simp) hletter
    · exact not_isBlank_of_isDigit (by rw [isDigit, hdecimal, Bool.true_or])
    · exact Ranges.holds_eq_false_of_apart parted_letterRanges.2.1 hnumeral

/-! ### Words and identifiers -/

/-- Whether a text is a character that words start with, followed by some that they go on with. -/
def isWord (s : String) : Bool :=
  match s.toList with
  | [] => false
  | c :: rest => startsWord c && rest.all continuesWord

theorem first_and_rest_iff {first rest : Char → Bool} {s : String} :
    (match s.toList with
      | [] => false
      | c :: cs => first c && cs.all rest) = true ↔
      ∃ c cs, s.toList = c :: cs ∧ first c = true ∧ ∀ d ∈ cs, rest d = true := by
  cases s.toList with
  | nil => simp
  | cons c cs => simp

theorem isWord_iff {s : String} :
    isWord s = true ↔ ∃ c rest, s.toList = c :: rest ∧ startsWord c = true ∧
      ∀ d ∈ rest, continuesWord d = true :=
  first_and_rest_iff

theorem isIdentifier_iff {s : String} :
    isIdentifier s = true ↔ ∃ c rest, s.toList = c :: rest ∧ startsIdentifier c = true ∧
      ∀ d ∈ rest, continuesIdentifier d = true :=
  first_and_rest_iff

section Ascii

variable {c : Char} (hc : c.toNat < 128)

include hc

theorem startsWord_of_ascii (h : startsIdentifier c = true) : startsWord c = true := by
  simp only [startsIdentifier, Bool.or_eq_true, Bool.and_eq_true] at h
  rw [startsWord, Bool.or_eq_true]
  rcases h with (hscore | ⟨hletter, -⟩) | hextra
  · exact .inr hscore
  · exact .inl hletter
  · exact absurd hc (beyond_ascii
      (List.forall_mem_append.mp extraRanges_beyond_ascii).1 hextra)

theorem continuesWord_of_ascii (h : continuesIdentifier c = true) : continuesWord c = true := by
  simp only [continuesIdentifier, Bool.or_eq_true] at h
  rcases h with (hstart | hdecimal) | hextra
  · exact continuesWord_of_startsWord (startsWord_of_ascii hc hstart)
  · have hdigit := isDigit_of_ascii hc (by rw [isDigit, hdecimal, Bool.true_or])
    simp [continuesWord, isAlphanumeric, hc, Char.isAlphanum, hdigit]
  · exact absurd hc (beyond_ascii
      (List.forall_mem_append.mp extraRanges_beyond_ascii).2 hextra)

end Ascii

/-- In ASCII the identifiers are words. -/
theorem isWord_of_ascii {s : String} (h : isIdentifier s = true)
    (hascii : ∀ c ∈ s.toList, c.toNat < 128) : isWord s = true := by
  obtain ⟨c, rest, hs, hc, hrest⟩ := isIdentifier_iff.mp h
  rw [hs] at hascii
  obtain ⟨hfirst, hmore⟩ := List.forall_mem_cons.mp hascii
  exact isWord_iff.mpr ⟨c, rest, hs, startsWord_of_ascii hfirst hc,
    fun d hd => continuesWord_of_ascii (hmore d hd) (hrest d hd)⟩

end Text

namespace Rule

open Text

variable {word : String}

/-! ### A word is read as a name -/

theorem ofWord_of_not_reserved (h : isReserved word = false) : Token.ofWord word = .name word := by
  have hnone : reserved.get? word = none := by
    rw [Entries.get?, Option.map_eq_none_iff, List.find?_eq_none]
    simpa [isReserved, Entries.has] using h
  rw [Token.ofWord, hnone]
  rfl

namespace Lexer

theorem startsNumeral_eq_false {c : Char} (hdigit : isDigit c = false) (hpoint : c ≠ '.')
    (rest : List Char) : startsNumeral c rest = false := by
  simp [startsNumeral, hdigit, hpoint]

theorem scan_word {position : Nat} {c : Char} {more behind : List Char} (hc : startsWord c = true)
    (hmore : ∀ d ∈ more, continuesWord d = true)
    (hbehind : ∀ d ∈ behind.head?, continuesWord d = false) :
    scan position c (more ++ behind) =
      .ok (Token.ofWord (String.ofList (c :: more)), (c :: more).length) := by
  have hpoint : c ≠ '.' := by
    rintro rfl
    exact absurd hc (by decide)
  have hrun := (takeWhile_run
    (List.forall_mem_cons.mpr ⟨continuesWord_of_startsWord hc, hmore⟩) hbehind).1
  rw [List.cons_append] at hrun
  rw [scan, startsNumeral_eq_false (not_isDigit_of_startsWord hc) hpoint,
    if_neg Bool.false_ne_true, if_pos hc, hrun]

theorem tokensFrom_skip (position : Nat) (front behind : List Char) :
    tokensFrom position front.length (front ++ behind) =
      tokensFrom (position + front.length) 0 behind := by
  induction front generalizing position with
  | nil => rfl
  | cons c rest ih =>
    rw [List.length_cons, List.cons_append, tokensFrom, ih, Nat.add_assoc, Nat.add_comm 1]

end Lexer

theorem tokens_word (hword : isWord word = true) (hreserved : isReserved word = false) :
    tokens word = .ok [⟨.name word, 0⟩, ⟨.finish, word.toList.length⟩] := by
  obtain ⟨c, rest, hs, hc, hrest⟩ := isWord_iff.mp hword
  have hblank : isBlank c = false :=
    not_isBlank_of_continuesWord (continuesWord_of_startsWord hc)
  have hback : String.ofList (c :: rest) = word := by rw [← hs, String.ofList_toList]
  have hscan : Lexer.scan 0 c (rest ++ []) =
      .ok (Token.ofWord (String.ofList (c :: rest)), (c :: rest).length) :=
    Lexer.scan_word hc hrest (by simp)
  have hskip := Lexer.tokensFrom_skip 1 rest []
  rw [List.append_nil] at hscan hskip
  have hlexed : Lexer.tokensFrom 0 0 (c :: rest) =
      .ok [⟨.name word, 0⟩, ⟨.finish, 0 + 1 + rest.length⟩] := by
    rw [Lexer.tokensFrom, hblank, if_neg Bool.false_ne_true, hscan, hback,
      ofWord_of_not_reserved hreserved, Except.ok_bind]
    dsimp only
    rw [List.length_cons, Nat.add_sub_cancel, hskip]
    rfl
  rw [tokens, hs, hlexed, List.length_cons, Nat.zero_add, Nat.add_comm 1]
  rfl

/-! ### A name is a word -/

theorem Lexer.isWord_of_scan {position width : Nat} {c : Char} {rest : List Char} {s : String}
    (h : scan position c rest = .ok (.name s, width)) : isWord s = true := by
  unfold scan at h
  split at h
  · obtain ⟨n, hn⟩ := exists_number_of_scanNumeral h
    cases hn
  · split at h
    · rename_i hc
      rw [Except.ok.injEq, Prod.mk.injEq] at h
      obtain ⟨hname, -⟩ := h
      rcases ofWord_cases (String.ofList ((c :: rest).takeWhile continuesWord)) with hword | hother
      · rw [hword] at hname
        obtain rfl := Token.name.inj hname
        rw [List.takeWhile_cons_of_pos (continuesWord_of_startsWord hc)]
        exact isWord_iff.mpr ⟨c, _, String.toList_ofList, hc,
          List.all_eq_true.mp List.all_takeWhile⟩
      · rw [hname] at hother
        simp [reserved] at hother
    · repeat' split at h
      all_goals cases h

theorem Lexer.isWord_of_tokensFrom {position skip : Nat} {cs : List Char} {ts : List Located}
    (h : tokensFrom position skip cs = .ok ts) {t : Located} (ht : t ∈ ts) {s : String}
    (hs : t.token = .name s) : isWord s = true := by
  fun_induction tokensFrom position skip cs generalizing ts with
  | case1 position skip =>
    cases h
    obtain rfl := List.mem_singleton.mp ht
    cases hs
  | case2 position skip c rest ih => exact ih h ht
  | case3 position c rest hblank ih => exact ih h ht
  | case4 position c rest hblank ih =>
    obtain ⟨⟨token, width⟩, hscan, hmore⟩ := Except.bind_eq_ok.mp h
    obtain ⟨more, hrest, hts⟩ := Except.bind_eq_ok.mp hmore
    obtain rfl := Except.pure_eq_ok.mp hts
    rcases List.mem_cons.mp ht with rfl | ht
    · obtain rfl : token = .name s := hs
      exact isWord_of_scan hscan
    · exact ih width hrest ht

theorem isWord_of_mem_tokens {text : String} {ts : List Located} (h : tokens text = .ok ts)
    {t : Located} (ht : t ∈ ts) {s : String} (hs : t.token = .name s) : isWord s = true :=
  Lexer.isWord_of_tokensFrom (Except.mapError_eq_ok.mp h) ht hs

theorem isWord_of_mem_names {text : String} {rule : Rule} (h : read text = .ok rule) {s : String}
    (hs : s ∈ rule.names) : isWord s = true := by
  obtain ⟨tree, -, hnames⟩ := Except.bind_eq_ok.mp h
  obtain ⟨names, hidentifiers, hrule⟩ := Except.bind_eq_ok.mp hnames
  obtain rfl := Except.pure_eq_ok.mp hrule
  obtain ⟨ts, hts, rfl⟩ := Except.map_eq_ok.mp hidentifiers
  rw [namesOf, List.mem_eraseDups, List.mem_filterMap] at hs
  obtain ⟨t, ht, hname⟩ := hs
  have htoken : t.token = .name s := by
    cases htoken : t.token <;> simp [htoken] at hname
    rw [hname]
  exact isWord_of_mem_tokens hts ht htoken

/-! ### A word as a rule -/

theorem read_word (hword : isWord word = true) (hreserved : isReserved word = false) :
    read word = .ok ⟨word, .name word, [word]⟩ := by
  have htokens := tokens_word hword hreserved
  have hparse : parse word = .ok (.name word) := by
    rw [parse, htokens]
    rfl
  rw [read, hparse, identifiers, htokens]
  rfl

theorem judgeText_word (hword : isWord word = true) (hreserved : isReserved word = false)
    (A : Assignment) {D : List String} (hdeclared : word ∈ D) :
    judgeText word A D = .ok
      (match A.value? word with
        | none => .undecided
        | some v => .ofValue v) := by
  have hdependencies : dependencies ⟨word, .name word, [word]⟩ D = [word] := by
    simp [dependencies, hdeclared]
  rw [judgeText, read_word hword hreserved, judgeReading, judge, hdependencies]
  cases hvalue : A.value? word with
  | none => simp [hvalue]
  | some v => simp [hvalue, Expr.value, hdeclared]

end Rule

end Shortlist
