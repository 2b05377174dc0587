import Mathlib.Data.List.TakeWhile
import Mathlib.Tactic.Common
import Shortlist.Proofs.Rule.Words

/-!
# Lexemes

A token is read from the characters at its place, its lexeme, and how far the lexeme goes is decided
by what stands behind it. `Lexeme` says this for each kind of token without the scanner: a numeral
and a word go as far as they can, an operator is the longest that fits, a quoted text ends with its
quote. The scanner takes just the lexeme that the characters start with. What the other modules need
of it is `Lexeme.before`: a lexeme stays one in front of anything else, as long as that does not
start with a character that some lexeme goes on with.
-/

namespace Shortlist.Rule

open Text

namespace Lexer

/-! ### Runs of characters -/

theorem head?_dropWhile_eq_false {p : Char → Bool} {cs : List Char} :
    ∀ d ∈ (cs.dropWhile p).head?, p d = false := by
  intro d hd
  have h := List.head?_dropWhile_not p cs
  rwa [Option.mem_def.mp hd] at h

/-! ### Quoted texts -/

/-- What stands behind an opening quote up to the closing one, and the content it is read as. -/
inductive Quotation (quote : Char) : List Char → List Char → Prop
  | close : Quotation quote [quote] []
  | escape (c : Char) {cs content : List Char} (h : Quotation quote cs content) :
      Quotation quote ('\\' :: c :: cs) (unescape c :: content)
  | plain {c : Char} {cs content : List Char} (hescape : c ≠ '\\') (hquote : c ≠ quote)
      (h : Quotation quote cs content) : Quotation quote (c :: cs) (c :: content)

theorem scanQuoted_of_quotation {quote : Char} {cs content : List Char} (hquote : quote ≠ '\\')
    (h : Quotation quote cs content) (behind : List Char) :
    scanQuoted quote (cs ++ behind) = some (content, cs.length) := by
  induction h with
  | close =>
    rw [List.singleton_append, scanQuoted.eq_def]
    simp [hquote]
  | escape c h ih =>
    rw [List.cons_append, List.cons_append, scanQuoted.eq_def]
    simp [ih]
  | plain hescape hquote h ih =>
    rw [List.cons_append, scanQuoted.eq_def]
    simp [hescape, hquote, ih]

theorem quotation_of_scanQuoted {quote : Char} {cs content : List Char} {width : Nat}
    (h : scanQuoted quote cs = some (content, width)) :
    ∃ front behind, cs = front ++ behind ∧ front.length = width ∧
      Quotation quote front content := by
  fun_induction scanQuoted quote cs generalizing content width with
  | case1 => cases h
  | case2 => cases h
  | case3 escaped rest ih =>
    obtain ⟨⟨inner, count⟩, hinner, ⟨⟩⟩ := Option.map_eq_some_iff.mp h
    obtain ⟨front, behind, rfl, rfl, hfront⟩ := ih hinner
    exact ⟨_, behind, rfl, rfl, .escape escaped hfront⟩
  | case4 rest hne =>
    cases h
    exact ⟨[quote], rest, rfl, rfl, .close⟩
  | case5 c rest hescape hquote ih =>
    obtain ⟨⟨inner, count⟩, hinner, ⟨⟩⟩ := Option.map_eq_some_iff.mp h
    obtain ⟨front, behind, rfl, rfl, hfront⟩ := ih hinner
    exact ⟨_, behind, rfl, rfl, .plain hescape hquote hfront⟩

theorem Quotation.getLast? {quote : Char} {cs content : List Char}
    (h : Quotation quote cs content) : cs.getLast? = some quote := by
  induction h with
  | close => rfl
  | escape c h ih => simp [List.getLast?_cons, ih]
  | plain hescape hquote h ih => simp [List.getLast?_cons, ih]

end Lexer

/-! ### Operators -/

namespace Operator

theorem exists_first (op : Operator) : ∃ c more, op.spelling.toList = c :: more ∧
    isDigit c = false ∧ c ≠ '.' ∧ startsWord c = false ∧ isBlank c = false ∧
    ¬(c = singleQuote ∨ c = doubleQuote) ∧ c ≠ '(' ∧ c ≠ ')' := by
  cases op <;> exact ⟨_, _, rfl, by decide⟩

theorem eq_of_spelling_eq {op other : Operator}
    (h : op.spelling.toList = other.spelling.toList) : op = other := by
  cases op <;> cases other <;> first | rfl | exact absurd h (by decide)

/-- An operator goes on as another one only by an equality sign, which alone makes it one. -/
theorem goes_on {op other : Operator} (h : op.spelling.toList <+: other.spelling.toList)
    (hlonger : op.spelling.toList.length < other.spelling.toList.length) :
    ∃ longer : Operator, longer.spelling.toList = op.spelling.toList ++ ['='] ∧
      longer.spelling.toList <+: other.spelling.toList := by
  have hall : ∀ op ∈ all, ∀ other ∈ all, op.spelling.toList <+: other.spelling.toList →
      op.spelling.toList.length < other.spelling.toList.length →
      ∃ longer ∈ all, longer.spelling.toList = op.spelling.toList ++ ['='] ∧
        longer.spelling.toList <+: other.spelling.toList := by decide +kernel
  obtain ⟨longer, -, hlonger⟩ := hall op (mem_all op) other (mem_all other) h hlonger
  exact ⟨longer, hlonger⟩

/-- No operator that the characters start with is longer. -/
def Longest (op : Operator) (cs : List Char) : Prop :=
  ∀ other : Operator, other.spelling.toList <+: cs →
    other.spelling.toList.length ≤ op.spelling.toList.length

end Operator

namespace Lexer

theorem longest_of_scanOperator {cs : List Char} {op : Operator} (h : scanOperator cs = some op) :
    op.spelling.toList <+: cs ∧ op.Longest cs := by
  have hsorted : Operator.all.Pairwise fun a b =>
      b.spelling.toList.length ≤ a.spelling.toList.length := by decide
  obtain ⟨hstarts, before, behind, hall, hbefore⟩ := List.find?_eq_some_iff_append.mp h
  refine ⟨List.isPrefixOf_iff_prefix.mp hstarts, fun other hother => ?_⟩
  have hmem := Operator.mem_all other
  rw [hall] at hsorted hmem
  rcases List.mem_append.mp hmem with hin | hin
  · have hnot := hbefore other hin
    rw [List.isPrefixOf_iff_prefix.mpr hother] at hnot
    cases hnot
  · rcases List.mem_cons.mp hin with rfl | hin
    · exact Nat.le_refl _
    · exact (List.pairwise_cons.mp (List.pairwise_append.mp hsorted).2.1).1 other hin

/-- The scanner takes the longest operator that the characters start with. -/
theorem scanOperator_eq_some_iff {cs : List Char} {op : Operator} :
    scanOperator cs = some op ↔ op.spelling.toList <+: cs ∧ op.Longest cs := by
  refine ⟨longest_of_scanOperator, fun ⟨hstarts, hlongest⟩ => ?_⟩
  cases h : scanOperator cs with
  | none =>
    have hnot := List.find?_eq_none.mp h op (Operator.mem_all op)
    exact absurd (List.isPrefixOf_iff_prefix.mpr hstarts) hnot
  | some found =>
    obtain ⟨hfound, hfoundLongest⟩ := longest_of_scanOperator h
    have hlength := Nat.le_antisymm (hlongest found hfound) (hfoundLongest op hstarts)
    have hspelling := List.prefix_of_prefix_length_le hfound hstarts hlength.le
    rw [Operator.eq_of_spelling_eq (hspelling.eq_of_length hlength)]

/-! ### Lexemes -/

/-- A lexeme, the token that it is read as, and the characters behind it. -/
inductive Lexeme : List Char → Token → List Char → Prop
  | numeral {literal behind : List Char} {n : Number} (hnumeric : ∀ c ∈ literal, isNumeric c = true)
      (hdigit : ∃ c ∈ literal, c ≠ '.') (hpoint : literal.count '.' ≤ 1)
      (hvalue : numeralValue literal = .ok n)
      (hbehind : ∀ d ∈ behind.head?, isNumeric d = false ∧ startsWord d = false) :
      Lexeme literal (.number n) behind
  | word {c : Char} {more behind : List Char} (hstart : startsWord c = true)
      (hmore : ∀ d ∈ more, continuesWord d = true)
      (hbehind : ∀ d ∈ behind.head?, continuesWord d = false) :
      Lexeme (c :: more) (Token.ofWord (String.ofList (c :: more))) behind
  | quoted {quote : Char} {cs content behind : List Char}
      (hquote : quote = singleQuote ∨ quote = doubleQuote) (h : Quotation quote cs content) :
      Lexeme (quote :: cs) (.text (String.ofList content)) behind
  | leftParen {behind : List Char} : Lexeme ['('] .leftParen behind
  | rightParen {behind : List Char} : Lexeme [')'] .rightParen behind
  | operator {behind : List Char} (op : Operator)
      (hlongest : op.Longest (op.spelling.toList ++ behind)) :
      Lexeme op.spelling.toList (.operator op) behind

variable {c : Char} {lexeme behind rest : List Char} {token : Token} {position width : Nat}

theorem Lexeme.exists_cons (h : Lexeme lexeme token behind) : ∃ c more, lexeme = c :: more := by
  cases h with
  | numeral hnumeric hdigit hpoint hvalue hbehind =>
    obtain ⟨d, hd, -⟩ := hdigit
    exact List.exists_cons_of_ne_nil (List.ne_nil_of_mem hd)
  | word hstart hmore hbehind => exact ⟨_, _, rfl⟩
  | quoted hquote h => exact ⟨_, _, rfl⟩
  | leftParen => exact ⟨_, _, rfl⟩
  | rightParen => exact ⟨_, _, rfl⟩
  | operator op hlongest =>
    obtain ⟨c, more, hop, -⟩ := op.exists_first
    exact ⟨c, more, hop⟩

/-! ### What stands behind a lexeme -/

/-- No numeral, word or operator goes on with the character. -/
structure Closes (d : Char) : Prop where
  numeral : isNumeric d = false
  word : continuesWord d = false
  operator : d ≠ '='

theorem closes_of_isBlank {d : Char} (h : isBlank d = true) : Closes d where
  numeral := by
    rw [← Bool.not_eq_true]
    intro hnumeric
    rw [Numeral.not_isBlank_of_isNumeric hnumeric] at h
    cases h
  word := by
    rw [← Bool.not_eq_true]
    intro hword
    rw [not_isBlank_of_continuesWord hword] at h
    cases h
  operator := by
    rintro rfl
    exact absurd h (by decide)

theorem longest_before {op : Operator} {next : List Char}
    (h : op.Longest (op.spelling.toList ++ behind))
    (hnext : ∀ d ∈ next.head?, Closes d ∨ d ∈ behind.head?) :
    op.Longest (op.spelling.toList ++ next) := by
  intro other hother
  by_contra hlength
  have hstarts : op.spelling.toList <+: other.spelling.toList :=
    List.prefix_of_prefix_length_le (List.prefix_append _ _) hother (by omega)
  obtain ⟨longer, hlonger, hbetween⟩ := Operator.goes_on hstarts (by omega)
  -- the equality sign stands in front, so it stood there before and made a longer operator
  have hequality : '=' ∈ next.head? := by
    have hprefix := hbetween.trans hother
    rw [hlonger, List.prefix_append_right_inj] at hprefix
    obtain ⟨more, rfl⟩ := hprefix
    rfl
  rcases hnext '=' hequality with hcloses | hin
  · exact hcloses.operator rfl
  · obtain ⟨more, rfl⟩ := List.head?_eq_some_iff.mp hin
    have hlongest := h longer ⟨more, by rw [hlonger]; simp⟩
    rw [hlonger, List.length_append, List.length_singleton] at hlongest
    omega

/-- A lexeme stays one in front of other characters, unless they start with a new one that some
lexeme goes on with. -/
theorem Lexeme.before {next : List Char} (h : Lexeme lexeme token behind)
    (hnext : ∀ d ∈ next.head?, Closes d ∨ d ∈ behind.head?) : Lexeme lexeme token next := by
  cases h with
  | numeral hnumeric hdigit hpoint hvalue hbehind =>
    refine .numeral hnumeric hdigit hpoint hvalue fun d hd => ?_
    rcases hnext d hd with hcloses | hin
    · exact ⟨hcloses.numeral, Bool.eq_false_iff.mpr fun hword =>
        Bool.eq_false_iff.mp hcloses.word (continuesWord_of_startsWord hword)⟩
    · exact hbehind d hin
  | word hstart hmore hbehind =>
    exact .word hstart hmore fun d hd => (hnext d hd).elim Closes.word (hbehind d)
  | quoted hquote h => exact .quoted hquote h
  | leftParen => exact .leftParen
  | rightParen => exact .rightParen
  | operator op hlongest => exact .operator op (longest_before hlongest hnext)

theorem lexeme_operator (op : Operator) (hbehind : ∀ d ∈ behind.head?, Closes d) :
    Lexeme op.spelling.toList (.operator op) behind := by
  have halone : Lexeme op.spelling.toList (.operator op) [] :=
    .operator op fun other hother => by simpa using hother.length_le
  exact halone.before fun d hd => .inl (hbehind d hd)

theorem Lexeme.ends_apart (h : Lexeme lexeme token behind) {d : Char}
    (hd : d ∈ lexeme.head? ∨ d ∈ lexeme.getLast?) : isBlank d = false := by
  have hmem : d ∈ lexeme := hd.elim List.mem_of_mem_head? List.mem_of_mem_getLast?
  cases h with
  | numeral hnumeric hdigit hpoint hvalue hbehind =>
    exact Numeral.not_isBlank_of_isNumeric (hnumeric d hmem)
  | word hstart hmore hbehind =>
    rcases List.mem_cons.mp hmem with rfl | hmem
    · exact not_isBlank_of_continuesWord (continuesWord_of_startsWord hstart)
    · exact not_isBlank_of_continuesWord (hmore d hmem)
  | quoted hquote h =>
    rw [List.getLast?_cons, h.getLast?] at hd
    obtain rfl : d = _ := by simpa [eq_comm] using hd
    rcases hquote with rfl | rfl <;> decide
  | leftParen =>
    obtain rfl := List.mem_singleton.mp hmem
    decide
  | rightParen =>
    obtain rfl := List.mem_singleton.mp hmem
    decide
  | operator op hlongest =>
    have hall : op.spelling.toList.all (!isBlank ·) = true := by cases op <;> decide
    simpa using List.all_eq_true.mp hall d hmem

/-! ### The scanner takes lexemes -/

theorem scanNumeral_eq_ok_iff {cs : List Char} :
    scanNumeral position cs = .ok (token, width) ↔ (cs.takeWhile isNumeric).count '.' ≤ 1 ∧
      (∀ next ∈ (cs.dropWhile isNumeric).head?, startsWord next = false) ∧
      ∃ n, numeralValue (cs.takeWhile isNumeric) = .ok n ∧ token = .number n ∧
        width = (cs.takeWhile isNumeric).length := by
  have hvalue : ((numeralValue (cs.takeWhile isNumeric)).map
        (Token.number ·, (cs.takeWhile isNumeric).length) |>.mapError Trouble.fault) =
        .ok (token, width) ↔
      ∃ n, numeralValue (cs.takeWhile isNumeric) = .ok n ∧ token = .number n ∧
        width = (cs.takeWhile isNumeric).length := by
    simp only [Except.mapError_eq_ok, Except.map_eq_ok, Prod.mk.injEq, @eq_comm _ _ token,
      @eq_comm _ _ width]
  unfold scanNumeral
  dsimp only
  split
  · rename_i htwo
    exact iff_of_false (by rintro ⟨⟩) fun h => by omega
  · rename_i hpoint
    rw [and_iff_right (by omega)]
    split
    · rename_i next more hnext
      rw [hnext]
      split
      · rename_i hword
        exact iff_of_false (by rintro ⟨⟩) fun h => by simp [hword] at h
      · rename_i hword
        rw [hvalue, and_iff_right (by simpa using hword)]
    · rename_i hnil
      rw [hvalue, and_iff_right (by simp [hnil])]

theorem exists_lexeme_of_scan (h : scan position c rest = .ok (token, width)) :
    ∃ lexeme behind, c :: rest = lexeme ++ behind ∧ width = lexeme.length ∧
      Lexeme lexeme token behind := by
  unfold scan at h
  split at h
  · rename_i hstart
    obtain ⟨hpoint, hends, n, hvalue, rfl, hwidth⟩ := scanNumeral_eq_ok_iff.mp h
    refine ⟨_, _, List.takeWhile_append_dropWhile.symm, hwidth, .numeral ?_
      (exists_ne_point_of_startsNumeral hstart) hpoint hvalue fun d hd => ?_⟩
    · exact List.all_eq_true.mp List.all_takeWhile
    · exact ⟨head?_dropWhile_eq_false d hd, hends d hd⟩
  · split at h
    · rename_i hstart
      have hfirst := continuesWord_of_startsWord hstart
      rw [List.takeWhile_cons_of_pos hfirst] at h
      cases h
      refine ⟨c :: rest.takeWhile continuesWord, rest.dropWhile continuesWord, ?_, rfl, ?_⟩
      · rw [List.cons_append, List.takeWhile_append_dropWhile]
      · exact .word hstart (List.all_eq_true.mp List.all_takeWhile) head?_dropWhile_eq_false
    · split at h
      · rename_i hquote
        split at h
        · rename_i content count hscan
          cases h
          obtain ⟨front, behind, rfl, rfl, hfront⟩ := quotation_of_scanQuoted hscan
          exact ⟨c :: front, behind, rfl, rfl, .quoted (by simpa using hquote) hfront⟩
        · cases h
      · split at h
        · rename_i hparen
          cases h
          exact ⟨['('], rest, hparen ▸ rfl, rfl, .leftParen⟩
        · split at h
          · rename_i hparen
            cases h
            exact ⟨[')'], rest, hparen ▸ rfl, rfl, .rightParen⟩
          · split at h
            · rename_i op hscan
              cases h
              obtain ⟨⟨behind, hsplit⟩, hlongest⟩ := scanOperator_eq_some_iff.mp hscan
              exact ⟨op.spelling.toList, behind, hsplit.symm, String.length_toList.symm,
                .operator op (hsplit ▸ hlongest)⟩
            · cases h

theorem startsNumeral_of_numeral {more : List Char}
    (hnumeric : ∀ d ∈ c :: more, isNumeric d = true) (hdigit : ∃ d ∈ c :: more, d ≠ '.')
    (hpoint : (c :: more).count '.' ≤ 1) : startsNumeral c (more ++ behind) = true := by
  have hdigits : ∀ d ∈ c :: more, d ≠ '.' → isDigit d = true := fun d hd hne => by
    simpa [isNumeric, hne] using hnumeric d hd
  by_cases hc : c = '.'
  · subst hc
    -- one point is read already, so the digit stands right behind it
    rw [List.count_cons_self] at hpoint
    obtain ⟨d, hd, hne⟩ := hdigit
    cases more with
    | nil => exact absurd (List.mem_singleton.mp hd) hne
    | cons first rest =>
      have hfirst : first ≠ '.' := by
        rintro rfl
        rw [List.count_cons_self] at hpoint
        omega
      simp [startsNumeral, hdigits first (by simp) hfirst]
  · simp [startsNumeral, hdigits c List.mem_cons_self hc]

theorem scan_of_lexeme {more : List Char} (h : Lexeme (c :: more) token behind) (position : Nat) :
    scan position c (more ++ behind) = .ok (token, (c :: more).length) := by
  generalize hlexeme : c :: more = lexeme at h
  cases h with
  | numeral hnumeric hdigit hpoint hvalue hbehind =>
    subst hlexeme
    have hrun := takeWhile_run hnumeric fun d hd => (hbehind d hd).1
    rw [List.cons_append] at hrun
    rw [scan, if_pos (startsNumeral_of_numeral hnumeric hdigit hpoint), scanNumeral_eq_ok_iff,
      hrun.1, hrun.2]
    exact ⟨hpoint, fun d hd => (hbehind d hd).2, _, hvalue, rfl, rfl⟩
  | word hstart hmore hbehind =>
    cases hlexeme
    exact scan_word hstart hmore hbehind
  | quoted hquote h =>
    cases hlexeme
    have happart : isDigit c = false ∧ c ≠ '.' ∧ startsWord c = false ∧ c ≠ '\\' := by
      rcases hquote with rfl | rfl <;> decide
    obtain ⟨hdigit, hpoint, hword, hescape⟩ := happart
    rw [scan, startsNumeral_eq_false hdigit hpoint, if_neg Bool.false_ne_true, hword,
      if_neg Bool.false_ne_true, if_pos (by simpa using hquote),
      scanQuoted_of_quotation hescape h]
    rfl
  | leftParen =>
    cases hlexeme
    rfl
  | rightParen =>
    cases hlexeme
    rfl
  | operator op hlongest =>
    obtain ⟨first, tail, hop, hdigit, hpoint, hword, -, hquote, hleft, hright⟩ := op.exists_first
    rw [hop] at hlexeme
    cases hlexeme
    have hscan : scanOperator (c :: (more ++ behind)) = some op :=
      scanOperator_eq_some_iff.mpr ⟨⟨behind, by rw [hop]; rfl⟩, by rwa [hop] at hlongest⟩
    rw [scan, startsNumeral_eq_false hdigit hpoint, if_neg Bool.false_ne_true, hword,
      if_neg Bool.false_ne_true, if_neg (by simpa using hquote), if_neg hleft, if_neg hright, hscan,
      String.length_toList]

end Lexer

end Shortlist.Rule
