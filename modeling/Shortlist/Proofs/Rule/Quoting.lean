import Mathlib.Tactic.Common
import Shortlist.Proofs.Rule.Composition
import Shortlist.Proofs.Rule.Dependence

/-!
# Every text is a literal

A rule can speak of any text: it is written between quotes of either kind, with a backslash before
each backslash and each quote of that kind in it. A backslash gives some characters another meaning,
but not the ones that it is written before here (`unescape_eq_self`), so reading takes away just
what writing has put in. A rule that compares a variable with such a literal therefore holds for one
value of the variable and for no other.
-/

namespace Shortlist.Rule

open Text

/-- The characters for one character between quotes. -/
def escaped (quote c : Char) : List Char :=
  if c = '\\' ∨ c = quote then ['\\', c] else [c]

def literalBody (quote : Char) (s : String) : List Char :=
  s.toList.flatMap (escaped quote) ++ [quote]

/-- A text as it is written in a rule. -/
def literalText (quote : Char) (s : String) : String :=
  String.ofList (quote :: literalBody quote s)

/-- The rule that a variable has a text as its value. -/
def equationText (name : String) (quote : Char) (s : String) : String :=
  name ++ " == " ++ literalText quote s

section Quoting

variable {quote : Char} (hquote : quote = singleQuote ∨ quote = doubleQuote)

include hquote

/-! ### Reading what has been written -/

theorem unescape_eq_self {c : Char} (hc : c = '\\' ∨ c = quote) : Lexer.unescape c = c := by
  rcases hc with rfl | rfl
  · rfl
  · rcases hquote with rfl | rfl <;> rfl

theorem quotation_escaped (cs : List Char) :
    Lexer.Quotation quote (cs.flatMap (escaped quote) ++ [quote]) cs := by
  induction cs with
  | nil => exact .close
  | cons c rest ih =>
    rw [List.flatMap_cons, List.append_assoc]
    by_cases hc : c = '\\' ∨ c = quote
    · have hread := Lexer.Quotation.escape c ih
      rw [unescape_eq_self hquote hc] at hread
      rw [escaped, if_pos hc]
      exact hread
    · rw [escaped, if_neg hc]
      rw [not_or] at hc
      exact .plain hc.1 hc.2 ih

/-- What stands behind the opening quote is read back up to the closing one, whatever follows. -/
theorem scanQuoted_literalBody (s : String) (behind : List Char) :
    Lexer.scanQuoted quote (literalBody quote s ++ behind) =
      some (s.toList, (literalBody quote s).length) := by
  have hescape : quote ≠ '\\' := by rcases hquote with rfl | rfl <;> decide
  exact Lexer.scanQuoted_of_quotation hescape (quotation_escaped hquote s.toList) behind

theorem lexeme_literalText (s : String) (behind : List Char) :
    Lexer.Lexeme (literalText quote s).toList (.text s) behind := by
  have hbody : Lexer.Quotation quote (literalBody quote s) s.toList :=
    quotation_escaped hquote s.toList
  have hlexeme : Lexer.Lexeme (quote :: literalBody quote s) (.text (String.ofList s.toList))
      behind := .quoted hquote hbody
  rw [String.ofList_toList] at hlexeme
  rw [literalText, String.toList_ofList]
  exact hlexeme

theorem tokens_literalText (s : String) : tokens (literalText quote s) =
    .ok [⟨.text s, 0⟩, ⟨.finish, (literalText quote s).length⟩] := by
  have hreads := (lexeme_literalText hquote s []).isLexeme.reads
  rwa [String.ofList_toList, String.length_toList] at hreads

/-! ### Comparing with a literal -/

section Equation

variable {name : String} (hword : isWord name = true) (hreserved : isReserved name = false)

include hword hreserved

omit hquote in
theorem lexeme_word {behind : List Char} (hbehind : ∀ d ∈ behind.head?, Lexer.Closes d) :
    Lexer.Lexeme name.toList (.name name) behind := by
  obtain ⟨c, rest, hname, hc, hrest⟩ := isWord_iff.mp hword
  have hlexeme : Lexer.Lexeme (c :: rest) (Token.ofWord (String.ofList (c :: rest))) behind :=
    .word hc hrest fun d hd => (hbehind d hd).word
  rwa [← hname, String.ofList_toList, ofWord_of_not_reserved hreserved] at hlexeme

theorem spells_equationText (s : String) :
    Spells (equationText name quote s) [.name name, .operator .equal, .text s] := by
  have hleft : Lexer.Lexeme name.toList (.name name) [] := lexeme_word hword hreserved (by simp)
  have hspells := spells_equation hleft (lexeme_literalText hquote s [])
  rwa [← String.toList_append, ← String.toList_append, String.ofList_toList] at hspells

theorem parse_equationText (s : String) : parse (equationText name quote s) =
    .ok (.binary .equal (.name name) (.literal (.text s))) := by
  have hspells := spells_equationText hquote hword hreserved s
  exact parse_of_spells_equation (x := .name name) (y := .literal (.text s)) rfl rfl hspells

theorem truthOf_equationText (s : String) (A : Assignment) {D : List String}
    (hdeclared : name ∈ D) : truthOf (equationText name quote s) A D =
      .ok (match A.value? name with
        | none => .undecided
        | some v => .ofBool (equalValues false v (.text s))) := by
  obtain ⟨rule, hread, htree⟩ :=
    exists_read_of_parse (parse_equationText hquote hword hreserved s)
  have hnames : rule.names = [name] := by
    rw [names_of_read hread, htree]
    rfl
  have hdependencies : rule.dependencies D = [name] := by
    simp [dependencies, hnames, hdeclared]
  rw [truthOf_of_read hread, judge, hdependencies, htree]
  cases hvalue : A.value? name with
  | none => simp [hvalue, Except.map, Verdict.truth]
  | some v =>
    have hequation : (Expr.binary .equal (.name name) (.literal (.text s))).value A D =
        .ok (.boolean (equalValues false v (.text s))) := by
      simp [Expr.value, hdeclared, hvalue, BinaryOp.apply, Literal.value, Except.ok_bind]
    simp [hvalue, hequation, Except.map, Verdict.ofValue, Verdict.truth]

end Equation

end Quoting

theorem equalValues_text_iff {one : Bool} {v : Value} {s : String} :
    equalValues one v (.text s) = true ↔ v = .text s := by
  cases v <;> simp [equalValues]

theorem Truth.ofBool_eq_holds_iff {b : Bool} : Truth.ofBool b = .holds ↔ b = true := by
  cases b <;> simp [Truth.ofBool]

/-- Every text can be written as a literal in quotes of either kind. It is read back in full and no
further, it is one token, and a rule that compares a variable with it can always be judged and
holds just if the variable has the text as its value. -/
theorem every_text_has_a_literal {quote : Char}
    (hquote : quote = singleQuote ∨ quote = doubleQuote) (s : String) :
    (∀ behind : List Char, ∃ width,
      Lexer.scanQuoted quote ((literalText quote s).toList ++ behind).tail =
          some (s.toList, width) ∧
        width + 1 = (literalText quote s).length) ∧
      tokens (literalText quote s) =
        .ok [⟨.text s, 0⟩, ⟨.finish, (literalText quote s).length⟩] ∧
      ∀ name, isWord name = true → isReserved name = false →
        ∀ (A : Assignment) (D : List String), name ∈ D →
          (∃ outcome, truthOf (equationText name quote s) A D = .ok outcome) ∧
            (truthOf (equationText name quote s) A D = .ok .holds ↔
              A.value? name = some (.text s)) := by
  refine ⟨fun behind => ⟨(literalBody quote s).length, ?_, ?_⟩,
    tokens_literalText hquote s, ?_⟩
  · rw [literalText, String.toList_ofList, List.cons_append, List.tail_cons]
    exact scanQuoted_literalBody hquote s behind
  · rw [literalText, String.length_ofList, List.length_cons]
  · intro name hword hreserved A D hdeclared
    rw [truthOf_equationText hquote hword hreserved s A hdeclared]
    refine ⟨⟨_, rfl⟩, ?_⟩
    cases A.value? name with
    | none => simp
    | some v =>
      rw [Except.ok.injEq, Option.some.injEq, Truth.ofBool_eq_holds_iff, equalValues_text_iff]

/-- A backslash before a letter, a quote and a backslash at the end. -/
theorem backslashes_and_quote_literal :
    literalText singleQuote "\\n'\\" = "'\\\\n\\'\\\\'" ∧
      tokens "'\\\\n\\'\\\\'" = .ok [⟨.text "\\n'\\", 0⟩, ⟨.finish, 9⟩] ∧
      ∀ A : Assignment, truthOf "v == '\\\\n\\'\\\\'" A ["v"] = .ok .holds ↔
        A.value? "v" = some (.text "\\n'\\") := by
  have hwritten : literalText singleQuote "\\n'\\" = "'\\\\n\\'\\\\'" := by decide
  have hequation : equationText "v" singleQuote "\\n'\\" = "v == '\\\\n\\'\\\\'" := by
    decide
  obtain ⟨-, htokens, hjudged⟩ := every_text_has_a_literal (.inl rfl) "\\n'\\"
  rw [hwritten] at htokens
  refine ⟨hwritten, htokens, fun A => ?_⟩
  rw [← hequation]
  exact (hjudged "v" (by decide) (by decide) A ["v"] (by decide)).2

end Shortlist.Rule
