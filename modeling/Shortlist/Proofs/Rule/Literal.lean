import Shortlist.Proofs.Number.Range
import Shortlist.Proofs.Rule.Layout

/-!
# Decimal literals

A numeral with a point is read as the double nearest to the decimal that its digits spell, and it
may have any number of digits. So the literals of a rule that are read as an infinity are those
whose digits spell at least `Binary64.bound`.
-/

namespace Shortlist.Rule

open Text

/-- The digits of a numeral before and behind its point, of any script. -/
structure DecimalLiteral where
  whole : List Char
  fraction : List Char
  digits : ∀ c ∈ whole ++ fraction, (decimalDigit? c).isSome = true
  nonempty : whole ++ fraction ≠ []

namespace DecimalLiteral

variable {d : DecimalLiteral}

def chars (d : DecimalLiteral) : List Char := d.whole ++ '.' :: d.fraction

def units (d : DecimalLiteral) : Nat := Numeral.value ((d.whole ++ d.fraction).map Numeral.toAscii)

def double (d : DecimalLiteral) : Binary64 := Decimal.toBinary64 false ⟨d.units, -d.fraction.length⟩

/-- The digits spell a number that is beyond the range of doubles. -/
def IsOverlong (d : DecimalLiteral) : Prop := Binary64.bound * 10 ^ d.fraction.length ≤ d.units

instance (d : DecimalLiteral) : Decidable d.IsOverlong := Nat.decLe _ _

/-! ### Their values -/

theorem isFinite_double_iff : d.double.isFinite = true ↔ ¬d.IsOverlong := by
  rw [double, Decimal.isFinite_toBinary64_iff, IsOverlong, Nat.not_le]
  cases hlength : d.fraction.length with
  | zero => simp [Decimal.shift]
  | succ n =>
    have hneg : -((n + 1 : Nat) : Int) < 0 := by omega
    rw [Decimal.shift_of_neg hneg, Int.natAbs_neg, Int.natAbs_natCast, Nat.one_mul]

theorem double_eq_infinite (h : d.IsOverlong) : d.double = .infinite false :=
  Decimal.toBinary64_eq_infinite (mt isFinite_double_iff.mp (not_not_intro h))

theorem isNumeric_chars (d : DecimalLiteral) : ∀ c ∈ d.chars, Lexer.isNumeric c = true := by
  intro c hc
  rcases List.mem_append.mp hc with hwhole | hmore
  · have hdigit := d.digits c (List.mem_append_left _ hwhole)
    simp [Lexer.isNumeric, isDigit, hdigit]
  · rcases List.mem_cons.mp hmore with rfl | hfraction
    · decide
    · have hdigit := d.digits c (List.mem_append_right _ hfraction)
      simp [Lexer.isNumeric, isDigit, hdigit]

theorem numeralValue_chars (d : DecimalLiteral) :
    Lexer.numeralValue d.chars = .ok (.double d.double) := by
  have hnumeric := d.isNumeric_chars
  have hpoint : Numeral.toAscii '.' = '.' := by decide
  have hascii : ∀ side ⊆ d.whole ++ d.fraction, ∀ c ∈ side.map Numeral.toAscii,
      c.isDigit = true := by
    intro side hside
    exact List.forall_mem_map.mpr fun c hc => Numeral.isDigit_toAscii (d.digits c (hside hc))
  have hne : d.whole.map Numeral.toAscii ++ d.fraction.map Numeral.toAscii ≠ [] := by
    rw [← List.map_append]
    simpa using d.nonempty
  have hdecimal : Numeral.decimal? (d.chars.map Numeral.toAscii) =
      some ⟨d.units, -d.fraction.length⟩ := by
    have hread := Numeral.decimal?_fraction (hascii _ (List.subset_append_left _ _))
      (hascii _ (List.subset_append_right _ _)) hne
    rwa [← List.map_append, List.length_map, ← hpoint, ← List.map_cons, ← List.map_append] at hread
  have hdouble : Numeral.double? (String.ofList d.chars) = some d.double := by
    rw [Numeral.double?_of_splitSign (Numeral.plain_eq_map hnumeric) (Numeral.unsigned hnumeric)
      fun c hc => Numeral.toLower_ne_n (Numeral.toAscii_plain hnumeric c hc), hdecimal]
    rfl
  have hmem : d.chars.contains '.' = true := by simp [chars]
  rw [Lexer.numeralValue, if_pos hmem, hdouble]

/-! ### Their places in a text -/

theorem ne_point_of_mem {c : Char} (hc : c ∈ d.whole ++ d.fraction) : c ≠ '.' := by
  rintro rfl
  exact absurd (d.digits _ hc) (by decide)

/-- A decimal literal is a lexeme, and its double is its token. -/
theorem lexeme_chars (d : DecimalLiteral) :
    Lexer.Lexeme d.chars (.number (.double d.double)) [] := by
  have hdigit : ∃ c ∈ d.chars, c ≠ '.' := by
    obtain ⟨c, hc⟩ := List.exists_mem_of_ne_nil _ d.nonempty
    refine ⟨c, ?_, ne_point_of_mem hc⟩
    rw [chars, List.mem_append, List.mem_cons]
    exact (List.mem_append.mp hc).imp_right .inr
  have hpoint : d.chars.count '.' ≤ 1 := by
    have hnone : (d.whole ++ d.fraction).count '.' = 0 :=
      List.count_eq_zero.mpr fun hmem => ne_point_of_mem hmem rfl
    rw [List.count_append] at hnone
    rw [chars, List.count_append, List.count_cons_self]
    omega
  exact .numeral d.isNumeric_chars hdigit hpoint d.numeralValue_chars (by simp)

theorem exists_of_numeralValue {literal : List Char} {x : Binary64}
    (hnumeric : ∀ c ∈ literal, Lexer.isNumeric c = true) (hdigit : ∃ c ∈ literal, c ≠ '.')
    (hpoint : literal.count '.' ≤ 1) (h : Lexer.numeralValue literal = .ok (.double x)) :
    ∃ d : DecimalLiteral, literal = d.chars ∧ x = d.double := by
  have hmem : '.' ∈ literal := by
    by_contra hnone
    rw [Lexer.numeralValue, if_neg (by simpa using hnone)] at h
    split at h
    · cases h
    · split at h <;> cases h
  have hcount : literal.count '.' = 1 := Nat.le_antisymm hpoint (List.count_pos_iff.mpr hmem)
  have hvalues : ∀ c ∈ literal, c ≠ '.' → (decimalDigit? c).isSome = true := by
    intro c hc hne
    by_contra hnone
    have hdouble := (Numeral.double?_eq_none_iff hnumeric hcount hdigit).mpr
      ⟨c, hc, hne, Option.not_isSome_iff_eq_none.mp hnone⟩
    rw [Lexer.numeralValue, if_pos (List.contains_iff_mem.mpr hmem), hdouble] at h
    cases h
  obtain ⟨whole, fraction, rfl⟩ := List.append_of_mem hmem
  -- there is no other point, so all the rest are digits
  rw [List.count_append, List.count_cons_self] at hcount
  have hrest : '.' ∉ whole ++ fraction := by
    rw [← List.count_eq_zero, List.count_append]
    omega
  have hsub : whole ++ fraction ⊆ whole ++ '.' :: fraction := by
    intro c hc
    simp only [List.mem_append, List.mem_cons] at hc ⊢
    exact hc.imp_right .inr
  let d : DecimalLiteral :=
    { whole, fraction
      digits := fun c hc => hvalues c (hsub hc) (ne_of_mem_of_not_mem hc hrest)
      nonempty := by
        intro hempty
        obtain ⟨rfl, rfl⟩ := List.append_eq_nil_iff.mp hempty
        obtain ⟨c, hc, hne⟩ := hdigit
        exact hne (List.mem_singleton.mp hc) }
  exact ⟨d, rfl, Number.double.inj (Except.ok.inj (h.symm.trans d.numeralValue_chars))⟩

theorem exists_of_lexeme {lexeme behind : List Char} {token : Token} {x : Binary64}
    (h : Lexer.Lexeme lexeme token behind) (hx : token = .number (.double x)) :
    ∃ d : DecimalLiteral, lexeme = d.chars ∧ x = d.double := by
  cases h with
  | numeral hnumeric hdigit hpoint hvalue hbehind =>
    obtain rfl := Token.number.inj hx
    exact exists_of_numeralValue hnumeric hdigit hpoint hvalue
  | word hstart hmore hbehind =>
    rcases ofWord_cases (String.ofList (_ :: _)) with hword | hother
    · rw [hword] at hx
      cases hx
    · rw [hx] at hother
      simp [reserved] at hother
  | _ => cases hx

end DecimalLiteral

theorem Layout.Separated.exists_lexeme {layout : Layout} {token : Token} (h : layout.Separated)
    (hmem : token ∈ layout.tokens) :
    ∃ lexeme behind, Lexer.Lexeme lexeme token behind ∧ lexeme <:+: layout.chars := by
  induction layout with
  | finish gap => cases hmem
  | piece gap lexeme first rest ih =>
    obtain ⟨-, hlexeme, hrest⟩ := h
    rcases List.mem_cons.mp hmem with rfl | hmem
    · exact ⟨lexeme, _, hlexeme, gap, rest.chars, by rw [chars, List.append_assoc]⟩
    · obtain ⟨other, behind, hother, hinfix⟩ := ih hrest hmem
      have hsuffix : rest.chars <:+ gap ++ (lexeme ++ rest.chars) :=
        (List.suffix_append _ _).trans (List.suffix_append _ _)
      exact ⟨other, behind, hother, hinfix.trans hsuffix.isInfix⟩

/-- A double among the tokens of a text is spelled by a decimal literal in it. -/
theorem exists_decimalLiteral {text : String} {ts : List Located} {x : Binary64}
    (h : tokens text = .ok ts) (hmem : Token.number (.double x) ∈ ts.map (·.token)) :
    ∃ d : DecimalLiteral, d.chars <:+: text.toList ∧ x = d.double := by
  obtain ⟨layout, hseparated, -, hchars, rfl⟩ := Layout.exists_cuts h
  rw [Layout.map_located, List.mem_append, List.mem_singleton] at hmem
  obtain ⟨lexeme, behind, hlexeme, hinfix⟩ :=
    hseparated.exists_lexeme (hmem.resolve_right Token.noConfusion)
  obtain ⟨d, rfl, rfl⟩ := DecimalLiteral.exists_of_lexeme hlexeme rfl
  exact ⟨d, hchars ▸ hinfix, rfl⟩

end Shortlist.Rule
