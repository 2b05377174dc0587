import Mathlib.Tactic.Common
import Shortlist.Proofs.Catalog.Answer
import Shortlist.Proofs.Number.Shortest
import Shortlist.Proofs.Rule.Evaluation
import Shortlist.Proofs.Rule.Words

/-!
# Numbers that read back

A double is written in positional notation or with an exponent, an integer as its digits behind a
sign. Zeros are added and the point is set as the form asks for, and none of this changes the value
of the digits; so each form is read as the decimal that was written, and the shortest text of a
double as the double. It has a point or an `e`, so it is not read as an integer.
-/

namespace Shortlist

namespace Numeral

/-! ### Values of digits -/

theorem value_append (front back : List Char) :
    value (front ++ back) = value front * 10 ^ back.length + value back := by
  have happend : value (front ++ back) = Nat.ofDigitChars 10 back (value front) :=
    Nat.ofDigitChars_append 0
  rw [happend, Nat.ofDigitChars_eq_ofDigitChars_zero, Nat.mul_comm]
  rfl

theorem value_zeros (k : Nat) : value (List.replicate k '0') = 0 :=
  Nat.ofDigitChars_replicate_zero

theorem value_toDigits (n : Nat) : value (Nat.toDigits 10 n) = n := Nat.ofDigitChars_ten_toDigits

theorem value_zeros_append (k : Nat) (digits : List Char) :
    value (List.replicate k '0' ++ digits) = value digits := by
  rw [value_append, value_zeros, Nat.zero_mul, Nat.zero_add]

theorem value_append_zeros (digits : List Char) (k : Nat) :
    value (digits ++ List.replicate k '0') = value digits * 10 ^ k := by
  rw [value_append, value_zeros, Nat.add_zero, List.length_replicate]

theorem isDigit_of_mem_zeros {k : Nat} : ∀ c ∈ List.replicate k '0', c.isDigit = true := by
  intro c hc
  rw [List.eq_of_mem_replicate hc]
  decide

theorem isDigit_of_mem_toDigits {n : Nat} : ∀ c ∈ Nat.toDigits 10 n, c.isDigit = true :=
  fun _ => Nat.isDigit_of_mem_toDigits (by decide) (by decide)

/-! ### Exponents -/

theorem exponent?_of_splitSign {rest digits : List Char} {negative : Bool}
    (h : splitSign rest = (negative, digits)) (hne : digits ≠ [])
    (hdigits : ∀ c ∈ digits, c.isDigit = true) :
    exponent? ('e' :: rest) = some (if negative then -(value digits : Int) else value digits) := by
  have hempty : digits.isEmpty = false := List.isEmpty_eq_false_iff.mpr hne
  have hall : digits.all Char.isDigit = true := List.all_eq_true.mpr hdigits
  simp [exponent?, h, hempty, hall]

theorem exists_exponentText (e : Int) :
    ∃ digits, Layout.exponentText e = (if e < 0 then '-' else '+') :: digits ∧ digits ≠ [] ∧
      (∀ c ∈ digits, c.isDigit = true) ∧ value digits = e.natAbs := by
  refine ⟨_, rfl, ?_⟩
  split
  · exact ⟨List.cons_ne_nil _ _, List.forall_mem_cons.mpr ⟨by decide, isDigit_of_mem_toDigits⟩,
      (value_zeros_append 1 _).trans (value_toDigits _)⟩
  · exact ⟨Nat.toDigits_ne_nil, isDigit_of_mem_toDigits, value_toDigits _⟩

theorem exponent?_exponentText (e : Int) : exponent? ('e' :: Layout.exponentText e) = some e := by
  obtain ⟨digits, htext, hne, hdigits, hvalue⟩ := exists_exponentText e
  by_cases hneg : e < 0
  · rw [if_pos hneg] at htext
    have hsign : splitSign ('-' :: digits) = (true, digits) := rfl
    rw [htext, exponent?_of_splitSign hsign hne hdigits, if_pos rfl, hvalue]
    exact congrArg some (by omega)
  · rw [if_neg hneg] at htext
    have hsign : splitSign ('+' :: digits) = (false, digits) := rfl
    rw [htext, exponent?_of_splitSign hsign hne hdigits, if_neg Bool.false_ne_true, hvalue]
    exact congrArg some (by omega)

/-! ### Forms -/

/-- The texts that digits `d₀ d₁ …` with the exponent `e` are set as. -/
inductive Form (digits : List Char) (e : Int) : List Char → Prop
  | single {first : Char} (h : digits = [first]) :
    Form digits e ([first] ++ 'e' :: Layout.exponentText e)
  | several {first : Char} {rest : List Char} (h : digits = first :: rest) :
    Form digits e ([first] ++ '.' :: (rest ++ 'e' :: Layout.exponentText e))
  | fraction (hneg : e < 0) :
    Form digits e (['0'] ++ '.' :: (List.replicate (e.natAbs - 1) '0' ++ digits))
  | whole (hnonneg : 0 ≤ e) (hlength : digits.length ≤ e.toNat + 1) :
    Form digits e (digits ++ List.replicate (e.toNat + 1 - digits.length) '0' ++ '.' :: ['0'])
  | mixed (hnonneg : 0 ≤ e) (hlength : e.toNat + 1 < digits.length) :
    Form digits e (digits.take (e.toNat + 1) ++ '.' :: digits.drop (e.toNat + 1))

theorem form_set {digits : List Char} (hne : digits ≠ []) (e : Int) :
    Form digits e (Layout.shortest.set digits e) := by
  unfold Layout.set
  split
  · match digits, hne with
    | [first], _ => exact .single rfl
    | first :: second :: rest, _ => exact .several rfl
  · split
    · rename_i hneg
      exact .fraction hneg
    · rename_i hnonneg
      rw [Int.not_lt] at hnonneg
      dsimp only
      rcases Nat.lt_or_ge (e.toNat + 1) digits.length with hlong | hshort
      · have hform := Form.mixed hnonneg hlong
        split
        · rename_i hnil
          rw [List.drop_eq_nil_iff] at hnil
          omega
        · rwa [Nat.sub_eq_zero_of_le (Nat.le_of_lt hlong), List.replicate_zero, List.append_nil]
      · rw [List.drop_eq_nil_of_le hshort, List.take_of_length_le hshort]
        exact .whole hnonneg hshort

/-- The characters are read as `n · 10 ^ e`, up to zeros at the end of the digits. -/
def Spells (cs : List Char) (n : Nat) (e : Int) : Prop :=
  ∃ k : Nat, decimal? cs = some ⟨n * 10 ^ k, e - k⟩

theorem spells_of_eq {cs : List Char} {n m : Nat} {e f : Int} (h : decimal? cs = some ⟨m, f⟩)
    (k : Nat) (hm : m = n * 10 ^ k) (hf : f = e - k) : Spells cs n e :=
  ⟨k, by rw [h, hm, hf]⟩

section Forms

variable {digits cs : List Char} {e : Int} (hdigits : ∀ c ∈ digits, c.isDigit = true)

include hdigits

theorem Form.spells (h : Form digits e cs) (hne : digits ≠ []) :
    Spells cs (value digits) (e - (digits.length - 1)) := by
  have hletter : ∀ c ∈ ('e' :: Layout.exponentText e).head?, c.isDigit = false := by
    rintro _ ⟨⟩
    decide
  have hzero : ∀ c ∈ ['0'], c.isDigit = true := List.forall_mem_singleton.mpr (by decide)
  cases h with
  | single h =>
    subst h
    have hread := decimal?_whole hdigits hletter (by simp) (List.cons_ne_nil _ _)
    rw [exponent?_exponentText] at hread
    exact spells_of_eq hread 0 (by simp) (by simp)
  | several h =>
    subst h
    have hsplit := List.forall_mem_cons.mp hdigits
    have hread := decimal?_point (List.forall_mem_singleton.mpr hsplit.1) hletter hsplit.2 (by simp)
    rw [exponent?_exponentText] at hread
    exact spells_of_eq hread 0 (by simp) (by simp)
  | fraction hneg =>
    have hread := decimal?_fraction hzero (List.forall_mem_append.mpr
      ⟨isDigit_of_mem_zeros (k := e.natAbs - 1), hdigits⟩) (List.cons_ne_nil _ _)
    refine spells_of_eq hread 0 ?_ ?_
    · rw [Nat.pow_zero, Nat.mul_one]
      exact (value_zeros_append 1 _).trans (value_zeros_append _ _)
    · rw [List.length_append, List.length_replicate]
      omega
  | whole hnonneg hlength =>
    have hread := decimal?_fraction (List.forall_mem_append.mpr
      ⟨hdigits, isDigit_of_mem_zeros (k := e.toNat + 1 - digits.length)⟩) hzero (by simp)
    refine spells_of_eq hread (e.toNat + 1 - digits.length + 1) ?_ ?_
    · rw [value_append, value_append_zeros, Nat.pow_succ, ← Nat.mul_assoc]
      rfl
    · rw [List.length_singleton]
      omega
  | mixed hnonneg hlength =>
    have hread := decimal?_fraction
      (fun c hc => hdigits c (List.mem_of_mem_take (i := e.toNat + 1) hc))
      (fun c hc => hdigits c (List.mem_of_mem_drop (i := e.toNat + 1) hc))
      (by rwa [List.take_append_drop])
    rw [List.take_append_drop] at hread
    refine spells_of_eq hread 0 (by rw [Nat.pow_zero, Nat.mul_one]) ?_
    rw [List.length_drop]
    omega

end Forms

/-! ### Decimals -/

theorem exists_significantDigits (n : Nat) :
    ∃ z, Nat.toDigits 10 n = Layout.significantDigits n ++ List.replicate z '0' := by
  have hsplit := List.takeWhile_append_dropWhile (p := (· == '0'))
    (l := (Nat.toDigits 10 n).reverse)
  have hzeros : ∀ c ∈ ((Nat.toDigits 10 n).reverse.takeWhile (· == '0')).reverse, c = '0' := by
    intro c hc
    have hall := List.all_takeWhile (p := (· == '0')) (l := (Nat.toDigits 10 n).reverse)
    exact beq_iff_eq.mp (List.all_eq_true.mp hall c (List.mem_reverse.mp hc))
  refine ⟨((Nat.toDigits 10 n).reverse.takeWhile (· == '0')).reverse.length, ?_⟩
  rw [← List.eq_replicate_of_mem hzeros, Layout.significantDigits, ← List.reverse_append, hsplit,
    List.reverse_reverse]

theorem isDigit_of_mem_significantDigits {n : Nat} :
    ∀ c ∈ Layout.significantDigits n, c.isDigit = true := by
  obtain ⟨z, hz⟩ := exists_significantDigits n
  intro c hc
  exact isDigit_of_mem_toDigits (n := n) c (hz ▸ List.mem_append_left _ hc)

/-- A decimal in the shortest form is read like the decimal itself. -/
theorem decimal?_write {x : Decimal} (h : x.digits ≠ 0) :
    ∃ y, decimal? (Layout.shortest.write x) = some y ∧
      ∀ negative, y.toBinary64 negative = x.toBinary64 negative := by
  obtain ⟨z, hz⟩ := exists_significantDigits x.digits
  have hvalue : x.digits = value (Layout.significantDigits x.digits) * 10 ^ z := by
    rw [← value_append_zeros, ← hz, value_toDigits]
  have hcount : Decimal.digitCount x.digits = (Layout.significantDigits x.digits).length + z := by
    rw [Decimal.digitCount, hz, List.length_append, List.length_replicate]
  obtain ⟨k, hk⟩ := (form_set (significantDigits_ne_nil h)
    (x.exponent + (Decimal.digitCount x.digits : Int) - 1)).spells
      isDigit_of_mem_significantDigits (significantDigits_ne_nil h)
  have hexponent : x.exponent + (Decimal.digitCount x.digits : Int) - 1 -
      ((Layout.significantDigits x.digits).length - 1) = x.exponent + z := by omega
  rw [hexponent] at hk
  rw [Layout.write, if_neg h]
  refine ⟨_, hk, fun negative => ?_⟩
  calc Decimal.toBinary64 negative
        ⟨value (Layout.significantDigits x.digits) * 10 ^ k, x.exponent + z - k⟩
      = Decimal.toBinary64 negative
          ⟨value (Layout.significantDigits x.digits), x.exponent + z⟩ :=
        Decimal.toBinary64_scale _ k _ negative
    _ = Decimal.toBinary64 negative
          ⟨value (Layout.significantDigits x.digits) * 10 ^ z, x.exponent + z - z⟩ :=
        (Decimal.toBinary64_scale _ z _ negative).symm
    _ = x.toBinary64 negative := by rw [← hvalue, Int.add_sub_cancel]

/-! ### Characters -/

/-- The digits of ASCII and the signs that a written number has beside them. -/
def isPlain (c : Char) : Bool := c.isDigit || ['.', 'e', '+', '-'].contains c

theorem isPlain_cases {c : Char} (h : isPlain c = true) :
    toAscii c = c ∧ isPadding c = false ∧ Text.isBlank c = false ∧ c ≠ '_' ∧ c.toLower ≠ 'n' := by
  rw [isPlain, Bool.or_eq_true, List.contains_iff_mem] at h
  rcases h with hdigit | hmark
  · exact of_isDigit (P := fun c => toAscii c = c ∧ isPadding c = false ∧
      Text.isBlank c = false ∧ c ≠ '_' ∧ c.toLower ≠ 'n') (by decide) hdigit
  · simp only [List.mem_cons, List.not_mem_nil, or_false] at hmark
    rcases hmark with rfl | rfl | rfl | rfl <;> decide

theorem isPlain_of_isDigit {c : Char} (h : c.isDigit = true) : isPlain c = true := by
  rw [isPlain, h, Bool.true_or]

section Plain

variable {cs : List Char} (h : ∀ c ∈ cs, isPlain c = true)

include h

theorem plain_ofList : plain (String.ofList cs) = some cs := by
  have hascii : cs.map toAscii = cs :=
    (List.map_congr_left fun c hc => (isPlain_cases (h c hc)).1).trans (List.map_id cs)
  rw [plain, String.toList_ofList,
    Text.trimList_eq_self fun c hc => (isPlain_cases (h c hc)).2.1, hascii]
  exact dropUnderscores_eq_self (fun hmem => (isPlain_cases (h _ hmem)).2.2.2.1 rfl) false

theorem trim_ofList : Text.trim (String.ofList cs) = String.ofList cs :=
  Text.trim_eq_self fun c hc => (isPlain_cases (h c (by simpa using hc))).2.2.1

end Plain

theorem isPlain_exponentText (e : Int) : ∀ c ∈ Layout.exponentText e, isPlain c = true := by
  obtain ⟨digits, htext, -, hdigits, -⟩ := exists_exponentText e
  rw [htext]
  refine List.forall_mem_cons.mpr ⟨?_, fun c hc => isPlain_of_isDigit (hdigits c hc)⟩
  split <;> decide

/-- What is written starts with a digit and holds plain characters, one of which is no digit. -/
structure IsDecimal (cs : List Char) : Prop where
  head : ∀ c ∈ cs.head?, c.isDigit = true
  plain : ∀ c ∈ cs, isPlain c = true
  mark : ∃ c ∈ cs, c.isDigit = false

theorem IsDecimal.point {whole fraction : List Char} (hne : whole ≠ [])
    (hwhole : ∀ c ∈ whole, c.isDigit = true) (hfraction : ∀ c ∈ fraction, isPlain c = true) :
    IsDecimal (whole ++ '.' :: fraction) where
  head := by
    cases whole with
    | nil => exact absurd rfl hne
    | cons first rest =>
      rintro _ ⟨⟩
      exact hwhole first List.mem_cons_self
  plain := List.forall_mem_append.mpr ⟨fun c hc => isPlain_of_isDigit (hwhole c hc),
    List.forall_mem_cons.mpr ⟨by decide, hfraction⟩⟩
  mark := ⟨'.', List.mem_append_right _ List.mem_cons_self, by decide⟩

theorem Form.isDecimal {digits cs : List Char} {e : Int} (h : Form digits e cs)
    (hdigits : ∀ c ∈ digits, c.isDigit = true) (hne : digits ≠ []) : IsDecimal cs := by
  have hplain : ∀ c ∈ digits, isPlain c = true := fun c hc => isPlain_of_isDigit (hdigits c hc)
  have hexponent : ∀ c ∈ 'e' :: Layout.exponentText e, isPlain c = true :=
    List.forall_mem_cons.mpr ⟨by decide, isPlain_exponentText e⟩
  have hzero : ∀ c ∈ ['0'], c.isDigit = true := List.forall_mem_singleton.mpr (by decide)
  cases h with
  | single h =>
    subst h
    refine ⟨?_, List.forall_mem_append.mpr ⟨hplain, hexponent⟩,
      'e', List.mem_append_right _ List.mem_cons_self, by decide⟩
    rintro _ ⟨⟩
    exact hdigits _ List.mem_cons_self
  | several h =>
    subst h
    obtain ⟨hfirst, hrest⟩ := List.forall_mem_cons.mp hdigits
    exact .point (List.cons_ne_nil _ _) (List.forall_mem_singleton.mpr hfirst)
      (List.forall_mem_append.mpr ⟨fun c hc => isPlain_of_isDigit (hrest c hc), hexponent⟩)
  | fraction hneg =>
    exact .point (List.cons_ne_nil _ _) hzero (List.forall_mem_append.mpr
      ⟨fun c hc => isPlain_of_isDigit (isDigit_of_mem_zeros c hc), hplain⟩)
  | whole hnonneg hlength =>
    exact .point (List.append_ne_nil_of_left_ne_nil hne _)
      (List.forall_mem_append.mpr ⟨hdigits, isDigit_of_mem_zeros⟩)
      fun c hc => isPlain_of_isDigit (hzero c hc)
  | mixed hnonneg hlength =>
    refine .point ?_ (fun c hc => hdigits c (List.mem_of_mem_take hc))
      fun c hc => hplain c (List.mem_of_mem_drop hc)
    rw [Ne, List.take_eq_nil_iff, not_or]
    exact ⟨Nat.succ_ne_zero _, hne⟩

theorem isDecimal_write (x : Decimal) : IsDecimal (Layout.shortest.write x) := by
  unfold Layout.write
  split
  · exact (form_set (List.cons_ne_nil _ _) 0).isDecimal
      (List.forall_mem_singleton.mpr (by decide)) (List.cons_ne_nil _ _)
  · rename_i hne
    have hsignificant := significantDigits_ne_nil hne
    exact (form_set hsignificant _).isDecimal isDigit_of_mem_significantDigits hsignificant

/-! ### Signs -/

theorem splitSign_signText {cs : List Char} (h : ∀ c ∈ cs.head?, c.isDigit = true)
    (negative : Bool) : splitSign (Binary64.signText negative ++ cs) = (negative, cs) := by
  cases negative with
  | true => rfl
  | false =>
    rw [Binary64.signText, if_neg Bool.false_ne_true, List.nil_append]
    unfold splitSign
    split
    · exact absurd (h '-' rfl) (by decide)
    · exact absurd (h '+' rfl) (by decide)
    · rfl

theorem isPlain_signText : ∀ negative, ∀ c ∈ Binary64.signText negative, isPlain c = true
  | true => List.forall_mem_singleton.mpr (by decide)
  | false => List.forall_mem_nil _

theorem plain_signText {cs : List Char} (h : ∀ c ∈ cs, isPlain c = true) (negative : Bool) :
    ∀ c ∈ Binary64.signText negative ++ cs, isPlain c = true :=
  List.forall_mem_append.mpr ⟨isPlain_signText negative, h⟩

theorem integer?_of_splitSign {s : String} {text digits : List Char} {negative : Bool}
    (hplain : plain s = some text) (hsign : splitSign text = (negative, digits)) :
    integer? s =
      if digits.isEmpty || !digits.all Char.isDigit || maxDigits < digits.length then none
      else some (if negative then -(value digits : Int) else value digits) := by
  simp only [integer?, hplain, Option.bind_eq_bind, Option.bind_some, hsign]

section Signed

variable {cs : List Char} (h : IsDecimal cs) (negative : Bool)

include h

theorem double?_signed : double? (String.ofList (Binary64.signText negative ++ cs)) =
    (decimal? cs).map (Decimal.toBinary64 negative) :=
  double?_of_splitSign (plain_ofList (plain_signText h.plain negative))
    (splitSign_signText h.head negative) fun c hc => (isPlain_cases (h.plain c hc)).2.2.2.2

/-- A point or an `e` is not part of an integer. -/
theorem integer?_signed :
    integer? (String.ofList (Binary64.signText negative ++ cs)) = none := by
  obtain ⟨c, hc, hmark⟩ := h.mark
  have hall : cs.all Char.isDigit = false := List.all_eq_false.mpr ⟨c, hc, by simp [hmark]⟩
  rw [integer?_of_splitSign (plain_ofList (plain_signText h.plain negative))
    (splitSign_signText h.head negative), hall, Bool.not_false, Bool.or_true, Bool.true_or]
  rfl

end Signed

/-! ### Integers -/

theorem toString_int (i : Int) :
    toString i =
      String.ofList (Binary64.signText (decide (i < 0)) ++ Nat.toDigits 10 i.natAbs) := by
  rw [Int.toString_eq_repr, Int.repr_eq_if]
  split
  · rename_i hpos
    have hnot : ¬i < 0 := by omega
    have habs : i.toNat = i.natAbs := by omega
    rw [decide_eq_false hnot, habs, Nat.repr_eq_ofList_toDigits]
    rfl
  · rename_i hneg
    have hlt : i < 0 := by omega
    have habs : (-i).toNat = i.natAbs := by omega
    rw [decide_eq_true hlt, habs, Nat.repr_eq_ofList_toDigits, String.ofList_append]
    rfl

theorem plain_toDigits (i : Int) :
    ∀ c ∈ Binary64.signText (decide (i < 0)) ++ Nat.toDigits 10 i.natAbs, isPlain c = true :=
  plain_signText (fun c hc => isPlain_of_isDigit (isDigit_of_mem_toDigits c hc)) _

theorem integer?_toString {i : Int} (h : (Number.int i).isWritable = true) :
    integer? (toString i) = some i := by
  have hdigits : (Nat.toDigits 10 i.natAbs).all Char.isDigit = true :=
    List.all_eq_true.mpr isDigit_of_mem_toDigits
  have hnonempty : (Nat.toDigits 10 i.natAbs).isEmpty = false :=
    List.isEmpty_eq_false_iff.mpr Nat.toDigits_ne_nil
  have hshort := Nat.not_lt.mpr (Number.isWritable_int_iff.mp h)
  have hsign := splitSign_signText (fun c (hc : c ∈ (Nat.toDigits 10 i.natAbs).head?) =>
    isDigit_of_mem_toDigits c (List.mem_of_mem_head? hc)) (decide (i < 0))
  rw [toString_int, integer?_of_splitSign (plain_ofList (plain_toDigits i)) hsign, hnonempty,
    hdigits, decide_eq_false hshort, value_toDigits]
  refine congrArg some ?_
  by_cases hneg : i < 0
  · rw [if_pos (decide_eq_true hneg)]
    omega
  · rw [if_neg (by simpa using hneg)]
    omega

end Numeral

/-! ### Doubles -/

namespace Binary64

variable {x : Binary64}

/-- The text of a finite double is a sign and a decimal that is read as the double. -/
theorem exists_written (h : x.isFinite = true) :
    ∃ negative cs, x.written = String.ofList (signText negative ++ cs) ∧ Numeral.IsDecimal cs ∧
      (Numeral.decimal? cs).map (Decimal.toBinary64 negative) = some x := by
  cases x with
  | nan => cases h
  | infinite negative => cases h
  | finite negative units fits =>
    refine ⟨negative, _, rfl, Numeral.isDecimal_write _, ?_⟩
    by_cases hzero : units = 0
    · subst hzero
      have hread : Numeral.decimal? (Layout.shortest.write ⟨0, 0⟩) = some ⟨0, -1⟩ := by decide
      dsimp only
      rw [if_pos rfl, hread, Option.map_some, Decimal.toBinary64_of_digits_eq_zero rfl,
        round_of_representable negative fits]
    · have hpos := Nat.pos_of_ne_zero hzero
      obtain ⟨y, hread, hsame⟩ := Numeral.decimal?_write (Decimal.digits_shortest_ne_zero fits hpos)
      dsimp only
      rw [if_neg hzero, hread, Option.map_some, hsame, Decimal.toBinary64_shortest fits hpos]

theorem double?_written (h : x.isFinite = true) : Numeral.double? x.written = some x := by
  obtain ⟨negative, cs, hwritten, hdecimal, hread⟩ := exists_written h
  rw [hwritten, Numeral.double?_signed hdecimal, hread]

theorem integer?_written (h : x.isFinite = true) : Numeral.integer? x.written = none := by
  obtain ⟨negative, cs, hwritten, hdecimal, -⟩ := exists_written h
  rw [hwritten, Numeral.integer?_signed hdecimal]

theorem trim_written (h : x.isFinite = true) : Text.trim x.written = x.written := by
  obtain ⟨negative, cs, hwritten, hdecimal, -⟩ := exists_written h
  rw [hwritten, Numeral.trim_ofList (Numeral.plain_signText hdecimal.plain negative)]

end Binary64

end Shortlist
