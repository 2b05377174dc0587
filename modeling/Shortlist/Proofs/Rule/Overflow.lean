import Shortlist.Proofs.Entries
import Shortlist.Proofs.Rule.Composition
import Shortlist.Proofs.Rule.Dependence
import Shortlist.Proofs.Rule.Evaluation
import Shortlist.Proofs.Rule.Literal

/-!
# Finite numbers in rules

Arithmetic yields a finite number or fails, and a sign does not change whether a number is finite.
So from finite variables an evaluation comes to an infinity in one way only: a decimal literal
beyond the range of doubles is read as one and keeps it behind signs. It never comes to NaN. Numbers
that are finite are equal for a rule only if they amount to the same, but any two literals beyond
the range are.
-/

namespace Shortlist

theorem Number.isFinite_neg (n : Number) : n.neg.isFinite = n.isFinite := by
  cases n with
  | int i => rfl
  | double x => cases x <;> rfl

theorem Number.neg_neg (n : Number) : n.neg.neg = n := by
  cases n with
  | int i => exact congrArg Number.int (Int.neg_neg i)
  | double x => cases x <;> simp [neg, Binary64.neg]

namespace Rule

/-- No variable is infinite or NaN. -/
def Assignment.Finite (A : Assignment) : Prop :=
  ∀ ⦃name n⦄, A.value? name = some (.number n) → n.isFinite = true

namespace Expr

/-- A tree and all that are below it. -/
def parts : Expr → List Expr
  | literal l => [literal l]
  | name s => [name s]
  | unary op operand => unary op operand :: operand.parts
  | binary op left right => binary op left right :: (left.parts ++ right.parts)
  | connect op left right => connect op left right :: (left.parts ++ right.parts)

/-- Whether a tree is a number that is not finite, behind any number of signs. -/
def isOverlong : Expr → Bool
  | literal (.number n) => !n.isFinite
  | unary .minus operand => operand.isOverlong
  | unary .plus operand => operand.isOverlong
  | _ => false

variable {e part : Expr}

theorem subset_joined {side front back : List Token} {t : Token}
    (h : side ⊆ front ∨ side ⊆ back) : side ⊆ front ++ t :: back := by
  rcases h with hfront | hback
  · exact List.Subset.trans hfront (List.subset_append_left _ _)
  · exact List.Subset.trans (List.Subset.trans hback (List.subset_cons_self _ _))
      (List.subset_append_right _ _)

theorem yield_subset_of_mem_parts (h : part ∈ e.parts) : part.yield ⊆ e.yield := by
  induction e with
  | literal l =>
    obtain rfl := List.mem_singleton.mp h
    exact List.Subset.refl _
  | name s =>
    obtain rfl := List.mem_singleton.mp h
    exact List.Subset.refl _
  | unary op operand ih =>
    rcases List.mem_cons.mp h with rfl | h
    · exact List.Subset.refl _
    · exact List.Subset.trans (ih h) (List.subset_cons_self _ _)
  | binary op left right ihl ihr =>
    rcases List.mem_cons.mp h with rfl | h
    · exact List.Subset.refl _
    · exact subset_joined ((List.mem_append.mp h).imp ihl ihr)
  | connect op left right ihl ihr =>
    rcases List.mem_cons.mp h with rfl | h
    · exact List.Subset.refl _
    · exact subset_joined ((List.mem_append.mp h).imp ihl ihr)

end Expr

/-! ### What arithmetic yields -/

variable {A : Assignment} {D : List String} {n : Number}

/-- An operation on two numbers is a finite number or fails. -/
theorem calculateNumbers_cases (a : Arithmetic) (m n : Number) :
    (∃ k, calculateNumbers a m n = .ok (.number k) ∧ k.isFinite = true) ∨
      ∃ failure, calculateNumbers a m n = .error (.failed failure) := by
  unfold calculateNumbers
  split
  · exact .inr ⟨_, rfl⟩
  · split
    · exact .inr ⟨_, rfl⟩
    · split
      · rename_i k _ hfinite
        exact .inl ⟨k, rfl, hfinite⟩
      · exact .inr ⟨_, rfl⟩

theorem isFinite_of_calculate {a : Arithmetic} {l r : Value}
    (h : calculate a l r = .ok (.number n)) : n.isFinite = true := by
  unfold calculate at h
  split at h
  · cases h
  · obtain ⟨m, -, hmore⟩ := Except.bind_eq_ok.mp h
    obtain ⟨k, -, hresult⟩ := Except.bind_eq_ok.mp hmore
    rcases calculateNumbers_cases _ m k with ⟨found, hfound, hfinite⟩ | ⟨failure, hfailed⟩
    · rw [hfound] at hresult
      cases hresult
      exact hfinite
    · rw [hfailed] at hresult
      cases hresult

theorem isFinite_of_binary {op : BinaryOp} {one : Bool} {l r : Value}
    (h : op.apply one l r = .ok (.number n)) : n.isFinite = true := by
  cases op with
  | equal => cases h
  | unequal => cases h
  | order c =>
    obtain ⟨b, -, ⟨⟩⟩ := Except.map_eq_ok.mp h
  | arithmetic a => exact isFinite_of_calculate h

theorem exists_number_of_unary {op : UnaryOp} {v : Value} (h : op.apply v = .ok (.number n)) :
    ∃ m, v = .number m ∧ (op = .minus ∧ n = m.neg ∨ op = .plus ∧ n = m) := by
  cases op with
  | negation =>
    obtain ⟨b, -, ⟨⟩⟩ := Except.map_eq_ok.mp h
  | minus =>
    obtain ⟨m, hm, hneg⟩ := Except.map_eq_ok.mp h
    exact ⟨m, requireNumber_eq_ok_iff.mp hm, .inl ⟨rfl, (Value.number.inj hneg).symm⟩⟩
  | plus =>
    obtain ⟨m, hm, hsame⟩ := Except.map_eq_ok.mp h
    exact ⟨m, requireNumber_eq_ok_iff.mp hm, .inr ⟨rfl, (Value.number.inj hsame).symm⟩⟩

/-! ### What trees yield -/

/-- The value of a tree is finite unless the tree is a number beyond the range behind signs. -/
theorem Expr.isFinite_value (hA : A.Finite) {e : Expr} (h : e.value A D = .ok (.number n)) :
    n.isFinite = !e.isOverlong := by
  induction e generalizing n with
  | literal l =>
    cases l with
    | number m =>
      cases h
      exact (Bool.not_not _).symm
    | text s => cases h
    | boolean b => cases h
  | name s =>
    rw [value] at h
    split at h
    · split at h
      · rename_i found hfound
        cases h
        exact hA hfound
      · exact absurd h fail_ne_ok
    · exact absurd h fail_ne_ok
  | unary op operand ih =>
    obtain ⟨v, hoperand, happly⟩ := Except.bind_eq_ok.mp h
    obtain ⟨m, rfl, ⟨rfl, rfl⟩ | ⟨rfl, rfl⟩⟩ := exists_number_of_unary happly
    · rw [Number.isFinite_neg]
      exact ih hoperand
    · exact ih hoperand
  | binary op left right _ _ =>
    obtain ⟨l, -, hmore⟩ := Except.bind_eq_ok.mp h
    obtain ⟨r, -, happly⟩ := Except.bind_eq_ok.mp hmore
    exact isFinite_of_binary happly
  | connect op left right _ _ =>
    obtain ⟨b, ⟨⟩⟩ := exists_boolean_of_connect h

/-- A tree that is beyond the range has the value of a literal in it, up to the sign. -/
theorem Expr.exists_literal_of_isOverlong {e : Expr} (he : e.isOverlong = true) :
    ∃ m : Number, Token.number m ∈ e.yield ∧ m.isFinite = false ∧
      ∀ n, e.value A D = .ok (.number n) → n = m ∨ n = m.neg := by
  induction e with
  | literal l =>
    cases l with
    | number m =>
      refine ⟨m, List.mem_singleton.mpr rfl, by simpa [isOverlong] using he, fun n h => .inl ?_⟩
      cases h
      rfl
    | text s => cases he
    | boolean b => cases he
  | unary op operand ih =>
    have hoperand : operand.isOverlong = true := by
      cases op with
      | negation => cases he
      | minus => exact he
      | plus => exact he
    obtain ⟨m, hmem, hinfinite, hvalue⟩ := ih hoperand
    refine ⟨m, List.mem_cons_of_mem _ hmem, hinfinite, fun n h => ?_⟩
    obtain ⟨v, hv, happly⟩ := Except.bind_eq_ok.mp h
    obtain ⟨k, rfl, ⟨-, rfl⟩ | ⟨-, rfl⟩⟩ := exists_number_of_unary happly
    · rcases hvalue k hv with rfl | rfl
      · exact .inr rfl
      · exact .inl (Number.neg_neg m)
    · exact hvalue _ hv
  | name s => cases he
  | binary op left right _ _ => cases he
  | connect op left right _ _ => cases he

theorem mem_of_mem_kept {ts : List Token} (h : Token.number n ∈ kept ts) : Token.number n ∈ ts := by
  obtain ⟨token, htoken, hkept⟩ := List.mem_filterMap.mp h
  cases token <;> simp [Token.kept?] at hkept
  exact hkept ▸ htoken

section Parts

variable {text : String} {tree part : Expr} (hparse : parse text = .ok tree)
  (hpart : part ∈ tree.parts)

include hparse hpart

theorem exists_literal_of_infinite (hmem : Token.number n ∈ part.yield)
    (hinfinite : n.isFinite = false) : ∃ d : DecimalLiteral,
      d.chars <:+: text.toList ∧ d.IsOverlong ∧ n = .double (.infinite false) := by
  cases n with
  | int i => cases hinfinite
  | double x =>
    obtain ⟨ts, hts, hyield⟩ := yield_of_parse hparse
    have htoken := Expr.yield_subset_of_mem_parts hpart hmem
    rw [← hyield] at htoken
    obtain ⟨d, hinfix, rfl⟩ := exists_decimalLiteral hts (mem_of_mem_kept htoken)
    have hd : d.IsOverlong := by
      by_contra hshort
      exact absurd (DecimalLiteral.isFinite_double_iff.mpr hshort) (Bool.eq_false_iff.mp hinfinite)
    exact ⟨d, hinfix, hd, by rw [DecimalLiteral.double_eq_infinite hd]⟩

theorem exists_overlong_literal (hoverlong : part.isOverlong = true) :
    ∃ d : DecimalLiteral, d.chars <:+: text.toList ∧ d.IsOverlong := by
  obtain ⟨m, hmem, hinfinite, -⟩ :=
    Expr.exists_literal_of_isOverlong (A := []) (D := []) hoverlong
  obtain ⟨d, hinfix, hd, -⟩ := exists_literal_of_infinite hparse hpart hmem hinfinite
  exact ⟨d, hinfix, hd⟩

theorem eq_infinite_of_isOverlong (hoverlong : part.isOverlong = true)
    (h : part.value A D = .ok (.number n)) : ∃ s, n = .double (.infinite s) := by
  obtain ⟨m, hmem, hinfinite, hvalue⟩ := Expr.exists_literal_of_isOverlong hoverlong
  obtain ⟨-, -, -, rfl⟩ := exists_literal_of_infinite hparse hpart hmem hinfinite
  rcases hvalue n h with rfl | rfl
  · exact ⟨false, rfl⟩
  · exact ⟨true, rfl⟩

theorem ne_nan_of_part (hA : A.Finite) (h : part.value A D = .ok (.number n)) :
    n ≠ .double .nan := by
  have hfinite := Expr.isFinite_value hA h
  cases hoverlong : part.isOverlong with
  | false =>
    rw [hoverlong] at hfinite
    exact Number.ne_nan_of_isFinite hfinite
  | true =>
    obtain ⟨s, rfl⟩ := eq_infinite_of_isOverlong hparse hpart hoverlong h
    nofun

end Parts

section Operands

variable {left right : Expr} {m : Number} (hm : left.value A D = .ok (.number m))
  (hn : right.value A D = .ok (.number n))

include hm hn

theorem value_equal_iff (hA : A.Finite) (hleft : left.isOverlong = false)
    (hright : right.isOverlong = false) :
    (Expr.binary .equal left right).value A D = .ok (.boolean true) ↔ m.amount = n.amount := by
  have hmfinite := Expr.isFinite_value hA hm
  have hnfinite := Expr.isFinite_value hA hn
  rw [hleft] at hmfinite
  rw [hright] at hnfinite
  rw [Expr.value_binary hm hn, ← Number.equal_iff_amount hmfinite hnfinite]
  simp [BinaryOp.apply, equalValues]

theorem value_arithmetic_cases (a : Arithmetic) :
    (∃ k, (Expr.binary (.arithmetic a) left right).value A D = .ok (.number k) ∧
      k.isFinite = true) ∨
    ∃ failure, (Expr.binary (.arithmetic a) left right).value A D = .error (.failed failure) := by
  rw [Expr.value_binary hm hn, BinaryOp.apply, calculate_numbers]
  exact calculateNumbers_cases a m n

end Operands

/-- Numbers in rules. From finite variables every number that a part of a rule evaluates to is
finite, unless the part is a decimal literal beyond the range of doubles behind signs, and none is
NaN. Such a literal stands in the text. Without it two numbers are equal only if they amount to the
same. Arithmetic is finite or fails in any case. -/
theorem numbers_in_rules_are_finite {text : String} {tree : Expr} (A : Assignment)
    (D : List String) (hparse : parse text = .ok tree) (hA : A.Finite) :
    (∀ part ∈ tree.parts, ∀ n, part.value A D = .ok (.number n) →
      n.isFinite = !part.isOverlong ∧ n ≠ .double .nan) ∧
    (∀ part ∈ tree.parts, part.isOverlong = true →
      ∃ d : DecimalLiteral, d.chars <:+: text.toList ∧ d.IsOverlong) ∧
    (∀ left right : Expr, ∀ m n : Number,
      left.value A D = .ok (.number m) → right.value A D = .ok (.number n) →
      left.isOverlong = false → right.isOverlong = false →
      ((Expr.binary .equal left right).value A D = .ok (.boolean true) ↔ m.amount = n.amount)) ∧
    ∀ left right : Expr, ∀ m n : Number,
      left.value A D = .ok (.number m) → right.value A D = .ok (.number n) → ∀ a : Arithmetic,
      (∃ k, (Expr.binary (.arithmetic a) left right).value A D = .ok (.number k) ∧
        k.isFinite = true) ∨
      ∃ failure, (Expr.binary (.arithmetic a) left right).value A D = .error (.failed failure) := by
  refine ⟨fun part hpart n hn => ⟨Expr.isFinite_value hA hn, ne_nan_of_part hparse hpart hA hn⟩,
    fun part hpart hoverlong => exists_overlong_literal hparse hpart hoverlong, ?_, ?_⟩
  · exact fun left right m n hm hn hleft hright => value_equal_iff hm hn hA hleft hright
  · exact fun left right m n hm hn a => value_arithmetic_cases hm hn a

/-- Both sides of an equation are finite, so it is decided by what they amount to. -/
theorem doubled_variable_is_compared :
    ∃ tree, parse "n * 2 == 14" = .ok tree ∧
      tree.value [("n", .int 7)] ["n"] = .ok (.boolean true) := by
  let left : Expr := .binary (.arithmetic .times) (.name "n") (.literal (.number (.int 2)))
  let right : Expr := .literal (.number (.int 14))
  have hparse : parse "n * 2 == 14" = .ok (.binary .equal left right) := rfl
  have hA : Assignment.Finite [("n", .int 7)] := by
    intro name n hn
    obtain ⟨hget, -⟩ := Assignment.value?_eq_some_iff.mp hn
    cases List.mem_singleton.mp (Entries.mem_of_get?_eq_some hget)
    rfl
  obtain ⟨-, -, hequal, -⟩ := numbers_in_rules_are_finite _ ["n"] hparse hA
  exact ⟨_, hparse, (hequal left right (.int 14) (.int 14) rfl rfl rfl rfl).mpr rfl⟩

/-! ### Literals beyond the range -/

def DecimalLiteral.equation (d e : DecimalLiteral) : String :=
  String.ofList (d.chars ++ " == ".toList ++ e.chars)

theorem DecimalLiteral.parse_equation (d e : DecimalLiteral) : parse (d.equation e) =
    .ok (.binary .equal (.literal (.number (.double d.double)))
      (.literal (.number (.double e.double)))) := by
  have hspells : Spells (d.equation e) [.number (.double d.double), .operator .equal,
      .number (.double e.double)] :=
    spells_equation d.lexeme_chars e.lexeme_chars
  exact parse_of_spells_equation (x := .literal (.number (.double d.double)))
    (y := .literal (.number (.double e.double))) rfl rfl hspells

theorem DecimalLiteral.value_equation {d e : DecimalLiteral} (hd : d.IsOverlong)
    (he : e.IsOverlong) (A : Assignment) (D : List String) :
    (Expr.binary .equal (.literal (.number (.double d.double)))
      (.literal (.number (.double e.double)))).value A D = .ok (.boolean true) := by
  rw [double_eq_infinite hd, double_eq_infinite he]
  rfl

/-- A digit with 309 zeros behind it, and a decimal of zero. -/
def farDecimal (first : Char) (h : (Text.decimalDigit? first).isSome = true) : DecimalLiteral where
  whole := first :: List.replicate 309 '0'
  fraction := ['0']
  digits := by
    intro c hc
    rcases List.mem_append.mp hc with hwhole | hfraction
    · rcases List.mem_cons.mp hwhole with rfl | hzero
      · exact h
      · rw [List.eq_of_mem_replicate hzero]
        decide
    · rw [List.mem_singleton.mp hfraction]
      decide
  nonempty := List.cons_ne_nil _ _

/-- The two numbers are different, both are read as infinity, and they are equal for a rule. -/
theorem far_decimals_are_equal :
    ∃ tree, parse ((farDecimal '1' rfl).equation (farDecimal '2' rfl)) = .ok tree ∧
      (farDecimal '1' rfl).units ≠ (farDecimal '2' rfl).units ∧
      (∃ part ∈ tree.parts, part.value [] [] = .ok (.number (.double (.infinite false)))) ∧
      tree.value [] [] = .ok (.boolean true) := by
  have hone : (farDecimal '1' rfl).IsOverlong := by decide +kernel
  have htwo : (farDecimal '2' rfl).IsOverlong := by decide +kernel
  refine ⟨_, DecimalLiteral.parse_equation _ _, by decide +kernel,
    ⟨.literal (.number (.double (farDecimal '1' rfl).double)), by simp [Expr.parts], ?_⟩,
    DecimalLiteral.value_equation hone htwo [] []⟩
  rw [DecimalLiteral.double_eq_infinite hone]
  rfl

end Rule

end Shortlist
