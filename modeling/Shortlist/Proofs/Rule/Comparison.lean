import Mathlib.Data.String.Basic
import Shortlist.Proofs.Number.Line
import Shortlist.Proofs.Rule.Evaluation

/-!
# The order of values in rules

Numbers are compared as what they amount to and texts by code points, so for a rule both are in a
linear order; NaN alone has no place in it. The six operators that compare are read off the order in
the same way for both kinds. Values of different kinds have no order, and neither have truth values;
of these only equal truth values are equal.
-/

namespace Shortlist.Rule

variable {A : Assignment} {D : List String}

/-! ### Comparing as in a linear order -/

section Linear

variable {α : Type} [LinearOrder α]

/-- What a comparison says of two members of a linear order. -/
def Comparison.between : Comparison → α → α → Bool
  | .less, p, q => p < q
  | .atMost, p, q => p ≤ q
  | .greater, p, q => q < p
  | .atLeast, p, q => q ≤ p

/-- Two values are compared as two members of a linear order. -/
structure ComparedAs (a b : Value) (p q : α) : Prop where
  order (c : Comparison) : compareValues c a b = .ok (c.between p q)
  equal (one : Bool) : equalValues one a b = decide (p = q)

end Linear

theorem comparedAs_numbers {m n : Number} (hm : m ≠ .double .nan) (hn : n ≠ .double .nan) :
    ComparedAs (.number m) (.number n) m.extent n.extent where
  order c := by
    refine congrArg Except.ok (Bool.eq_iff_iff.mpr ?_)
    cases c with
    | less => simp [Comparison.ofNumbers, Comparison.between, Number.less_iff_extent hm hn]
    | atMost => simp [Comparison.ofNumbers, Comparison.between, Number.atMost_iff_extent hm hn]
    | greater => simp [Comparison.ofNumbers, Comparison.between, Number.less_iff_extent hn hm]
    | atLeast => simp [Comparison.ofNumbers, Comparison.between, Number.atMost_iff_extent hn hm]
  equal one := by
    rw [equalValues, Bool.eq_iff_iff, Number.equal_iff_extent hm hn, decide_eq_true_iff]

theorem comparedAs_texts (s t : String) : ComparedAs (.text s) (.text t) s t where
  order c := by
    have hmost : ∀ u v : String, (!decide (v < u)) = decide (u ≤ v) := fun u v => by
      rw [← decide_not, decide_eq_decide, not_lt]
    cases c with
    | less => rfl
    | atMost => exact congrArg Except.ok (hmost s t)
    | greater => rfl
    | atLeast => exact congrArg Except.ok (hmost t s)
  equal one := by
    rw [equalValues, Bool.eq_iff_iff, beq_iff_eq, decide_eq_true_iff]

/-! ### Comparisons in rules -/

/-- Comparing two expressions yields a truth value. -/
def Compares (A : Assignment) (D : List String) (op : BinaryOp) (x y : Expr) (t : Bool) : Prop :=
  (Expr.binary op x y).value A D = .ok (.boolean t)

/-- One of less, equal and greater is true of two expressions, and these three decide the other
comparisons. -/
def Trichotomy (A : Assignment) (D : List String) (x y : Expr) : Prop :=
  ∃ less equal greater : Bool,
    Compares A D (.order .less) x y less ∧ Compares A D .equal x y equal ∧
    Compares A D (.order .greater) x y greater ∧ [less, equal, greater].count true = 1 ∧
    Compares A D (.order .atMost) x y (less || equal) ∧
    Compares A D (.order .atLeast) x y (greater || equal) ∧ Compares A D .unequal x y (!equal)

/-- Less and equal are transitive for three expressions, each by itself and both together. -/
structure Chained (A : Assignment) (D : List String) (x y z : Expr) : Prop where
  less : Compares A D (.order .less) x y true → Compares A D (.order .less) y z true →
    Compares A D (.order .less) x z true
  less_equal : Compares A D (.order .less) x y true → Compares A D .equal y z true →
    Compares A D (.order .less) x z true
  equal_less : Compares A D .equal x y true → Compares A D (.order .less) y z true →
    Compares A D (.order .less) x z true
  equal : Compares A D .equal x y true → Compares A D .equal y z true →
    Compares A D .equal x z true

section Linear

variable {α : Type} [LinearOrder α] {x y z : Expr} {a b c : Value} {p q r : α}

theorem ComparedAs.compares_order (h : ComparedAs a b p q) (hx : x.value A D = .ok a)
    (hy : y.value A D = .ok b) {o : Comparison} {t : Bool} :
    Compares A D (.order o) x y t ↔ o.between p q = t := by
  rw [Compares, Expr.value_binary hx hy, BinaryOp.apply, h.order]
  simp [Except.map]

theorem ComparedAs.compares_equal (h : ComparedAs a b p q) (hx : x.value A D = .ok a)
    (hy : y.value A D = .ok b) {t : Bool} :
    Compares A D .equal x y t ↔ decide (p = q) = t := by
  rw [Compares, Expr.value_binary hx hy, BinaryOp.apply, h.equal]
  simp

theorem ComparedAs.trichotomy (h : ComparedAs a b p q) (hx : x.value A D = .ok a)
    (hy : y.value A D = .ok b) : Trichotomy A D x y := by
  have hunequal : Compares A D .unequal x y (!decide (p = q)) := by
    rw [Compares, Expr.value_binary hx hy, BinaryOp.apply, h.equal]
  refine ⟨decide (p < q), decide (p = q), decide (q < p), (h.compares_order hx hy).mpr rfl,
    (h.compares_equal hx hy).mpr rfl, (h.compares_order hx hy).mpr rfl, ?_,
    (h.compares_order hx hy).mpr ?_, (h.compares_order hx hy).mpr ?_, hunequal⟩
  · rcases lt_trichotomy p q with hlt | rfl | hgt
    · simp [hlt, hlt.ne, hlt.not_gt]
    · simp
    · simp [hgt, hgt.ne', hgt.not_gt]
  · simp [Comparison.between, le_iff_lt_or_eq]
  · simp [Comparison.between, le_iff_lt_or_eq, eq_comm]

theorem chained (hab : ComparedAs a b p q) (hbc : ComparedAs b c q r) (hac : ComparedAs a c p r)
    (hx : x.value A D = .ok a) (hy : y.value A D = .ok b) (hz : z.value A D = .ok c) :
    Chained A D x y z := by
  constructor <;>
    simp only [hab.compares_order hx hy, hbc.compares_order hy hz, hac.compares_order hx hz,
      hab.compares_equal hx hy, hbc.compares_equal hy hz, hac.compares_equal hx hz,
      Comparison.between, decide_eq_true_eq]
  · exact lt_trans
  · exact fun hlt heq => heq ▸ hlt
  · exact fun heq hlt => heq ▸ hlt
  · exact Eq.trans

end Linear

/-! ### Values of different kinds -/

def IsScalar : Value → Prop
  | .boolean _ => True
  | .number _ => True
  | .text _ => True
  | _ => False

theorem compareValues_of_not_comparable {a b : Value} (h : ¬Comparable a b) (c : Comparison) :
    compareValues c a b = fail (.notComparable a b c.spelling) := by
  unfold compareValues
  split
  · exact absurd trivial h
  · exact absurd trivial h
  · rfl

theorem equalValues_of_not_comparable {a b : Value} (ha : IsScalar a) (hb : IsScalar b)
    (h : ¬Comparable a b) (one : Bool) :
    equalValues one a b = true ↔ ∃ t, a = .boolean t ∧ b = .boolean t := by
  cases a with
  | boolean s =>
    cases b with
    | boolean t =>
      rw [equalValues, beq_iff_eq]
      constructor
      · rintro rfl
        exact ⟨s, rfl, rfl⟩
      · rintro ⟨_, ⟨⟩, ⟨⟩⟩
        rfl
    | _ => exact iff_of_false Bool.noConfusion (by rintro ⟨t, -, ⟨⟩⟩)
  | number m =>
    cases b with
    | number n => exact absurd trivial h
    | _ => exact iff_of_false Bool.noConfusion (by rintro ⟨t, ⟨⟩, -⟩)
  | text s =>
    cases b with
    | text t => exact absurd trivial h
    | _ => exact iff_of_false Bool.noConfusion (by rintro ⟨t, ⟨⟩, -⟩)
  | _ => exact ha.elim

/-! ### The order -/

inductive Ordered : Value → Value → Value → Prop
  | numbers {m n k : Number} (hm : m ≠ .double .nan) (hn : n ≠ .double .nan)
      (hk : k ≠ .double .nan) : Ordered (.number m) (.number n) (.number k)
  | texts (s t u : String) : Ordered (.text s) (.text t) (.text u)

/-- Comparisons form one order on numbers and one on texts. Just one of less, equal and greater is
true, these decide the other three comparisons, and less and equal are transitive, also when they
are mixed. Any other two truth values, numbers and texts have no order, and just the equal truth
values among them are equal. -/
theorem comparisons_form_one_order (A : Assignment) (D : List String) {x y z : Expr}
    {a b c : Value} (hx : x.value A D = .ok a) (hy : y.value A D = .ok b)
    (hz : z.value A D = .ok c) :
    (Ordered a b c → Trichotomy A D x y ∧ Chained A D x y z) ∧
    (IsScalar a → IsScalar b → ¬Comparable a b →
      (∀ o, (Expr.binary (.order o) x y).value A D = fail (.notComparable a b o.spelling)) ∧
      ∃ t, Compares A D .equal x y t ∧ (t = true ↔ ∃ s, a = .boolean s ∧ b = .boolean s)) := by
  constructor
  · rintro (⟨hm, hn, hk⟩ | ⟨s, t, u⟩)
    · have hab := comparedAs_numbers hm hn
      exact ⟨hab.trichotomy hx hy,
        chained hab (comparedAs_numbers hn hk) (comparedAs_numbers hm hk) hx hy hz⟩
    · have hab := comparedAs_texts s t
      exact ⟨hab.trichotomy hx hy,
        chained hab (comparedAs_texts t u) (comparedAs_texts s u) hx hy hz⟩
  · intro ha hb hapart
    refine ⟨fun o => ?_, equalValues (x = y) a b, ?_, equalValues_of_not_comparable ha hb hapart _⟩
    · rw [Expr.value_binary hx hy, BinaryOp.apply, compareValues_of_not_comparable hapart]
      rfl
    · rw [Compares, Expr.value_binary hx hy, BinaryOp.apply]

theorem compares_less_iff {m n : Number} {t : Bool} :
    Compares A D (.order .less) (.literal (.number m)) (.literal (.number n)) t ↔ m.less n = t := by
  rw [Compares, Expr.value_binary rfl rfl]
  simp [Literal.value, BinaryOp.apply, compareValues, Comparison.ofNumbers, Except.map]

/-- The least positive integer that is not the value of a double lies between two doubles. -/
theorem integer_between_doubles :
    Compares [] [] (.order .less) (.literal (.number (.double (.ofInt (2 ^ 53)))))
      (.literal (.number (.double (.ofInt (2 ^ 53 + 2))))) true := by
  have hlow : (Number.double (.ofInt (2 ^ 53))).less (.int (2 ^ 53 + 1)) = true := by
    decide +kernel
  have hhigh : (Number.int (2 ^ 53 + 1)).less (.double (.ofInt (2 ^ 53 + 2))) = true := by
    decide +kernel
  have hordered : Ordered (.number (.double (.ofInt (2 ^ 53)))) (.int (2 ^ 53 + 1))
      (.number (.double (.ofInt (2 ^ 53 + 2)))) :=
    .numbers (by decide +kernel) nofun (by decide +kernel)
  generalize Binary64.ofInt (2 ^ 53) = low at *
  generalize Binary64.ofInt (2 ^ 53 + 2) = high at *
  generalize (2 ^ 53 + 1 : Int) = i at *
  have hvalue : ∀ n, (Expr.literal (.number n)).value [] [] = .ok (.number n) := fun n => rfl
  obtain ⟨-, hchained⟩ := (comparisons_form_one_order [] [] (hvalue (.double low))
    (hvalue (.int i)) (hvalue (.double high))).1 hordered
  exact hchained.less (compares_less_iff.mpr hlow) (compares_less_iff.mpr hhigh)

end Shortlist.Rule
