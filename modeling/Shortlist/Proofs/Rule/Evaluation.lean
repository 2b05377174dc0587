import Mathlib.Tactic.Common
import Shortlist.Proofs.Fallible
import Shortlist.Rule.Evaluation

/-!
# When an evaluation is a fault

A failing evaluation is put into words at once, and an integer of too many digits cannot be written.
Only two kinds of operators name a value that may be such an integer: those that take booleans, and
an order between values that have none. Arithmetic names what is no number, which is short. So an
evaluation is a fault if it comes to a part of the expression where such an operator fails; all that
is evaluated before has a value.
-/

namespace Shortlist

def Value.IsLong (v : Value) : Prop := ∃ i, v = .int i ∧ 4300 < (Nat.toDigits 10 i.natAbs).length

theorem Number.isWritable_int_iff {i : Int} :
    (Number.int i).isWritable = true ↔ (Nat.toDigits 10 i.natAbs).length ≤ Numeral.maxDigits := by
  have hpow : ∀ k, Nat.pow 10 k = 10 ^ k := fun _ => rfl
  rw [Nat.length_toDigits_le_iff (by decide) (by decide), isWritable, decide_eq_true_iff, hpow]

theorem Value.isWritable_eq_false_iff {v : Value} (h : v.isKey = true) :
    v.isWritable = false ↔ v.IsLong := by
  cases v with
  | null => exact iff_of_false (by simp [isWritable]) (by rintro ⟨i, ⟨⟩, -⟩)
  | boolean b => exact iff_of_false (by simp [isWritable]) (by rintro ⟨i, ⟨⟩, -⟩)
  | text s => exact iff_of_false (by simp [isWritable]) (by rintro ⟨i, ⟨⟩, -⟩)
  | list items => cases h
  | object entries => cases h
  | number n =>
    cases n with
    | int i =>
      rw [isWritable, ← Bool.not_eq_true, Number.isWritable_int_iff, Nat.not_le]
      constructor
      · exact fun hlong => ⟨i, rfl, hlong⟩
      · rintro ⟨j, hj, hlong⟩
        cases hj
        exact hlong
    | double x =>
      exact iff_of_false (by simp [isWritable, Number.isWritable]) (by rintro ⟨i, ⟨⟩, -⟩)

namespace Rule

/-! ### Parts of an evaluation that are faults -/

def Faults {α : Type} (x : Evaluated α) : Prop := ∃ f, x = .error (.fault f)

variable {α β : Type}

theorem not_faults_ok (a : α) : ¬Faults (.ok a : Evaluated α) := by
  rintro ⟨f, ⟨⟩⟩

theorem faults_bind {x : Evaluated α} {g : α → Evaluated β} :
    Faults (x >>= g) ↔ Faults x ∨ ∃ a, x = .ok a ∧ Faults (g a) := by
  simp only [Faults, Except.bind_eq_error]
  constructor
  · rintro ⟨f, h | ⟨a, ha, h⟩⟩
    · exact .inl ⟨f, h⟩
    · exact .inr ⟨a, ha, f, h⟩
  · rintro (⟨f, h⟩ | ⟨a, ha, f, h⟩)
    · exact ⟨f, .inl h⟩
    · exact ⟨f, .inr ⟨a, ha, h⟩⟩

theorem faults_map {x : Evaluated α} {g : α → β} : Faults (x.map g) ↔ Faults x := by
  cases x <;> simp [Faults, Except.map]

theorem faults_fail {failure : Failure} :
    Faults (fail failure : Evaluated α) ↔ failure.isWritable = false := by
  cases h : failure.isWritable <;> simp [Faults, fail, h]

theorem not_faults_fail {failure : Failure} (h : failure.isWritable = true) :
    ¬Faults (fail failure : Evaluated α) := by
  rw [faults_fail, h]
  exact Bool.noConfusion

theorem faults_requireBoolean {operator : String} {v : Value} (h : v.isKey = true) :
    Faults (requireBoolean operator v) ↔ v.IsLong := by
  rw [← Value.isWritable_eq_false_iff h]
  cases v with
  | boolean b => exact iff_of_false (not_faults_ok b) (by simp [Value.isWritable])
  | null => exact faults_fail
  | number n => exact faults_fail
  | text s => exact faults_fail
  | list items => exact faults_fail
  | object entries => exact faults_fail

theorem not_faults_requireNumber {operator : String} {v : Value} (h : v.isKey = true) :
    ¬Faults (requireNumber operator v) := by
  cases v with
  | number n => exact not_faults_ok n
  | null => exact not_faults_fail rfl
  | boolean b => exact not_faults_fail rfl
  | text s => exact not_faults_fail rfl
  | list items => cases h
  | object entries => cases h

theorem not_faults_calculateNumbers {a : Arithmetic} {m n : Number} :
    ¬Faults (calculateNumbers a m n) := by
  unfold calculateNumbers
  split
  · exact not_faults_fail rfl
  · split
    · exact not_faults_fail rfl
    · split
      · exact not_faults_ok _
      · exact not_faults_fail rfl

theorem not_faults_calculate {a : Arithmetic} {l r : Value} (hl : l.isKey = true)
    (hr : r.isKey = true) : ¬Faults (calculate a l r) := by
  unfold calculate
  split
  · exact not_faults_ok _
  · rw [faults_bind]
    rintro (hleft | ⟨m, -, hmore⟩)
    · exact not_faults_requireNumber hl hleft
    · rcases faults_bind.mp hmore with hright | ⟨n, -, hresult⟩
      · exact not_faults_requireNumber hr hright
      · exact not_faults_calculateNumbers hresult

def Comparable : Value → Value → Prop
  | .number _, .number _ => True
  | .text _, .text _ => True
  | _, _ => False

theorem faults_compareValues {c : Comparison} {l r : Value} (hl : l.isKey = true)
    (hr : r.isKey = true) :
    Faults (compareValues c l r) ↔ ¬Comparable l r ∧ (l.IsLong ∨ r.IsLong) := by
  unfold compareValues
  split
  · exact iff_of_false (not_faults_ok _) fun h => h.1 trivial
  · exact iff_of_false (not_faults_ok _) fun h => h.1 trivial
  · rename_i hnumbers htexts
    have hapart : ¬Comparable l r := by
      unfold Comparable
      split
      · exact (hnumbers _ _ rfl rfl).elim
      · exact (htexts _ _ rfl rfl).elim
      · exact id
    rw [faults_fail, and_iff_right hapart, Failure.isWritable, Bool.and_eq_false_iff,
      Value.isWritable_eq_false_iff hl, Value.isWritable_eq_false_iff hr]

theorem faults_unary {op : UnaryOp} {v : Value} (h : v.isKey = true) :
    Faults (op.apply v) ↔ op = .negation ∧ v.IsLong := by
  cases op with
  | negation => rw [UnaryOp.apply, faults_map, faults_requireBoolean h, and_iff_right rfl]
  | minus =>
    rw [UnaryOp.apply, faults_map]
    exact iff_of_false (not_faults_requireNumber h) (by rintro ⟨⟨⟩, -⟩)
  | plus =>
    rw [UnaryOp.apply, faults_map]
    exact iff_of_false (not_faults_requireNumber h) (by rintro ⟨⟨⟩, -⟩)

theorem faults_binary {op : BinaryOp} {one : Bool} {l r : Value} (hl : l.isKey = true)
    (hr : r.isKey = true) : Faults (op.apply one l r) ↔
      (∃ c, op = .order c) ∧ ¬Comparable l r ∧ (l.IsLong ∨ r.IsLong) := by
  cases op with
  | equal => exact iff_of_false (not_faults_ok _) (by rintro ⟨⟨c, ⟨⟩⟩, -⟩)
  | unequal => exact iff_of_false (not_faults_ok _) (by rintro ⟨⟨c, ⟨⟩⟩, -⟩)
  | order c =>
    rw [BinaryOp.apply, faults_map, faults_compareValues hl hr]
    exact (and_iff_right ⟨c, rfl⟩).symm
  | arithmetic a =>
    exact iff_of_false (not_faults_calculate hl hr) (by rintro ⟨⟨c, ⟨⟩⟩, -⟩)

/-! ### Evaluations -/

variable {A : Assignment} {D : List String}

/-- The variables hold no lists and no objects. -/
def Assignment.Plain (A : Assignment) : Prop := ∀ ⦃name v⦄, A.value? name = some v → v.isKey = true

theorem Expr.value_binary {left right : Expr} {l r : Value} (hleft : left.value A D = .ok l)
    (hright : right.value A D = .ok r) (op : BinaryOp) :
    (Expr.binary op left right).value A D = op.apply (left = right) l r := by
  rw [Expr.value, hleft, hright]
  rfl

theorem fail_ne_ok {failure : Failure} {a : α} : (fail failure : Evaluated α) ≠ .ok a := nofun

theorem isKey_of_unary {op : UnaryOp} {operand v : Value} (h : op.apply operand = .ok v) :
    v.isKey = true := by
  cases op with
  | negation =>
    obtain ⟨b, -, rfl⟩ := Except.map_eq_ok.mp h
    rfl
  | minus =>
    obtain ⟨n, -, rfl⟩ := Except.map_eq_ok.mp h
    rfl
  | plus =>
    obtain ⟨n, -, rfl⟩ := Except.map_eq_ok.mp h
    rfl

theorem isKey_of_calculateNumbers {a : Arithmetic} {m n : Number} {v : Value}
    (h : calculateNumbers a m n = .ok v) : v.isKey = true := by
  unfold calculateNumbers at h
  split at h
  · exact absurd h fail_ne_ok
  · split at h
    · exact absurd h fail_ne_ok
    · split at h
      · cases h
        rfl
      · exact absurd h fail_ne_ok

theorem isKey_of_calculate {a : Arithmetic} {l r v : Value} (h : calculate a l r = .ok v) :
    v.isKey = true := by
  unfold calculate at h
  split at h
  · cases h
    rfl
  · obtain ⟨m, -, hmore⟩ := Except.bind_eq_ok.mp h
    obtain ⟨n, -, hresult⟩ := Except.bind_eq_ok.mp hmore
    exact isKey_of_calculateNumbers hresult

theorem isKey_of_binary {op : BinaryOp} {one : Bool} {l r v : Value}
    (h : op.apply one l r = .ok v) : v.isKey = true := by
  cases op with
  | equal =>
    cases h
    rfl
  | unequal =>
    cases h
    rfl
  | order c =>
    obtain ⟨b, -, rfl⟩ := Except.map_eq_ok.mp h
    rfl
  | arithmetic a => exact isKey_of_calculate h

theorem exists_boolean_of_connect {op : Connective} {left right : Expr} {v : Value}
    (h : (Expr.connect op left right).value A D = .ok v) : ∃ b, v = .boolean b := by
  obtain ⟨l, -, hmore⟩ := Except.bind_eq_ok.mp h
  obtain ⟨b, -, hrest⟩ := Except.bind_eq_ok.mp hmore
  split at hrest
  · exact ⟨b, (Except.ok.inj hrest).symm⟩
  · obtain ⟨r, -, hlast⟩ := Except.bind_eq_ok.mp hrest
    obtain ⟨b', -, hv⟩ := Except.bind_eq_ok.mp hlast
    exact ⟨b', (Except.ok.inj hv).symm⟩

theorem Expr.isKey_value (hA : A.Plain) {e : Expr} {v : Value} (h : e.value A D = .ok v) :
    v.isKey = true := by
  cases e with
  | literal l =>
    cases h
    cases l <;> rfl
  | name s =>
    rw [Expr.value] at h
    split at h
    · split at h
      · rename_i found hfound
        cases h
        exact hA hfound
      · exact absurd h fail_ne_ok
    · exact absurd h fail_ne_ok
  | unary op operand =>
    obtain ⟨operand, -, happly⟩ := Except.bind_eq_ok.mp h
    exact isKey_of_unary happly
  | binary op left right =>
    obtain ⟨l, -, hmore⟩ := Except.bind_eq_ok.mp h
    obtain ⟨r, -, happly⟩ := Except.bind_eq_ok.mp hmore
    exact isKey_of_binary happly
  | connect op left right =>
    obtain ⟨b, rfl⟩ := exists_boolean_of_connect h
    rfl

/-- Evaluating an expression comes to evaluating a part of it. -/
inductive Expr.Meets (A : Assignment) (D : List String) : Expr → Expr → Prop
  | self (e : Expr) : Meets A D e e
  | operand {op : UnaryOp} {operand part : Expr} (h : Meets A D operand part) :
      Meets A D (.unary op operand) part
  | left {op : BinaryOp} {left right part : Expr} (h : Meets A D left part) :
      Meets A D (.binary op left right) part
  | right {op : BinaryOp} {left right part : Expr} {l : Value} (hleft : left.value A D = .ok l)
      (h : Meets A D right part) : Meets A D (.binary op left right) part
  | first {op : Connective} {left right part : Expr} (h : Meets A D left part) :
      Meets A D (.connect op left right) part
  | second {op : Connective} {left right part : Expr} {b : Bool}
      (hleft : left.value A D = .ok (.boolean b)) (hopen : op.decides b = false)
      (h : Meets A D right part) : Meets A D (.connect op left right) part

/-- An operator fails on a long integer: one that takes booleans, or an order that the two values
do not have. -/
def Expr.FailsOnLong (A : Assignment) (D : List String) : Expr → Prop
  | .unary .negation operand => ∃ v, operand.value A D = .ok v ∧ v.IsLong
  | .binary (.order _) left right => ∃ l r, left.value A D = .ok l ∧ right.value A D = .ok r ∧
      ¬Comparable l r ∧ (l.IsLong ∨ r.IsLong)
  | .connect op left right => (∃ l, left.value A D = .ok l ∧ l.IsLong) ∨
      ∃ b r, left.value A D = .ok (.boolean b) ∧ op.decides b = false ∧
        right.value A D = .ok r ∧ r.IsLong
  | _ => False

theorem not_faults_name {s : String} : ¬Faults ((Expr.name s).value A D) := by
  rw [Expr.value]
  split
  · split
    · exact not_faults_ok _
    · exact not_faults_fail rfl
  · exact not_faults_fail rfl

theorem requireBoolean_eq_ok_iff {operator : String} {v : Value} {b : Bool} :
    requireBoolean operator v = .ok b ↔ v = .boolean b := by
  cases v with
  | boolean c => simp [requireBoolean]
  | null => exact iff_of_false fail_ne_ok nofun
  | number n => exact iff_of_false fail_ne_ok nofun
  | text s => exact iff_of_false fail_ne_ok nofun
  | list items => exact iff_of_false fail_ne_ok nofun
  | object entries => exact iff_of_false fail_ne_ok nofun

theorem requireNumber_eq_ok_iff {operator : String} {v : Value} {n : Number} :
    requireNumber operator v = .ok n ↔ v = .number n := by
  cases v with
  | number m => simp [requireNumber]
  | null => exact iff_of_false fail_ne_ok nofun
  | boolean b => exact iff_of_false fail_ne_ok nofun
  | text s => exact iff_of_false fail_ne_ok nofun
  | list items => exact iff_of_false fail_ne_ok nofun
  | object entries => exact iff_of_false fail_ne_ok nofun

theorem calculate_numbers (a : Arithmetic) (m n : Number) :
    calculate a (.number m) (.number n) = calculateNumbers a m n := by
  cases a <;> rfl

theorem faults_last (hA : A.Plain) {operator : String} {e : Expr} :
    Faults (do return Value.boolean (← requireBoolean operator (← e.value A D))) ↔
      Faults (e.value A D) ∨ ∃ v, e.value A D = .ok v ∧ v.IsLong := by
  rw [faults_bind]
  refine or_congr_right (exists_congr fun v => and_congr_right fun hv => ?_)
  rw [faults_bind, faults_requireBoolean (Expr.isKey_value hA hv)]
  refine or_iff_left ?_
  rintro ⟨b, -, hfault⟩
  exact not_faults_ok _ hfault

theorem faults_connect (hA : A.Plain) {op : Connective} {left right : Expr} :
    Faults ((Expr.connect op left right).value A D) ↔
      Faults (left.value A D) ∨ (∃ l, left.value A D = .ok l ∧ l.IsLong) ∨
        ∃ b, left.value A D = .ok (.boolean b) ∧ op.decides b = false ∧
          (Faults (right.value A D) ∨ ∃ r, right.value A D = .ok r ∧ r.IsLong) := by
  rw [Expr.value, faults_bind]
  constructor
  · rintro (hleft | ⟨l, hl, hmore⟩)
    · exact .inl hleft
    · rcases faults_bind.mp hmore with hboolean | ⟨b, hb, hrest⟩
      · exact .inr (.inl ⟨l, hl, (faults_requireBoolean (Expr.isKey_value hA hl)).mp hboolean⟩)
      · obtain rfl := requireBoolean_eq_ok_iff.mp hb
        split at hrest
        · exact absurd hrest (not_faults_ok _)
        · rename_i hopen
          exact .inr (.inr ⟨b, hl, by simpa using hopen, (faults_last hA).mp hrest⟩)
  · rintro (hleft | ⟨l, hl, hlong⟩ | ⟨b, hl, hopen, hlast⟩)
    · exact .inl hleft
    · exact .inr ⟨l, hl, faults_bind.mpr
        (.inl ((faults_requireBoolean (Expr.isKey_value hA hl)).mpr hlong))⟩
    · refine .inr ⟨_, hl, faults_bind.mpr (.inr ⟨b, rfl, ?_⟩)⟩
      rw [if_neg (by simp [hopen])]
      exact (faults_last hA).mpr hlast

/-- Evaluating an expression is a fault if it comes to an operator that fails on a long integer. -/
theorem Expr.faults_value_iff (hA : A.Plain) (e : Expr) :
    Faults (e.value A D) ↔ ∃ part, Expr.Meets A D e part ∧ part.FailsOnLong A D := by
  induction e with
  | literal l =>
    refine iff_of_false (not_faults_ok _) ?_
    rintro ⟨part, ⟨⟩, hfails⟩
    exact hfails
  | name s =>
    refine iff_of_false not_faults_name ?_
    rintro ⟨part, ⟨⟩, hfails⟩
    exact hfails
  | unary op operand ih =>
    rw [Expr.value, faults_bind, ih]
    constructor
    · rintro (⟨part, hmeets, hfails⟩ | ⟨v, hv, hfault⟩)
      · exact ⟨part, .operand hmeets, hfails⟩
      · obtain ⟨rfl, hlong⟩ := (faults_unary (Expr.isKey_value hA hv)).mp hfault
        exact ⟨_, .self _, v, hv, hlong⟩
    · rintro ⟨part, hmeets, hfails⟩
      cases hmeets with
      | self =>
        cases op with
        | negation =>
          obtain ⟨v, hv, hlong⟩ := hfails
          exact .inr ⟨v, hv, (faults_unary (Expr.isKey_value hA hv)).mpr ⟨rfl, hlong⟩⟩
        | minus => exact hfails.elim
        | plus => exact hfails.elim
      | operand h => exact .inl ⟨part, h, hfails⟩
  | binary op left right ihl ihr =>
    rw [Expr.value, faults_bind, ihl]
    simp only [faults_bind, ihr]
    -- Both operands come first, so the operator is met only if they have values.
    constructor
    · rintro (⟨part, hmeets, hfails⟩ | ⟨l, hl, ⟨part, hmeets, hfails⟩ | ⟨r, hr, hfault⟩⟩)
      · exact ⟨part, .left hmeets, hfails⟩
      · exact ⟨part, .right hl hmeets, hfails⟩
      · obtain ⟨⟨c, rfl⟩, hlong⟩ :=
          (faults_binary (Expr.isKey_value hA hl) (Expr.isKey_value hA hr)).mp hfault
        exact ⟨_, .self _, l, r, hl, hr, hlong⟩
    · rintro ⟨part, hmeets, hfails⟩
      cases hmeets with
      | self =>
        cases op with
        | order c =>
          obtain ⟨l, r, hl, hr, hlong⟩ := hfails
          exact .inr ⟨l, hl, .inr ⟨r, hr, (faults_binary (Expr.isKey_value hA hl)
            (Expr.isKey_value hA hr)).mpr ⟨⟨c, rfl⟩, hlong⟩⟩⟩
        | equal => exact hfails.elim
        | unequal => exact hfails.elim
        | arithmetic a => exact hfails.elim
      | left h => exact .inl ⟨part, h, hfails⟩
      | right hl h => exact .inr ⟨_, hl, .inl ⟨part, h, hfails⟩⟩
  | connect op left right ihl ihr =>
    rw [faults_connect hA, ihl, ihr]
    constructor
    · rintro (⟨part, hmeets, hfails⟩ | hlong |
        ⟨b, hl, hopen, ⟨part, hmeets, hfails⟩ | ⟨r, hr, hlong⟩⟩)
      · exact ⟨part, .first hmeets, hfails⟩
      · exact ⟨_, .self _, .inl hlong⟩
      · exact ⟨part, .second hl hopen hmeets, hfails⟩
      · exact ⟨_, .self _, .inr ⟨b, r, hl, hopen, hr, hlong⟩⟩
    · rintro ⟨part, hmeets, hfails⟩
      cases hmeets with
      | self =>
        rcases hfails with hlong | ⟨b, r, hl, hopen, hr, hlong⟩
        · exact .inr (.inl hlong)
        · exact .inr (.inr ⟨b, hl, hopen, .inr ⟨r, hr, hlong⟩⟩)
      | first h => exact .inl ⟨part, h, hfails⟩
      | second hl hopen h => exact .inr (.inr ⟨_, hl, hopen, .inl ⟨part, h, hfails⟩⟩)

end Rule

end Shortlist
