import Mathlib.Tactic.Common
import Shortlist.Proofs.Fallible
import Shortlist.Proofs.Rule.Dependence

/-!
# Names that an evaluation stops at

An evaluation fails at a name that is not declared or has no value. No operator fails in that way,
so the name stands in the expression. A rule that names declared variables only is therefore never
rejected for a name: it is undecided before as long as one of them has no value.
-/

namespace Shortlist.Rule

/-- The name that a failure is about, if it is about one. -/
def Failure.name? : Failure → Option String
  | .unknownName name => some name
  | .unassigned name => some name
  | _ => none

/-- A part of an evaluation fails at a name. -/
def StopsAt {α : Type} (name : String) (x : Evaluated α) : Prop :=
  ∃ failure, x = .error (.failed failure) ∧ failure.name? = some name

section Parts

variable {α β : Type} {name operator : String}

theorem not_stopsAt_ok (a : α) : ¬StopsAt name (.ok a : Evaluated α) := by
  rintro ⟨failure, ⟨⟩, -⟩

theorem stopsAt_bind {x : Evaluated α} {g : α → Evaluated β} :
    StopsAt name (x >>= g) ↔ StopsAt name x ∨ ∃ a, x = .ok a ∧ StopsAt name (g a) := by
  simp only [StopsAt, Except.bind_eq_error]
  constructor
  · rintro ⟨failure, h | ⟨a, ha, h⟩, hname⟩
    · exact .inl ⟨failure, h, hname⟩
    · exact .inr ⟨a, ha, failure, h, hname⟩
  · rintro (⟨failure, h, hname⟩ | ⟨a, ha, failure, h, hname⟩)
    · exact ⟨failure, .inl h, hname⟩
    · exact ⟨failure, .inr ⟨a, ha, h⟩, hname⟩

theorem stopsAt_map {x : Evaluated α} {g : α → β} : StopsAt name (x.map g) ↔ StopsAt name x := by
  cases x <;> simp [StopsAt, Except.map]

theorem name?_of_stopsAt_fail {failure : Failure}
    (h : StopsAt name (fail failure : Evaluated α)) : failure.name? = some name := by
  obtain ⟨found, hfound, hname⟩ := h
  unfold fail at hfound
  split at hfound
  · cases hfound
    exact hname
  · cases hfound

theorem not_stopsAt_fail {failure : Failure} (h : failure.name? = none) :
    ¬StopsAt name (fail failure : Evaluated α) := by
  intro hstops
  rw [name?_of_stopsAt_fail hstops] at h
  cases h

theorem not_stopsAt_requireBoolean {v : Value} : ¬StopsAt name (requireBoolean operator v) := by
  unfold requireBoolean
  split
  · exact not_stopsAt_ok _
  · exact not_stopsAt_fail rfl

theorem not_stopsAt_requireNumber {v : Value} : ¬StopsAt name (requireNumber operator v) := by
  unfold requireNumber
  split
  · exact not_stopsAt_ok _
  · exact not_stopsAt_fail rfl

theorem not_stopsAt_compareValues {c : Comparison} {l r : Value} :
    ¬StopsAt name (compareValues c l r) := by
  unfold compareValues
  split
  · exact not_stopsAt_ok _
  · exact not_stopsAt_ok _
  · exact not_stopsAt_fail rfl

theorem not_stopsAt_calculateNumbers {a : Arithmetic} {m n : Number} :
    ¬StopsAt name (calculateNumbers a m n) := by
  unfold calculateNumbers
  split
  · exact not_stopsAt_fail rfl
  · split
    · exact not_stopsAt_fail rfl
    · split
      · exact not_stopsAt_ok _
      · exact not_stopsAt_fail rfl

theorem not_stopsAt_calculate {a : Arithmetic} {l r : Value} :
    ¬StopsAt name (calculate a l r) := by
  unfold calculate
  split
  · exact not_stopsAt_ok _
  · intro hstops
    rcases stopsAt_bind.mp hstops with hleft | ⟨m, -, hmore⟩
    · exact not_stopsAt_requireNumber hleft
    · rcases stopsAt_bind.mp hmore with hright | ⟨n, -, hresult⟩
      · exact not_stopsAt_requireNumber hright
      · exact not_stopsAt_calculateNumbers hresult

theorem not_stopsAt_unary {op : UnaryOp} {v : Value} : ¬StopsAt name (op.apply v) := by
  cases op with
  | negation => exact fun h => not_stopsAt_requireBoolean (stopsAt_map.mp h)
  | minus => exact fun h => not_stopsAt_requireNumber (stopsAt_map.mp h)
  | plus => exact fun h => not_stopsAt_requireNumber (stopsAt_map.mp h)

theorem not_stopsAt_binary {op : BinaryOp} {one : Bool} {l r : Value} :
    ¬StopsAt name (op.apply one l r) := by
  cases op with
  | equal => exact not_stopsAt_ok _
  | unequal => exact not_stopsAt_ok _
  | order c => exact fun h => not_stopsAt_compareValues (stopsAt_map.mp h)
  | arithmetic a => exact not_stopsAt_calculate

end Parts

variable {A : Assignment} {D : List String} {name text : String}

/-- An evaluation stops only at names of the expression, which are not declared or have no value. -/
theorem Expr.mem_names_of_stopsAt {e : Expr} (h : StopsAt name (e.value A D)) :
    name ∈ e.names ∧ (name ∉ D ∨ A.value? name = none) := by
  induction e with
  | literal l => exact absurd h (not_stopsAt_ok _)
  | name s =>
    rw [Expr.value] at h
    split at h
    · split at h
      · exact absurd h (not_stopsAt_ok _)
      · rename_i hnone
        obtain rfl := Option.some.inj (name?_of_stopsAt_fail h)
        exact ⟨List.mem_singleton_self s, .inr hnone⟩
    · rename_i hunknown
      obtain rfl := Option.some.inj (name?_of_stopsAt_fail h)
      exact ⟨List.mem_singleton_self s, .inl (by simpa using hunknown)⟩
  | unary op operand ih =>
    rcases stopsAt_bind.mp h with hoperand | ⟨v, -, happly⟩
    · exact ih hoperand
    · exact absurd happly not_stopsAt_unary
  | binary op left right ihl ihr =>
    rcases stopsAt_bind.mp h with hleft | ⟨l, -, hmore⟩
    · exact (ihl hleft).imp_left (List.mem_append_left _)
    · rcases stopsAt_bind.mp hmore with hright | ⟨r, -, happly⟩
      · exact (ihr hright).imp_left (List.mem_append_right _)
      · exact absurd happly not_stopsAt_binary
  | connect op left right ihl ihr =>
    rcases stopsAt_bind.mp h with hleft | ⟨l, -, hmore⟩
    · exact (ihl hleft).imp_left (List.mem_append_left _)
    · rcases stopsAt_bind.mp hmore with hboolean | ⟨b, -, hrest⟩
      · exact absurd hboolean not_stopsAt_requireBoolean
      · split at hrest
        · exact absurd hrest (not_stopsAt_ok _)
        · rcases stopsAt_bind.mp hrest with hright | ⟨r, -, hlast⟩
          · exact (ihr hright).imp_left (List.mem_append_right _)
          · rcases stopsAt_bind.mp hlast with hboolean | ⟨b, -, hresult⟩
            · exact absurd hboolean not_stopsAt_requireBoolean
            · exact absurd hresult (not_stopsAt_ok _)

theorem judge_ne_unreadable {rule : Rule} {e : SyntaxError} :
    rule.judge A D ≠ .ok (.rejected (.unreadable e)) := by
  intro h
  unfold judge at h
  split at h
  · cases h
  · split at h
    · rename_i v _
      cases v <;> cases h
    · cases h
    · cases h

theorem judge_ne_rejected {rule : Rule} (hread : read text = .ok rule)
    (hnames : ∀ s ∈ rule.tree.names, s ∈ D) {failure : Failure}
    (hname : failure.name? = some name) :
    rule.judge A D ≠ .ok (.rejected (.failed failure)) := by
  intro h
  unfold judge at h
  split at h
  · cases h
  · rename_i hassigned
    split at h
    · rename_i v _
      cases v <;> cases h
    · rename_i found hfound
      cases h
      obtain ⟨hmem, hdeclared | hnone⟩ := Expr.mem_names_of_stopsAt ⟨failure, hfound, hname⟩
      · exact hdeclared (hnames name hmem)
      · refine hassigned (List.any_eq_true.mpr ⟨name, ?_, by rw [hnone]; rfl⟩)
        simpa [dependencies, names_of_read hread] using ⟨hmem, hnames name hmem⟩
    · cases h

end Shortlist.Rule
