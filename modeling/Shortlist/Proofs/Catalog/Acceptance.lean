import Mathlib.Tactic.Common
import Shortlist.Proofs.Catalog.Answer
import Shortlist.Proofs.Document.Value
import Shortlist.Proofs.Rule.Evaluation

/-!
# What becomes of an answer

An answer is accepted or rejected, and a rejection is put into words at once. These words quote the
answer, so an integer of too many digits in it turns the rejection into a fault. Only a variable of
numbers is safe from an integer itself: it says that the integer is too large and quotes nothing.
-/

namespace Shortlist

/-! ### Integers in a value -/

/-- The integer stands in the value, at any depth. -/
inductive Value.Holds (i : Int) : Value → Prop
  | self : Holds i (.int i)
  | item {item : Value} {items : List Value} (hmem : item ∈ items) (h : Holds i item) :
    Holds i (.list items)
  | entry {entry : String × Value} {entries : Entries Value} (hmem : entry ∈ entries)
    (h : Holds i entry.2) : Holds i (.object entries)

namespace Value

variable {v raw : Value} {i : Int}

theorem Holds.isWritable_eq_false (h : Holds i v)
    (hlong : 4300 < (Nat.toDigits 10 i.natAbs).length) : v.isWritable = false := by
  induction h with
  | self =>
    rw [isWritable, ← Bool.not_eq_true, Number.isWritable_int_iff]
    exact Nat.not_le.mpr hlong
  | item hmem _ ih =>
    rw [← Bool.not_eq_true, isWritable_list]
    intro hall
    rw [hall _ hmem] at ih
    cases ih
  | entry hmem _ ih =>
    rw [← Bool.not_eq_true, isWritable_object]
    intro hall
    rw [hall _ hmem] at ih
    cases ih

theorem exists_holds_of_not_writable :
    (v : Value) → v.isWritable = false →
      ∃ i, Holds i v ∧ 4300 < (Nat.toDigits 10 i.natAbs).length
  | .list items, h => by
    rw [← Bool.not_eq_true, isWritable_list] at h
    push Not at h
    obtain ⟨item, hmem, hitem⟩ := h
    have hsmaller := List.sizeOf_lt_of_mem hmem
    obtain ⟨i, hi, hlong⟩ := exists_holds_of_not_writable item (Bool.not_eq_true _ ▸ hitem)
    exact ⟨i, .item hmem hi, hlong⟩
  | .object entries, h => by
    rw [← Bool.not_eq_true, isWritable_object] at h
    push Not at h
    obtain ⟨⟨name, value⟩, hmem, hvalue⟩ := h
    have hsmaller : sizeOf value < sizeOf entries := by
      have hentry := List.sizeOf_lt_of_mem hmem
      rw [Prod.mk.sizeOf_spec] at hentry
      omega
    obtain ⟨i, hi, hlong⟩ := exists_holds_of_not_writable value (Bool.not_eq_true _ ▸ hvalue)
    exact ⟨i, .entry hmem hi, hlong⟩
  | .null, h | .boolean _, h | .text _, h | .number _, h => by
    obtain ⟨i, hv, hlong⟩ := (isWritable_eq_false_iff rfl).mp h
    exact ⟨i, hv ▸ .self, hlong⟩

theorem isWritable_eq_false_iff_holds :
    v.isWritable = false ↔ ∃ i, Holds i v ∧ 4300 < (Nat.toDigits 10 i.natAbs).length :=
  ⟨exists_holds_of_not_writable v, fun ⟨_, hi, hlong⟩ => hi.isWritable_eq_false hlong⟩

end Value

/-! ### Rejections -/

namespace Variable

variable {v : Variable} {raw : Value} {r : Rejection}

/-- An integer of more than 4300 digits stands in the answer, and the answer would have to be
quoted: it is not such an integer itself, given for a variable of numbers. -/
def Overlong (v : Variable) (raw : Value) : Prop :=
  ∃ i, raw.Holds i ∧ 4300 < (Nat.toDigits 10 i.natAbs).length ∧
    ¬(v.type = .number ∧ raw = .int i)

theorem reject_eq_rejected {α : Type} {objection : Objection}
    (h : (v.reject raw objection : Except AnswerError α) = .error (.rejected r)) :
    r = ⟨v.name, raw, objection⟩ := by
  rw [reject, AnswerError.ofRejection] at h
  split at h
  · cases h
    rfl
  · cases h

theorem reject_mismatch {α : Type} (hraw : raw.isWritable = false) :
    (v.reject raw v.mismatch : Except AnswerError α) = .error (.fault .tooManyDigits) := by
  have hunwritable : (Rejection.mk v.name raw v.mismatch).isWritable = false := by
    unfold mismatch
    cases v.type <;> exact hraw
  rw [reject, AnswerError.ofRejection, hunwritable]
  rfl

theorem exists_objection_of_acceptNumber (h : v.acceptNumber raw = .error (.rejected r)) :
    ∃ objection, r = ⟨v.name, raw, objection⟩ := by
  unfold acceptNumber at h
  split at h
  · exact ⟨_, reject_eq_rejected h⟩
  · split at h
    · cases h
    · exact ⟨_, reject_eq_rejected h⟩
  · split at h
    · cases h
    · exact ⟨_, reject_eq_rejected h⟩

theorem exists_objection_of_acceptChoice (h : v.acceptChoice raw = .error (.rejected r)) :
    ∃ objection, r = ⟨v.name, raw, objection⟩ := by
  have member : (raw.plain?.mapError AnswerError.fault >>= fun word =>
      if v.domain.contains word then pure (Value.text word) else v.reject raw v.mismatch) =
        .error (.rejected r) → ∃ objection, r = ⟨v.name, raw, objection⟩ := by
    intro h
    rcases Except.bind_eq_error.mp h with hword | ⟨word, -, h⟩
    · obtain ⟨f, -, ⟨⟩⟩ := Except.mapError_eq_error.mp hword
    · split at h
      · cases h
      · exact ⟨_, reject_eq_rejected h⟩
  cases raw with
  | text s => exact member h
  | number n => exact member h
  | null => exact ⟨_, reject_eq_rejected h⟩
  | boolean b => exact ⟨_, reject_eq_rejected h⟩
  | list items => exact ⟨_, reject_eq_rejected h⟩
  | object entries => exact ⟨_, reject_eq_rejected h⟩

/-- A rejection names the variable and holds the answer as it was given. -/
theorem exists_objection (h : v.accept raw = .error (.rejected r)) :
    ∃ objection, r = ⟨v.name, raw, objection⟩ := by
  unfold accept at h
  split at h
  · exact ⟨_, reject_eq_rejected h⟩
  · split at h
    · split at h
      · cases h
      · exact ⟨_, reject_eq_rejected h⟩
    · exact exists_objection_of_acceptNumber h
    · exact exists_objection_of_acceptChoice h

/-! ### Faults -/

theorem accept_of_overlong (h : v.Overlong raw) :
    v.accept raw = .error (.fault .tooManyDigits) := by
  obtain ⟨i, hi, hlong, hquoted⟩ := h
  have hraw := hi.isWritable_eq_false hlong
  have hmismatch : v.reject raw v.mismatch = (.error (.fault .tooManyDigits) : Except _ Value) :=
    reject_mismatch hraw
  cases hi with
  | self =>
    rw [accept]
    cases htype : v.type with
    | boolean => exact hmismatch
    | number => exact absurd ⟨htype, rfl⟩ hquoted
    | choice =>
      have hword : (Value.int i).plain? = .error .tooManyDigits := by
        have hwritten : (Value.int i).plain? = (Value.int i).written? := rfl
        rw [hwritten, Value.written?, hraw]
        rfl
      have hchoice : v.acceptChoice (.int i) = .error (.fault .tooManyDigits) := by
        rw [acceptChoice, hword]
        rfl
      exact hchoice
  | item hmem h =>
    rw [accept]
    cases v.type <;> exact hmismatch
  | entry hmem h =>
    rw [accept]
    cases v.type <;> exact hmismatch

/-- An integer is accepted or said to be too large for a variable of numbers. -/
theorem faultless_acceptNumber_int (i : Int) : Faultless (v.acceptNumber (.int i)) := by
  rw [acceptNumber, number?]
  dsimp only
  split
  · exact faultless_ok _
  · exact faultless_rejected _

theorem faultless_of_not_overlong (h : ¬v.Overlong raw) : Faultless (v.accept raw) := by
  cases hraw : raw.isWritable with
  | true => exact faultless_accept hraw
  | false =>
    obtain ⟨i, hi, hlong⟩ := Value.isWritable_eq_false_iff_holds.mp hraw
    have hnumber : v.type = .number ∧ raw = .int i := by
      by_contra hquoted
      exact h ⟨i, hi, hlong, hquoted⟩
    obtain ⟨htype, rfl⟩ := hnumber
    simp only [accept, htype]
    exact faultless_acceptNumber_int i

/-- Of an answer one of three things becomes. It is accepted; it is rejected, with the variable and
the answer told; or it is overlong and the request is a fault. Whether an answer is acceptable is
told in the first two cases and is a fault in the third. -/
theorem answer_is_judged_or_overlong (v : Variable) (raw : Value) :
    (¬v.Overlong raw ∧ ∃ value, v.accept raw = .ok value ∧ v.isAcceptable raw = .ok true) ∨
    (¬v.Overlong raw ∧ ∃ objection,
      v.accept raw = .error (.rejected ⟨v.name, raw, objection⟩) ∧
        v.isAcceptable raw = .ok false) ∨
    (v.Overlong raw ∧ v.accept raw = .error (.fault .tooManyDigits) ∧
      v.isAcceptable raw = .error .tooManyDigits) := by
  by_cases hlong : v.Overlong raw
  · have hfault := accept_of_overlong hlong
    exact .inr (.inr ⟨hlong, hfault, by rw [isAcceptable, hfault]⟩)
  · have hfaultless := faultless_of_not_overlong hlong
    cases haccept : v.accept raw with
    | ok value => exact .inl ⟨hlong, value, rfl, by rw [isAcceptable, haccept]⟩
    | error e =>
      cases e with
      | rejected r =>
        obtain ⟨objection, rfl⟩ := exists_objection haccept
        exact .inr (.inl ⟨hlong, objection, rfl, by rw [isAcceptable, haccept]⟩)
      | fault f => exact absurd haccept (hfaultless f)

theorem boolean_needs_no_domain : VariableType.boolean = .choice → ([] : List String) ≠ [] := by
  decide

def tick : Variable := ⟨"tick", .boolean, [], by decide, boolean_needs_no_domain⟩

/-- An integer of 4301 digits is neither accepted nor rejected where a boolean is asked for. -/
theorem long_integer_is_not_judged :
    ¬((∃ value, tick.accept (.int (Int.pow 10 4300)) = .ok value) ∨
      ∃ objection, tick.accept (.int (Int.pow 10 4300)) =
        .error (.rejected ⟨tick.name, .int (Int.pow 10 4300), objection⟩)) := by
  have hunwritable : (Value.int (Int.pow 10 4300)).isWritable = false := by decide +kernel
  obtain ⟨i, hi, hlong⟩ := Value.isWritable_eq_false_iff_holds.mp hunwritable
  have hfault : tick.accept (.int (Int.pow 10 4300)) = .error (.fault .tooManyDigits) :=
    accept_of_overlong ⟨i, hi, hlong, fun hnumber => by cases hnumber.1⟩
  rw [hfault]
  rintro (⟨value, ⟨⟩⟩ | ⟨objection, ⟨⟩⟩)

end Variable

end Shortlist
