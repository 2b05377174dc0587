import Mathlib.Tactic.Common
import Shortlist.Proofs.Catalog.Answer
import Shortlist.Proofs.Number.Spelling

/-!
# Accepting once more

What was accepted for a variable is accepted again, as itself, and so is its text. So a value may be
handed on as it is or written down and read again, and it makes no difference. For a number this
says that its text is read as a number of the same kind: the text of a double never as an integer.
-/

namespace Shortlist.Variable

variable {v : Variable} {value : Value}

/-! ### Texts of values -/

theorem boolean?_written (b : Bool) : boolean? (.text (Value.boolean b).written) = some b := by
  cases b <;> decide +kernel

theorem trim_written_int (i : Int) : Text.trim (toString i) = toString i := by
  rw [Numeral.toString_int]
  exact Numeral.trim_ofList (Numeral.plain_toDigits i)

theorem number?_written {n : Number} (h : v.Admits (.number n)) :
    number? (.text n.written) = some n := by
  have hwritable : n.isWritable = true := h.isWritable
  cases n with
  | int i =>
    simp only [number?, Number.written, trim_written_int, Numeral.integer?_toString hwritable]
  | double x =>
    have hfinite : x.isFinite = true := h.2
    simp only [number?, Number.written, Binary64.trim_written hfinite,
      Binary64.integer?_written hfinite, Binary64.double?_written hfinite, Option.map_some]

/-! ### Accepting texts -/

theorem accept_text_boolean {b : Bool} (h : v.Admits (.boolean b)) :
    v.accept (.text (Value.boolean b).written) = .ok (.boolean b) := by
  have htype : v.type = .boolean := h
  have hfilled : Value.isEmptyAnswer (.text (Value.boolean b).written) = false := by
    cases b <;> decide
  rw [accept, hfilled, htype]
  dsimp only
  rw [boolean?_written]
  rfl

theorem accept_text_number {n : Number} (h : v.Admits (.number n)) :
    v.accept (.text n.written) = .ok (.number n) :=
  accept_of_number? h (isBlankText_written n) (number?_written h)

/-- The text of what may be stored is accepted as what may be stored. -/
theorem exists_accept_text (h : v.Admits value) :
    ∃ text, value.plain? = .ok text ∧ v.accept (.text text) = .ok value := by
  cases value with
  | boolean b => exact ⟨_, rfl, accept_text_boolean h⟩
  | number n =>
    refine ⟨n.written, ?_, accept_text_number h⟩
    exact if_pos h.isWritable
  | text s => exact ⟨s, rfl, accept_of_admits h⟩
  | null => exact h.elim
  | list items => exact h.elim
  | object entries => exact h.elim

/-- Accepting is a projection, and it does not matter whether a value or its text is accepted. -/
theorem accepted_value_is_accepted_again (v : Variable) (raw : Value) {value : Value}
    (h : v.accept raw = .ok value) :
    v.accept value = .ok value ∧
      ∃ text, value.plain? = .ok text ∧ v.accept (.text text) = .ok value :=
  ⟨accept_of_admits (admits_of_accept h), exists_accept_text (admits_of_accept h)⟩

def amount : Variable := ⟨"amount", .number, [], by decide, by decide⟩

/-- A text with blanks and a superfluous zero is accepted as a double, which is accepted again like
its own text. -/
theorem decimal_is_accepted_again :
    ∃ x : Binary64, x.written = "2.5" ∧
      amount.accept (.text " 2.50 ") = .ok (.number (.double x)) ∧
      amount.accept (.number (.double x)) = .ok (.number (.double x)) ∧
      ∃ text, (Value.number (.double x)).plain? = .ok text ∧
        amount.accept (.text text) = .ok (.number (.double x)) := by
  refine ⟨Binary64.round false (5 * Binary64.one) 2, by decide +kernel, ?_⟩
  have hread : number? (.text " 2.50 ") =
      some (.double (Binary64.round false (5 * Binary64.one) 2)) := by decide +kernel
  have hfinite : (Binary64.round false (5 * Binary64.one) 2).isFinite = true := by decide +kernel
  generalize Binary64.round false (5 * Binary64.one) 2 = x at *
  have haccept : amount.accept (.text " 2.50 ") = .ok (.number (.double x)) :=
    accept_of_number? ⟨rfl, hfinite⟩ (by decide) hread
  exact ⟨haccept, accepted_value_is_accepted_again amount _ haccept⟩

end Shortlist.Variable
