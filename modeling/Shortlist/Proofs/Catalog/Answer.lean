import Mathlib.Data.List.TakeWhile
import Mathlib.Tactic.Common
import Shortlist.Catalog.Answer
import Shortlist.Proofs.Fallible

/-!
# What an accepted answer is

An accepted answer has the type of its variable, and it is never empty. The second part is not
plain: the text of a number may be a choice, so it has to be known that no number is written with
blank characters only.
-/

namespace Shortlist

open Text (isBlank isBlankText)

/-! ### Written numbers are not blank -/

theorem isBlank_eq_false_of_isDigit {c : Char} (h : c.isDigit = true) : isBlank c = false := by
  obtain ⟨hlow, hhigh⟩ := Char.isDigit_iff_toNat.mp h
  have hlow : 48 ≤ c.toNat := hlow
  have hhigh : c.toNat ≤ 57 := hhigh
  rw [isBlank, ← Bool.not_eq_true, Ranges.holds_iff]
  rintro ⟨range, hrange, hfirst, hlast⟩
  simp only [Text.blankRanges, List.mem_cons, List.not_mem_nil, or_false] at hrange
  rcases hrange with rfl | rfl | rfl | rfl | rfl | rfl | rfl | rfl | rfl | rfl <;>
    simp only at hfirst hlast <;> omega

theorem isBlankText_eq_false_iff {s : String} :
    isBlankText s = false ↔ ∃ c ∈ s.toList, isBlank c = false := by
  simp [isBlankText]

theorem isBlankText_ofList {cs : List Char} {c : Char} (hmem : c ∈ cs) (hc : isBlank c = false) :
    isBlankText (String.ofList cs) = false :=
  isBlankText_eq_false_iff.mpr ⟨c, by simpa using hmem, hc⟩

theorem exists_ne_zero_of_toDigits {n : Nat} (h : n ≠ 0) : ∃ c ∈ Nat.toDigits 10 n, c ≠ '0' := by
  induction n using Nat.strongRecOn with
  | ind n ih =>
    by_cases hsmall : n < 10
    · refine ⟨n.digitChar, by simp [Nat.toDigits_of_lt_base hsmall], ?_⟩
      intro hzero
      have hvalue := Nat.toNat_digitChar_sub_48_of_lt_ten hsmall
      rw [hzero] at hvalue
      exact h hvalue.symm
    · obtain ⟨c, hc, hne⟩ := ih (n / 10) (by omega) (by omega)
      refine ⟨c, ?_, hne⟩
      rw [Nat.toDigits_of_base_le (by decide) (by omega)]
      exact List.mem_append_left _ hc

theorem significantDigits_ne_nil {n : Nat} (h : n ≠ 0) : Layout.significantDigits n ≠ [] := by
  obtain ⟨c, hc, hne⟩ := exists_ne_zero_of_toDigits h
  rw [Layout.significantDigits, Ne, List.reverse_eq_nil_iff, List.dropWhile_eq_nil_iff]
  intro hall
  exact hne (by simpa using hall c (List.mem_reverse.mpr hc))

/-- Digits in the shortest form hold a point, an `e` or a leading zero. -/
theorem exists_not_blank_of_set {digits : List Char} {e : Int} (h : digits ≠ []) :
    ∃ c ∈ Layout.shortest.set digits e, isBlank c = false := by
  unfold Layout.set
  split
  · match digits, h with
    | [first], _ => exact ⟨'e', by simp, by decide⟩
    | first :: second :: rest, _ => exact ⟨'.', by simp, by decide⟩
  · split
    · exact ⟨'0', by simp, by decide⟩
    · dsimp only
      split
      · exact ⟨'.', by simp [Layout.shortest], by decide⟩
      · exact ⟨'.', by simp, by decide⟩

theorem exists_not_blank_of_write (x : Decimal) :
    ∃ c ∈ Layout.shortest.write x, isBlank c = false := by
  unfold Layout.write
  split
  · exact exists_not_blank_of_set (by simp)
  · rename_i hne
    exact exists_not_blank_of_set (significantDigits_ne_nil hne)

theorem isBlankText_written_int (i : Int) : isBlankText (toString i) = false := by
  cases i with
  | ofNat n =>
    obtain ⟨c, hc⟩ := List.exists_mem_of_ne_nil _ (Nat.toDigits_ne_nil (n := n) (b := 10))
    have hdigit := Nat.isDigit_of_mem_toDigits (by decide) (by decide) hc
    refine isBlankText_eq_false_iff.mpr ⟨c, ?_, isBlank_eq_false_of_isDigit hdigit⟩
    change c ∈ (toString n).toList
    simpa [Nat.toString_eq_ofList_toDigits] using hc
  | negSucc n =>
    refine isBlankText_eq_false_iff.mpr ⟨'-', ?_, by decide⟩
    change '-' ∈ ("-" ++ toString (n + 1)).toList
    simp

theorem isBlankText_written (n : Number) : isBlankText n.written = false := by
  cases n with
  | int i => exact isBlankText_written_int i
  | double x =>
    cases x with
    | nan => decide
    | infinite negative => exact isBlankText_ofList (c := 'i') (by simp) (by decide)
    | finite negative units fits =>
      obtain ⟨c, hc, hblank⟩ := exists_not_blank_of_write
        (if units = 0 then ⟨0, 0⟩ else Decimal.shortest units)
      exact isBlankText_ofList (List.mem_append_right _ hc) hblank

/-! ### Requests that no fault stops -/

/-- The request succeeds or is rejected. -/
def Faultless {α : Type} (result : Except AnswerError α) : Prop :=
  ∀ f, result ≠ .error (.fault f)

section Faultless

variable {α β : Type}

theorem faultless_ok (a : α) : Faultless (.ok a) := by
  intro f h
  cases h

theorem faultless_rejected (r : Rejection) : Faultless (.error (.rejected r) : Except _ α) := by
  intro f h
  cases h

theorem Faultless.bind {x : Except AnswerError α} {next : α → Except AnswerError β}
    (hx : Faultless x) (hnext : ∀ a, Faultless (next a)) : Faultless (x >>= next) := by
  cases x with
  | error e =>
    intro f h
    cases h
    exact hx f rfl
  | ok a => exact hnext a

theorem Faultless.exists_ok {x : Except AnswerError α} (hx : Faultless x)
    (haccepted : ∀ r, x ≠ .error (.rejected r)) : ∃ a, x = .ok a := by
  cases x with
  | ok a => exact ⟨a, rfl⟩
  | error e =>
    cases e with
    | rejected r => exact absurd rfl (haccepted r)
    | fault f => exact absurd rfl (hx f)

end Faultless

/-! ### Accepted values -/

/-- The values that may be stored for a variable. -/
def Variable.Admits (v : Variable) : Value → Prop
  | .boolean _ => v.type = .boolean
  | .number (.int i) => v.type = .number ∧ ∃ x, (Number.int i).toDouble = .ok x
  | .number (.double x) => v.type = .number ∧ x.isFinite = true
  | .text s => v.type = .choice ∧ s ∈ v.domain ∧ isBlankText s = false
  | _ => False

namespace Variable

variable {v : Variable} {raw value : Value}

theorem Admits.isEmptyAnswer_eq_false (h : v.Admits value) : value.isEmptyAnswer = false := by
  cases value with
  | null => exact h.elim
  | text s => exact h.2.2
  | boolean b => rfl
  | number n => rfl
  | list items => rfl
  | object entries => rfl

theorem Admits.typed (h : v.Admits value) :
    (v.type = .boolean ∧ ∃ b, value = .boolean b) ∨
      (v.type = .number ∧ ∃ n, value = .number n ∧ ∃ x, n.toDouble = .ok x ∧ x.isFinite = true) ∨
      (v.type = .choice ∧ ∃ s ∈ v.domain, value = .text s) := by
  cases value with
  | boolean b => exact .inl ⟨h, b, rfl⟩
  | number n =>
    cases n with
    | int i =>
      obtain ⟨htype, x, hx⟩ := h
      obtain ⟨negative, units, fits, rfl, -⟩ := Number.exists_finite_of_toDouble hx
      exact .inr (.inl ⟨htype, .int i, rfl, _, hx, rfl⟩)
    | double x => exact .inr (.inl ⟨h.1, .double x, rfl, x, rfl, h.2⟩)
  | text s => exact .inr (.inr ⟨h.1, s, h.2.1, rfl⟩)
  | null => exact h.elim
  | list items => exact h.elim
  | object entries => exact h.elim

theorem Admits.isWritable (h : v.Admits value) : value.isWritable = true := by
  cases value with
  | number n =>
    cases n with
    | int i =>
      obtain ⟨-, x, hx⟩ := h
      rw [Value.isWritable]
      exact Number.isWritable_of_toDouble hx
    | double x => rfl
  | null => exact h.elim
  | boolean b => rfl
  | text s => rfl
  | list items => exact h.elim
  | object entries => exact h.elim

theorem admits_of_acceptNumber (htype : v.type = .number) (h : v.acceptNumber raw = .ok value) :
    v.Admits value := by
  unfold acceptNumber at h
  split at h
  · cases h
  · split at h
    · rename_i i _ x hx
      cases h
      exact ⟨htype, x, hx⟩
    · cases h
  · split at h
    · rename_i x _ hfinite
      cases h
      exact ⟨htype, hfinite⟩
    · cases h

theorem admits_of_acceptChoice (htype : v.type = .choice) (hraw : raw.isEmptyAnswer = false)
    (h : v.acceptChoice raw = .ok value) : v.Admits value := by
  have member : ∀ {word : String}, isBlankText word = false →
      (if v.domain.contains word then (pure (.text word) : Except AnswerError Value)
        else v.reject raw v.mismatch) = .ok value → v.Admits value := by
    intro word hblank h
    split at h
    · rename_i hmem
      obtain rfl := Except.pure_eq_ok.mp h
      exact ⟨htype, by simpa using hmem, hblank⟩
    · cases h
  cases raw with
  | text s => exact member hraw h
  | number n =>
    obtain ⟨word, hword, h⟩ := Except.bind_eq_ok.mp h
    have hword := Except.mapError_eq_ok.mp hword
    simp only [Value.plain?, Value.written?] at hword
    split at hword
    · cases hword
      exact member (isBlankText_written n) h
    · cases hword
  | null => cases h
  | boolean b => cases h
  | list items => cases h
  | object entries => cases h

theorem admits_of_accept (h : v.accept raw = .ok value) : v.Admits value := by
  unfold accept at h
  split at h
  · cases h
  · rename_i hraw
    rw [Bool.not_eq_true] at hraw
    cases htype : v.type with
    | boolean =>
      rw [htype] at h
      dsimp only at h
      split at h
      · cases h
        exact htype
      · cases h
    | number =>
      rw [htype] at h
      exact admits_of_acceptNumber htype h
    | choice =>
      rw [htype] at h
      exact admits_of_acceptChoice htype hraw h

/-- An answer that is read as a number that may be stored is accepted as this number. -/
theorem accept_of_number? {n : Number} (h : v.Admits (.number n))
    (hfilled : raw.isEmptyAnswer = false) (hread : number? raw = some n) :
    v.accept raw = .ok (.number n) := by
  have htype : v.type = .number := by cases n <;> exact h.1
  rw [accept, hfilled, htype, if_neg Bool.false_ne_true]
  dsimp only
  rw [acceptNumber, hread]
  cases n with
  | int i =>
    obtain ⟨-, x, hx⟩ := h
    dsimp only
    rw [hx]
  | double x => exact if_pos h.2

theorem accept_of_admits (h : v.Admits value) : v.accept value = .ok value := by
  have hfilled := h.isEmptyAnswer_eq_false
  cases value with
  | boolean b =>
    have htype : v.type = .boolean := h
    rw [accept, hfilled, htype]
    rfl
  | number n => exact accept_of_number? h rfl rfl
  | text s =>
    obtain ⟨htype, hmem, -⟩ := h
    have hcontains : v.domain.contains s = true := List.contains_iff_mem.mpr hmem
    rw [accept, hfilled, htype]
    simp only [Bool.false_eq_true, if_false, acceptChoice]
    rw [Value.plain?, Except.mapError, Except.ok_bind, hcontains]
    rfl
  | null => exact h.elim
  | list items => exact h.elim
  | object entries => exact h.elim

/-! ### Answers that can be written -/

theorem faultless_reject {α : Type} (hraw : raw.isWritable = true) (objection : Objection) :
    Faultless (v.reject raw objection : Except AnswerError α) := by
  have hwritable : (Rejection.mk v.name raw objection).isWritable = true := by
    cases objection <;> first | exact hraw | rfl
  rw [reject, AnswerError.ofRejection, if_pos hwritable]
  exact faultless_rejected _

theorem faultless_acceptNumber (hraw : raw.isWritable = true) : Faultless (v.acceptNumber raw) := by
  unfold acceptNumber
  split
  · exact faultless_reject hraw _
  · split
    · exact faultless_ok _
    · exact faultless_reject hraw _
  · split
    · exact faultless_ok _
    · exact faultless_reject hraw _

theorem faultless_acceptChoice (hraw : raw.isWritable = true) : Faultless (v.acceptChoice raw) := by
  have member : ∀ word : String,
      Faultless (if v.domain.contains word then (pure (.text word) : Except AnswerError Value)
        else v.reject raw v.mismatch) := by
    intro word
    split
    · exact faultless_ok _
    · exact faultless_reject hraw _
  cases raw with
  | text s => exact member s
  | number n =>
    have hword : (Value.number n).plain? = .ok (Value.number n).written := if_pos hraw
    rw [acceptChoice, hword]
    exact member _
  | null => exact faultless_reject hraw _
  | boolean b => exact faultless_reject hraw _
  | list items => exact faultless_reject hraw _
  | object entries => exact faultless_reject hraw _

/-- An answer that can be written is accepted or rejected, and no fault stops the request. -/
theorem faultless_accept (hraw : raw.isWritable = true) : Faultless (v.accept raw) := by
  unfold accept
  split
  · exact faultless_reject hraw _
  · cases v.type with
    | boolean =>
      dsimp only
      split
      · exact faultless_ok _
      · exact faultless_reject hraw _
    | number => exact faultless_acceptNumber hraw
    | choice => exact faultless_acceptChoice hraw

end Variable

namespace Registry

variable {registry : Registry} {name : String}

theorem require_eq_ok {v : Variable} :
    registry.require name = .ok v ↔ registry.get? name = some v := by
  unfold require
  cases registry.get? name with
  | none => simp
  | some declared => simp

theorem get?_eq_some {v : Variable} (h : registry.get? name = some v) :
    v ∈ registry.toList ∧ v.name = name :=
  ⟨List.mem_of_find?_eq_some h, by simpa using List.find?_some h⟩

theorem admits_of_accept {raw value : Value} (h : registry.accept name raw = .ok value) :
    ∃ v, registry.get? name = some v ∧ v.Admits value := by
  obtain ⟨v, hv, h⟩ := Except.bind_eq_ok.mp h
  exact ⟨v, require_eq_ok.mp hv, Variable.admits_of_accept h⟩

theorem accept_of_admits {v : Variable} {value : Value} (hv : registry.get? name = some v)
    (h : v.Admits value) : registry.accept name value = .ok value := by
  rw [accept, require_eq_ok.mpr hv]
  exact Variable.accept_of_admits h

theorem faultless_require : Faultless (registry.require name) := by
  unfold require
  split
  · exact faultless_ok _
  · exact faultless_rejected _

theorem faultless_accept {raw : Value} (hraw : raw.isWritable = true) :
    Faultless (registry.accept name raw) :=
  faultless_require.bind fun _ => Variable.faultless_accept hraw

def Admits (registry : Registry) (A : Rule.Assignment) : Prop :=
  ∀ entry ∈ A, ∃ v, registry.get? entry.1 = some v ∧ v.Admits entry.2

end Registry

end Shortlist
