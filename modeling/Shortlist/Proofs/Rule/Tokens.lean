import Mathlib.Tactic.Common
import Shortlist.Proofs.Fallible
import Shortlist.Rule.Lexer

/-!
# Where the tokens of a text end

Only the end of the text is read as the end of the rule: no word, numeral, quoted text or operator
is such a token, and nothing is read behind it. Tokens stand within the text, and so does what is no
token.
-/

namespace Shortlist.Rule

theorem ofWord_cases (word : String) :
    Token.ofWord word = .name word ∨ Token.ofWord word ∈ reserved.map (·.2) := by
  unfold Token.ofWord
  cases h : reserved.get? word with
  | none => exact .inl rfl
  | some token =>
    obtain ⟨entry, hentry, rfl⟩ := Option.map_eq_some_iff.mp h
    exact .inr (List.mem_map_of_mem (List.mem_of_find?_eq_some hentry))

theorem ofWord_ne_finish (word : String) : Token.ofWord word ≠ .finish := by
  intro h
  rcases ofWord_cases word with hname | hreserved
  · rw [h] at hname
    cases hname
  · rw [h] at hreserved
    exact absurd hreserved (by decide)

theorem exists_number_of_scanNumeral {position width : Nat} {cs : List Char} {token : Token}
    (h : Lexer.scanNumeral position cs = .ok (token, width)) : ∃ n, token = .number n := by
  have numeral : ∀ {read : Except Fault Number} {length : Nat},
      (read.map (fun n => (Token.number n, length)) |>.mapError Trouble.fault) =
        .ok (token, width) → ∃ n, token = .number n := by
    intro read length h
    obtain ⟨n, -, h⟩ := Except.map_eq_ok.mp (Except.mapError_eq_ok.mp h)
    cases h
    exact ⟨n, rfl⟩
  unfold Lexer.scanNumeral at h
  dsimp only at h
  split at h
  · cases h
  · split at h
    · split at h
      · cases h
      · exact numeral h
    · exact numeral h

theorem scan_ne_finish {position width : Nat} {c : Char} {rest : List Char} {token : Token}
    (h : Lexer.scan position c rest = .ok (token, width)) : token ≠ .finish := by
  unfold Lexer.scan at h
  split at h
  · obtain ⟨n, rfl⟩ := exists_number_of_scanNumeral h
    nofun
  · split at h
    · cases h
      exact ofWord_ne_finish _
    · repeat' split at h
      all_goals
        cases h
        try simp

theorem tokensFrom_end {position skip : Nat} {cs : List Char} {ts : List Located}
    (h : Lexer.tokensFrom position skip cs = .ok ts) :
    ∃ front, ts = front ++ [⟨.finish, position + cs.length⟩] ∧ ∀ t ∈ front, t.token ≠ .finish := by
  fun_induction Lexer.tokensFrom position skip cs generalizing ts with
  | case1 position skip =>
    cases h
    exact ⟨[], rfl, by simp⟩
  | case2 position skip c rest ih =>
    obtain ⟨front, rfl, hfront⟩ := ih h
    exact ⟨front, by simp; omega, hfront⟩
  | case3 position c rest hblank ih =>
    obtain ⟨front, rfl, hfront⟩ := ih h
    exact ⟨front, by simp; omega, hfront⟩
  | case4 position c rest hblank ih =>
    obtain ⟨⟨token, width⟩, hscan, hmore⟩ := Except.bind_eq_ok.mp h
    obtain ⟨more, hrest, hts⟩ := Except.bind_eq_ok.mp hmore
    obtain rfl := Except.pure_eq_ok.mp hts
    obtain ⟨front, rfl, hfront⟩ := ih width hrest
    refine ⟨⟨token, position⟩ :: front, by simp; omega, ?_⟩
    exact List.forall_mem_cons.mpr ⟨scan_ne_finish hscan, hfront⟩

theorem tokens_end {text : String} {ts : List Located} (h : tokens text = .ok ts) :
    ∃ front, ts = front ++ [⟨.finish, text.toList.length⟩] ∧ ∀ t ∈ front, t.token ≠ .finish := by
  obtain ⟨front, rfl, hfront⟩ := tokensFrom_end (Except.mapError_eq_ok.mp h)
  exact ⟨front, by rw [Nat.zero_add], hfront⟩

theorem eq_nil_of_tokens_eq {text : String} {front behind : List Located} {t : Located}
    (h : tokens text = .ok (front ++ t :: behind)) (ht : t.token = .finish) : behind = [] := by
  obtain ⟨init, hinit, hfinish⟩ := tokens_end h
  rcases List.eq_nil_or_concat behind with hnil | ⟨before, last, rfl⟩
  · exact hnil
  · rw [List.concat_eq_append, ← List.cons_append, ← List.append_assoc] at hinit
    have hsame : front ++ t :: before = init := List.append_inj_left' hinit rfl
    exact absurd ht (hfinish t (by simp [← hsame]))

/-! ### Places -/

theorem place_of_scanNumeral {position : Nat} {cs : List Char} {cause : Malformation}
    {place : Option Nat}
    (h : Lexer.scanNumeral position cs = .error (.malformed cause place)) :
    place = some position := by
  have numeral : ∀ {read : Except Fault Number} {length : Nat},
      (read.map (fun n => (Token.number n, length)) |>.mapError Trouble.fault) ≠
        .error (.malformed cause place) := by
    intro read length h
    obtain ⟨f, -, hf⟩ := Except.mapError_eq_error.mp h
    cases hf
  unfold Lexer.scanNumeral at h
  dsimp only at h
  split at h
  · cases h
    rfl
  · split at h
    · split at h
      · cases h
        rfl
      · exact absurd h numeral
    · exact absurd h numeral

theorem place_of_scan {position : Nat} {c : Char} {rest : List Char} {cause : Malformation}
    {place : Option Nat} (h : Lexer.scan position c rest = .error (.malformed cause place)) :
    place = some position := by
  unfold Lexer.scan at h
  split at h
  · exact place_of_scanNumeral h
  · repeat' split at h
    all_goals cases h <;> rfl

theorem place_lt_of_tokensFrom {position skip : Nat} {cs : List Char} {cause : Malformation}
    {place : Option Nat} (h : Lexer.tokensFrom position skip cs = .error (.malformed cause place)) :
    ∃ p, place = some p ∧ p < position + cs.length := by
  fun_induction Lexer.tokensFrom position skip cs with
  | case1 position skip => cases h
  | case2 position skip c rest ih =>
    obtain ⟨p, hp, hlt⟩ := ih h
    exact ⟨p, hp, by rw [List.length_cons]; omega⟩
  | case3 position c rest hblank ih =>
    obtain ⟨p, hp, hlt⟩ := ih h
    exact ⟨p, hp, by rw [List.length_cons]; omega⟩
  | case4 position c rest hblank ih =>
    rcases Except.bind_eq_error.mp h with hscan | ⟨⟨token, width⟩, -, hmore⟩
    · exact ⟨position, place_of_scan hscan, by simp⟩
    · rcases Except.bind_eq_error.mp hmore with hrest | ⟨more, -, hpure⟩
      · obtain ⟨p, hp, hlt⟩ := ih width hrest
        exact ⟨p, hp, by rw [List.length_cons]; omega⟩
      · cases hpure

theorem position_le_of_tokensFrom {position skip : Nat} {cs : List Char} {ts : List Located}
    (h : Lexer.tokensFrom position skip cs = .ok ts) :
    ∀ t ∈ ts, t.position ≤ position + cs.length := by
  fun_induction Lexer.tokensFrom position skip cs generalizing ts with
  | case1 position skip =>
    cases h
    simp
  | case2 position skip c rest ih =>
    intro t ht
    have hle := ih h t ht
    rw [List.length_cons]
    omega
  | case3 position c rest hblank ih =>
    intro t ht
    have hle := ih h t ht
    rw [List.length_cons]
    omega
  | case4 position c rest hblank ih =>
    obtain ⟨⟨token, width⟩, -, hmore⟩ := Except.bind_eq_ok.mp h
    obtain ⟨more, hrest, hts⟩ := Except.bind_eq_ok.mp hmore
    obtain rfl := Except.pure_eq_ok.mp hts
    refine List.forall_mem_cons.mpr ⟨Nat.le_add_right _ _, fun t ht => ?_⟩
    have hle := ih width hrest t ht
    rw [List.length_cons]
    omega

end Shortlist.Rule
