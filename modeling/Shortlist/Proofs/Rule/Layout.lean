import Mathlib.Data.List.Pairwise
import Mathlib.Tactic.Common
import Shortlist.Proofs.Rule.Lexeme

/-!
# Layouts

A text with tokens is cut by them into lexemes with blank gaps before, between and behind them: its
layout. A layout is sound if each of its lexemes alone is read as its token. That does not yet make
its characters be read as its tokens, since two lexemes may run into each other; for this each has
to be a lexeme in front of all that follows (`Layout.Separated`). The tokens of a text come from
just one sound layout (`tokens_partition_text`), and that one is separated.
-/

namespace Shortlist.Rule

open Text

/-- Characters as lexemes, each with the gap before it and the token it stands for, and the gap
behind them all. -/
inductive Layout
  | finish (gap : List Char)
  | piece (gap lexeme : List Char) (token : Token) (rest : Layout)

def IsGap (cs : List Char) : Prop := ∀ c ∈ cs, isBlank c = true

instance (cs : List Char) : Decidable (IsGap cs) := List.decidableBAll (isBlank · = true) cs

/-- Characters that do not end with a blank one and that are read as one token. -/
structure IsLexeme (lexeme : List Char) (token : Token) : Prop where
  nonempty : lexeme ≠ []
  reads : tokens (String.ofList lexeme) = .ok [⟨token, 0⟩, ⟨.finish, lexeme.length⟩]
  ends : ∀ c ∈ lexeme.getLast?, isBlank c = false

namespace Layout

def chars : Layout → List Char
  | finish gap => gap
  | piece gap lexeme _ rest => gap ++ (lexeme ++ rest.chars)

def gap : Layout → List Char
  | finish gap => gap
  | piece gap _ _ _ => gap

def tokens : Layout → List Token
  | finish _ => []
  | piece _ _ token rest => token :: rest.tokens

/-- The tokens of a layout that starts at a position, and the end of the text. -/
def located (position : Nat) : Layout → List Located
  | finish gap => [⟨.finish, position + gap.length⟩]
  | piece gap lexeme token rest =>
    ⟨token, position + gap.length⟩ :: rest.located (position + gap.length + lexeme.length)

/-- All gaps are blank, and each lexeme alone is read as its token. -/
def Sound : Layout → Prop
  | finish gap => IsGap gap
  | piece gap lexeme token rest => IsGap gap ∧ IsLexeme lexeme token ∧ rest.Sound

/-- All gaps are blank, and each lexeme is one in front of all that follows it. -/
def Separated : Layout → Prop
  | finish gap => IsGap gap
  | piece gap lexeme token rest =>
    IsGap gap ∧ Lexer.Lexeme lexeme token rest.chars ∧ rest.Separated

def indent (more : List Char) : Layout → Layout
  | finish gap => finish (more ++ gap)
  | piece gap lexeme token rest => piece (more ++ gap) lexeme token rest

variable {layout other : Layout} {position : Nat} {more : List Char}

theorem separated_nil : (finish []).Separated := List.forall_mem_nil _

theorem chars_indent : (layout.indent more).chars = more ++ layout.chars := by
  cases layout <;> simp [indent, chars]

theorem tokens_indent : (layout.indent more).tokens = layout.tokens := by
  cases layout <;> rfl

theorem located_indent :
    (layout.indent more).located position = layout.located (position + more.length) := by
  cases layout <;> simp [indent, located, Nat.add_assoc]

theorem Separated.indent (h : layout.Separated) (hmore : IsGap more) :
    (layout.indent more).Separated := by
  cases layout with
  | finish gap => exact List.forall_mem_append.mpr ⟨hmore, h⟩
  | piece gap lexeme token rest =>
    obtain ⟨hgap, hlexeme⟩ := h
    exact ⟨List.forall_mem_append.mpr ⟨hmore, hgap⟩, hlexeme⟩

theorem map_located : (layout.located position).map (·.token) = layout.tokens ++ [.finish] := by
  induction layout generalizing position with
  | finish gap => rfl
  | piece gap lexeme token rest ih => rw [located, List.map_cons, ih, tokens, List.cons_append]

theorem exists_chars (layout : Layout) : ∃ behind, layout.chars = layout.gap ++ behind := by
  cases layout with
  | finish gap => exact ⟨[], (List.append_nil gap).symm⟩
  | piece gap lexeme token rest => exact ⟨_, rfl⟩

theorem exists_located (layout : Layout) (position : Nat) : ∃ token behind,
    layout.located position = ⟨token, position + layout.gap.length⟩ :: behind := by
  cases layout with
  | finish gap => exact ⟨_, _, rfl⟩
  | piece gap lexeme token rest => exact ⟨_, _, rfl⟩

theorem isBlank_head {gap behind : List Char} (hgap : IsGap gap) (hne : gap ≠ []) :
    ∀ d ∈ (gap ++ behind).head?, isBlank d = true := by
  obtain ⟨c, more, rfl⟩ := List.exists_cons_of_ne_nil hne
  rintro _ ⟨⟩
  exact hgap c List.mem_cons_self

/-! ### Separated layouts are read -/

end Layout

namespace Lexer

variable {lexeme behind : List Char} {token : Token}

theorem tokensFrom_gap {gap : List Char} (hgap : IsGap gap) (position : Nat) (cs : List Char) :
    tokensFrom position 0 (gap ++ cs) = tokensFrom (position + gap.length) 0 cs := by
  induction gap generalizing position with
  | nil => rfl
  | cons c rest ih =>
    obtain ⟨hc, hrest⟩ := List.forall_mem_cons.mp hgap
    rw [List.cons_append, tokensFrom, if_pos hc, ih hrest, List.length_cons, Nat.add_assoc,
      Nat.add_comm 1]

theorem tokensFrom_lexeme (h : Lexeme lexeme token behind) (position : Nat) :
    tokensFrom position 0 (lexeme ++ behind) =
      (tokensFrom (position + lexeme.length) 0 behind).map (⟨token, position⟩ :: ·) := by
  obtain ⟨c, more, rfl⟩ := h.exists_cons
  have hblank : isBlank c = false := h.ends_apart (.inl rfl)
  have hskip := tokensFrom_skip (position + 1) more behind
  rw [List.cons_append, tokensFrom, hblank, if_neg Bool.false_ne_true,
    scan_of_lexeme h, Except.ok_bind]
  dsimp only
  rw [List.length_cons, Nat.add_sub_cancel, hskip, Nat.add_assoc, Nat.add_comm 1]
  cases tokensFrom (position + (more.length + 1)) 0 behind <;> rfl

end Lexer

namespace Layout

variable {layout other : Layout} {position : Nat}

theorem Separated.tokensFrom (h : layout.Separated) (position : Nat) :
    Lexer.tokensFrom position 0 layout.chars = .ok (layout.located position) := by
  induction layout generalizing position with
  | finish gap =>
    rw [chars, ← List.append_nil gap, Lexer.tokensFrom_gap h, List.append_nil]
    rfl
  | piece gap lexeme token rest ih =>
    obtain ⟨hgap, hlexeme, hrest⟩ := h
    rw [chars, Lexer.tokensFrom_gap hgap, Lexer.tokensFrom_lexeme hlexeme, ih hrest]
    rfl

/-- The characters of a separated layout are read as its tokens. -/
theorem Separated.tokens_eq (h : layout.Separated) :
    Rule.tokens (String.ofList layout.chars) = .ok (layout.located 0) := by
  rw [Rule.tokens, String.toList_ofList, h.tokensFrom]
  rfl

theorem exists_separated {skip : Nat} {cs : List Char} {ts : List Located}
    (h : Lexer.tokensFrom position skip cs = .ok ts) :
    ∃ layout : Layout, layout.Separated ∧ layout.chars = cs.drop skip ∧
      layout.located (position + min skip cs.length) = ts := by
  fun_induction Lexer.tokensFrom position skip cs generalizing ts with
  | case1 position skip =>
    cases h
    exact ⟨finish [], separated_nil, by simp [chars], by simp [located]⟩
  | case2 position skip c rest ih =>
    obtain ⟨layout, hseparated, hchars, rfl⟩ := ih h
    refine ⟨layout, hseparated, hchars, ?_⟩
    rw [List.length_cons, Nat.succ_min_succ, Nat.succ_eq_add_one, Nat.add_right_comm,
      Nat.add_assoc position]
  | case3 position c rest hblank ih =>
    obtain ⟨layout, hseparated, hchars, rfl⟩ := ih h
    refine ⟨layout.indent [c], hseparated.indent (by simpa [IsGap] using hblank), ?_, ?_⟩
    · rw [chars_indent, hchars]
      rfl
    · simp [located_indent]
  | case4 position c rest hblank ih =>
    obtain ⟨⟨token, width⟩, hscan, hmore⟩ := Except.bind_eq_ok.mp h
    obtain ⟨others, hothers, hts⟩ := Except.bind_eq_ok.mp hmore
    obtain rfl := Except.pure_eq_ok.mp hts
    obtain ⟨lexeme, behind, hsplit, rfl, hlexeme⟩ := Lexer.exists_lexeme_of_scan hscan
    obtain ⟨first, more, rfl⟩ := hlexeme.exists_cons
    rw [List.cons_append] at hsplit
    cases hsplit
    obtain ⟨layout, hseparated, hchars, rfl⟩ := ih _ hothers
    rw [List.length_cons, Nat.add_sub_cancel, List.drop_left] at hchars
    refine ⟨piece [] (c :: more) token layout, ?_, ?_, ?_⟩
    · exact ⟨List.forall_mem_nil _, hchars ▸ hlexeme, hseparated⟩
    · simp [chars, hchars]
    · simp [located, Nat.add_assoc, Nat.add_comm 1]

end Layout

theorem Lexer.Lexeme.isLexeme {lexeme behind : List Char} {token : Token}
    (h : Lexeme lexeme token behind) : IsLexeme lexeme token where
  nonempty := by
    obtain ⟨c, more, rfl⟩ := h.exists_cons
    exact List.cons_ne_nil c more
  reads := by
    have halone : (Layout.piece [] lexeme token (.finish [])).Separated :=
      ⟨List.forall_mem_nil _, h.before (by simp [Layout.chars]), Layout.separated_nil⟩
    simpa [Layout.chars, Layout.located] using halone.tokens_eq
  ends := fun d hd => h.ends_apart (.inr hd)

namespace Layout

variable {layout other : Layout} {position : Nat}

theorem Separated.sound (h : layout.Separated) : layout.Sound := by
  induction layout with
  | finish gap => exact h
  | piece gap lexeme token rest ih =>
    obtain ⟨hgap, hlexeme, hrest⟩ := h
    exact ⟨hgap, hlexeme.isLexeme, ih hrest⟩

/-! ### One layout for each text -/

theorem lexeme_eq_of_append_eq {lexeme lexeme' gap gap' : List Char}
    (h : lexeme ++ gap = lexeme' ++ gap') (hends : ∀ c ∈ lexeme.getLast?, isBlank c = false)
    (hends' : ∀ c ∈ lexeme'.getLast?, isBlank c = false) (hgap : IsGap gap) (hgap' : IsGap gap') :
    lexeme = lexeme' := by
  have hcut : ∀ front between behind : List Char, IsGap (between ++ behind) →
      (∀ c ∈ (front ++ between).getLast?, isBlank c = false) → between = [] := by
    intro front between behind hblank hlast
    rcases List.eq_nil_or_concat between with hnil | ⟨before, last, rfl⟩
    · exact hnil
    · have hin : isBlank last = true := hblank last (by simp)
      rw [hlast last (by simp)] at hin
      cases hin
  rcases List.append_eq_append_iff.mp h with ⟨between, rfl, rfl⟩ | ⟨between, rfl, rfl⟩
  · rw [hcut lexeme between gap' hgap hends', List.append_nil]
  · rw [hcut lexeme' between gap hgap' hends, List.append_nil]

theorem Sound.isGap (h : layout.Sound) : IsGap layout.gap := by
  cases layout with
  | finish gap => exact h
  | piece gap lexeme token rest => exact h.1

theorem append_gap_eq {lexeme lexeme' : List Char}
    (hchars : lexeme ++ layout.chars = lexeme' ++ other.chars)
    (hlocated : layout.located (position + lexeme.length) =
      other.located (position + lexeme'.length)) :
    lexeme ++ layout.gap = lexeme' ++ other.gap := by
  obtain ⟨behind, hlayout⟩ := layout.exists_chars
  obtain ⟨behind', hother⟩ := other.exists_chars
  obtain ⟨token, others, hhead⟩ := layout.exists_located (position + lexeme.length)
  obtain ⟨token', others', hhead'⟩ := other.exists_located (position + lexeme'.length)
  have hlength : position + lexeme.length + layout.gap.length =
      position + lexeme'.length + other.gap.length := by
    rw [hhead, hhead'] at hlocated
    exact congrArg Located.position (List.cons.inj hlocated).1
  rw [hlayout, hother, ← List.append_assoc, ← List.append_assoc] at hchars
  refine List.append_inj_left hchars ?_
  rw [List.length_append, List.length_append]
  omega

/-- Two sound layouts of the same characters with the same tokens at the same places are one. -/
theorem eq_of_located_eq (h : layout.Sound) (h' : other.Sound)
    (hchars : layout.chars = other.chars)
    (hlocated : layout.located position = other.located position) : layout = other := by
  induction layout generalizing other position with
  | finish gap =>
    cases other with
    | finish gap' => exact congrArg finish hchars
    | piece gap' lexeme' token' rest' =>
      obtain ⟨token, behind, hrest⟩ :=
        rest'.exists_located (position + gap'.length + lexeme'.length)
      simp [located, hrest] at hlocated
  | piece gap lexeme token rest ih =>
    cases other with
    | finish gap' =>
      obtain ⟨token, behind, hrest⟩ := rest.exists_located (position + gap.length + lexeme.length)
      simp [located, hrest] at hlocated
    | piece gap' lexeme' token' rest' =>
      obtain ⟨-, hlexeme, hrest⟩ := h
      obtain ⟨-, hlexeme', hrest'⟩ := h'
      obtain ⟨hhead, htail⟩ := List.cons.inj hlocated
      obtain ⟨rfl, hstart⟩ := Located.mk.inj hhead
      obtain ⟨rfl, hbehind⟩ := List.append_inj hchars (Nat.add_left_cancel hstart)
      obtain rfl : lexeme = lexeme' :=
        lexeme_eq_of_append_eq (append_gap_eq hbehind htail) hlexeme.ends hlexeme'.ends
          hrest.isGap hrest'.isGap
      rw [ih hrest hrest' (List.append_cancel_left hbehind) htail]

/-! ### Where the tokens stand -/

theorem le_position : ∀ t ∈ layout.located position, position ≤ t.position := by
  induction layout generalizing position with
  | finish gap => simp [located]
  | piece gap lexeme token rest ih =>
    refine List.forall_mem_cons.mpr ⟨Nat.le_add_right _ _, fun t ht => ?_⟩
    exact Nat.le_trans (by omega) (ih t ht)

theorem Sound.pairwise_position (h : layout.Sound) :
    (layout.located position).Pairwise fun t u => t.position < u.position := by
  induction layout generalizing position with
  | finish gap => exact List.pairwise_singleton _ _
  | piece gap lexeme token rest ih =>
    obtain ⟨-, hlexeme, hrest⟩ := h
    have hlength := List.length_pos_iff.mpr hlexeme.nonempty
    refine List.pairwise_cons.mpr ⟨fun t ht => ?_, ih hrest⟩
    have hstart := le_position t ht
    dsimp only
    omega

/-- The layout cuts the text into the lexemes of the tokens, with blank gaps between them. -/
structure Cuts (layout : Layout) (text : String) (ts : List Located) : Prop where
  sound : layout.Sound
  chars : layout.chars = text.toList
  located : layout.located 0 = ts

theorem exists_cuts {text : String} {ts : List Located} (h : Rule.tokens text = .ok ts) :
    ∃ layout : Layout, layout.Separated ∧ layout.Cuts text ts := by
  obtain ⟨layout, hseparated, hchars, hlocated⟩ := exists_separated (Except.mapError_eq_ok.mp h)
  exact ⟨layout, hseparated, hseparated.sound, hchars, by simpa using hlocated⟩

theorem Cuts.unique {text : String} {ts : List Located} (h : layout.Cuts text ts)
    (h' : other.Cuts text ts) : layout = other :=
  eq_of_located_eq h.sound h'.sound (h.chars.trans h'.chars.symm)
    (h.located.trans h'.located.symm)

theorem Cuts.separated {text : String} {ts : List Located} (h : layout.Cuts text ts)
    (htokens : Rule.tokens text = .ok ts) : layout.Separated := by
  obtain ⟨other, hseparated, hcuts⟩ := exists_cuts htokens
  exact h.unique hcuts ▸ hseparated

end Layout

/-- The tokens of a text cut all of it into their lexemes and blank gaps, in just one way; they
stand one behind the other, and the end of the text is the last of them and no other. -/
theorem tokens_partition_text {text : String} {ts : List Located} (h : tokens text = .ok ts) :
    (∃! layout : Layout, layout.Cuts text ts) ∧
      (∃ front, ts = front ++ [⟨.finish, text.toList.length⟩] ∧
        ∀ t ∈ front, t.token ≠ .finish) ∧
      ts.Pairwise fun t u => t.position < u.position := by
  obtain ⟨layout, -, hcuts⟩ := Layout.exists_cuts h
  refine ⟨⟨layout, hcuts, fun other hother => hother.unique hcuts⟩, tokens_end h, ?_⟩
  exact hcuts.located ▸ hcuts.sound.pairwise_position

/-- A quote inside a quoted text does not end it. -/
theorem quoted_quote_partition :
    ∃ ts, tokens "\"\\\"\"<1" = .ok ts ∧ ts.map (·.position) = [0, 4, 5, 6] ∧
      ∃! layout : Layout, layout.Cuts "\"\\\"\"<1" ts := by
  have htokens : tokens "\"\\\"\"<1" = .ok
      [⟨.text "\"", 0⟩, ⟨.operator .less, 4⟩, ⟨.number (.int 1), 5⟩, ⟨.finish, 6⟩] := rfl
  exact ⟨_, htokens, rfl, (tokens_partition_text htokens).1⟩

end Shortlist.Rule
