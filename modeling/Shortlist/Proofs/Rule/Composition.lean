import Mathlib.Tactic.Common
import Shortlist.Proofs.Rule.Layout
import Shortlist.Proofs.Rule.Yield

/-!
# Rules made of rules

Texts of rules are put together by writing them in parentheses. Whatever a text ends with, its
lexemes end before a parenthesis, so the whole has the tokens of the parts and those written around
them (`Layout.Separated.append`). In parentheses the tokens of each part are an operand of every
operator, with one more enclosure. So the whole is read as the node of the trees of its parts, if it
is neither too long nor too deep.
-/

namespace Shortlist.Rule

open Text

def connected (op : Connective) (e f : String) : String :=
  "(" ++ e ++ ") " ++ op.operator.spelling ++ " (" ++ f ++ ")"

def negated (e : String) : String := "!(" ++ e ++ ")"

/-! ### Tokens of a text -/

/-- The text is read as the tokens and its end. -/
def Spells (text : String) (front : List Token) : Prop :=
  ∃ ts, tokens text = .ok ts ∧ ts.map (·.token) = front ++ [.finish]

def HasRoom (text : String) : Prop := ∃ ts, tokens text = .ok ts ∧ ts.length ≤ 512

/-- The text is a sentence with no token that is enclosed more often than a number of times. -/
def NestsWithin (depth : Nat) (text : String) : Prop :=
  ∃ p : Sentence, Spells text p.tokens ∧ p.Within depth

variable {text : String} {front : List Token} {depth : Nat}

theorem spells_iff_layout : Spells text front ↔
    ∃ layout : Layout, layout.Separated ∧ layout.chars = text.toList ∧ layout.tokens = front := by
  constructor
  · rintro ⟨ts, hts, hfront⟩
    obtain ⟨layout, hseparated, -, hchars, rfl⟩ := Layout.exists_cuts hts
    rw [Layout.map_located] at hfront
    exact ⟨layout, hseparated, hchars, List.append_cancel_right hfront⟩
  · rintro ⟨layout, hseparated, hchars, rfl⟩
    refine ⟨layout.located 0, ?_, Layout.map_located⟩
    rw [← hseparated.tokens_eq, hchars, String.ofList_toList]

theorem exists_spells_of_parse {tree : Expr} (h : parse text = .ok tree) :
    ∃ p : Sentence, Spells text p.tokens ∧ p.tree = tree := by
  obtain ⟨ts, hts, -, p, htokens, htree, -⟩ := grammatical_of_parse h
  exact ⟨p, ⟨ts, hts, htokens⟩, htree⟩

theorem Spells.unique {other : List Token} (h : Spells text front) (h' : Spells text other) :
    front = other := by
  obtain ⟨ts, hts, hfront⟩ := h
  obtain ⟨ts', hts', hother⟩ := h'
  obtain rfl : ts = ts' := by simpa [hts] using hts'
  exact List.append_cancel_right (hfront.symm.trans hother)

theorem Spells.hasRoom (h : Spells text front) (hlength : front.length < 512) : HasRoom text := by
  obtain ⟨ts, hts, hfront⟩ := h
  refine ⟨ts, hts, ?_⟩
  rwa [← List.length_map (·.token), hfront, List.length_append, List.length_singleton]

/-- The sentence by which a rule nests within a depth has the tree of the rule. -/
theorem NestsWithin.exists_sentence {tree : Expr} (h : NestsWithin depth text)
    (hparse : parse text = .ok tree) :
    ∃ p : Sentence, Spells text p.tokens ∧ p.tree = tree ∧ p.Within depth := by
  obtain ⟨p, hp, hdepth⟩ := h
  obtain ⟨q, hq, rfl⟩ := exists_spells_of_parse hparse
  exact ⟨p, hp, Phrase.tree_eq_of_tokens_eq (hp.unique hq), hdepth⟩

theorem Spells.parse {p : Sentence} (h : Spells text p.tokens) (hroom : HasRoom text)
    (hdepth : p.Within 32) : parse text = .ok p.tree := by
  obtain ⟨ts, hts, hfront⟩ := h
  obtain ⟨ts', hts', hlength⟩ := hroom
  obtain rfl : ts = ts' := by simpa [hts] using hts'
  exact parse_of_grammatical hts ⟨hlength, p, hfront, rfl, hdepth⟩

/-! ### Layouts behind one another -/

namespace Layout

variable {layout next : Layout}

def append : Layout → Layout → Layout
  | finish gap, next => next.indent gap
  | piece gap lexeme token rest, next => piece gap lexeme token (rest.append next)

theorem chars_append : (layout.append next).chars = layout.chars ++ next.chars := by
  induction layout with
  | finish gap => exact chars_indent
  | piece gap lexeme token rest ih => simp [append, chars, ih]

theorem tokens_append : (layout.append next).tokens = layout.tokens ++ next.tokens := by
  induction layout with
  | finish gap => exact tokens_indent
  | piece gap lexeme token rest ih => simp [append, tokens, ih]

/-- No lexeme runs into what is behind the layout, if that starts with nothing a lexeme goes on
with. -/
theorem Separated.append (h : layout.Separated) (hnext : next.Separated)
    (hcloses : ∀ d ∈ next.chars.head?, Lexer.Closes d) : (layout.append next).Separated := by
  induction layout with
  | finish gap => exact hnext.indent h
  | piece gap lexeme token rest ih =>
    obtain ⟨hgap, hlexeme, hrest⟩ := h
    refine ⟨hgap, hlexeme.before fun d hd => ?_, ih hrest⟩
    rw [chars_append] at hd
    cases hchars : rest.chars with
    | nil =>
      rw [hchars, List.nil_append] at hd
      exact .inl (hcloses d hd)
    | cons c more =>
      rw [hchars] at hd
      exact .inr hd

def enclose (layout next : Layout) : Layout :=
  piece [] ['('] .leftParen (layout.append (piece [] [')'] .rightParen next))

theorem chars_enclose :
    (layout.enclose next).chars = '(' :: layout.chars ++ ')' :: next.chars := by
  simp [enclose, chars, chars_append]

theorem tokens_enclose :
    (layout.enclose next).tokens = .leftParen :: layout.tokens ++ .rightParen :: next.tokens := by
  simp [enclose, tokens, tokens_append]

theorem Separated.enclose (h : layout.Separated) (hnext : next.Separated) :
    (layout.enclose next).Separated := by
  have hright : (piece [] [')'] .rightParen next).Separated :=
    ⟨List.forall_mem_nil _, .rightParen, hnext⟩
  refine ⟨List.forall_mem_nil _, .leftParen, h.append hright ?_⟩
  rintro _ ⟨⟩
  exact ⟨by decide, by decide, by decide⟩

end Layout

section Texts

variable {e f : String} {es fs : List Token}

/-- The tokens of two rules in parentheses are their tokens and those around them. -/
theorem Spells.connected (he : Spells e es) (hf : Spells f fs) (op : Connective) :
    Spells (connected op e f) ((.leftParen :: es ++ [.rightParen]) ++ .operator op.operator ::
      (.leftParen :: fs ++ [.rightParen])) := by
  obtain ⟨left, hleft, hleftChars, rfl⟩ := spells_iff_layout.mp he
  obtain ⟨right, hright, hrightChars, rfl⟩ := spells_iff_layout.mp hf
  let behind : Layout := (right.enclose (.finish [])).indent [' ']
  have hbehind : behind.Separated := (hright.enclose Layout.separated_nil).indent (by decide)
  have hop : (Layout.piece [' '] op.operator.spelling.toList (.operator op.operator)
      behind).Separated := by
    refine ⟨by decide, Lexer.lexeme_operator op.operator fun d hd => ?_, hbehind⟩
    rw [Layout.chars_indent] at hd
    exact Lexer.closes_of_isBlank (Layout.isBlank_head (by decide) (by decide) d hd)
  refine spells_iff_layout.mpr ⟨_, hleft.enclose hop, ?_, ?_⟩
  · simp [behind, Layout.chars_enclose, Layout.chars_indent, Layout.chars, hleftChars, hrightChars,
      Rule.connected, String.toList_append]
  · simp [behind, Layout.tokens_enclose, Layout.tokens_indent, Layout.tokens]

theorem Spells.negated (h : Spells e es) :
    Spells (negated e) (.operator .negation :: (.leftParen :: es ++ [.rightParen])) := by
  obtain ⟨layout, hlayout, hchars, rfl⟩ := spells_iff_layout.mp h
  let behind : Layout := layout.enclose (.finish [])
  have hbehind : behind.Separated := hlayout.enclose Layout.separated_nil
  refine spells_iff_layout.mpr ⟨.piece [] ['!'] (.operator .negation) behind,
    ⟨List.forall_mem_nil _, Lexer.lexeme_operator .negation ?_, hbehind⟩, ?_, ?_⟩
  · rintro _ ⟨⟩
    exact ⟨by decide, by decide, by decide⟩
  · simp [behind, Layout.chars_enclose, Layout.chars, hchars, Rule.negated, String.toList_append]
  · simp [behind, Layout.tokens_enclose, Layout.tokens]

end Texts

/-! ### Equations -/

theorem spells_equation {left right : List Char} {s t : Token} (hleft : Lexer.Lexeme left s [])
    (hright : Lexer.Lexeme right t []) :
    Spells (String.ofList (left ++ " == ".toList ++ right)) [s, .operator .equal, t] := by
  have hblank : ∀ {behind : List Char}, ∀ d ∈ (' ' :: behind).head?, Lexer.Closes d := by
    rintro behind _ ⟨⟩
    exact Lexer.closes_of_isBlank (by decide)
  let last : Layout := .piece [' '] right t (.finish [])
  let middle : Layout := .piece [' '] Operator.equal.spelling.toList (.operator .equal) last
  have hlast : last.Separated := ⟨by decide, hright, Layout.separated_nil⟩
  have hmiddle : middle.Separated := ⟨by decide, Lexer.lexeme_operator .equal hblank, hlast⟩
  have hfirst : Lexer.Lexeme left s middle.chars := hleft.before fun d hd => .inl (hblank d hd)
  refine spells_iff_layout.mpr
    ⟨.piece [] left s middle, ⟨List.forall_mem_nil _, hfirst, hmiddle⟩, ?_, rfl⟩
  simp [middle, last, Layout.chars, Operator.spelling]

theorem parse_of_spells_equation {x y : Phrase .primary} (hx : x.enclosures = [0])
    (hy : y.enclosures = [0]) (h : Spells text (x.tokens ++ .operator .equal :: y.tokens)) :
    parse text = .ok (.binary .equal x.tree y.tree) := by
  let p : Sentence := .operand .disjunction <| .operand .conjunction <| .comparison <|
    .join .comparison .equal (.binary .equal) (by simp [Tier.operators])
      (.operand .comparison x.side) y.side
  have hspells : Spells text p.tokens := h
  have henclosures : p.enclosures = [0, 0, 0] := by
    change x.enclosures ++ 0 :: y.enclosures = [0, 0, 0]
    rw [hx, hy]
    rfl
  have hlength : p.tokens.length < 512 := by
    rw [← p.length_enclosures, henclosures]
    decide
  have hdepth : p.Within 32 := by
    rw [Phrase.Within, henclosures]
    decide
  exact hspells.parse (hspells.hasRoom hlength) hdepth

/-! ### Sentences of sentences -/

theorem Tier.both_mem_operators :
    (Operator.both, Expr.connect .both) ∈ Tier.conjunction.operators := List.mem_singleton_self _

theorem Tier.either_mem_operators :
    (Operator.either, Expr.connect .either) ∈ Tier.disjunction.operators :=
  List.mem_singleton_self _

namespace Phrase

/-- A sentence in parentheses as an operand of `&&`. -/
def enclosed (p : Sentence) : Phrase .negated := .comparison (.operand .comparison p.parens.side)

theorem tokens_enclosed (p : Sentence) :
    p.enclosed.tokens = .leftParen :: p.tokens ++ [.rightParen] := rfl

theorem Within.enclosed {p : Sentence} (h : p.Within depth) : p.enclosed.Within (depth + 1) := by
  intro n hn
  change n ∈ 0 :: p.enclosures.map (· + 1) ++ [0] at hn
  simp only [List.cons_append, List.mem_cons, List.mem_append, List.mem_map, List.not_mem_nil,
    or_false] at hn
  rcases hn with rfl | ⟨m, hm, rfl⟩ | rfl
  · exact Nat.zero_le _
  · exact Nat.succ_le_succ (h m hm)
  · exact Nat.zero_le _

def connect (p q : Sentence) : Connective → Sentence
  | .both => .operand .disjunction (.join .conjunction .both _ Tier.both_mem_operators
      (.operand .conjunction p.enclosed) q.enclosed)
  | .either => .join .disjunction .either _ Tier.either_mem_operators
      (.operand .disjunction (.operand .conjunction p.enclosed)) (.operand .conjunction q.enclosed)

variable {p q : Sentence}

theorem tokens_connect (op : Connective) : (p.connect q op).tokens =
    p.enclosed.tokens ++ .operator op.operator :: q.enclosed.tokens := by
  cases op <;> rfl

theorem tree_connect (op : Connective) : (p.connect q op).tree = .connect op p.tree q.tree := by
  cases op <;> rfl

theorem Within.connect (hp : p.Within depth) (hq : q.Within depth) (op : Connective) :
    (p.connect q op).Within (depth + 1) := by
  have henclosures : (p.connect q op).enclosures =
      p.enclosed.enclosures ++ 0 :: q.enclosed.enclosures := by
    cases op <;> rfl
  rw [Within, henclosures]
  exact List.forall_mem_append.mpr ⟨hp.enclosed,
    List.forall_mem_cons.mpr ⟨Nat.zero_le _, hq.enclosed⟩⟩

def negate (p : Sentence) : Sentence :=
  .operand .disjunction (.operand .conjunction (.negation p.enclosed))

theorem Within.negate (h : p.Within depth) : p.negate.Within (depth + 2) := by
  refine List.forall_mem_cons.mpr ⟨Nat.zero_le _, List.forall_mem_map.mpr fun n hn => ?_⟩
  exact Nat.succ_le_succ (h.enclosed n hn)

end Phrase

/-- Two rules in parentheses with a connective between them are read as their tokens between the
parentheses and, if they are neither too long nor too deep, as the node of their trees; likewise a
rule in parentheses behind a negation. -/
theorem rules_compose {e f : String} {E F : Expr} (he : parse e = .ok E) (hf : parse f = .ok F) :
    ∃ es fs, Spells e es ∧ Spells f fs ∧
      (∀ op, Spells (connected op e f) ((.leftParen :: es ++ [.rightParen]) ++
          .operator op.operator :: (.leftParen :: fs ++ [.rightParen])) ∧
        (NestsWithin 31 e → NestsWithin 31 f → HasRoom (connected op e f) →
          parse (connected op e f) = .ok (.connect op E F))) ∧
      Spells (negated e) (.operator .negation :: (.leftParen :: es ++ [.rightParen])) ∧
      (NestsWithin 30 e → HasRoom (negated e) →
        parse (negated e) = .ok (.unary .negation E)) := by
  obtain ⟨p, hp, -⟩ := exists_spells_of_parse he
  obtain ⟨q, hq, -⟩ := exists_spells_of_parse hf
  refine ⟨p.tokens, q.tokens, hp, hq, fun op => ⟨hp.connected hq op, ?_⟩, hp.negated, ?_⟩
  · intro hedepth hfdepth hroom
    obtain ⟨p, hp, rfl, hpdepth⟩ := hedepth.exists_sentence he
    obtain ⟨q, hq, rfl, hqdepth⟩ := hfdepth.exists_sentence hf
    have hspells := hp.connected hq op
    rw [← Phrase.tokens_enclosed, ← Phrase.tokens_enclosed, ← Phrase.tokens_connect] at hspells
    rw [hspells.parse hroom (hpdepth.connect hqdepth op), Phrase.tree_connect]
  · intro hdepth hroom
    obtain ⟨p, hp, rfl, hpdepth⟩ := hdepth.exists_sentence he
    have hspells : Spells (negated e) p.negate.tokens := hp.negated
    exact hspells.parse hroom hpdepth.negate

/-- A quoted parenthesis does not end the part that it stands in. -/
theorem quoted_parenthesis_stays :
    parse (connected .either "a<\")\"" "b") = .ok (.connect .either
        (.binary (.order .less) (.name "a") (.literal (.text ")"))) (.name "b")) ∧
      parse (negated "a<\")\"") = .ok (.unary .negation
        (.binary (.order .less) (.name "a") (.literal (.text ")")))) := by
  let p : Sentence := .operand .disjunction <| .operand .conjunction <| .comparison <|
    .join .comparison .less (.binary (.order .less)) (by simp [Tier.operators])
      (.operand .comparison (.side (.name "a"))) (.side (.literal (.text ")")))
  let q : Sentence := .operand .disjunction <| .operand .conjunction <| .comparison <|
    .operand .comparison (.side (.name "b"))
  have hp : tokens "a<\")\"" =
      .ok [⟨.name "a", 0⟩, ⟨.operator .less, 1⟩, ⟨.text ")", 2⟩, ⟨.finish, 5⟩] := rfl
  have hq : tokens "b" = .ok [⟨.name "b", 0⟩, ⟨.finish, 1⟩] := rfl
  have he : parse "a<\")\"" = .ok p.tree :=
    parse_of_grammatical hp ⟨by decide, p, rfl, rfl, by decide⟩
  have hf : parse "b" = .ok q.tree := parse_of_grammatical hq ⟨by decide, q, rfl, rfl, by decide⟩
  obtain ⟨es, fs, hes, hfs, hconnected, hspells, hnegated⟩ := rules_compose he hf
  obtain rfl : es = p.tokens := hes.unique ⟨_, hp, rfl⟩
  obtain rfl : fs = q.tokens := hfs.unique ⟨_, hq, rfl⟩
  obtain ⟨hspells', heither⟩ := hconnected .either
  exact ⟨heither ⟨p, hes, by decide⟩ ⟨q, hfs, by decide⟩ (hspells'.hasRoom (by decide)),
    hnegated ⟨p, hes, by decide⟩ (hspells.hasRoom (by decide))⟩

end Shortlist.Rule
