import Mathlib.Tactic.Common
import Shortlist.Proofs.Rule.Dependence
import Shortlist.Proofs.Rule.Layout

/-!
# Other spellings of a rule

A rule may be set with other gaps and other spellings of its operators. The text then has the same
tokens, up to the strict spellings of the equalities (`Layout.Respelled.map_folded`). A grammar that
does not tell these spellings apart derives the same trees from them (`Phrase.exists_of_folded`), so
the rule stays the same, and a text that is no rule does not become one.
-/

namespace Shortlist.Rule

open Text

/-! ### Folded tokens -/

/-- The token that a spelling stands for. -/
def Token.folded : Token → Token
  | .operator op => .operator op.folded
  | token => token

namespace Token

variable {t u : Token} {op : Operator}

theorem exists_operator_of_folded (h : t.folded = .operator op) :
    ∃ other : Operator, t = .operator other ∧ other.folded = op := by
  cases t with
  | operator other => exact ⟨other, rfl, Token.operator.inj h⟩
  | _ => cases h

theorem eq_of_folded (h : t.folded = u) (hu : ∀ op, u ≠ .operator op) : t = u := by
  cases t with
  | operator other => exact absurd h.symm (hu _)
  | _ => exact h

end Token

theorem Tier.joining_folded (tier : Tier) (op : Operator) :
    tier.joining op.folded = tier.joining op := by
  cases tier <;> cases op <;> rfl

theorem Tier.mem_operators_of_folded {tier : Tier} {op other : Operator}
    {node : Expr → Expr → Expr} (h : (op, node) ∈ tier.operators)
    (hfolded : other.folded = op.folded) : (other, node) ∈ tier.operators := by
  rw [← joining_eq_some_iff] at h ⊢
  rw [← tier.joining_folded, hfolded, tier.joining_folded, h]

theorem mem_signs_of_folded {op other : Operator} {node : UnaryOp} (h : (op, node) ∈ signs)
    (hfolded : other.folded = op.folded) : (other, node) ∈ signs := by
  have hsign : ∀ op : Operator, sign? op.folded = sign? op := by
    intro op
    cases op <;> rfl
  rw [← sign?_eq_some_iff] at h ⊢
  rw [← hsign, hfolded, hsign, h]

theorem eq_negation_of_folded {op : Operator} (h : op.folded = .negation) : op = .negation := by
  cases op <;> first | rfl | cases h

/-- Tokens that are those of a phrase up to their spelling have a phrase with the same tree. -/
theorem Phrase.exists_of_folded {c : Category} (p : Phrase c) {us : List Token}
    (h : us.map Token.folded = p.tokens.map Token.folded) :
    ∃ q : Phrase c, q.tokens = us ∧ q.tree = p.tree ∧ q.enclosures = p.enclosures := by
  induction p generalizing us with
  | operand tier only ih =>
    obtain ⟨q, rfl, htree, hdepth⟩ := ih h
    exact ⟨.operand tier q, rfl, htree, hdepth⟩
  | join tier op node hop left right ihl ihr =>
    rw [tokens, List.map_append, List.map_cons] at h
    obtain ⟨front, more, rfl, hfront, hmore⟩ := List.map_eq_append_iff.mp h
    obtain ⟨t, back, rfl, ht, hback⟩ := List.map_eq_cons_iff.mp hmore
    obtain ⟨other, rfl, hother⟩ := Token.exists_operator_of_folded ht
    obtain ⟨l, rfl, hltree, hldepth⟩ := ihl hfront
    obtain ⟨r, rfl, hrtree, hrdepth⟩ := ihr hback
    refine ⟨.join tier other node (Tier.mem_operators_of_folded hop hother) l r, rfl, ?_, ?_⟩
    · rw [tree, tree, hltree, hrtree]
    · rw [enclosures, enclosures, hldepth, hrdepth]
  | negation inner ih =>
    obtain ⟨t, back, rfl, ht, hback⟩ := List.map_eq_cons_iff.mp h
    obtain ⟨other, rfl, hother⟩ := Token.exists_operator_of_folded ht
    obtain rfl := eq_negation_of_folded hother
    obtain ⟨q, rfl, htree, hdepth⟩ := ih hback
    exact ⟨.negation q, rfl, by rw [tree, tree, htree], by rw [enclosures, enclosures, hdepth]⟩
  | comparison only ih =>
    obtain ⟨q, rfl, htree, hdepth⟩ := ih h
    exact ⟨.comparison q, rfl, htree, hdepth⟩
  | sign op node hsign inner ih =>
    obtain ⟨t, back, rfl, ht, hback⟩ := List.map_eq_cons_iff.mp h
    obtain ⟨other, rfl, hother⟩ := Token.exists_operator_of_folded ht
    obtain ⟨q, rfl, htree, hdepth⟩ := ih hback
    refine ⟨.sign other node (mem_signs_of_folded hsign hother) q, rfl, ?_, ?_⟩
    · rw [tree, tree, htree]
    · rw [enclosures, enclosures, hdepth]
  | primary only ih =>
    obtain ⟨q, rfl, htree, hdepth⟩ := ih h
    exact ⟨.primary q, rfl, htree, hdepth⟩
  | literal l =>
    obtain ⟨t, rfl, ht⟩ := List.map_eq_singleton_iff.mp h
    have hsame : t = l.token := Token.eq_of_folded (ht.trans (by cases l <;> rfl))
      (by cases l <;> exact fun op => Token.noConfusion)
    exact ⟨.literal l, by rw [tokens, hsame], rfl, rfl⟩
  | name s =>
    obtain ⟨t, rfl, ht⟩ := List.map_eq_singleton_iff.mp h
    obtain rfl := Token.eq_of_folded ht fun op => Token.noConfusion
    exact ⟨.name s, rfl, rfl, rfl⟩
  | parens inner ih =>
    rw [tokens, List.map_append, List.map_cons] at h
    obtain ⟨front, back, rfl, hfront, hback⟩ := List.map_eq_append_iff.mp h
    obtain ⟨l, middle, rfl, hl, hmiddle⟩ := List.map_eq_cons_iff.mp hfront
    obtain ⟨r, rfl, hr⟩ := List.map_eq_singleton_iff.mp hback
    obtain rfl := Token.eq_of_folded hl fun op => Token.noConfusion
    obtain rfl := Token.eq_of_folded hr fun op => Token.noConfusion
    obtain ⟨q, rfl, htree, hdepth⟩ := ih hmiddle
    exact ⟨.parens q, rfl, htree, by rw [enclosures, enclosures, hdepth]⟩

theorem Grammatical.of_folded {ts us : List Located} {tree : Expr} (h : Grammatical ts tree)
    (hfolded : us.map (·.token.folded) = ts.map (·.token.folded)) : Grammatical us tree := by
  obtain ⟨hlength, p, hts, rfl, hdepth⟩ := h
  have hus : (us.map (·.token)).map Token.folded = p.tokens.map Token.folded ++ [.finish] := by
    rw [List.map_map]
    refine hfolded.trans ?_
    rw [← Function.comp_def Token.folded, ← List.map_map, hts, List.map_append]
    rfl
  obtain ⟨front, back, hsplit, hfront, hback⟩ := List.map_eq_append_iff.mp hus
  obtain ⟨t, rfl, ht⟩ := List.map_eq_singleton_iff.mp hback
  obtain rfl := Token.eq_of_folded ht fun op => Token.noConfusion
  obtain ⟨q, rfl, htree, henclosures⟩ := p.exists_of_folded hfront
  refine ⟨?_, q, hsplit, htree, ?_⟩
  · have hsame := congrArg List.length hfolded
    rw [List.length_map, List.length_map] at hsame
    rwa [hsame]
  · rwa [Phrase.Within, henclosures]

/-! ### Texts with the same tokens -/

section Texts

variable {text other : String} {ts us : List Located}

theorem parse_of_folded (h : tokens text = .ok ts) (h' : tokens other = .ok us)
    (hfolded : us.map (·.token.folded) = ts.map (·.token.folded)) {tree : Expr}
    (hparse : parse text = .ok tree) : parse other = .ok tree := by
  obtain ⟨ts', hts', hgrammatical⟩ := grammatical_of_parse hparse
  obtain rfl : ts = ts' := by simpa [h] using hts'
  exact parse_of_grammatical h' (hgrammatical.of_folded hfolded)

theorem truthOf_of_not_parse (h : tokens text = .ok ts) (hnone : ∀ tree, parse text ≠ .ok tree)
    (A : Assignment) (D : List String) : truthOf text A D = .ok .fails := by
  have hparse : parse text = (Expr.ofTokens ts).mapError (Trouble.inText text) := by
    rw [parse, h, Except.ok_bind]
  cases hread : Expr.ofTokens ts with
  | ok tree => exact absurd (by rw [hparse, hread]; rfl) (hnone tree)
  | error trouble =>
    obtain ⟨cause, position, rfl⟩ := ofTokens_refuses hread
    rw [truthOf, judgeText, read, hparse, hread]
    rfl

/-- Texts that are read as the same tree, or both as none, are judged the same. -/
theorem truthOf_eq_of_parse (h : tokens text = .ok ts) (h' : tokens other = .ok us)
    (hparse : ∀ tree, parse other = .ok tree ↔ parse text = .ok tree) (A : Assignment)
    (D : List String) : truthOf other A D = truthOf text A D := by
  by_cases hsome : ∃ tree, parse text = .ok tree
  · obtain ⟨tree, htree⟩ := hsome
    obtain ⟨rule, hread, hrule⟩ := exists_read_of_parse htree
    obtain ⟨rule', hread', hrule'⟩ := exists_read_of_parse ((hparse tree).mpr htree)
    have hnames : rule'.names = rule.names := by
      rw [names_of_read hread, names_of_read hread', hrule, hrule']
    rw [truthOf_of_read hread, truthOf_of_read hread', judge, judge, dependencies, dependencies,
      hnames, hrule, hrule']
  · have hnone : ∀ tree, parse text ≠ .ok tree := fun tree htree => hsome ⟨tree, htree⟩
    rw [truthOf_of_not_parse h hnone,
      truthOf_of_not_parse h' fun tree htree => hnone tree ((hparse tree).mp htree)]

end Texts

/-! ### Respelled layouts -/

def respellings : List (String × Operator) :=
  [("and", .both), ("or", .either), ("not", .negation), ("===", .equal), ("!==", .unequal)]

/-- The layout with other gaps, none of them empty that was not, and with some operators in another
spelling, which stands apart from what is before and behind it. -/
inductive Layout.Respelled : Layout → Layout → Prop
  | finish {gap gap' : List Char} (hgap : IsGap gap') (hkept : gap ≠ [] → gap' ≠ []) :
      Respelled (finish gap) (finish gap')
  | keep {gap gap' lexeme : List Char} {token : Token} {rest rest' : Layout} (hgap : IsGap gap')
      (hkept : gap ≠ [] → gap' ≠ []) (h : Respelled rest rest') :
      Respelled (piece gap lexeme token rest) (piece gap' lexeme token rest')
  | replace {gap gap' : List Char} {token : Token} {rest rest' : Layout} {word : String}
      {op : Operator} (hword : (word, op) ∈ respellings) (hgap : IsGap gap') (hfront : gap' ≠ [])
      (hbehind : rest'.gap ≠ []) (h : Respelled rest rest') :
      Respelled (piece gap word.toList token rest)
        (piece gap' op.spelling.toList (.operator op) rest')

theorem folded_of_respelling {word : String} {op : Operator} {token : Token}
    (hword : (word, op) ∈ respellings) (h : IsLexeme word.toList token) :
    token.folded = .operator op := by
  have hreads : ∃ read, tokens (String.ofList word.toList) =
      .ok [⟨read, 0⟩, ⟨.finish, word.toList.length⟩] ∧ read.folded = .operator op := by
    simp only [respellings, List.mem_cons, Prod.mk.injEq, List.not_mem_nil, or_false] at hword
    rcases hword with ⟨rfl, rfl⟩ | ⟨rfl, rfl⟩ | ⟨rfl, rfl⟩ | ⟨rfl, rfl⟩ | ⟨rfl, rfl⟩
    all_goals exact ⟨_, rfl, rfl⟩
  obtain ⟨read, hread, hfolded⟩ := hreads
  have hsame := h.reads.symm.trans hread
  obtain rfl : token = read := by simpa using hsame
  exact hfolded

namespace Layout

variable {layout after : Layout}

theorem Respelled.head (h : layout.Respelled after) (hsound : layout.Sound) :
    ∀ d ∈ after.chars.head?, isBlank d = true ∨ d ∈ layout.chars.head? := by
  cases h with
  | finish hgap hkept =>
    exact fun d hd => .inl (hgap d (List.mem_of_mem_head? hd))
  | @keep gap gap' lexeme token rest rest' hgap hkept hrest =>
    by_cases hempty : gap' = []
    · obtain ⟨c, more, rfl⟩ := List.exists_cons_of_ne_nil hsound.2.1.nonempty
      obtain rfl : gap = [] := by
        by_contra hne
        exact hkept hne hempty
      exact fun d hd => .inr (by simpa [chars, hempty] using hd)
    · exact fun d hd => .inl (isBlank_head hgap hempty d hd)
  | replace hword hgap hfront hbehind hrest =>
    exact fun d hd => .inl (isBlank_head hgap hfront d hd)

/-- No lexeme runs into another one after a change of gaps and spellings. -/
theorem Respelled.separated (h : layout.Respelled after) (hlayout : layout.Separated) :
    after.Separated := by
  induction h with
  | finish hgap hkept => exact hgap
  | keep hgap hkept h ih =>
    obtain ⟨-, hlexeme, hrest⟩ := hlayout
    exact ⟨hgap, hlexeme.before fun d hd =>
      (h.head hrest.sound d hd).imp_left Lexer.closes_of_isBlank, ih hrest⟩
  | @replace gap gap' token rest rest' word op hword hgap hfront hbehind h ih =>
    have hrest := ih hlayout.2.2
    obtain ⟨behind, hchars⟩ := rest'.exists_chars
    exact ⟨hgap, Lexer.lexeme_operator op fun d hd => Lexer.closes_of_isBlank
      (isBlank_head hrest.sound.isGap hbehind d (hchars ▸ hd)), hrest⟩

theorem Respelled.map_folded (h : layout.Respelled after) (hsound : layout.Sound) :
    after.tokens.map Token.folded = layout.tokens.map Token.folded := by
  induction h with
  | finish hgap hkept => rfl
  | keep hgap hkept h ih => rw [tokens, tokens, List.map_cons, List.map_cons, ih hsound.2.2]
  | @replace gap gap' token rest rest' word op hword hgap hfront hbehind h ih =>
    have hop : op.folded = op := by
      revert hword
      cases op <;> simp [respellings, Operator.folded]
    rw [tokens, tokens, List.map_cons, List.map_cons, ih hsound.2.2,
      folded_of_respelling hword hsound.2.1, Token.folded, hop]

end Layout

/-- Other gaps and other spellings of the operators keep the tokens of a text up to the spelling of
the equalities, and its tree and judgement, or its being no rule. -/
theorem respelling_keeps_rule {text : String} {ts : List Located} {layout after : Layout}
    (h : tokens text = .ok ts) (hlayout : layout.Cuts text ts) (hafter : layout.Respelled after) :
    (∃ us, tokens (String.ofList after.chars) = .ok us ∧
        us.map (·.token.folded) = ts.map (·.token.folded)) ∧
      (∀ tree, parse (String.ofList after.chars) = .ok tree ↔ parse text = .ok tree) ∧
      ∀ A D, truthOf (String.ofList after.chars) A D = truthOf text A D := by
  have hseparated := hlayout.separated h
  have htokens := (hafter.separated hseparated).tokens_eq
  have hfolded : (after.located 0).map (·.token.folded) = ts.map (·.token.folded) := by
    rw [← hlayout.located, ← Function.comp_def Token.folded, ← List.map_map, ← List.map_map,
      Layout.map_located, Layout.map_located, List.map_append, List.map_append,
      hafter.map_folded hlayout.sound]
  have hparse : ∀ tree, parse (String.ofList after.chars) = .ok tree ↔ parse text = .ok tree :=
    fun tree => ⟨parse_of_folded htokens h hfolded.symm, parse_of_folded h htokens hfolded⟩
  exact ⟨⟨_, htokens, hfolded⟩, hparse, truthOf_eq_of_parse h htokens hparse⟩

/-- Of `not a===1` the operators get their other spellings and the gaps grow. -/
theorem negated_equality_respelled :
    ∃ tree, parse "not a===1" = .ok tree ∧ parse " ! a\n== 1" = .ok tree ∧
      ∀ A D, truthOf " ! a\n== 1" A D = truthOf "not a===1" A D := by
  let one : Layout := .piece [] ['1'] (.number (.int 1)) (.finish [])
  let layout : Layout :=
    .piece [] "not".toList (.operator .negation) <| .piece [' '] ['a'] (.name "a") <|
    .piece [] "===".toList (.operator .strictEqual) one
  let after : Layout :=
    .piece [' '] "!".toList (.operator .negation) <| .piece [' '] ['a'] (.name "a") <|
    .piece ['\n'] "==".toList (.operator .equal) (one.indent [' '])
  have hsound : layout.Sound := by
    refine ⟨by decide, ⟨by decide, rfl, ?_⟩, by decide, ⟨by decide, rfl, ?_⟩, by decide,
      ⟨by decide, rfl, ?_⟩, by decide, ⟨by decide, rfl, ?_⟩, List.forall_mem_nil _⟩
    all_goals
      rintro _ ⟨⟩
      rfl
  have hnot : ("not", Operator.negation) ∈ respellings := by decide
  have hequal : ("===", Operator.equal) ∈ respellings := by decide
  have hafter : layout.Respelled after :=
    .replace hnot (by decide) (by decide) (by decide) <| .keep (by decide) (by decide) <|
    .replace hequal (by decide) (by decide) (by decide) <| .keep (by decide) (by decide) <|
    .finish (by decide) (by decide)
  have hparse : parse "not a===1" = .ok (.unary .negation
      (.binary .equal (.name "a") (.literal (.number (.int 1))))) := rfl
  have hlayout : layout.Cuts "not a===1" (layout.located 0) := ⟨hsound, rfl, rfl⟩
  obtain ⟨-, hsame, htruth⟩ := respelling_keeps_rule rfl hlayout hafter
  exact ⟨_, hparse, (hsame _).mpr hparse, htruth⟩

end Shortlist.Rule
