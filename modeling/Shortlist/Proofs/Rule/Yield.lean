import Mathlib.Tactic.Common
import Shortlist.Proofs.Rule.Parsing
import Shortlist.Rule.Basic

/-!
# What a tree leaves of its tokens

Read from left to right, the leaves and operators of a tree are the tokens it was read from, without
the parentheses and with the strict spellings of the equalities folded into the plain ones. So no
token is dropped or doubled on the way. What the rest of the proofs need of it is `names_of_read`:
the names that a rule lists are those of its tree, in order of first use. A tree is also no larger
than its text, so the bound on the tokens of a rule bounds the height of its tree.
-/

namespace Shortlist.Rule

def Operator.folded : Operator → Operator
  | .strictEqual => .equal
  | .strictUnequal => .unequal
  | op => op

def Token.kept? : Token → Option Token
  | .leftParen => none
  | .rightParen => none
  | .finish => none
  | .operator op => some (.operator op.folded)
  | token => some token

def kept (ts : List Token) : List Token := ts.filterMap Token.kept?

theorem kept_append (front back : List Token) : kept (front ++ back) = kept front ++ kept back :=
  List.filterMap_append

def Connective.operator : Connective → Operator
  | .both => .both
  | .either => .either

def UnaryOp.operator : UnaryOp → Operator
  | .negation => .negation
  | .minus => .minus
  | .plus => .plus

def Comparison.operator : Comparison → Operator
  | .less => .less
  | .atMost => .atMost
  | .greater => .greater
  | .atLeast => .atLeast

def Arithmetic.operator : Arithmetic → Operator
  | .plus => .plus
  | .minus => .minus
  | .times => .times
  | .over => .over
  | .remainder => .remainder

def BinaryOp.operator : BinaryOp → Operator
  | .equal => .equal
  | .unequal => .unequal
  | .order c => c.operator
  | .arithmetic a => a.operator

namespace Expr

/-- The leaves and operators of a tree from left to right. -/
def yield : Expr → List Token
  | .literal l => [l.token]
  | .name s => [.name s]
  | .unary op operand => .operator op.operator :: operand.yield
  | .binary op left right => left.yield ++ .operator op.operator :: right.yield
  | .connect op left right => left.yield ++ .operator op.operator :: right.yield

/-- The names of a tree from left to right, with repetitions. -/
def names : Expr → List String
  | .literal _ => []
  | .name s => [s]
  | .unary _ operand => operand.names
  | .binary _ left right => left.names ++ right.names
  | .connect _ left right => left.names ++ right.names

end Expr

/-! ### Phrases -/

theorem Tier.yield_of_mem_operators {tier : Tier} {op : Operator} {node : Expr → Expr → Expr}
    (h : (op, node) ∈ tier.operators) (l r : Expr) :
    (node l r).yield = l.yield ++ .operator op.folded :: r.yield := by
  cases tier <;> cases op <;> simp only [operators, List.mem_cons, Prod.mk.injEq, reduceCtorEq,
    false_and, or_false, false_or, true_and, List.not_mem_nil] at h
  all_goals
    subst h
    rfl

theorem operator_of_mem_signs {op : Operator} {node : UnaryOp} (h : (op, node) ∈ signs) :
    node.operator = op.folded := by
  revert h
  cases op <;> cases node <;> decide

theorem Phrase.kept_tokens {c : Category} (p : Phrase c) : kept p.tokens = p.tree.yield := by
  induction p with
  | operand tier only ih => exact ih
  | join tier op node hop left right ihl ihr =>
    rw [tree, tier.yield_of_mem_operators hop, ← ihl, ← ihr]
    exact kept_append left.tokens (.operator op :: right.tokens)
  | negation inner ih => exact congrArg (Token.operator .negation :: ·) ih
  | comparison only ih => exact ih
  | sign op node hsign inner ih =>
    rw [tree, Expr.yield, operator_of_mem_signs hsign, ← ih]
    rfl
  | primary only ih => exact ih
  | literal l => cases l <;> rfl
  | name s => rfl
  | parens inner ih =>
    rw [tree, ← ih, tokens, kept_append]
    exact List.append_nil _

/-- A tree yields what is kept of the tokens of its text. -/
theorem yield_of_parse {text : String} {tree : Expr} (h : parse text = .ok tree) :
    ∃ ts, tokens text = .ok ts ∧ kept (ts.map (·.token)) = tree.yield := by
  obtain ⟨ts, hts, -, p, htokens, rfl, -⟩ := grammatical_of_parse h
  refine ⟨ts, hts, ?_⟩
  rw [htokens, kept_append, p.kept_tokens]
  exact List.append_nil _

/-! ### Names -/

def Token.name? : Token → Option String
  | .name s => some s
  | _ => none

theorem namesOf_eq (ts : List Located) :
    namesOf ts = ((kept (ts.map (·.token))).filterMap Token.name?).eraseDups := by
  unfold namesOf kept
  rw [List.filterMap_filterMap, List.filterMap_map]
  congr 1
  refine List.filterMap_congr fun t _ => ?_
  cases t with
  | mk token position => cases token <;> rfl

theorem Expr.filterMap_yield (e : Expr) : e.yield.filterMap Token.name? = e.names := by
  induction e with
  | literal l => cases l <;> rfl
  | name s => rfl
  | unary op operand ih => exact ih
  | binary op left right ihl ihr =>
    rw [Expr.yield, List.filterMap_append, ihl, List.filterMap_cons]
    exact congrArg (left.names ++ ·) ihr
  | connect op left right ihl ihr =>
    rw [Expr.yield, List.filterMap_append, ihl, List.filterMap_cons]
    exact congrArg (left.names ++ ·) ihr

/-- A rule lists the names of its tree in order of first use. -/
theorem names_of_read {text : String} {rule : Rule} (h : read text = .ok rule) :
    rule.names = rule.tree.names.eraseDups := by
  obtain ⟨tree, htree, hmore⟩ := Except.bind_eq_ok.mp h
  obtain ⟨names, hnames, hrule⟩ := Except.bind_eq_ok.mp hmore
  obtain rfl := Except.pure_eq_ok.mp hrule
  obtain ⟨ts, hts, hyield⟩ := yield_of_parse htree
  obtain ⟨ts', hts', rfl⟩ := Except.map_eq_ok.mp hnames
  obtain rfl : ts = ts' := by simpa [hts] using hts'
  rw [namesOf_eq, hyield, Expr.filterMap_yield]

theorem parse_of_read {text : String} {rule : Rule} (h : read text = .ok rule) :
    parse text = .ok rule.tree := by
  obtain ⟨tree, htree, hmore⟩ := Except.bind_eq_ok.mp h
  obtain ⟨names, -, hrule⟩ := Except.bind_eq_ok.mp hmore
  obtain rfl := Except.pure_eq_ok.mp hrule
  exact htree

theorem exists_read_of_parse {text : String} {tree : Expr} (h : parse text = .ok tree) :
    ∃ rule, read text = .ok rule ∧ rule.tree = tree := by
  obtain ⟨ts, hts, -⟩ := yield_of_parse h
  have hnames : identifiers text = .ok (namesOf ts) := by
    rw [identifiers, hts]
    rfl
  refine ⟨⟨text, tree, namesOf ts⟩, ?_, rfl⟩
  rw [read, h, Except.ok_bind, hnames]
  rfl

/-! ### Size -/

namespace Expr

def size : Expr → Nat
  | .literal _ => 1
  | .name _ => 1
  | .unary _ operand => operand.size + 1
  | .binary _ left right => left.size + right.size + 1
  | .connect _ left right => left.size + right.size + 1

/-- The number of nodes on the longest way down a tree. -/
def height : Expr → Nat
  | .literal _ => 1
  | .name _ => 1
  | .unary _ operand => operand.height + 1
  | .binary _ left right => max left.height right.height + 1
  | .connect _ left right => max left.height right.height + 1

theorem height_le_size (e : Expr) : e.height ≤ e.size := by
  induction e with
  | literal l => exact Nat.le_refl 1
  | name s => exact Nat.le_refl 1
  | unary op operand ih => exact Nat.succ_le_succ ih
  | binary op left right ihl ihr =>
    simp only [height, size]
    omega
  | connect op left right ihl ihr =>
    simp only [height, size]
    omega

theorem length_yield (e : Expr) : e.yield.length = e.size := by
  induction e with
  | literal l => rfl
  | name s => rfl
  | unary op operand ih => rw [yield, size, List.length_cons, ih]
  | binary op left right ihl ihr =>
    rw [yield, size, List.length_append, List.length_cons, ihl, ihr, Nat.add_assoc]
  | connect op left right ihl ihr =>
    rw [yield, size, List.length_append, List.length_cons, ihl, ihr, Nat.add_assoc]

end Expr

def Token.isParenthesis (t : Token) : Bool := t = .leftParen || t = .rightParen

/-- A tree keeps something of every token but the parentheses and the end. -/
theorem length_kept (ts : List Token) :
    (kept ts).length = ts.countP fun t => !t.isParenthesis && t != .finish := by
  have hkept : ∀ t : Token, t.kept?.isSome = (!t.isParenthesis && t != .finish) := by
    intro t
    cases t <;> rfl
  rw [kept, List.length_filterMap_eq_countP]
  exact List.countP_congr fun t _ => by rw [hkept t]

theorem length_kept_lt {text : String} {ts : List Located} (h : tokens text = .ok ts) :
    (kept (ts.map (·.token))).length < ts.length := by
  obtain ⟨front, rfl, -⟩ := tokens_end h
  have hfinish : kept [Token.finish] = [] := rfl
  rw [List.map_append, kept_append, List.map_singleton, hfinish, List.append_nil,
    List.length_append, List.length_singleton]
  have hle : (kept (front.map (·.token))).length ≤ (front.map (·.token)).length :=
    List.length_filterMap_le _ _
  rw [List.length_map] at hle
  exact Nat.lt_succ_of_le hle

/-- The parser drops and doubles no token. Read from left to right, the tree gives back the tokens
without the parentheses and the end. So a rule lists the names of its tree in order of first use,
and the tree has a node for every other token, hence a bounded height. -/
theorem parser_keeps_every_token {text : String} {tree : Expr} (h : parse text = .ok tree) :
    ∃ ts rule, tokens text = .ok ts ∧ read text = .ok rule ∧ rule.tree = tree ∧
      tree.yield = kept (ts.map (·.token)) ∧
      rule.names = tree.names.eraseDups ∧
      tree.size = (ts.map (·.token)).countP (fun t => !t.isParenthesis && t != .finish) ∧
      tree.height ≤ 511 := by
  obtain ⟨ts, hts, hlength, -⟩ := grammatical_of_parse h
  obtain ⟨ts', hts', hyield⟩ := yield_of_parse h
  obtain rfl : ts = ts' := by simpa [hts] using hts'
  obtain ⟨rule, hread, rfl⟩ := exists_read_of_parse h
  have hsize : rule.tree.size = (kept (ts.map (·.token))).length := by
    rw [hyield, Expr.length_yield]
  refine ⟨ts, rule, hts, hread, rfl, hyield.symm, names_of_read hread, ?_, ?_⟩
  · rw [hsize, length_kept]
  · have hheight := rule.tree.height_le_size
    have hshort := length_kept_lt hts
    omega

/-- Of `!(b === (a)) || b` the parentheses are dropped and the equality is folded. -/
theorem strict_parentheses_kept :
    ∃ tree ts rule, parse "!(b === (a)) || b" = .ok tree ∧
      tokens "!(b === (a)) || b" = .ok ts ∧ read "!(b === (a)) || b" = .ok rule ∧
      kept (ts.map (·.token)) = [.operator .negation, .name "b", .operator .equal, .name "a",
        .operator .either, .name "b"] ∧
      rule.names = ["b", "a"] ∧
      (ts.map (·.token)).countP (fun t => !t.isParenthesis && t != .finish) = 6 ∧
      tree.height ≤ 511 := by
  let tree : Expr := .connect .either (.unary .negation (.binary .equal (.name "b") (.name "a")))
    (.name "b")
  have hparse : parse "!(b === (a)) || b" = .ok tree := rfl
  obtain ⟨ts, rule, hts, hread, -, hyield, hnames, hsize, hheight⟩ :=
    parser_keeps_every_token hparse
  exact ⟨tree, ts, rule, hparse, hts, hread, hyield.symm, hnames, hsize.symm, hheight⟩

end Shortlist.Rule
