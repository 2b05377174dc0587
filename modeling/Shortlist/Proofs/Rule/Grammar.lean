import Mathlib.Algebra.Order.BigOperators.Group.List
import Mathlib.Algebra.Order.Group.Nat
import Mathlib.Tactic.Common
import Shortlist.Rule.Parser

/-!
# The grammar of rules

From the loosest to the tightest kind of phrase, with `*` for any number of repetitions:

    disjunction     = conjunction ("||" conjunction)*
    conjunction     = negated ("&&" negated)*
    negated         = "!" negated | comparison
    comparison      = addition (("==" | "!=" | "<" | "<=" | ">" | ">=" | "===" | "!==") addition)*
    addition        = multiplication (("+" | "-") multiplication)*
    multiplication  = signed (("*" | "/" | "%") signed)*
    signed          = ("-" | "+") signed | primary
    primary         = number | text | boolean | name | "(" disjunction ")"

A derivation is a value of the type `Phrase`, which has one constructor for each alternative. The
repetitions are read as grouping to the left: a phrase of a tier is an operand, or a phrase of the
same tier, an operator and one more operand. A phrase has its tokens, the tree that they stand for,
and for every token the number of parentheses and operators before an operand that enclose it.
-/

namespace Shortlist.Rule

/-! ### Operators -/

/-- The operators that stand between two operands, the loosest first. -/
inductive Tier
  | disjunction
  | conjunction
  | comparison
  | addition
  | multiplication
deriving DecidableEq, Repr

inductive Category
  | joined (tier : Tier)
  | negated
  | signed
  | primary
deriving DecidableEq, Repr

namespace Tier

def operand : Tier → Category
  | disjunction => .joined .conjunction
  | conjunction => .negated
  | comparison => .joined .addition
  | addition => .joined .multiplication
  | multiplication => .signed

/-- The operators of a tier, each with the node that it makes of two operands. The strict spellings
make the nodes of the plain ones. -/
def operators : Tier → List (Operator × (Expr → Expr → Expr))
  | disjunction => [(.either, .connect .either)]
  | conjunction => [(.both, .connect .both)]
  | comparison =>
    [(.equal, .binary .equal), (.unequal, .binary .unequal),
     (.less, .binary (.order .less)), (.atMost, .binary (.order .atMost)),
     (.greater, .binary (.order .greater)), (.atLeast, .binary (.order .atLeast)),
     (.strictEqual, .binary .equal), (.strictUnequal, .binary .unequal)]
  | addition =>
    [(.plus, .binary (.arithmetic .plus)), (.minus, .binary (.arithmetic .minus))]
  | multiplication =>
    [(.times, .binary (.arithmetic .times)), (.over, .binary (.arithmetic .over)),
     (.remainder, .binary (.arithmetic .remainder))]

end Tier

def signs : List (Operator × UnaryOp) := [(.minus, .minus), (.plus, .plus)]

/-! ### Phrases -/

def Literal.token : Literal → Token
  | .number n => .number n
  | .text s => .text s
  | .boolean b => .boolean b

/-- A derivation of a phrase of some kind. -/
inductive Phrase : Category → Type
  | operand (tier : Tier) (only : Phrase tier.operand) : Phrase (.joined tier)
  | join (tier : Tier) (op : Operator) (node : Expr → Expr → Expr)
      (hop : (op, node) ∈ tier.operators) (left : Phrase (.joined tier))
      (right : Phrase tier.operand) : Phrase (.joined tier)
  | negation (inner : Phrase .negated) : Phrase .negated
  | comparison (only : Phrase (.joined .comparison)) : Phrase .negated
  | sign (op : Operator) (node : UnaryOp) (hsign : (op, node) ∈ signs)
      (inner : Phrase .signed) : Phrase .signed
  | primary (only : Phrase .primary) : Phrase .signed
  | literal (l : Literal) : Phrase .primary
  | name (s : String) : Phrase .primary
  | parens (inner : Phrase (.joined .disjunction)) : Phrase .primary

abbrev Sentence := Phrase (.joined .disjunction)

namespace Phrase

variable {c : Category}

def tokens : {c : Category} → Phrase c → List Token
  | _, operand _ only => only.tokens
  | _, join _ op _ _ left right => left.tokens ++ .operator op :: right.tokens
  | _, negation inner => .operator .negation :: inner.tokens
  | _, comparison only => only.tokens
  | _, sign op _ _ inner => .operator op :: inner.tokens
  | _, primary only => only.tokens
  | _, literal l => [l.token]
  | _, name s => [.name s]
  | _, parens inner => .leftParen :: inner.tokens ++ [.rightParen]

def tree : {c : Category} → Phrase c → Expr
  | _, operand _ only => only.tree
  | _, join _ _ node _ left right => node left.tree right.tree
  | _, negation inner => .unary .negation inner.tree
  | _, comparison only => only.tree
  | _, sign _ node _ inner => .unary node inner.tree
  | _, primary only => only.tree
  | _, literal l => .literal l
  | _, name s => .name s
  | _, parens inner => inner.tree

/-- How many parentheses and operators before an operand enclose each token. -/
def enclosures : {c : Category} → Phrase c → List Nat
  | _, operand _ only => only.enclosures
  | _, join _ _ _ _ left right => left.enclosures ++ 0 :: right.enclosures
  | _, negation inner => 0 :: inner.enclosures.map (· + 1)
  | _, comparison only => only.enclosures
  | _, sign _ _ _ inner => 0 :: inner.enclosures.map (· + 1)
  | _, primary only => only.enclosures
  | _, literal _ => [0]
  | _, name _ => [0]
  | _, parens inner => 0 :: inner.enclosures.map (· + 1) ++ [0]

/-- No token of the phrase is enclosed by more than a number of parentheses and operators. -/
def Within (p : Phrase c) (depth : Nat) : Prop := ∀ n ∈ p.enclosures, n ≤ depth

instance (p : Phrase c) (depth : Nat) : Decidable (p.Within depth) :=
  inferInstanceAs (Decidable (∀ n ∈ p.enclosures, n ≤ depth))

theorem length_enclosures (p : Phrase c) : p.enclosures.length = p.tokens.length := by
  induction p with
  | operand tier only ih => exact ih
  | join tier op node hop left right ihl ihr => simp [enclosures, tokens, ihl, ihr]
  | negation inner ih => simp [enclosures, tokens, ih]
  | comparison only ih => exact ih
  | sign op node hsign inner ih => simp [enclosures, tokens, ih]
  | primary only ih => exact ih
  | literal l => rfl
  | name s => rfl
  | parens inner ih => simp [enclosures, tokens, ih]

theorem exists_within_both (p q : Phrase c) : ∃ depth, p.Within depth ∧ q.Within depth := by
  have hsum : ∀ n ∈ p.enclosures ++ q.enclosures, n ≤ (p.enclosures ++ q.enclosures).sum :=
    fun n hn => List.le_sum_of_mem hn
  exact ⟨_, List.forall_mem_append.mp hsum⟩

theorem finish_not_mem_tokens (p : Phrase c) : Token.finish ∉ p.tokens := by
  induction p with
  | operand tier only ih => exact ih
  | join tier op node hop left right ihl ihr => simp [tokens, ihl, ihr]
  | negation inner ih => simp [tokens, ih]
  | comparison only ih => exact ih
  | sign op node hsign inner ih => simp [tokens, ih]
  | primary only ih => exact ih
  | literal l => cases l <;> simp [tokens, Literal.token]
  | name s => simp [tokens]
  | parens inner ih => simp [tokens, ih]

end Phrase

/-! ### First tokens -/

/-- The tokens that phrases of a kind may start with: nothing tighter than an operand of `&&` starts
with a negation, and a primary phrase starts with no operator. -/
def Category.Starts : Category → Token → Prop
  | .joined .disjunction, _ => True
  | .joined .conjunction, _ => True
  | .negated, _ => True
  | .joined .comparison, t => t ≠ .operator .negation
  | .joined .addition, t => t ≠ .operator .negation
  | .joined .multiplication, t => t ≠ .operator .negation
  | .signed, t => t ≠ .operator .negation
  | .primary, t => ∀ op, t ≠ .operator op

theorem Tier.starts_of_operand {tier : Tier} {t : Token} (h : tier.operand.Starts t) :
    (Category.joined tier).Starts t := by
  cases tier with
  | disjunction => trivial
  | conjunction => trivial
  | comparison => exact h
  | addition => exact h
  | multiplication => exact h

theorem ne_negation_of_mem_signs {op : Operator} {node : UnaryOp} (h : (op, node) ∈ signs) :
    op ≠ .negation := by
  rintro rfl
  simp [signs] at h

theorem Phrase.exists_first {c : Category} (p : Phrase c) :
    ∃ t more, p.tokens = t :: more ∧ c.Starts t := by
  induction p with
  | operand tier only ih =>
    obtain ⟨t, more, htokens, hstart⟩ := ih
    exact ⟨t, more, htokens, tier.starts_of_operand hstart⟩
  | join tier op node hop left right ihl ihr =>
    obtain ⟨t, more, htokens, hstart⟩ := ihl
    exact ⟨t, more ++ .operator op :: right.tokens, by rw [tokens, htokens]; rfl, hstart⟩
  | negation inner ih => exact ⟨_, _, rfl, trivial⟩
  | comparison only ih =>
    obtain ⟨t, more, htokens, -⟩ := ih
    exact ⟨t, more, htokens, trivial⟩
  | sign op node hsign inner ih =>
    exact ⟨_, _, rfl, by simpa [Category.Starts] using ne_negation_of_mem_signs hsign⟩
  | primary only ih =>
    obtain ⟨t, more, htokens, hstart⟩ := ih
    exact ⟨t, more, htokens, hstart .negation⟩
  | literal l => exact ⟨_, _, rfl, by cases l <;> simp [Category.Starts, Literal.token]⟩
  | name s => exact ⟨_, _, rfl, by simp [Category.Starts]⟩
  | parens inner ih => exact ⟨_, _, rfl, by simp [Category.Starts]⟩

theorem Phrase.exists_within_of_enclosed {c : Category} {p : Phrase c} {depth : Nat}
    (h : ∀ n ∈ p.enclosures, n + 1 ≤ depth) : ∃ less, depth = less + 1 ∧ p.Within less := by
  obtain ⟨t, more, htokens, -⟩ := p.exists_first
  have hlength : 0 < p.enclosures.length := by rw [p.length_enclosures, htokens]; simp
  obtain ⟨n, hn⟩ := List.exists_mem_of_length_pos hlength
  obtain ⟨less, rfl⟩ := Nat.exists_eq_add_of_le' (Nat.le_trans (Nat.le_add_left 1 n) (h n hn))
  exact ⟨less, rfl, fun k hk => Nat.le_of_succ_le_succ (h k hk)⟩

end Shortlist.Rule
