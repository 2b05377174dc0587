import Shortlist.Rule.Expr
import Shortlist.Rule.Lexer

/-!
# Reading expressions

From the loosest to the tightest, the operators of a rule are `||`, `&&`, `!`, the comparisons,
the sums, the products and the signs; those with two operands group to the left. An operator in
front of its operand and a pair of parentheses open a deeper level, and the number of levels is
bounded. So the readers of one level are written in terms of those one level deeper, and the readers
of a whole rule are reached from a bottom level that refuses everything.
-/

namespace Shortlist.Rule

def nextPosition : List Located → Nat
  | [] => 0
  | t :: _ => t.position

/-- Reads an expression off the front of a list of tokens. -/
abbrev Reader := List Located → Except Trouble (Expr × List Located)

def refuse (cause : Malformation) (position : Nat) : Except Trouble (Expr × List Located) :=
  .error (.malformed cause position)

/-- How an operator with two operands joins them, if it stands on the level at hand. -/
abbrev Joining := Operator → Option (Expr → Expr → Expr)

/-- Joins an expression with the operands that follow, as long as operators of the level do; at
most `count` times. -/
def Reader.joinFrom (joining : Joining) (operand : Reader) : (count : Nat) → Expr → Reader
  | 0, left, ts => .ok (left, ts)
  | count + 1, left, ts =>
    match ts with
    | ⟨.operator op, _⟩ :: rest =>
      match joining op with
      | some join => do
        let (right, rest) ← operand rest
        joinFrom joining operand count (join left right) rest
      | none => .ok (left, ts)
    | _ => .ok (left, ts)

/-- Reads operands joined by the operators of one level, grouped to the left. -/
def Reader.join (joining : Joining) (operand : Reader) : Reader := fun ts => do
  let (first, rest) ← operand ts
  joinFrom joining operand rest.length first rest

def disjunction : Joining
  | .either => some (.connect .either)
  | _ => none

def conjunction : Joining
  | .both => some (.connect .both)
  | _ => none

/-- The level of comparisons; the strict spellings are the plain operators. -/
def comparison : Joining
  | .equal | .strictEqual => some (.binary .equal)
  | .unequal | .strictUnequal => some (.binary .unequal)
  | .less => some (.binary (.order .less))
  | .atMost => some (.binary (.order .atMost))
  | .greater => some (.binary (.order .greater))
  | .atLeast => some (.binary (.order .atLeast))
  | _ => none

def addition : Joining
  | .plus => some (.binary (.arithmetic .plus))
  | .minus => some (.binary (.arithmetic .minus))
  | _ => none

def multiplication : Joining
  | .times => some (.binary (.arithmetic .times))
  | .over => some (.binary (.arithmetic .over))
  | .remainder => some (.binary (.arithmetic .remainder))
  | _ => none

/-- The operator in front of an operand of a product. -/
def sign? : Operator → Option UnaryOp
  | .minus => some .minus
  | .plus => some .plus
  | _ => none

/-- The readers of one level of nesting. -/
structure Readers where
  whole : Reader
  negated : Reader
  signed : Reader

/-- The readers below the deepest level. -/
def Readers.bottom : Readers :=
  let reader : Reader := fun ts => refuse .tooDeep (nextPosition ts)
  ⟨reader, reader, reader⟩

/-- Reads what cannot be taken apart by operators: a constant, a name or an expression in
parentheses. -/
def readPrimary (deeper : Readers) : Reader
  | [] => refuse .unexpectedEnd 0
  | ⟨token, position⟩ :: rest =>
    match token with
    | .number n => .ok (.literal (.number n), rest)
    | .text s => .ok (.literal (.text s), rest)
    | .boolean b => .ok (.literal (.boolean b), rest)
    | .name s => .ok (.name s, rest)
    | .leftParen => do
      let (inner, rest) ← deeper.whole rest
      match rest with
      | ⟨.rightParen, _⟩ :: rest => return (inner, rest)
      | rest => refuse .missingParen (nextPosition rest)
    | .finish => refuse .unexpectedEnd position
    | token => refuse (.unexpectedToken token) position

/-- Reads an operand of a product: signs in front of a primary expression. -/
def readSigned (deeper : Readers) : Reader := fun ts =>
  match ts with
  | ⟨.operator op, _⟩ :: rest =>
    match sign? op with
    | some sign => do
      let (operand, rest) ← deeper.signed rest
      return (.unary sign operand, rest)
    | none => readPrimary deeper ts
  | _ => readPrimary deeper ts

def readComparison (deeper : Readers) : Reader :=
  .join comparison (.join addition (.join multiplication (readSigned deeper)))

/-- Reads an operand of `&&`: negations in front of a comparison. -/
def readNegated (deeper : Readers) : Reader := fun ts =>
  match ts with
  | ⟨.operator .negation, _⟩ :: rest => do
    let (operand, rest) ← deeper.negated rest
    return (.unary .negation operand, rest)
  | _ => readComparison deeper ts

def readWhole (deeper : Readers) : Reader :=
  .join disjunction (.join conjunction (readNegated deeper))

/-- The readers of a level, from those one level deeper. -/
def Readers.above (deeper : Readers) : Readers :=
  ⟨readWhole deeper, readNegated deeper, readSigned deeper⟩

/-- The readers of a level that has a number of levels below it. -/
def readers : (depth : Nat) → Readers
  | 0 => Readers.bottom.above
  | depth + 1 => (readers depth).above

def Expr.ofTokens (ts : List Located) : Except Trouble Expr :=
  if maxTokens < ts.length then .error (.malformed .tooManyTokens none)
  else
    match ts with
    | ⟨.finish, _⟩ :: _ => .error (.malformed .empty (some 0))
    | _ => do
      let (tree, rest) ← (readers maxDepth).whole ts
      match rest with
      | ⟨.finish, _⟩ :: _ => return tree
      | ⟨token, position⟩ :: _ => .error (.malformed (.unexpectedToken token) position)
      | [] => return tree

def parse (text : String) : Except ReadError Expr := do
  (Expr.ofTokens (← tokens text)).mapError (Trouble.inText text)

end Shortlist.Rule
