import Mathlib.Tactic.Common
import Shortlist.Proofs.Rule.Parsing

/-!
# Parsing in place

The readers of rules hand on what is left of the tokens, and every level of nesting has readers of
its own. Here the same parser goes over the tokens in place: a cursor holds the index of the next
token and the number of open levels, and whatever opens a level has to close it again. Nothing in
this form keeps a read within the tokens, a level from being left open or a loop from going on for
ever. So each of these can be seen: a read outside the tokens is a failure of its own, the cursors
of the walk are recorded, and calls may nest only as deep as a count says. A walk ends if some count
is enough and no larger one changes what it comes to (`Comes`); one that goes on for ever has no
outcome under any count.
-/

namespace Shortlist.Rule

/-- The place of a parser: the index of the next token, and how many levels are open. -/
structure Cursor where
  index : Nat
  depth : Int
deriving DecidableEq

/-- The cursor, and those that it went on from, the last first. -/
structure Trail where
  now : Cursor
  past : List Cursor
deriving DecidableEq

namespace Trail

def start (cursor : Cursor) : Trail := ⟨cursor, []⟩

def goTo (trail : Trail) (next : Cursor) : Trail := ⟨next, trail.now :: trail.past⟩

def forward (trail : Trail) : Trail := trail.goTo ⟨trail.now.index + 1, trail.now.depth⟩

def deeper (trail : Trail) : Trail := trail.goTo ⟨trail.now.index, trail.now.depth + 1⟩

def shallower (trail : Trail) : Trail := trail.goTo ⟨trail.now.index, trail.now.depth - 1⟩

@[simp]
theorem index_forward (trail : Trail) : trail.forward.now.index = trail.now.index + 1 := rfl

@[simp]
theorem depth_deeper (trail : Trail) : trail.deeper.now.depth = trail.now.depth + 1 := rfl

@[simp]
theorem depth_shallower (trail : Trail) : trail.shallower.now.depth = trail.now.depth - 1 := rfl

end Trail

/-- Why a walk stops: the tokens are refused, or it reads where there is no token. -/
inductive Halt
  | malformed (cause : Malformation) (position : Option Nat)
  | outside (index : Nat)
deriving DecidableEq

/-- A walk over tokens keeps its trail when it stops. It may also be left unfinished. -/
abbrev Walk := ExceptT Halt (StateT Trail Option)

namespace Walk

variable {α β : Type}

/-- What a walk from a trail leads to, unless it is left unfinished. -/
def outcome (w : Walk α) (trail : Trail) : Option (Except Halt α × Trail) := w.run.run trail

def unfinished : Walk α := fun _ => none

def cursor : Walk Cursor := do return (← get).now

section Steps

variable (ts : List Located)

def peek : Walk Located := do
  let now ← cursor
  match ts[now.index]? with
  | some t => return t
  | none => throw (.outside now.index)

/-- Takes the next token. The end is not passed. -/
def advance : Walk Located := do
  let t ← peek ts
  if t.token = .finish then return t
  else do
    modify Trail.forward
    return t

/-- Takes the next token if it is an operator of a table. -/
def accept (table : Operator → Option α) : Walk (Option α) := do
  let t ← peek ts
  match t.token with
  | .operator op =>
    match table op with
    | some node => do
      let _ ← advance ts
      return some node
    | none => return none
  | _ => return none

def descend : Walk Unit := do
  modify Trail.deeper
  let now ← cursor
  if maxDepth < now.depth then do
    let t ← peek ts
    throw (.malformed .tooDeep t.position)
  else return ()

def ascend : Walk Unit := modify Trail.shallower

def negation? : Operator → Option UnaryOp
  | .negation => some .negation
  | _ => none

theorem negation?_eq_some_iff {op : Operator} {node : UnaryOp} :
    negation? op = some node ↔ op = .negation ∧ node = .negation := by
  cases op <;> simp [negation?, eq_comm]

mutual

def phrase : Category → Nat → Walk Expr
  | _, 0 => unfinished
  | .joined tier, calls + 1 => do
    let first ← phrase tier.operand calls
    further tier first calls
  | .negated, calls + 1 => unary negation? .negated (.joined .comparison) calls
  | .signed, calls + 1 => unary sign? .signed .primary calls
  | .primary, calls + 1 => do
    let t ← advance ts
    match t.token with
    | .number n => return .literal (.number n)
    | .text s => return .literal (.text s)
    | .boolean b => return .literal (.boolean b)
    | .name s => return .name s
    | .leftParen => do
      descend ts
      let inner ← phrase (.joined .disjunction) calls
      ascend
      let closing ← advance ts
      if closing.token = .rightParen then return inner
      else throw (.malformed .missingParen closing.position)
    | .finish => throw (.malformed .unexpectedEnd t.position)
    | token => throw (.malformed (.unexpectedToken token) t.position)

/-- Goes over an operator of a table and its operand, or else over a tighter phrase. -/
def unary (table : Operator → Option UnaryOp) (own tighter : Category) : Nat → Walk Expr
  | 0 => unfinished
  | calls + 1 => do
    match ← accept ts table with
    | some node => do
      descend ts
      let operand ← phrase own calls
      ascend
      return .unary node operand
    | none => phrase tighter calls

/-- Goes over the operands that operators of a tier join to an expression, as long as there are
any. -/
def further (tier : Tier) (left : Expr) : Nat → Walk Expr
  | 0 => unfinished
  | calls + 1 => do
    match ← accept ts tier.joining with
    | some node => do
      let right ← phrase tier.operand calls
      further tier (node left right) calls
    | none => return left

end

/-- Behind a whole rule only the end may follow. -/
def atEnd (tree : Expr) : Walk Expr := do
  let t ← peek ts
  if t.token = .finish then return tree
  else throw (.malformed (.unexpectedToken t.token) t.position)

def rule (calls : Nat) : Walk Expr := do
  let first ← peek ts
  if first.token = .finish then throw (.malformed .empty (some 0))
  else do
    let tree ← phrase ts (.joined .disjunction) calls
    atEnd ts tree

end Steps

/-! ### Steps -/

variable {x : Walk α} {f : α → Walk β} {trail next : Trail} {a : α} {halt : Halt}

theorem outcome_bind_of_ok (h : x.outcome trail = some (.ok a, next)) :
    (x >>= f).outcome trail = (f a).outcome next := by
  unfold outcome at h ⊢
  rw [ExceptT.run_bind, StateT.run_bind, h]
  rfl

theorem outcome_bind_of_error (h : x.outcome trail = some (.error halt, next)) :
    (x >>= f).outcome trail = some (.error halt, next) := by
  unfold outcome at h ⊢
  rw [ExceptT.run_bind, StateT.run_bind, h]
  rfl

theorem outcome_cursor : cursor.outcome trail = some (.ok trail.now, trail) := rfl

theorem outcome_deeper :
    (modify Trail.deeper : Walk Unit).outcome trail = some (.ok (), trail.deeper) := rfl

variable {ts rest : List Located} {t : Located}

section Reading

variable (h : ts.drop trail.now.index = t :: rest)
include h

theorem outcome_peek : (peek ts).outcome trail = some (.ok t, trail) := by
  have hread : ts[trail.now.index]? = some t := by rw [← List.head?_drop, h]; rfl
  unfold peek
  rw [outcome_bind_of_ok outcome_cursor]
  simp only [hread]
  rfl

theorem outcome_advance (ht : t.token ≠ .finish) :
    (advance ts).outcome trail = some (.ok t, trail.forward) := by
  unfold advance
  rw [outcome_bind_of_ok (outcome_peek h), if_neg ht]
  rfl

theorem outcome_advance_of_finish (ht : t.token = .finish) :
    (advance ts).outcome trail = some (.ok t, trail) := by
  unfold advance
  rw [outcome_bind_of_ok (outcome_peek h), if_pos ht]
  rfl

theorem outcome_accept_of_none {table : Operator → Option α}
    (hnone : ∀ op, t.token = .operator op → table op = none) :
    (accept ts table).outcome trail = some (.ok none, trail) := by
  unfold accept
  rw [outcome_bind_of_ok (outcome_peek h)]
  split
  · rename_i op hop
    simp only [hnone op hop]
    rfl
  · rfl

theorem outcome_accept_of_some {table : Operator → Option α} {op : Operator} {node : α}
    (hop : t.token = .operator op) (hnode : table op = some node) :
    (accept ts table).outcome trail = some (.ok (some node), trail.forward) := by
  have hadvance := outcome_advance h (by simp [hop])
  unfold accept
  rw [outcome_bind_of_ok (outcome_peek h)]
  simp only [hop, hnode]
  rw [outcome_bind_of_ok hadvance]
  rfl

theorem outcome_atEnd_of_finish (tree : Expr) (ht : t.token = .finish) :
    (atEnd ts tree).outcome trail = some (.ok tree, trail) := by
  unfold atEnd
  rw [outcome_bind_of_ok (outcome_peek h), if_pos ht]
  rfl

theorem outcome_atEnd (tree : Expr) (ht : t.token ≠ .finish) :
    (atEnd ts tree).outcome trail =
      some (.error (.malformed (.unexpectedToken t.token) t.position), trail) := by
  unfold atEnd
  rw [outcome_bind_of_ok (outcome_peek h), if_neg ht]
  rfl

theorem outcome_descend_of_deepest (hdepth : trail.now.depth = maxDepth) :
    (descend ts).outcome trail = some (.error (.malformed .tooDeep t.position), trail.deeper) := by
  have hlimit : (maxDepth : Int) < trail.deeper.now.depth := by
    rw [Trail.depth_deeper]
    omega
  have hpeek : (peek ts).outcome trail.deeper = some (.ok t, trail.deeper) := outcome_peek h
  unfold descend
  rw [outcome_bind_of_ok outcome_deeper, outcome_bind_of_ok outcome_cursor, if_pos hlimit,
    outcome_bind_of_ok hpeek]
  rfl

end Reading

theorem outcome_descend (hdepth : trail.now.depth < maxDepth) :
    (descend ts).outcome trail = some (.ok (), trail.deeper) := by
  have hlimit : ¬(maxDepth : Int) < trail.deeper.now.depth := by
    rw [Trail.depth_deeper]
    omega
  unfold descend
  rw [outcome_bind_of_ok outcome_deeper, outcome_bind_of_ok outcome_cursor, if_neg hlimit]
  rfl

theorem outcome_ascend : ascend.outcome trail = some (.ok (), trail.shallower) := rfl

/-! ### Ends -/

/-- What a walk comes to when its calls may nest as deep as they need. -/
def Comes (w : Nat → Walk α) (trail : Trail) (result : Except Halt α) (last : Trail) : Prop :=
  ∃ enough, ∀ calls, enough ≤ calls → (w calls).outcome trail = some (result, last)

section Ends

variable {v : Nat → Walk α} {w : Nat → Walk β} {g : Nat → α → Walk β} {result : Except Halt β}
  {last : Trail}

theorem comes_of_outcome (h : ∀ calls, (w calls).outcome trail = some (result, last)) :
    Comes w trail result last :=
  ⟨0, fun calls _ => h calls⟩

/-- A walk comes to one thing only. -/
theorem Comes.unique {result' : Except Halt β} {last' : Trail} (h : Comes w trail result last)
    (h' : Comes w trail result' last') : result = result' ∧ last = last' := by
  obtain ⟨enough, h⟩ := h
  obtain ⟨enough', h'⟩ := h'
  have hsame := (h _ (Nat.le_max_left enough enough')).symm.trans (h' _ (Nat.le_max_right _ _))
  exact Prod.mk.inj (Option.some.inj hsame)

theorem Comes.of_outcome_eq {x : Nat → Walk β} (h : Comes x next result last)
    (heq : ∀ calls, (w calls).outcome trail = (x calls).outcome next) :
    Comes w trail result last := by
  obtain ⟨enough, h⟩ := h
  exact ⟨enough, fun calls hle => (heq calls).trans (h calls hle)⟩

/-- The first call does not count. -/
theorem Comes.of_succ (h : Comes (fun calls => w (calls + 1)) trail result last) :
    Comes w trail result last := by
  obtain ⟨enough, h⟩ := h
  refine ⟨enough + 1, fun calls hle => ?_⟩
  obtain ⟨calls, rfl⟩ : ∃ more, calls = more + 1 := ⟨calls - 1, by omega⟩
  exact h calls (Nat.le_of_succ_le_succ hle)

theorem Comes.bind_of_ok (h : Comes v trail (.ok a) next)
    (hg : Comes (fun calls => g calls a) next result last) :
    Comes (fun calls => v calls >>= g calls) trail result last := by
  obtain ⟨enough, h⟩ := h
  obtain ⟨enough', hg⟩ := hg
  refine ⟨max enough enough', fun calls hle => ?_⟩
  rw [outcome_bind_of_ok (h calls (Nat.le_trans (Nat.le_max_left _ _) hle))]
  exact hg calls (Nat.le_trans (Nat.le_max_right _ _) hle)

theorem Comes.bind_of_error (h : Comes v trail (.error halt) next) :
    Comes (fun calls => v calls >>= g calls) trail (.error halt) next := by
  obtain ⟨enough, h⟩ := h
  exact ⟨enough, fun calls hle => outcome_bind_of_error (h calls hle)⟩

end Ends

end Walk

end Shortlist.Rule
