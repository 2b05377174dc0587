import Mathlib.Tactic.Common
import Shortlist.Proofs.Rule.Grammar
import Shortlist.Proofs.Rule.Tokens

/-!
# The parser reads the grammar

Every kind of phrase has its reader. Two walks show that the readers of a level with a number of
levels below it read just the phrases in which no token is enclosed more often than that. The first
follows a reader: what it takes off the tokens is a phrase, and its tree is that phrase's tree. The
second follows a phrase: its reader takes it off whatever is behind it, as long as that does not
start with an operator that binds as tightly as the phrase. Since a reader has one result, tokens
are those of at most one tree.
-/

namespace Shortlist.Rule

/-! ### Readers by kind and level -/

def Tier.joining : Tier → Joining
  | .disjunction => Rule.disjunction
  | .conjunction => Rule.conjunction
  | .comparison => Rule.comparison
  | .addition => Rule.addition
  | .multiplication => Rule.multiplication

theorem Tier.joining_eq_some_iff {tier : Tier} {op : Operator} {node : Expr → Expr → Expr} :
    tier.joining op = some node ↔ (op, node) ∈ tier.operators := by
  cases tier <;> cases op <;>
    simp [joining, operators, Rule.disjunction, Rule.conjunction, Rule.comparison, Rule.addition,
      Rule.multiplication, eq_comm]

theorem sign?_eq_some_iff {op : Operator} {node : UnaryOp} :
    sign? op = some node ↔ (op, node) ∈ signs := by
  cases op <;> simp [sign?, signs, eq_comm]

/-- The readers below a level that has a number of levels below it. -/
def deeper : (depth : Nat) → Readers
  | 0 => Readers.bottom
  | depth + 1 => readers depth

theorem readers_eq_above (depth : Nat) : readers depth = (deeper depth).above := by
  cases depth with
  | zero => rfl
  | succ depth => rfl

def Category.reader (below : Readers) : Category → Reader
  | .joined .disjunction => readWhole below
  | .joined .conjunction => .join conjunction (readNegated below)
  | .joined .comparison => readComparison below
  | .joined .addition => .join addition (.join multiplication (readSigned below))
  | .joined .multiplication => .join multiplication (readSigned below)
  | .negated => readNegated below
  | .signed => readSigned below
  | .primary => readPrimary below

variable {below : Readers} {joining : Joining} {operand : Reader}

theorem Category.reader_joined (tier : Tier) :
    (Category.joined tier).reader below = .join tier.joining (tier.operand.reader below) := by
  cases tier with
  | disjunction => rfl
  | conjunction => rfl
  | comparison => rfl
  | addition => rfl
  | multiplication => rfl

/-! ### Joining -/

theorem Reader.joinFrom_of_joins {op : Operator} {node : Expr → Expr → Expr}
    (h : joining op = some node) (count : Nat) (left : Expr) (position : Nat)
    (more : List Located) :
    Reader.joinFrom joining operand (count + 1) left (⟨.operator op, position⟩ :: more) =
      (operand more >>= fun (right, rest) =>
        Reader.joinFrom joining operand count (node left right) rest) := by
  simp only [Reader.joinFrom, h]

theorem Reader.joinFrom_of_stops {ts : List Located}
    (h : ∀ t ∈ ts.head?, ∀ op, t.token = .operator op → joining op = none) (count : Nat)
    (left : Expr) : Reader.joinFrom joining operand count left ts = .ok (left, ts) := by
  cases count with
  | zero => rfl
  | succ count =>
    unfold Reader.joinFrom
    split
    · rename_i op position more
      simp only [h ⟨.operator op, position⟩ rfl op rfl]
    · rfl

/-! ### Operators before an operand -/

/-- Reads the operand of an operator before it. -/
def Reader.before (node : UnaryOp) (deep : Reader) : Reader := fun ts => do
  let (operand, rest) ← deep ts
  return (.unary node operand, rest)

theorem readSigned_of_sign {op : Operator} {node : UnaryOp} (h : (op, node) ∈ signs)
    (position : Nat) (more : List Located) :
    readSigned below (⟨.operator op, position⟩ :: more) = Reader.before node below.signed more := by
  simp only [readSigned, sign?_eq_some_iff.mpr h]
  rfl

theorem readSigned_of_no_sign {ts : List Located}
    (h : ∀ t ∈ ts.head?, ∀ op, t.token = .operator op → sign? op = none) :
    readSigned below ts = readPrimary below ts := by
  unfold readSigned
  split
  · rename_i op position more
    simp only [h ⟨.operator op, position⟩ rfl op rfl]
  · rfl

theorem readSigned_cases (below : Readers) (ts : List Located) :
    (∃ op position more node, ts = ⟨.operator op, position⟩ :: more ∧ (op, node) ∈ signs ∧
      readSigned below ts = Reader.before node below.signed more) ∨
      readSigned below ts = readPrimary below ts := by
  by_cases hprimary : ∀ t ∈ ts.head?, ∀ op, t.token = .operator op → sign? op = none
  · exact .inr (readSigned_of_no_sign hprimary)
  · push Not at hprimary
    obtain ⟨⟨token, position⟩, ht, op, rfl, hne⟩ := hprimary
    obtain ⟨more, rfl⟩ := List.head?_eq_some_iff.mp ht
    obtain ⟨node, hnode⟩ := Option.ne_none_iff_exists'.mp hne
    have hsign := sign?_eq_some_iff.mp hnode
    exact .inl ⟨op, position, more, node, rfl, hsign, readSigned_of_sign hsign position more⟩

theorem readNegated_of_negation (position : Nat) (more : List Located) :
    readNegated below (⟨.operator .negation, position⟩ :: more) =
      Reader.before .negation below.negated more := rfl

theorem readNegated_of_no_negation {ts : List Located}
    (h : ∀ t ∈ ts.head?, t.token ≠ .operator .negation) :
    readNegated below ts = readComparison below ts := by
  unfold readNegated
  split
  · rename_i position more
    exact absurd rfl (h ⟨.operator .negation, position⟩ rfl)
  · rfl

theorem readNegated_cases (below : Readers) (ts : List Located) :
    (∃ position more, ts = ⟨.operator .negation, position⟩ :: more ∧
      readNegated below ts = Reader.before .negation below.negated more) ∨
      readNegated below ts = readComparison below ts := by
  by_cases hcomparison : ∀ t ∈ ts.head?, t.token ≠ .operator .negation
  · exact .inr (readNegated_of_no_negation hcomparison)
  · push Not at hcomparison
    obtain ⟨⟨token, position⟩, ht, rfl⟩ := hcomparison
    obtain ⟨more, rfl⟩ := List.head?_eq_some_iff.mp ht
    exact .inl ⟨position, more, rfl, readNegated_of_negation position more⟩

/-! ### What a reader takes is a phrase -/

/-- A reader takes a phrase of a kind off the tokens, each of them enclosed less often than a bound,
or refuses them; no reader is stopped by a fault. -/
structure Category.Sound (c : Category) (bound : Nat) (reader : Reader) : Prop where
  derives : ∀ ⦃ts e rest⦄, reader ts = .ok (e, rest) → ∃ (front : List Located) (p : Phrase c),
    ts = front ++ rest ∧ front.map (·.token) = p.tokens ∧ p.tree = e ∧ ∀ n ∈ p.enclosures, n < bound
  refuses : ∀ ⦃ts trouble⦄, reader ts = .error trouble →
    ∃ cause position, trouble = .malformed cause position

variable {bound : Nat}

/-- Joining either stops at once or reads an operator of the tier and one more operand. -/
theorem Reader.joinFrom_cases {count : Nat} {left : Expr} {ts : List Located}
    {result : Except Trouble (Expr × List Located)}
    (h : Reader.joinFrom joining operand count left ts = result) :
    result = .ok (left, ts) ∨
      ∃ fewer op position more node, count = fewer + 1 ∧
        ts = ⟨.operator op, position⟩ :: more ∧ joining op = some node ∧
        (operand more >>= fun (right, rest) =>
          Reader.joinFrom joining operand fewer (node left right) rest) = result := by
  cases count with
  | zero => exact .inl h.symm
  | succ fewer =>
    by_cases hstop : ∀ t ∈ ts.head?, ∀ op, t.token = .operator op → joining op = none
    · exact .inl (h ▸ Reader.joinFrom_of_stops hstop _ _)
    · push Not at hstop
      obtain ⟨⟨token, position⟩, ht, op, rfl, hne⟩ := hstop
      obtain ⟨more, rfl⟩ := List.head?_eq_some_iff.mp ht
      obtain ⟨node, hnode⟩ := Option.ne_none_iff_exists'.mp hne
      rw [Reader.joinFrom_of_joins hnode] at h
      exact .inr ⟨fewer, op, position, more, node, rfl, rfl, hnode, h⟩

theorem joinFrom_derives {tier : Tier} (ho : tier.operand.Sound bound operand) (hbound : 0 < bound)
    {count : Nat} (p : Phrase (.joined tier)) (hp : ∀ n ∈ p.enclosures, n < bound) {e : Expr}
    {ts rest : List Located}
    (h : Reader.joinFrom tier.joining operand count p.tree ts = .ok (e, rest)) :
    ∃ (front : List Located) (q : Phrase (.joined tier)), ts = front ++ rest ∧
      q.tokens = p.tokens ++ front.map (·.token) ∧ q.tree = e ∧ ∀ n ∈ q.enclosures, n < bound := by
  induction count generalizing p ts with
  | zero =>
    cases h
    exact ⟨[], p, rfl, by simp, rfl, hp⟩
  | succ count ih =>
    rcases Reader.joinFrom_cases h with hstop |
      ⟨fewer, op, position, more, node, hcount, rfl, hnode, hmore⟩
    · cases hstop
      exact ⟨[], p, rfl, by simp, rfl, hp⟩
    · obtain rfl : count = fewer := by omega
      obtain ⟨⟨right, behind⟩, hright, hnext⟩ := Except.bind_eq_ok.mp hmore
      obtain ⟨middle, r, rfl, hmiddle, rfl, hr⟩ := ho.derives hright
      -- The phrase read so far is the left operand of the next one: operators group to the left.
      let joined := Phrase.join tier op node (Tier.joining_eq_some_iff.mp hnode) p r
      have hjoined : ∀ n ∈ joined.enclosures, n < bound :=
        List.forall_mem_append.mpr ⟨hp, List.forall_mem_cons.mpr ⟨hbound, hr⟩⟩
      obtain ⟨back, q, rfl, htokens, htree, hq⟩ := ih joined hjoined hnext
      refine ⟨⟨.operator op, position⟩ :: middle ++ back, q, by simp, ?_, htree, hq⟩
      rw [htokens]
      simp [joined, Phrase.tokens, hmiddle]

theorem joinFrom_refuses {tier : Tier} (ho : tier.operand.Sound bound operand)
    {count : Nat} {left : Expr} {ts : List Located} {trouble : Trouble}
    (h : Reader.joinFrom tier.joining operand count left ts = .error trouble) :
    ∃ cause position, trouble = .malformed cause position := by
  induction count generalizing left ts with
  | zero => cases h
  | succ count ih =>
    rcases Reader.joinFrom_cases h with hstop |
      ⟨fewer, op, position, more, node, hcount, rfl, hnode, hmore⟩
    · cases hstop
    · obtain rfl : count = fewer := by omega
      rcases Except.bind_eq_error.mp hmore with hright | ⟨⟨right, behind⟩, -, hnext⟩
      · exact ho.refuses hright
      · exact ih hnext

theorem join_sound {tier : Tier} (ho : tier.operand.Sound bound operand) (hbound : 0 < bound) :
    (Category.joined tier).Sound bound (.join tier.joining operand) where
  derives := by
    intro ts e rest h
    obtain ⟨⟨first, behind⟩, hfirst, hnext⟩ := Except.bind_eq_ok.mp h
    obtain ⟨front, p, rfl, hfront, rfl, hp⟩ := ho.derives hfirst
    obtain ⟨back, q, rfl, htokens, htree, hq⟩ :=
      joinFrom_derives ho hbound (.operand tier p) hp hnext
    refine ⟨front ++ back, q, by simp, ?_, htree, hq⟩
    rw [htokens, List.map_append, hfront]
    rfl
  refuses := by
    intro ts trouble h
    rcases Except.bind_eq_error.mp h with hfirst | ⟨⟨first, behind⟩, -, hnext⟩
    · exact ho.refuses hfirst
    · exact joinFrom_refuses ho hnext

structure Readers.Sound (level : Readers) (bound : Nat) : Prop where
  whole : (Category.joined .disjunction).Sound bound level.whole
  negated : Category.negated.Sound bound level.negated
  signed : Category.signed.Sound bound level.signed

theorem bottom_sound : Readers.bottom.Sound bound := by
  constructor <;> exact
    { derives := fun ts e rest h => nomatch h
      refuses := fun ts trouble h => ⟨.tooDeep, nextPosition ts, by cases h; rfl⟩ }

theorem enclosed_deeper {ns : List Nat} (h : ∀ n ∈ ns, n < bound) :
    ∀ n ∈ 0 :: ns.map (· + 1), n < bound + 1 := by
  rw [List.forall_mem_cons, List.forall_mem_map]
  exact ⟨Nat.succ_pos bound, fun n hn => Nat.succ_lt_succ (h n hn)⟩

theorem before_derives {c : Category} {deep : Reader} (hd : c.Sound bound deep) {op : Operator}
    {node : UnaryOp} {wrap : Phrase c → Phrase c}
    (htokens : ∀ p, (wrap p).tokens = .operator op :: p.tokens)
    (htree : ∀ p, (wrap p).tree = .unary node p.tree)
    (henclosures : ∀ p, (wrap p).enclosures = 0 :: p.enclosures.map (· + 1)) (position : Nat)
    {ts rest : List Located} {e : Expr} (h : Reader.before node deep ts = .ok (e, rest)) :
    ∃ (front : List Located) (p : Phrase c), ⟨.operator op, position⟩ :: ts = front ++ rest ∧
      front.map (·.token) = p.tokens ∧ p.tree = e ∧ ∀ n ∈ p.enclosures, n < bound + 1 := by
  obtain ⟨⟨inner, behind⟩, hinner, hrest⟩ := Except.bind_eq_ok.mp h
  cases hrest
  obtain ⟨front, p, rfl, hfront, rfl, hp⟩ := hd.derives hinner
  refine ⟨⟨.operator op, position⟩ :: front, wrap p, rfl, ?_, htree p, ?_⟩
  · rw [htokens, ← hfront]
    rfl
  · rw [henclosures]
    exact enclosed_deeper hp

theorem before_refuses {c : Category} {deep : Reader} (hd : c.Sound bound deep) {node : UnaryOp}
    {ts : List Located} {trouble : Trouble} (h : Reader.before node deep ts = .error trouble) :
    ∃ cause position, trouble = .malformed cause position := by
  rcases Except.bind_eq_error.mp h with hinner | ⟨_, -, hrest⟩
  · exact hd.refuses hinner
  · cases hrest

theorem readPrimary_sound (hd : below.Sound bound) :
    Category.primary.Sound (bound + 1) (readPrimary below) where
  derives := by
    intro ts e rest h
    cases ts with
    | nil => cases h
    | cons t more =>
      obtain ⟨token, position⟩ := t
      cases token with
      | number n =>
        cases h
        exact ⟨[⟨.number n, position⟩], .literal (.number n), rfl, rfl, rfl,
          by simp [Phrase.enclosures]⟩
      | text s =>
        cases h
        exact ⟨[⟨.text s, position⟩], .literal (.text s), rfl, rfl, rfl,
          by simp [Phrase.enclosures]⟩
      | boolean b =>
        cases h
        exact ⟨[⟨.boolean b, position⟩], .literal (.boolean b), rfl, rfl, rfl,
          by simp [Phrase.enclosures]⟩
      | name s =>
        cases h
        exact ⟨[⟨.name s, position⟩], .name s, rfl, rfl, rfl,
          by simp [Phrase.enclosures]⟩
      | leftParen =>
        obtain ⟨⟨inner, behind⟩, hinner, hclose⟩ := Except.bind_eq_ok.mp h
        obtain ⟨middle, p, rfl, hmiddle, rfl, hp⟩ := hd.whole.derives hinner
        dsimp only at hclose
        split at hclose
        · rename_i close behind
          cases hclose
          exact ⟨⟨.leftParen, position⟩ :: middle ++ [⟨.rightParen, close⟩], .parens p, by simp,
            by simp [Phrase.tokens, hmiddle], rfl,
            List.forall_mem_append.mpr ⟨enclosed_deeper hp, by simp⟩⟩
        · cases hclose
      | operator op => cases h
      | rightParen => cases h
      | finish => cases h
  refuses := by
    intro ts trouble h
    cases ts with
    | nil => exact ⟨_, _, by cases h; rfl⟩
    | cons t more =>
      obtain ⟨token, position⟩ := t
      cases token with
      | number n => cases h
      | text s => cases h
      | boolean b => cases h
      | name s => cases h
      | leftParen =>
        rcases Except.bind_eq_error.mp h with hinner | ⟨⟨inner, behind⟩, -, hclose⟩
        · exact hd.whole.refuses hinner
        · dsimp only at hclose
          split at hclose
          · cases hclose
          · exact ⟨_, _, by cases hclose; rfl⟩
      | operator op => exact ⟨_, _, by cases h; rfl⟩
      | rightParen => exact ⟨_, _, by cases h; rfl⟩
      | finish => exact ⟨_, _, by cases h; rfl⟩

theorem readSigned_sound (hd : below.Sound bound) :
    Category.signed.Sound (bound + 1) (readSigned below) where
  derives := by
    intro ts e rest h
    rcases readSigned_cases below ts with ⟨op, position, more, node, rfl, hsign, hread⟩ | hread
    · have hwrap (p : Phrase .signed) :
          (Phrase.sign op node hsign p).tokens = .operator op :: p.tokens := rfl
      exact before_derives hd.signed hwrap (fun _ => rfl) (fun _ => rfl) position (hread ▸ h)
    · obtain ⟨front, p, hsplit, hfront, htree, hp⟩ := (readPrimary_sound hd).derives (hread ▸ h)
      exact ⟨front, .primary p, hsplit, hfront, htree, hp⟩
  refuses := by
    intro ts trouble h
    rcases readSigned_cases below ts with ⟨op, position, more, node, rfl, hsign, hread⟩ | hread
    · exact before_refuses hd.signed (hread ▸ h)
    · exact (readPrimary_sound hd).refuses (hread ▸ h)

theorem readComparison_sound (hd : below.Sound bound) :
    (Category.joined .comparison).Sound (bound + 1) (readComparison below) :=
  have hpos := Nat.succ_pos bound
  join_sound (join_sound (join_sound (readSigned_sound hd) hpos) hpos) hpos

theorem readNegated_sound (hd : below.Sound bound) :
    Category.negated.Sound (bound + 1) (readNegated below) where
  derives := by
    intro ts e rest h
    rcases readNegated_cases below ts with ⟨position, more, rfl, hread⟩ | hread
    · have hwrap (p : Phrase .negated) :
          (Phrase.negation p).tokens = .operator .negation :: p.tokens := rfl
      exact before_derives hd.negated hwrap (fun _ => rfl) (fun _ => rfl) position (hread ▸ h)
    · obtain ⟨front, p, hsplit, hfront, htree, hp⟩ := (readComparison_sound hd).derives (hread ▸ h)
      exact ⟨front, .comparison p, hsplit, hfront, htree, hp⟩
  refuses := by
    intro ts trouble h
    rcases readNegated_cases below ts with ⟨position, more, rfl, hread⟩ | hread
    · exact before_refuses hd.negated (hread ▸ h)
    · exact (readComparison_sound hd).refuses (hread ▸ h)

theorem readWhole_sound (hd : below.Sound bound) :
    (Category.joined .disjunction).Sound (bound + 1) (readWhole below) :=
  have hpos := Nat.succ_pos bound
  join_sound (join_sound (readNegated_sound hd) hpos) hpos

theorem above_sound (hd : below.Sound bound) : below.above.Sound (bound + 1) :=
  ⟨readWhole_sound hd, readNegated_sound hd, readSigned_sound hd⟩

theorem readers_sound (depth : Nat) : (readers depth).Sound (depth + 1) := by
  induction depth with
  | zero => exact above_sound bottom_sound
  | succ depth ih => exact above_sound ih

/-! ### A phrase is taken by its reader -/

def Tier.rank : Tier → Nat
  | .disjunction => 0
  | .conjunction => 1
  | .comparison => 2
  | .addition => 3
  | .multiplication => 4

/-- The rank of the operators that may not follow a phrase if its reader is to stop there. -/
def Category.rank : Category → Nat
  | .joined tier => tier.rank
  | .negated => 2
  | .signed => 5
  | .primary => 5

theorem Tier.rank_operand (tier : Tier) : tier.operand.rank = tier.rank + 1 := by
  cases tier <;> rfl

theorem Tier.eq_of_mem_operators {tier other : Tier} {op : Operator}
    {node node' : Expr → Expr → Expr} (h : (op, node) ∈ tier.operators)
    (h' : (op, node') ∈ other.operators) : tier = other := by
  cases tier <;> cases other <;> cases op <;> simp [operators] at h h' ⊢

/-- The tokens do not start with an operator that binds at least as tightly as a rank. -/
def Ends (rank : Nat) (ts : List Located) : Prop :=
  ∀ t ∈ ts.head?, ∀ op, t.token = .operator op →
    ∀ tier node, (op, node) ∈ Tier.operators tier → tier.rank < rank

theorem Ends.mono {rank higher : Nat} {ts : List Located} (h : Ends rank ts) (hle : rank ≤ higher) :
    Ends higher ts := fun t ht op hop tier node hmem =>
  Nat.lt_of_lt_of_le (h t ht op hop tier node hmem) hle

theorem ends_operator {tier : Tier} {op : Operator} {node : Expr → Expr → Expr}
    (h : (op, node) ∈ tier.operators) (position : Nat) (more : List Located) :
    Ends (tier.rank + 1) (⟨.operator op, position⟩ :: more) := by
  intro t ht op' hop other node' hmem
  cases ht
  cases hop
  rw [Tier.eq_of_mem_operators h hmem]
  exact Nat.lt_succ_self _

theorem Ends.joining_eq_none {tier : Tier} {ts : List Located} (h : Ends tier.rank ts) :
    ∀ t ∈ ts.head?, ∀ op, t.token = .operator op → tier.joining op = none := by
  intro t ht op hop
  rw [Option.eq_none_iff_forall_ne_some]
  intro node hnode
  exact Nat.lt_irrefl _ (h t ht op hop tier node (Tier.joining_eq_some_iff.mp hnode))

/-- From a phrase with a tree on, its reader comes to a result with the rest of the tokens: a tier
goes on joining operands, everything else stops. -/
def Category.GoesOn (below : Readers) : Category → Expr → List Located → Expr × List Located → Prop
  | .joined tier, e, rest, result => Ends (tier.rank + 1) rest ∧ ∀ count, rest.length ≤ count →
      Reader.joinFrom tier.joining (tier.operand.reader below) count e rest = .ok result
  | c, e, rest, result => Ends c.rank rest ∧ result = (e, rest)

theorem goesOn_of_ends {c : Category} {rest : List Located} (h : Ends c.rank rest) (e : Expr) :
    c.GoesOn below e rest (e, rest) := by
  cases c with
  | joined tier =>
    refine ⟨h.mono (Nat.le_succ _), fun count _ => ?_⟩
    exact Reader.joinFrom_of_stops h.joining_eq_none count e
  | negated => exact ⟨h, rfl⟩
  | signed => exact ⟨h, rfl⟩
  | primary => exact ⟨h, rfl⟩

theorem enclosed_of_within {ns : List Nat} {depth : Nat}
    (h : ∀ n ∈ 0 :: ns.map (· + 1), n ≤ depth) : ∀ n ∈ ns, n + 1 ≤ depth := fun n hn =>
  h (n + 1) (List.mem_cons_of_mem 0 (List.mem_map_of_mem hn))

theorem Phrase.starts {c : Category} (p : Phrase c) {front rest : List Located}
    (hfront : front.map (·.token) = p.tokens) : ∀ t ∈ (front ++ rest).head?, c.Starts t.token := by
  obtain ⟨first, more, htokens, hstart⟩ := p.exists_first
  obtain ⟨t, middle, rfl, rfl, -⟩ := List.map_eq_cons_iff.mp (hfront.trans htokens)
  rintro _ ⟨⟩
  exact hstart

/-- The reader of a phrase takes it off the tokens and goes on from there. The induction is on the
phrase: a tier starts with its leftmost operand, so the left phrase of a join is read with the rest
of the join still to come. -/
theorem reader_of_goesOn {c : Category} (p : Phrase c) {depth : Nat} (hdepth : p.Within depth)
    {front rest : List Located} {result : Expr × List Located}
    (hfront : front.map (·.token) = p.tokens) (h : c.GoesOn (deeper depth) p.tree rest result) :
    c.reader (deeper depth) (front ++ rest) = .ok result := by
  induction p generalizing depth front rest result with
  | operand tier only ih =>
    obtain ⟨hends, hjoin⟩ := h
    have honly := ih hdepth hfront (goesOn_of_ends (tier.rank_operand ▸ hends) only.tree)
    rw [Category.reader_joined, Reader.join, honly]
    exact hjoin rest.length (Nat.le_refl _)
  | join tier op node hop left right ihl ihr =>
    obtain ⟨hends, hjoin⟩ := h
    obtain ⟨hleft, hright⟩ := List.forall_mem_append.mp hdepth
    obtain ⟨before, behind, rfl, hbefore, hbehind⟩ := List.map_eq_append_iff.mp hfront
    obtain ⟨⟨token, position⟩, middle, rfl, rfl, hmiddle⟩ := List.map_eq_cons_iff.mp hbehind
    rw [List.append_assoc, List.cons_append]
    refine ihl hleft hbefore ⟨ends_operator hop position _, fun count hcount => ?_⟩
    rw [List.length_cons, List.length_append] at hcount
    obtain ⟨fewer, rfl⟩ := Nat.exists_eq_add_of_le' (Nat.le_trans (Nat.le_add_left 1 _) hcount)
    have hoperand := ihr (List.forall_mem_cons.mp hright).2 hmiddle
      (goesOn_of_ends (tier.rank_operand ▸ hends) right.tree)
    rw [Reader.joinFrom_of_joins (Tier.joining_eq_some_iff.mpr hop), hoperand]
    exact hjoin fewer (by omega)
  | negation inner ih =>
    obtain ⟨hends, rfl⟩ := h
    obtain ⟨⟨token, position⟩, middle, rfl, rfl, hmiddle⟩ := List.map_eq_cons_iff.mp hfront
    obtain ⟨less, rfl, hless⟩ := Phrase.exists_within_of_enclosed (enclosed_of_within hdepth)
    have hinner := ih hless hmiddle (goesOn_of_ends hends inner.tree)
    rw [deeper, readers_eq_above, Category.reader, List.cons_append, readNegated_of_negation]
    exact Except.bind_eq_ok.mpr ⟨_, hinner, rfl⟩
  | comparison only ih =>
    obtain ⟨hends, rfl⟩ := h
    replace hends : Ends (Category.joined .comparison).rank rest := hends
    rw [Category.reader, readNegated_of_no_negation (only.starts hfront)]
    exact ih hdepth hfront (goesOn_of_ends hends only.tree)
  | sign op node hsign inner ih =>
    obtain ⟨hends, rfl⟩ := h
    obtain ⟨⟨token, position⟩, middle, rfl, rfl, hmiddle⟩ := List.map_eq_cons_iff.mp hfront
    obtain ⟨less, rfl, hless⟩ := Phrase.exists_within_of_enclosed (enclosed_of_within hdepth)
    have hinner := ih hless hmiddle (goesOn_of_ends hends inner.tree)
    rw [deeper, readers_eq_above, Category.reader, List.cons_append, readSigned_of_sign hsign]
    exact Except.bind_eq_ok.mpr ⟨_, hinner, rfl⟩
  | primary only ih =>
    obtain ⟨hends, rfl⟩ := h
    replace hends : Ends Category.primary.rank rest := hends
    have hnone : ∀ t ∈ (front ++ rest).head?, ∀ op, t.token = .operator op → sign? op = none :=
      fun t ht op hop => absurd hop (only.starts hfront t ht op)
    rw [Category.reader, readSigned_of_no_sign hnone]
    exact ih hdepth hfront (goesOn_of_ends hends only.tree)
  | literal l =>
    obtain ⟨-, rfl⟩ := h
    obtain ⟨⟨token, position⟩, rfl, rfl⟩ := List.map_eq_singleton_iff.mp hfront
    cases l <;> rfl
  | name s =>
    obtain ⟨-, rfl⟩ := h
    obtain ⟨⟨token, position⟩, rfl, rfl⟩ := List.map_eq_singleton_iff.mp hfront
    rfl
  | parens inner ih =>
    obtain ⟨-, rfl⟩ := h
    obtain ⟨before, behind, rfl, hbefore, hbehind⟩ := List.map_eq_append_iff.mp hfront
    obtain ⟨⟨token, position⟩, middle, rfl, rfl, hmiddle⟩ := List.map_eq_cons_iff.mp hbefore
    obtain ⟨⟨token, close⟩, rfl, rfl⟩ := List.map_eq_singleton_iff.mp hbehind
    obtain ⟨less, rfl, hless⟩ := Phrase.exists_within_of_enclosed
      (enclosed_of_within (List.forall_mem_append.mp hdepth).1)
    have hends : Ends (Category.joined .disjunction).rank (⟨.rightParen, close⟩ :: rest) := by
      rintro _ ⟨⟩ op ⟨⟩
    have hinner := ih hless hmiddle (goesOn_of_ends hends inner.tree)
    rw [deeper, readers_eq_above, Category.reader, List.cons_append, List.cons_append,
      List.append_assoc]
    exact Except.bind_eq_ok.mpr ⟨_, hinner, rfl⟩

theorem Phrase.tree_eq_of_tokens_eq {c : Category} {p q : Phrase c} (h : p.tokens = q.tokens) :
    p.tree = q.tree := by
  obtain ⟨depth, hp, hq⟩ := Phrase.exists_within_both p q
  let front : List Located := p.tokens.map (⟨·, 0⟩)
  have hfront : front.map (·.token) = p.tokens := by simp [front, Function.comp_def]
  have hends : Ends c.rank [] := by
    rintro t ⟨⟩
  have hread := reader_of_goesOn p hp hfront (goesOn_of_ends hends p.tree)
  rw [reader_of_goesOn q hq (hfront.trans h) (goesOn_of_ends hends q.tree)] at hread
  exact (congrArg Prod.fst (Except.ok.inj hread)).symm

/-! ### Rules -/

/-- The tokens of a rule are those of a sentence with its tree, and they are neither too many nor
enclosed too often. -/
def Grammatical (ts : List Located) (tree : Expr) : Prop :=
  ts.length ≤ 512 ∧ ∃ p : Sentence,
    ts.map (·.token) = p.tokens ++ [.finish] ∧ p.tree = tree ∧ p.Within 32

theorem ofTokens_of_grammatical {ts : List Located} {tree : Expr} (h : Grammatical ts tree) :
    Expr.ofTokens ts = .ok tree := by
  obtain ⟨hlength, p, hts, rfl, hdepth⟩ := h
  obtain ⟨front, back, rfl, hfront, hback⟩ := List.map_eq_append_iff.mp hts
  obtain ⟨⟨token, position⟩, rfl, rfl⟩ := List.map_eq_singleton_iff.mp hback
  have hends : Ends (Category.joined .disjunction).rank [⟨.finish, position⟩] := by
    rintro _ ⟨⟩ op ⟨⟩
  have hread : (readers maxDepth).whole (front ++ [⟨.finish, position⟩]) =
      .ok (p.tree, [⟨.finish, position⟩]) := by
    rw [readers_eq_above]
    exact reader_of_goesOn p hdepth hfront (goesOn_of_ends hends p.tree)
  have hfirst : ∀ t ∈ (front ++ [⟨.finish, position⟩] : List Located).head?, t.token ≠ .finish := by
    obtain ⟨first, more, htokens, -⟩ := p.exists_first
    obtain ⟨t, middle, rfl, rfl, -⟩ := List.map_eq_cons_iff.mp (hfront.trans htokens)
    rintro _ ⟨⟩ ht
    exact p.finish_not_mem_tokens (by rw [htokens, ht]; exact List.mem_cons_self)
  have hshort : ¬maxTokens < (front ++ [⟨.finish, position⟩] : List Located).length :=
    Nat.not_lt.mpr hlength
  unfold Expr.ofTokens
  rw [if_neg hshort]
  split
  · rename_i hcons
    exact absurd rfl (hfirst _ (by rw [hcons]; rfl))
  · rw [hread]
    rfl

theorem sentence_of_ofTokens {ts : List Located} {tree : Expr} (h : Expr.ofTokens ts = .ok tree) :
    ts.length ≤ 512 ∧ ∃ (front rest : List Located) (p : Sentence), ts = front ++ rest ∧
      front.map (·.token) = p.tokens ∧ p.tree = tree ∧ p.Within 32 ∧
      ∀ t ∈ rest.head?, t.token = .finish := by
  unfold Expr.ofTokens at h
  split at h
  · cases h
  · rename_i hlength
    refine ⟨Nat.not_lt.mp hlength, ?_⟩
    split at h
    · cases h
    · obtain ⟨⟨found, rest⟩, hfound, hend⟩ := Except.bind_eq_ok.mp h
      obtain ⟨front, p, rfl, hfront, rfl, hp⟩ := (readers_sound maxDepth).whole.derives hfound
      have hwithin : p.Within 32 := fun n hn => Nat.le_of_lt_succ (hp n hn)
      dsimp only at hend
      split at hend
      · cases hend
        exact ⟨front, _, p, rfl, hfront, rfl, hwithin, by simp⟩
      · cases hend
      · cases hend
        exact ⟨front, [], p, rfl, hfront, rfl, hwithin, by simp⟩

theorem ofTokens_refuses {ts : List Located} {trouble : Trouble}
    (h : Expr.ofTokens ts = .error trouble) :
    ∃ cause position, trouble = .malformed cause position := by
  unfold Expr.ofTokens at h
  split at h
  · exact ⟨_, _, by cases h; rfl⟩
  · split at h
    · exact ⟨_, _, by cases h; rfl⟩
    · rcases Except.bind_eq_error.mp h with hwhole | ⟨⟨found, rest⟩, -, hend⟩
      · exact (readers_sound maxDepth).whole.refuses hwhole
      · dsimp only at hend
        split at hend
        · cases hend
        · exact ⟨_, _, by cases hend; rfl⟩
        · cases hend

theorem grammatical_of_parse {text : String} {tree : Expr} (h : parse text = .ok tree) :
    ∃ ts, tokens text = .ok ts ∧ Grammatical ts tree := by
  obtain ⟨ts, hts, hread⟩ := Except.bind_eq_ok.mp h
  refine ⟨ts, hts, ?_⟩
  obtain ⟨hlength, front, rest, p, rfl, hfront, htree, hp, hend⟩ :=
    sentence_of_ofTokens (Except.mapError_eq_ok.mp hread)
  cases rest with
  | nil =>
    obtain ⟨init, hinit, -⟩ := tokens_end hts
    rw [List.append_nil] at hinit
    have hmem : Token.finish ∈ p.tokens := by simp [← hfront, hinit]
    exact absurd hmem p.finish_not_mem_tokens
  | cons t behind =>
    have ht : t.token = .finish := hend t rfl
    obtain rfl := eq_nil_of_tokens_eq hts ht
    exact ⟨hlength, p, by simp [hfront, ht], htree, hp⟩

theorem parse_of_grammatical {text : String} {ts : List Located} {tree : Expr}
    (h : tokens text = .ok ts) (htree : Grammatical ts tree) : parse text = .ok tree := by
  rw [parse, h, Except.ok_bind, ofTokens_of_grammatical htree]
  rfl

/-- The parser accepts the sentences of the grammar that are neither too long nor too deep, with the
only tree that they stand for, and reports every other text as malformed. -/
theorem parse_iff_grammatical {text : String} {ts : List Located} (h : tokens text = .ok ts) :
    (∀ tree, parse text = .ok tree ↔ Grammatical ts tree) ∧
      ((∀ tree, ¬Grammatical ts tree) →
        ∃ cause position, parse text = .error (.malformed ⟨cause, position, text⟩)) ∧
      ∀ p q : Sentence, p.tokens = q.tokens → p.tree = q.tree := by
  have hparse : parse text = (Expr.ofTokens ts).mapError (Trouble.inText text) := by
    rw [parse, h, Except.ok_bind]
  have hiff : ∀ tree, parse text = .ok tree ↔ Grammatical ts tree := by
    intro tree
    constructor
    · intro htree
      obtain ⟨ts', hts', hgrammatical⟩ := grammatical_of_parse htree
      obtain rfl : ts = ts' := by simpa [h] using hts'
      exact hgrammatical
    · intro hgrammatical
      rw [hparse, ofTokens_of_grammatical hgrammatical]
      rfl
  refine ⟨hiff, fun hnone => ?_, fun p q => Phrase.tree_eq_of_tokens_eq⟩
  cases hread : Expr.ofTokens ts with
  | ok tree => exact absurd ((hiff tree).mp (by rw [hparse, hread]; rfl)) (hnone tree)
  | error trouble =>
    obtain ⟨cause, position, rfl⟩ := ofTokens_refuses hread
    exact ⟨cause, position, by rw [hparse, hread]; rfl⟩

def Phrase.side (p : Phrase .primary) : Phrase (.joined .addition) :=
  .operand .addition (.operand .multiplication (.primary p))

def strictSentence : Sentence :=
  let a : Phrase .negated := .comparison (.operand .comparison (.side (.name "a")))
  let b : Phrase (.joined .comparison) :=
    .join .comparison .strictEqual (.binary .equal) (by simp [Tier.operators])
      (.operand .comparison (.side (.name "b"))) (.side (.literal (.number (.int 1))))
  .join .disjunction .either (.connect .either) (by simp [Tier.operators])
    (.operand .disjunction (.operand .conjunction (.negation a)))
    (.operand .conjunction (.comparison b))

theorem strictSentence_parses :
    parse "!a || b === 1" = .ok (.connect .either (.unary .negation (.name "a"))
      (.binary .equal (.name "b") (.literal (.number (.int 1))))) := by
  have htokens : tokens "!a || b === 1" = .ok
      [⟨.operator .negation, 0⟩, ⟨.name "a", 1⟩, ⟨.operator .either, 3⟩, ⟨.name "b", 6⟩,
       ⟨.operator .strictEqual, 8⟩, ⟨.number (.int 1), 12⟩, ⟨.finish, 13⟩] := rfl
  exact ((parse_iff_grammatical htokens).1 _).mpr
    ⟨by decide, strictSentence, rfl, rfl, by decide⟩

end Shortlist.Rule
