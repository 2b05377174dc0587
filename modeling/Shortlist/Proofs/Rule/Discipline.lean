import Shortlist.Proofs.Rule.Walk

/-!
# The discipline of the parser

A walk over a phrase mirrors the reader of its kind and level (`Mirrors`): it ends, in the same tree
or the same refusal, it stays on the tokens, and it opens no more levels than are allowed and closes
those that it opened. This is shown along the readers, which end for structural reasons: level by
level from the deepest one, and within a level from the tightest kind of phrase to the loosest. The
loop over the operands of a tier takes an operator in each round, so the tokens that are left bound
the rounds.
-/

namespace Shortlist.Rule

open Walk

/-! ### Sound cursors -/

/-- The last token is the end of the text. -/
def Ended (ts : List Located) : Prop := ∃ t, ts.getLast? = some t ∧ t.token = .finish

/-- A cursor on one of the tokens, no deeper than is allowed. -/
def Cursor.Sound (ts : List Located) (c : Cursor) : Prop :=
  c.index < ts.length ∧ c.depth ≤ maxDepth

/-- No cursor of a trail is outside the tokens, and none that it went on from is too deep. -/
structure Trail.Within (ts : List Located) (trail : Trail) : Prop where
  inside : ∀ c ∈ trail.now :: trail.past, c.index < ts.length
  shallow : ∀ c ∈ trail.past, c.depth ≤ maxDepth

def Trail.Sound (ts : List Located) (trail : Trail) : Prop :=
  trail.now.Sound ts ∧ ∀ c ∈ trail.past, c.Sound ts

namespace Trail

variable {ts rest : List Located} {t : Located} {trail : Trail}

theorem sound_start {c : Cursor} (h : c.Sound ts) : (start c).Sound ts :=
  ⟨h, by simp [start]⟩

theorem Sound.goTo (h : trail.Sound ts) {next : Cursor} (hnext : next.Sound ts) :
    (trail.goTo next).Sound ts :=
  ⟨hnext, List.forall_mem_cons.mpr h⟩

theorem Sound.within (h : trail.Sound ts) : trail.Within ts :=
  ⟨List.forall_mem_cons.mpr ⟨h.1.1, fun c hc => (h.2 c hc).1⟩, fun c hc => (h.2 c hc).2⟩

theorem Sound.exists_next (h : trail.Sound ts) :
    ∃ t ∈ ts, ∃ rest, ts.drop trail.now.index = t :: rest :=
  ⟨_, List.getElem_mem h.1.1, _, List.drop_eq_getElem_cons h.1.1⟩

theorem drop_forward (h : ts.drop trail.now.index = t :: rest) :
    ts.drop trail.forward.now.index = rest := by
  rw [index_forward, ← List.drop_drop, h, List.drop_one, List.tail_cons]

/-- Behind a token that is not the last there is another one. -/
theorem Sound.forward (h : trail.Sound ts) (hended : Ended ts)
    (hnext : ts.drop trail.now.index = t :: rest) (ht : t.token ≠ .finish) :
    trail.forward.Sound ts := by
  obtain ⟨last, hlast, hfinish⟩ := hended
  have hlength := congrArg List.length hnext
  rw [List.length_drop, List.length_cons] at hlength
  have hmore : rest ≠ [] := by
    rintro rfl
    have hsame : (ts.drop trail.now.index).getLast? = some last := by
      rw [List.getLast?_drop, if_neg (Nat.not_le.mpr h.1.1), hlast]
    rw [hnext] at hsame
    cases hsame
    exact ht hfinish
  have hpos := List.length_pos_iff.mpr hmore
  exact h.goTo ⟨by dsimp only; omega, h.1.2⟩

theorem Sound.deeper (h : trail.Sound ts) (hdepth : trail.now.depth < maxDepth) :
    trail.deeper.Sound ts :=
  h.goTo ⟨h.1.1, hdepth⟩

theorem Sound.shallower (h : trail.Sound ts) : trail.shallower.Sound ts :=
  h.goTo ⟨h.1.1, Int.le_trans (Int.sub_le_self _ (by decide)) h.1.2⟩

end Trail

/-! ### Agreement with readers -/

/-- A walk from a trail ends as a reader does with the tokens that are left. It returns the same
tree, no earlier than at a given index and at a given depth, or is refused for the same cause at the
place of some token. All cursors it goes on from are sound. -/
inductive Agrees (ts : List Located) (w : Nat → Walk Expr) (trail : Trail) (least : Nat)
    (depth : Int) : Except Trouble (Expr × List Located) → Prop
  | returns {tree : Expr} {next : Trail} (hend : Comes w trail (.ok tree) next)
      (hsound : next.Sound ts) (hleast : least ≤ next.now.index) (hdepth : next.now.depth = depth) :
      Agrees ts w trail least depth (.ok (tree, ts.drop next.now.index))
  | halts {cause : Malformation} {t : Located} {next : Trail}
      (hend : Comes w trail (.error (.malformed cause t.position)) next) (ht : t ∈ ts)
      (hwithin : next.Within ts) :
      Agrees ts w trail least depth (.error (.malformed cause t.position))

section

variable {ts : List Located} {w x : Nat → Walk Expr} {f : Nat → Expr → Walk Expr}
  {trail next : Trail} {least more : Nat} {depth depth' : Int}
  {r : Except Trouble (Expr × List Located)}
  {g : Expr × List Located → Except Trouble (Expr × List Located)}

theorem Agrees.of_comes (h : Agrees ts x next least depth r)
    (hcomes : ∀ {result last}, Comes x next result last → Comes w trail result last) :
    Agrees ts w trail least depth r := by
  cases h with
  | returns hend hsound hleast hdepth => exact .returns (hcomes hend) hsound hleast hdepth
  | halts hend ht hwithin => exact .halts (hcomes hend) ht hwithin

theorem Agrees.of_step {α : Type} {step : Walk α} {a : α} {f : Nat → α → Walk Expr}
    (hstep : step.outcome trail = some (.ok a, next))
    (h : Agrees ts (fun calls => f calls a) next least depth r) :
    Agrees ts (fun calls => step >>= f calls) trail least depth r :=
  h.of_comes fun hx => hx.of_outcome_eq fun _ => outcome_bind_of_ok hstep

theorem Agrees.of_succ (h : Agrees ts (fun calls => w (calls + 1)) trail least depth r) :
    Agrees ts w trail least depth r :=
  h.of_comes Comes.of_succ

theorem Agrees.mono (h : Agrees ts w trail more depth r) (hle : least ≤ more) :
    Agrees ts w trail least depth r := by
  cases h with
  | returns hend hsound hleast hdepth => exact .returns hend hsound (hle.trans hleast) hdepth
  | halts hend ht hwithin => exact .halts hend ht hwithin

/-- A walk that goes on where another one returns, as a reader goes on with what is left. -/
theorem Agrees.bind (hx : Agrees ts x trail least depth r)
    (hf : ∀ tree next, Trail.Sound ts next → least ≤ next.now.index → next.now.depth = depth →
      Agrees ts (fun calls => f calls tree) next more depth'
        (g (tree, ts.drop next.now.index))) :
    Agrees ts (fun calls => x calls >>= f calls) trail more depth' (r >>= g) := by
  cases hx with
  | returns hend hsound hleast hdepth =>
    exact (hf _ _ hsound hleast hdepth).of_comes hend.bind_of_ok
  | halts hend ht hwithin => exact .halts hend.bind_of_error ht hwithin

theorem Agrees.pure (hsound : trail.Sound ts) (hleast : least ≤ trail.now.index)
    (hdepth : trail.now.depth = depth) (tree : Expr) :
    Agrees ts (fun _ => pure tree) trail least depth (.ok (tree, ts.drop trail.now.index)) :=
  .returns (comes_of_outcome fun _ => rfl) hsound hleast hdepth

theorem Agrees.throw (hsound : trail.Sound ts) {t : Located} (ht : t ∈ ts) (cause : Malformation) :
    Agrees ts (fun _ => throw (.malformed cause t.position)) trail least depth
      (.error (.malformed cause t.position)) :=
  .halts (comes_of_outcome fun _ => rfl) ht hsound.within

/-- A walk that agrees with a reader from everywhere at a depth, and gets on when it returns. -/
def Mirrors (ts : List Located) (depth : Int) (w : Nat → Walk Expr) (reader : Reader) : Prop :=
  ∀ trail : Trail, trail.Sound ts → trail.now.depth = depth →
    Agrees ts w trail (trail.now.index + 1) depth (reader (ts.drop trail.now.index))

theorem mirrors_of_succ {reader : Reader}
    (h : Mirrors ts depth (fun calls => w (calls + 1)) reader) : Mirrors ts depth w reader :=
  fun trail hsound hdepth => (h trail hsound hdepth).of_succ

namespace Walk

def nested (ts : List Located) (inner : Nat → Walk Expr) (calls : Nat) : Walk Expr := do
  descend ts
  let tree ← inner calls
  ascend
  return tree

theorem nested_bind (ts : List Located) (inner : Nat → Walk Expr) (f : Nat → Expr → Walk Expr) :
    (fun calls => do
      descend ts
      let tree ← inner calls
      ascend
      f calls tree) = fun calls => nested ts inner calls >>= f calls := by
  simp only [nested, bind_assoc, pure_bind]

end Walk

theorem mirrors_nested {inner : Nat → Walk Expr} {reader : Reader}
    (h : Mirrors ts (depth + 1) inner reader) (hdepth : depth < maxDepth) :
    Mirrors ts depth (nested ts inner) reader := by
  rintro trail hsound rfl
  refine Agrees.of_step (outcome_descend hdepth) ?_
  rw [← bind_pure (reader _)]
  refine (h trail.deeper (hsound.deeper hdepth) rfl).bind fun tree next hnext hleast hd => ?_
  refine Agrees.of_step outcome_ascend (Agrees.pure hnext.shallower hleast ?_ tree)
  rw [Trail.depth_shallower, hd, Int.add_sub_cancel]

theorem mirrors_deepest (inner : Nat → Walk Expr) :
    Mirrors ts maxDepth (nested ts inner) fun ts => refuse .tooDeep (nextPosition ts) := by
  intro trail hsound hdepth
  obtain ⟨t, ht, rest, hnext⟩ := hsound.exists_next
  -- the level that is not opened any more stands at the end of the trail only
  have hwithin : trail.deeper.Within ts :=
    ⟨List.forall_mem_cons.mpr ⟨hsound.1.1, hsound.within.inside⟩,
      List.forall_mem_cons.mpr ⟨hsound.1.2, hsound.within.shallow⟩⟩
  rw [hnext]
  exact .halts (comes_of_outcome fun _ => outcome_bind_of_error
    (outcome_descend_of_deepest hnext hdepth)) ht hwithin

structure Readers.Mirrored (below : Readers) (ts : List Located) (depth : Int) : Prop where
  whole : Mirrors ts depth (nested ts (phrase ts (.joined .disjunction))) below.whole
  negated : Mirrors ts depth (nested ts (phrase ts .negated)) below.negated
  signed : Mirrors ts depth (nested ts (phrase ts .signed)) below.signed

theorem bottom_mirrored : Readers.bottom.Mirrored ts maxDepth :=
  ⟨mirrors_deepest _, mirrors_deepest _, mirrors_deepest _⟩

/-! ### Phrases -/

section

variable {below : Readers} {operand : Reader} (hended : Ended ts)
include hended

theorem agrees_closing (hsound : trail.Sound ts) (tree : Expr)
    (hleast : least ≤ trail.now.index) :
    Agrees ts (fun _ => do
      let closing ← advance ts
      if closing.token = .rightParen then return tree
      else throw (.malformed .missingParen closing.position)) trail least trail.now.depth
      (match ts.drop trail.now.index with
      | ⟨.rightParen, _⟩ :: rest => return (tree, rest)
      | rest => refuse .missingParen (nextPosition rest)) := by
  obtain ⟨⟨token, position⟩, ht, rest, hnext⟩ := hsound.exists_next
  by_cases hfinish : token = .finish
  · subst hfinish
    refine Agrees.of_step (outcome_advance_of_finish hnext rfl) ?_
    rw [hnext]
    exact .throw hsound ht .missingParen
  · have hforward := hsound.forward hended hnext hfinish
    refine Agrees.of_step (outcome_advance hnext hfinish) ?_
    rw [hnext]
    by_cases hclose : token = .rightParen
    · subst hclose
      rw [if_pos rfl]
      obtain rfl := Trail.drop_forward hnext
      exact Agrees.pure hforward (hleast.trans (Nat.le_succ _)) rfl tree
    · rw [if_neg hclose]
      dsimp only
      split
      · rename_i hcons
        cases hcons
        exact absurd rfl hclose
      · exact .throw hforward ht .missingParen

theorem mirrors_primary (hbelow : below.Mirrored ts depth) :
    Mirrors ts depth (phrase ts .primary) (readPrimary below) := by
  rintro trail hsound rfl
  obtain ⟨⟨token, position⟩, ht, rest, hnext⟩ := hsound.exists_next
  refine Agrees.of_succ ?_
  simp only [phrase]
  rw [hnext]
  by_cases hfinish : token = .finish
  · subst hfinish
    refine Agrees.of_step (outcome_advance_of_finish hnext rfl) ?_
    exact .throw hsound ht .unexpectedEnd
  · have hforward := hsound.forward hended hnext hfinish
    refine Agrees.of_step (outcome_advance hnext hfinish) ?_
    obtain rfl := Trail.drop_forward hnext
    have hreturn := Agrees.pure hforward (Nat.le_refl _) rfl
    cases token with
    | number n => exact hreturn (.literal (.number n))
    | text s => exact hreturn (.literal (.text s))
    | boolean b => exact hreturn (.literal (.boolean b))
    | name s => exact hreturn (.name s)
    | leftParen =>
      dsimp only
      rw [nested_bind]
      refine (hbelow.whole trail.forward hforward rfl).bind fun tree next hs hleast hd => ?_
      exact hd ▸ agrees_closing hended hs tree ((Nat.le_succ _).trans hleast)
    | operator op => exact .throw hforward ht (.unexpectedToken (.operator op))
    | rightParen => exact .throw hforward ht (.unexpectedToken .rightParen)
    | finish => exact absurd rfl hfinish

/-- An operator in front of an operand opens a level for it. -/
theorem mirrors_unary {table : Operator → Option UnaryOp} {own tighter : Category}
    {deep loose reader : Reader} (hown : Mirrors ts depth (nested ts (phrase ts own)) deep)
    (htighter : Mirrors ts depth (phrase ts tighter) loose)
    (hsome : ∀ op node position more, table op = some node →
      reader (⟨.operator op, position⟩ :: more) = Reader.before node deep more)
    (hnone : ∀ t more, (∀ op, t.token = .operator op → table op = none) →
      reader (t :: more) = loose (t :: more)) :
    Mirrors ts depth (unary ts table own tighter) reader := by
  rintro trail hsound rfl
  obtain ⟨⟨token, position⟩, -, rest, hnext⟩ := hsound.exists_next
  refine Agrees.of_succ ?_
  simp only [unary]
  by_cases hstop : ∀ op, token = .operator op → table op = none
  · refine Agrees.of_step (outcome_accept_of_none hnext hstop) ?_
    rw [hnext, hnone _ _ hstop, ← hnext]
    exact htighter trail hsound rfl
  · push Not at hstop
    obtain ⟨op, rfl, hne⟩ := hstop
    obtain ⟨node, hnode⟩ := Option.ne_none_iff_exists'.mp hne
    have hforward := hsound.forward hended hnext (by simp)
    refine Agrees.of_step (outcome_accept_of_some hnext rfl hnode) ?_
    rw [hnext, hsome _ _ _ _ hnode]
    obtain rfl := Trail.drop_forward hnext
    dsimp only
    rw [nested_bind]
    refine (hown trail.forward hforward rfl).bind fun tree next hs hleast hd => ?_
    exact Agrees.pure hs ((Nat.le_succ _).trans hleast) hd _

/-- The loop over the operands of a tier. Each round takes an operator, so that there are no more
rounds than tokens. -/
theorem agrees_further {tier : Tier} (hoperand : Mirrors ts depth (phrase ts tier.operand) operand)
    {count : Nat} (left : Expr) (hsound : trail.Sound ts) (hdepth : trail.now.depth = depth)
    (hcount : (ts.drop trail.now.index).length ≤ count) :
    Agrees ts (further ts tier left) trail trail.now.index depth
      (Reader.joinFrom tier.joining operand count left (ts.drop trail.now.index)) := by
  induction count generalizing left trail with
  | zero =>
    obtain ⟨t, -, rest, hnext⟩ := hsound.exists_next
    simp [hnext] at hcount
  | succ count ih =>
    obtain ⟨⟨token, position⟩, -, rest, hnext⟩ := hsound.exists_next
    refine Agrees.of_succ ?_
    simp only [further]
    by_cases hstop : ∀ op, token = .operator op → tier.joining op = none
    · refine Agrees.of_step (outcome_accept_of_none hnext hstop) ?_
      rw [Reader.joinFrom_of_stops (by rw [hnext]; rintro _ ⟨⟩; exact hstop)]
      exact Agrees.pure hsound (Nat.le_refl _) hdepth left
    · push Not at hstop
      obtain ⟨op, rfl, hne⟩ := hstop
      obtain ⟨node, hnode⟩ := Option.ne_none_iff_exists'.mp hne
      have hforward := hsound.forward hended hnext (by simp)
      refine Agrees.of_step (outcome_accept_of_some hnext rfl hnode) ?_
      rw [hnext, Reader.joinFrom_of_joins hnode]
      obtain rfl := Trail.drop_forward hnext
      refine (hoperand trail.forward hforward hdepth).bind fun tree next hs hleast hd => ?_
      rw [Trail.index_forward] at hleast
      refine (ih (node left tree) hs hd ?_).mono (by omega)
      rw [List.length_drop] at hcount ⊢
      omega

theorem mirrors_joined (tier : Tier)
    (hoperand : Mirrors ts depth (phrase ts tier.operand) (tier.operand.reader below)) :
    Mirrors ts depth (phrase ts (.joined tier)) ((Category.joined tier).reader below) := by
  intro trail hsound hdepth
  refine Agrees.of_succ ?_
  simp only [phrase]
  rw [Category.reader_joined]
  refine (hoperand trail hsound hdepth).bind fun tree next hs hleast hd => ?_
  exact (agrees_further hended hoperand tree hs hd (Nat.le_refl _)).mono hleast

/-- Every kind of phrase is gone over as its reader reads it, if that holds one level deeper. -/
theorem mirrors_phrase (hbelow : below.Mirrored ts depth) (c : Category) :
    Mirrors ts depth (phrase ts c) (c.reader below) := by
  -- not an induction on the kind: each kind needs the next tighter one, which is no part of it
  have hprimary := mirrors_primary hended hbelow
  have hsigned : Mirrors ts depth (phrase ts .signed) (readSigned below) := by
    refine mirrors_of_succ ?_
    simp only [phrase]
    refine mirrors_unary hended hbelow.signed hprimary (fun op node position more h => ?_)
      fun t more h => ?_
    · exact readSigned_of_sign (sign?_eq_some_iff.mp h) position more
    · exact readSigned_of_no_sign (by rintro _ ⟨⟩; exact h)
  have hmultiplication := mirrors_joined hended .multiplication hsigned
  have haddition := mirrors_joined hended .addition hmultiplication
  have hcomparison := mirrors_joined hended .comparison haddition
  have hnegated : Mirrors ts depth (phrase ts .negated) (readNegated below) := by
    refine mirrors_of_succ ?_
    simp only [phrase]
    refine mirrors_unary hended hbelow.negated hcomparison (fun op node position more h => ?_)
      fun t more h => ?_
    · obtain ⟨rfl, rfl⟩ := negation?_eq_some_iff.mp h
      rfl
    · refine readNegated_of_no_negation ?_
      rintro _ ⟨⟩ ht
      cases h .negation ht
  have hconjunction := mirrors_joined hended .conjunction hnegated
  cases c with
  | joined tier =>
    cases tier with
    | disjunction => exact mirrors_joined hended .disjunction hconjunction
    | conjunction => exact hconjunction
    | comparison => exact hcomparison
    | addition => exact haddition
    | multiplication => exact hmultiplication
  | negated => exact hnegated
  | signed => exact hsigned
  | primary => exact hprimary

theorem deeper_mirrored (levels : Nat) :
    (deeper levels).Mirrored ts (maxDepth - levels) := by
  induction levels with
  | zero => exact bottom_mirrored
  | succ levels ih =>
    have hdepth : (maxDepth : Int) - (levels + 1 : Nat) + 1 = maxDepth - levels := by omega
    have hallowed : (maxDepth : Int) - (levels + 1 : Nat) < maxDepth := by omega
    have hnested (c : Category) : Mirrors ts (maxDepth - (levels + 1 : Nat))
        (nested ts (phrase ts c)) (c.reader (deeper levels)) :=
      mirrors_nested (hdepth ▸ mirrors_phrase hended ih c) hallowed
    rw [deeper, readers_eq_above]
    exact ⟨hnested _, hnested _, hnested _⟩

theorem mirrors_reader (hdepth : depth ≤ maxDepth) (c : Category) :
    Mirrors ts depth (phrase ts c) (c.reader (deeper (maxDepth - depth).toNat)) := by
  have hlevels : (maxDepth : Int) - (maxDepth - depth).toNat = depth := by omega
  have hbelow := deeper_mirrored hended (maxDepth - depth).toNat
  rw [hlevels] at hbelow
  exact mirrors_phrase hended hbelow c

end

/-! ### Rules -/

theorem Ended.length_pos (h : Ended ts) : 0 < ts.length := by
  obtain ⟨last, hlast, -⟩ := h
  exact List.length_pos_of_mem (List.mem_of_getLast? hlast)

theorem ended_of_tokens {text : String} (h : tokens text = .ok ts) : Ended ts := by
  obtain ⟨front, rfl, -⟩ := tokens_end h
  exact ⟨_, List.getLast?_concat, rfl⟩

section

variable (hlength : ts.length ≤ maxTokens)
include hlength

theorem ofTokens_of_finish {t : Located} (hfirst : ts.head? = some t) (ht : t.token = .finish) :
    Expr.ofTokens ts = .error (.malformed .empty (some 0)) := by
  obtain ⟨rest, rfl⟩ := List.head?_eq_some_iff.mp hfirst
  obtain ⟨token, position⟩ := t
  obtain rfl : token = .finish := ht
  rw [Expr.ofTokens, if_neg (Nat.not_lt.mpr hlength)]

variable {first : Located} (hfirst : ts.head? = some first) (hne : first.token ≠ .finish)
include hfirst hne

theorem ofTokens_of_read {tree : Expr} {t : Located} {rest : List Located}
    (hread : (readers maxDepth).whole ts = .ok (tree, t :: rest)) :
    Expr.ofTokens ts = if t.token = .finish then .ok tree
      else .error (.malformed (.unexpectedToken t.token) (some t.position)) := by
  unfold Expr.ofTokens
  rw [if_neg (Nat.not_lt.mpr hlength), hread]
  split
  · cases hfirst
    exact absurd rfl hne
  · obtain ⟨token, position⟩ := t
    cases token <;> rfl

theorem ofTokens_of_refused {trouble : Trouble}
    (hread : (readers maxDepth).whole ts = .error trouble) :
    Expr.ofTokens ts = .error trouble := by
  unfold Expr.ofTokens
  rw [if_neg (Nat.not_lt.mpr hlength), hread]
  split
  · cases hfirst
    exact absurd rfl hne
  · rfl

end

/-- The walk over a rule ends as the parser does, and every refusal has the place of a token or
none before the first one. -/
theorem rule_ends (hended : Ended ts) (hlength : ts.length ≤ maxTokens) :
    ∃ result trail, Comes (rule ts) (.start ⟨0, 0⟩) result trail ∧ trail.Within ts ∧
      ((∃ tree, result = .ok tree ∧ Expr.ofTokens ts = .ok tree) ∨
        ∃ cause place, result = .error (.malformed cause (some place)) ∧
          Expr.ofTokens ts = .error (.malformed cause (some place)) ∧
          (place = 0 ∨ ∃ t ∈ ts, place = t.position)) := by
  have hstart : (Trail.start ⟨0, 0⟩).Sound ts :=
    Trail.sound_start ⟨hended.length_pos, by decide⟩
  obtain ⟨first, -, rest, hdrop⟩ := hstart.exists_next
  have hfirst : ts.head? = some first := by rw [← List.drop_zero (l := ts)]; exact congrArg _ hdrop
  by_cases hfinish : first.token = .finish
  · have hrule (calls : Nat) : (rule ts calls).outcome (.start ⟨0, 0⟩) =
        some (.error (.malformed .empty (some 0)), .start ⟨0, 0⟩) := by
      rw [rule, outcome_bind_of_ok (outcome_peek hdrop), if_pos hfinish]
      rfl
    exact ⟨_, _, comes_of_outcome hrule, hstart.within,
      .inr ⟨_, _, rfl, ofTokens_of_finish hlength hfirst hfinish, .inl rfl⟩⟩
  · have hrule (calls : Nat) : (rule ts calls).outcome (.start ⟨0, 0⟩) =
        (phrase ts (.joined .disjunction) calls >>= atEnd ts).outcome (.start ⟨0, 0⟩) := by
      rw [rule, outcome_bind_of_ok (outcome_peek hdrop), if_neg hfinish]
    have hphrase := mirrors_reader hended (show (0 : Int) ≤ maxDepth by decide)
      (.joined .disjunction) (.start ⟨0, 0⟩) hstart rfl
    change Agrees ts _ _ _ _ ((readers maxDepth).whole ts) at hphrase
    generalize hread : (readers maxDepth).whole ts = read at hphrase
    cases hphrase with
    | @returns tree next hend hsound hleast hdepth =>
      obtain ⟨t, ht, behind, hnext⟩ := hsound.exists_next
      rw [hnext] at hread
      have hparse := ofTokens_of_read hlength hfirst hfinish hread
      by_cases hlast : t.token = .finish
      · have hclosed := hend.bind_of_ok
          (comes_of_outcome fun _ => outcome_atEnd_of_finish hnext tree hlast)
        exact ⟨_, _, hclosed.of_outcome_eq hrule, hsound.within,
          .inl ⟨tree, rfl, hparse.trans (if_pos hlast)⟩⟩
      · have hclosed := hend.bind_of_ok (comes_of_outcome fun _ => outcome_atEnd hnext tree hlast)
        exact ⟨_, _, hclosed.of_outcome_eq hrule, hsound.within,
          .inr ⟨_, _, rfl, hparse.trans (if_neg hlast), .inr ⟨t, ht, rfl⟩⟩⟩
    | @halts cause t next hend ht hwithin =>
      have hparse := ofTokens_of_refused hlength hfirst hfinish hread
      exact ⟨_, _, hend.bind_of_error.of_outcome_eq hrule, hwithin,
        .inr ⟨cause, t.position, rfl, hparse, .inr ⟨t, ht, rfl⟩⟩⟩

end

/-- A walk over a phrase ends in a tree, further on and at the depth it started from, or in a
refusal at the place of some token; it does as the reader of the phrase does. -/
structure Disciplined (ts : List Located) (start : Cursor)
    (read : Except Trouble (Expr × List Located)) (result : Except Halt Expr) (trail : Trail) :
    Prop where
  within : trail.Within ts
  returns : ∀ tree, result = .ok tree → start.index < trail.now.index ∧
    trail.now.depth = start.depth ∧ read = .ok (tree, ts.drop trail.now.index)
  refuses : ∀ halt, result = .error halt → ∃ cause, ∃ t ∈ ts,
    halt = .malformed cause t.position ∧ read = .error (.malformed cause t.position)

theorem Agrees.disciplined {ts : List Located} {w : Nat → Walk Expr} {start : Cursor}
    {read : Except Trouble (Expr × List Located)}
    (h : Agrees ts w (.start start) (start.index + 1) start.depth read) :
    ∃ result trail, Comes w (.start start) result trail ∧
      Disciplined ts start read result trail := by
  cases h with
  | @returns tree next hend hsound hleast hdepth =>
    refine ⟨.ok tree, next, hend, hsound.within, fun tree' h => ?_, fun halt h => ?_⟩
    · obtain rfl := Except.ok.inj h
      exact ⟨hleast, hdepth, rfl⟩
    · simp only [reduceCtorEq] at h
  | @halts cause t next hend ht hwithin =>
    refine ⟨.error (.malformed cause t.position), next, hend, hwithin, fun tree h => ?_,
      fun halt h => ?_⟩
    · simp only [reduceCtorEq] at h
    · obtain rfl := Except.error.inj h
      exact ⟨cause, t, ht, rfl, rfl⟩

/-- A rule that is not too long is refused at its start or at the place of a token; one that is too
long, at no place. -/
theorem place_of_ofTokens {ts : List Located} {cause : Malformation} {place : Option Nat}
    (hended : Ended ts) (h : Expr.ofTokens ts = .error (.malformed cause place)) :
    place = none ∨ place = some 0 ∨ ∃ t ∈ ts, place = some t.position := by
  by_cases hlength : ts.length ≤ maxTokens
  · obtain ⟨result, trail, -, -, ⟨tree, -, htree⟩ | ⟨cause', p, -, hrefused, hp⟩⟩ :=
      rule_ends hended hlength
    · rw [h] at htree
      cases htree
    · rw [h] at hrefused
      cases hrefused
      simpa using hp
  · unfold Expr.ofTokens at h
    rw [if_pos (Nat.not_le.mp hlength)] at h
    cases h
    exact .inl rfl

theorem place_le_of_parse {text : String} {e : SyntaxError} {place : Nat}
    (h : parse text = .error (.malformed e)) (hplace : e.position = some place) :
    place ≤ text.length := by
  rw [← String.length_toList]
  obtain ⟨cause, position, source⟩ := e
  obtain rfl : position = some place := hplace
  rcases Except.bind_eq_error.mp h with htokens | ⟨ts, hts, hread⟩
  · obtain ⟨trouble, htrouble, he⟩ := Except.mapError_eq_error.mp htokens
    cases trouble with
    | fault f => cases he
    | malformed cause position =>
      cases he
      obtain ⟨p, ⟨⟩, hlt⟩ := place_lt_of_tokensFrom htrouble
      omega
  · obtain ⟨trouble, htrouble, he⟩ := Except.mapError_eq_error.mp hread
    cases trouble with
    | fault f => cases he
    | malformed cause position =>
      cases he
      rcases place_of_ofTokens (ended_of_tokens hts) htrouble with hnone | hzero | ⟨t, ht, hp⟩
      · cases hnone
      · cases hzero
        exact Nat.zero_le _
      · cases hp
        have hle := position_le_of_tokensFrom (Except.mapError_eq_ok.mp hts) t ht
        rwa [Nat.zero_add] at hle

/-- From every token and every depth that is allowed, the walk over a phrase of any kind ends as
`Disciplined` says, in agreement with the reader of that kind and level. So does the walk over a
whole rule, in agreement with the parser. Every place that the parser reports lies in the text or at
its end. The last token has to be the end of the text; ends before it do no harm. -/
theorem parser_keeps_discipline :
    (∀ (ts : List Located) (c : Category) (start : Cursor), Ended ts → start.index < ts.length →
      start.depth ≤ maxDepth → ∃ result trail,
        Comes (phrase ts c) (.start start) result trail ∧
        Disciplined ts start
          (c.reader (deeper (maxDepth - start.depth).toNat) (ts.drop start.index)) result trail) ∧
    (∀ text ts, tokens text = .ok ts → ts.length ≤ maxTokens → ∃ result trail,
      Comes (rule ts) (.start ⟨0, 0⟩) result trail ∧ trail.Within ts ∧
        ((∃ tree, result = .ok tree ∧ parse text = .ok tree) ∨
          ∃ cause place, result = .error (.malformed cause (some place)) ∧
            parse text = .error (.malformed ⟨cause, some place, text⟩))) ∧
    ∀ text e place, parse text = .error (.malformed e) → e.position = some place →
      place ≤ text.length := by
  refine ⟨fun ts c start hended hindex hdepth => ?_, fun text ts hts hlength => ?_,
    fun text e place => place_le_of_parse⟩
  · have hstart := Trail.sound_start (c := start) ⟨hindex, hdepth⟩
    exact (mirrors_reader hended hdepth c (.start start) hstart rfl).disciplined
  · have hparse : parse text = (Expr.ofTokens ts).mapError (Trouble.inText text) := by
      rw [parse, hts, Except.ok_bind]
    obtain ⟨result, trail, hend, hwithin, htree | hrefused⟩ :=
      rule_ends (ended_of_tokens hts) hlength
    · obtain ⟨tree, hresult, htree⟩ := htree
      exact ⟨result, trail, hend, hwithin, .inl ⟨tree, hresult, by rw [hparse, htree]; rfl⟩⟩
    · obtain ⟨cause, place, hresult, hread, -⟩ := hrefused
      exact ⟨result, trail, hend, hwithin,
        .inr ⟨cause, place, hresult, by rw [hparse, hread]; rfl⟩⟩

theorem last_level_of_a_parenthesis :
    (∃ trail, Comes (phrase [⟨.operator .minus, 0⟩, ⟨.leftParen, 1⟩, ⟨.name "a", 2⟩,
        ⟨.rightParen, 3⟩, ⟨.finish, 4⟩] .primary) (.start ⟨1, 31⟩) (.ok (.name "a")) trail ∧
      trail.now.depth = 31) ∧
    (∃ trail, Comes (rule [⟨.operator .minus, 0⟩, ⟨.leftParen, 1⟩, ⟨.name "a", 2⟩, ⟨.finish, 3⟩])
        (.start ⟨0, 0⟩) (.error (.malformed .missingParen (some 3))) trail) ∧
    parse "-(a" = .error (.malformed ⟨.missingParen, some 3, "-(a"⟩) ∧ 3 ≤ "-(a".length := by
  obtain ⟨hphrase, hrule, hplace⟩ := parser_keeps_discipline
  have htokens : tokens "-(a" = .ok [⟨.operator .minus, 0⟩, ⟨.leftParen, 1⟩, ⟨.name "a", 2⟩,
      ⟨.finish, 3⟩] := by rfl
  have hparse : parse "-(a" = .error (.malformed ⟨.missingParen, some 3, "-(a"⟩) := by rfl
  refine ⟨?_, ?_, hparse, hplace _ _ _ hparse rfl⟩
  · obtain ⟨result, trail, hend, hresult⟩ := hphrase [⟨.operator .minus, 0⟩, ⟨.leftParen, 1⟩,
      ⟨.name "a", 2⟩, ⟨.rightParen, 3⟩, ⟨.finish, 4⟩] .primary ⟨1, 31⟩ ⟨_, rfl, rfl⟩ (by decide)
      (by decide)
    have hread : Category.primary.reader (deeper 1) [⟨.leftParen, 1⟩, ⟨.name "a", 2⟩,
        ⟨.rightParen, 3⟩, ⟨.finish, 4⟩] = .ok (.name "a", [⟨.finish, 4⟩]) := by rfl
    cases result with
    | ok tree =>
      obtain ⟨-, hdepth, hok⟩ := hresult.returns tree rfl
      obtain rfl : Expr.name "a" = tree := congrArg Prod.fst (Except.ok.inj (hread.symm.trans hok))
      exact ⟨trail, hend, hdepth⟩
    | error halt =>
      obtain ⟨cause, t, -, -, hrefused⟩ := hresult.refuses halt rfl
      cases hread.symm.trans hrefused
  · obtain ⟨result, trail, hend, -, hread⟩ := hrule _ _ htokens (by decide)
    rw [hparse] at hread
    obtain ⟨tree, -, htree⟩ | ⟨cause, place, hresult, hrefused⟩ := hread
    · cases htree
    · cases hrefused
      exact ⟨trail, hresult ▸ hend⟩

end Shortlist.Rule
