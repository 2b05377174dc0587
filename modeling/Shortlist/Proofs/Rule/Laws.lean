import Shortlist.Proofs.Rule.Dependence
import Shortlist.Proofs.Rule.Evaluation

/-!
# Boolean laws

Where a truth value is asked for, an operand has one, fails or is a fault. This is all that a
connective or a negation learns of it; the words of a failure name the operator and are left out
here. So `Expr.outcome` turns the operators into functions, and the laws that keep every operand in
its place hold for it with failures and faults included: De Morgan's, associativity and double
negation. They may be used anywhere below connectives and negations of a rule without changing its
judgement.
-/

namespace Shortlist.Rule

/-- What stopped an evaluation, without the words of a failure. -/
def Stop.fault? : Stop → Option Fault
  | .failed _ => none
  | .fault f => some f

/-- Both evaluations yield the same truth value, or both fail, or both are the same fault. -/
def SameOutcome (x y : Evaluated Value) : Prop :=
  (∃ b, x = .ok (.boolean b) ∧ y = .ok (.boolean b)) ∨
    ∃ s t : Stop, x = .error s ∧ y = .error t ∧ s.fault? = t.fault?

/-- What an operator learns of an operand whose truth value it asks for. -/
def Expr.outcome (A : Assignment) (D : List String) (e : Expr) : Except (Option Fault) Bool :=
  (e.value A D >>= requireBoolean UnaryOp.negation.spelling).mapError Stop.fault?

def Connective.dual : Connective → Connective
  | .both => .either
  | .either => .both

variable {A : Assignment} {D : List String}

/-! ### Operators on outcomes -/

theorem mapError_notABoolean (operator : String) (v : Value) :
    (fail (.notABoolean operator v) : Evaluated Bool).mapError Stop.fault? =
      .error (if v.isWritable then none else some .tooManyDigits) := by
  rw [fail, Failure.isWritable]
  split <;> rfl

/-- The operator that asks for a truth value is told by the words of a failure only. -/
theorem mapError_requireBoolean (operator other : String) (v : Value) :
    (requireBoolean operator v).mapError Stop.fault? =
      (requireBoolean other v).mapError Stop.fault? := by
  cases v with
  | boolean b => rfl
  | _ => exact (mapError_notABoolean operator _).trans (mapError_notABoolean other _).symm

theorem mapError_asked (operator : String) (e : Expr) :
    (e.value A D >>= requireBoolean operator).mapError Stop.fault? = e.outcome A D := by
  rw [Expr.outcome, Except.mapError_bind, Except.mapError_bind]
  exact congrArg _ (funext fun v => mapError_requireBoolean operator _ v)

theorem outcome_negation (e : Expr) :
    (Expr.unary .negation e).outcome A D = (e.outcome A D).map not := by
  rw [Expr.outcome, Expr.outcome, Expr.value]
  cases e.value A D with
  | error s => rfl
  | ok v =>
    rw [Except.ok_bind, Except.ok_bind, UnaryOp.apply]
    cases requireBoolean UnaryOp.negation.spelling v <;> rfl

theorem outcome_connect (op : Connective) (x y : Expr) :
    (Expr.connect op x y).outcome A D =
      x.outcome A D >>= fun b => if op.decides b then .ok b else y.outcome A D := by
  have hasked : (Expr.connect op x y).value A D >>= requireBoolean UnaryOp.negation.spelling =
      (x.value A D >>= requireBoolean op.spelling) >>= fun b =>
        if op.decides b then .ok b else y.value A D >>= requireBoolean op.spelling := by
    rw [Expr.value]
    simp only [bind_assoc]
    refine congrArg _ (funext fun v => congrArg _ (funext fun b => ?_))
    split
    · rfl
    · simp only [bind_assoc]
      refine congrArg _ (funext fun w => ?_)
      cases requireBoolean op.spelling w <;> rfl
  rw [Expr.outcome, hasked, Except.mapError_bind, mapError_asked]
  refine congrArg _ (funext fun b => ?_)
  split
  · rfl
  · exact mapError_asked op.spelling y

theorem outcome_eq_ok_iff {e : Expr} {t : Bool} :
    e.outcome A D = .ok t ↔ e.value A D = .ok (.boolean t) := by
  rw [Expr.outcome, Except.mapError_eq_ok, Except.bind_eq_ok]
  constructor
  · rintro ⟨v, hv, ht⟩
    rw [hv, requireBoolean_eq_ok_iff.mp ht]
  · exact fun hv => ⟨_, hv, rfl⟩

/-! ### Laws -/

variable (a b c : Expr)

theorem outcome_deMorgan (op : Connective) :
    (Expr.unary .negation (.connect op a b)).outcome A D =
      (Expr.connect op.dual (.unary .negation a) (.unary .negation b)).outcome A D := by
  simp only [outcome_negation, outcome_connect]
  cases a.outcome A D with
  | error s => rfl
  | ok t => cases op <;> cases t <;> rfl

theorem outcome_assoc (op : Connective) :
    (Expr.connect op (.connect op a b) c).outcome A D =
      (Expr.connect op a (.connect op b c)).outcome A D := by
  simp only [outcome_connect]
  cases a.outcome A D with
  | error s => rfl
  | ok t => cases op <;> cases t <;> rfl

theorem outcome_negation_negation :
    (Expr.unary .negation (.unary .negation a)).outcome A D = a.outcome A D := by
  simp only [outcome_negation]
  cases a.outcome A D with
  | error s => rfl
  | ok t => cases t <;> rfl

/-! ### Values of formulas -/

/-- The expression is a connective or a negation, so its value is a truth value if it has one. -/
def Expr.IsFormula : Expr → Prop
  | .unary .negation _ => True
  | .connect .. => True
  | _ => False

variable {x y : Expr}

theorem exists_boolean_of_formula (h : x.IsFormula) {v : Value} (hv : x.value A D = .ok v) :
    ∃ t, v = .boolean t := by
  cases x with
  | unary op operand =>
    cases op with
    | negation =>
      obtain ⟨w, -, happly⟩ := Except.bind_eq_ok.mp hv
      obtain ⟨t, -, rfl⟩ := Except.map_eq_ok.mp happly
      exact ⟨_, rfl⟩
    | minus => exact h.elim
    | plus => exact h.elim
  | connect op left right => exact exists_boolean_of_connect hv
  | literal l => exact h.elim
  | name s => exact h.elim
  | binary op left right => exact h.elim

/-- The outcome of a formula tells all of its value but the words of a failure. -/
theorem value_of_formula (h : x.IsFormula) :
    (∃ t, x.value A D = .ok (.boolean t) ∧ x.outcome A D = .ok t) ∨
      ∃ s, x.value A D = .error s ∧ x.outcome A D = .error s.fault? := by
  cases hv : x.value A D with
  | error s => exact .inr ⟨s, rfl, by rw [Expr.outcome, hv]; rfl⟩
  | ok v =>
    obtain ⟨t, rfl⟩ := exists_boolean_of_formula h hv
    exact .inl ⟨t, rfl, outcome_eq_ok_iff.mpr hv⟩

theorem sameOutcome_of_formulas (hx : x.IsFormula) (hy : y.IsFormula)
    (h : x.outcome A D = y.outcome A D) : SameOutcome (x.value A D) (y.value A D) := by
  rcases value_of_formula (A := A) (D := D) hx with ⟨t, hxv, hxo⟩ | ⟨s, hxv, hxo⟩ <;>
    rcases value_of_formula (A := A) (D := D) hy with ⟨t', hyv, hyo⟩ | ⟨s', hyv, hyo⟩ <;>
    rw [hxo, hyo] at h
  · obtain rfl := Except.ok.inj h
    exact .inl ⟨t, hxv, hyv⟩
  · cases h
  · cases h
  · exact .inr ⟨s, s', hxv, hyv, Except.error.inj h⟩

/-- The laws of De Morgan and associativity hold of the values of rules, with the faults that an
operand may hide: the two sides are the same truth value, or both stop in the same way. A double
negation is its operand if that is a truth value, and stops otherwise. -/
theorem boolean_laws (A : Assignment) (D : List String) (a b c : Expr) :
    (∀ op : Connective, SameOutcome
      ((Expr.unary .negation (.connect op a b)).value A D)
      ((Expr.connect op.dual (.unary .negation a) (.unary .negation b)).value A D)) ∧
    (∀ op : Connective, SameOutcome
      ((Expr.connect op (.connect op a b) c).value A D)
      ((Expr.connect op a (.connect op b c)).value A D)) ∧
    (∀ t, (Expr.unary .negation (.unary .negation a)).value A D = .ok (.boolean t) ↔
      a.value A D = .ok (.boolean t)) ∧
    ((∃ t, a.value A D = .ok (.boolean t)) ∨
      ∃ s, (Expr.unary .negation (.unary .negation a)).value A D = .error s) := by
  refine ⟨fun op => sameOutcome_of_formulas trivial trivial (outcome_deMorgan a b op),
    fun op => sameOutcome_of_formulas trivial trivial (outcome_assoc a b c op), ?_⟩
  have hdouble : ∀ t, (Expr.unary .negation (.unary .negation a)).value A D = .ok (.boolean t) ↔
      a.value A D = .ok (.boolean t) := fun t => by
    rw [← outcome_eq_ok_iff, outcome_negation_negation, outcome_eq_ok_iff]
  refine ⟨hdouble, ?_⟩
  have hformula : (Expr.unary .negation (.unary .negation a)).IsFormula := trivial
  rcases value_of_formula (A := A) (D := D) hformula with ⟨t, hv, -⟩ | ⟨s, hv, -⟩
  · exact .inl ⟨t, (hdouble t).mp hv⟩
  · exact .inr ⟨s, hv⟩

/-! ### Rewriting rules -/

/-- One expression is turned into another by the laws, used anywhere below connectives and
negations. -/
inductive Expr.Rewritten : Expr → Expr → Prop
  | refl (x : Expr) : Rewritten x x
  | symm {x y : Expr} (h : Rewritten x y) : Rewritten y x
  | trans {x y z : Expr} (hxy : Rewritten x y) (hyz : Rewritten y z) : Rewritten x z
  | deMorgan (op : Connective) (a b : Expr) : Rewritten (.unary .negation (.connect op a b))
      (.connect op.dual (.unary .negation a) (.unary .negation b))
  | assoc (op : Connective) (a b c : Expr) :
      Rewritten (.connect op (.connect op a b) c) (.connect op a (.connect op b c))
  | negation_negation (a : Expr) : Rewritten (.unary .negation (.unary .negation a)) a
  | negation {x y : Expr} (h : Rewritten x y) : Rewritten (.unary .negation x) (.unary .negation y)
  | connect (op : Connective) {x x' y y' : Expr} (hx : Rewritten x x') (hy : Rewritten y y') :
      Rewritten (.connect op x y) (.connect op x' y')

theorem Expr.Rewritten.outcome_eq (h : x.Rewritten y) : x.outcome A D = y.outcome A D := by
  induction h with
  | refl x => rfl
  | symm _ ih => exact ih.symm
  | trans _ _ ihxy ihyz => exact ihxy.trans ihyz
  | deMorgan op a b => exact outcome_deMorgan a b op
  | assoc op a b c => exact outcome_assoc a b c op
  | negation_negation a => exact outcome_negation_negation a
  | negation _ ih => rw [outcome_negation, outcome_negation, ih]
  | connect op _ _ ihx ihy => rw [outcome_connect, outcome_connect, ihx, ihy]

theorem Expr.Rewritten.mem_names (h : x.Rewritten y) (s : String) :
    s ∈ x.names ↔ s ∈ y.names := by
  induction h with
  | refl x => exact Iff.rfl
  | symm _ ih => exact ih.symm
  | trans _ _ ihxy ihyz => exact ihxy.trans ihyz
  | deMorgan op a b => exact Iff.rfl
  | assoc op a b c => simp only [names, List.mem_append, or_assoc]
  | negation_negation a => exact Iff.rfl
  | negation _ ih => exact ih
  | connect op _ _ ihx ihy => simp only [names, List.mem_append, ihx, ihy]

/-- A rule is judged the same after its tree is rewritten by the laws. -/
theorem truthOf_eq_of_rewritten {text other : String} (hx : parse text = .ok x)
    (hy : parse other = .ok y) (h : x.Rewritten y) (hxf : x.IsFormula) (hyf : y.IsFormula)
    (A : Assignment) (D : List String) : truthOf text A D = truthOf other A D := by
  obtain ⟨rule, hread, rfl⟩ := exists_read_of_parse hx
  obtain ⟨rule', hread', rfl⟩ := exists_read_of_parse hy
  have hmissing : ((rule.dependencies D).any fun s => (A.value? s).isNone) =
      ((rule'.dependencies D).any fun s => (A.value? s).isNone) := by
    rw [Bool.eq_iff_iff]
    simp only [List.any_eq_true, dependencies, List.mem_filter, names_of_read hread,
      names_of_read hread', List.mem_eraseDups, h.mem_names]
  rw [truthOf_of_read hread, truthOf_of_read hread', judge, judge, hmissing]
  split
  · rfl
  · rcases sameOutcome_of_formulas hxf hyf (h.outcome_eq (A := A) (D := D)) with
      ⟨t, ht, ht'⟩ | ⟨s, s', hs, hs', hfault⟩
    · rw [ht, ht']
    · rw [hs, hs']
      cases s <;> cases s' <;> simp [Stop.fault?, Except.map, Verdict.truth] at hfault ⊢
      exact hfault

end Shortlist.Rule
