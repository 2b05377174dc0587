import Mathlib.Tactic.Common
import Shortlist.Proofs.Document.WellFormed
import Shortlist.Rule.Evaluation

/-!
# Conditions and the equality of rules

Whether two values are equal is decided in three places. A condition compares an answer with what it
demands, a rule compares its operands, and the set that a list of demands becomes drops a member
that is the same as an earlier one. The three differ in what they do with booleans, and with values
of different kinds. On the values that a checked condition may demand they agree, so a condition is
met by the answers that a rule would find equal to one of the values in the document, and neither
their order nor their spelling matters.
-/

namespace Shortlist

/-- A rule finds two values equal that come from different operands. -/
def Rule.FindsEqual (a b : Value) : Prop := BinaryOp.equal.apply false a b = .ok (.boolean true)

theorem Rule.findsEqual_iff {a b : Value} : FindsEqual a b ↔ equalValues false a b = true := by
  simp [FindsEqual, BinaryOp.apply]

/-! ### Equalities on demanded values -/

namespace Value

theorem same_of_strictlySame {a b : Value} (h : a.strictlySame b = true) : a.same b = true := by
  unfold strictlySame at h
  split at h
  · exact (Bool.and_eq_true_iff.mp h).2
  · exact h

end Value

namespace Variable

open Rule (equalValues FindsEqual findsEqual_iff)

variable {v : Variable} {a b actual : Value}

/-- On a value that a variable may take, conditions and rules have the same equality. -/
theorem Takes.strictlySame_eq (h : v.Takes a) (actual : Value) :
    a.strictlySame actual = equalValues false actual a := by
  unfold Takes at h
  cases htype : v.type with
  | boolean =>
    rw [htype] at h
    obtain ⟨x, rfl⟩ := h
    cases actual with
    | boolean y =>
      rw [Value.strictlySame, Value.same, Value.asNumber?, equalValues, Bool.eq_iff_iff]
      cases x <;> cases y <;> simp [Value.isBoolean, Number.equal_int_iff]
    | _ => rfl
  | number =>
    rw [htype] at h
    obtain ⟨n, rfl, -⟩ := h
    cases actual with
    | number m =>
      rw [equalValues, Number.equal_comm]
      rfl
    | _ => rfl
  | choice =>
    rw [htype] at h
    obtain ⟨s, -, rfl⟩ := h
    cases actual with
    | text t =>
      rw [equalValues, Bool.beq_comm]
      rfl
    | _ => rfl

theorem Takes.of_findsEqual (ha : v.Takes a) (h : FindsEqual b a) : v.Takes b := by
  rw [findsEqual_iff] at h
  unfold Takes at ha ⊢
  cases htype : v.type with
  | boolean =>
    rw [htype] at ha
    obtain ⟨x, rfl⟩ := ha
    cases b with
    | boolean y => exact ⟨y, rfl⟩
    | _ => cases h
  | number =>
    rw [htype] at ha
    obtain ⟨n, rfl, hfinite⟩ := ha
    cases b with
    | number m => exact ⟨m, rfl, Number.isFinite_of_equal h hfinite⟩
    | _ => cases h
  | choice =>
    rw [htype] at ha
    obtain ⟨s, hs, rfl⟩ := ha
    cases b with
    | text t => exact ⟨t, (beq_iff_eq.mp h) ▸ hs, rfl⟩
    | _ => cases h

theorem Takes.strictlySame_of_findsEqual (ha : v.Takes a) (h : FindsEqual b a) (actual : Value) :
    a.strictlySame actual = b.strictlySame actual := by
  have hstrict : a.strictlySame b = true := by
    rw [ha.strictlySame_eq, findsEqual_iff.mp h]
  exact ha.strictlySame_congr (ha.of_findsEqual h) (Value.same_of_strictlySame hstrict)

end Variable

namespace Expected

open Document (allowedValues)

variable {value other : Value} {expected : Expected} {v : Variable}

theorem spelled_of_ofValue (htakes : ∀ a ∈ allowedValues value, v.Takes a)
    (h : ofValue value = .ok expected) : Spelled value expected := by
  obtain ⟨found, hfound, hspelled⟩ := exists_ofValue fun a ha => (htakes a ha).isKey
  obtain rfl := Except.ok.inj (hfound.symm.trans h)
  exact hspelled

/-- A demand is met by what a rule finds equal to one of the values that spell it. -/
theorem isMetBy_iff_findsEqual (htakes : ∀ a ∈ allowedValues value, v.Takes a)
    (h : ofValue value = .ok expected) (actual : Value) :
    expected.isMetBy actual = true ↔ ∃ a ∈ allowedValues value, Rule.FindsEqual actual a := by
  rw [(spelled_of_ofValue htakes h).isMetBy htakes, List.any_eq_true]
  refine exists_congr fun a => and_congr_right fun ha => ?_
  rw [(htakes a ha).strictlySame_eq, Rule.findsEqual_iff]

theorem exists_isMetBy_eq (htakes : ∀ a ∈ allowedValues value, v.Takes a)
    (h : ofValue value = .ok expected)
    (hthere : ∀ a ∈ allowedValues value, ∃ b ∈ allowedValues other, Rule.FindsEqual b a)
    (hback : ∀ b ∈ allowedValues other, ∃ a ∈ allowedValues value, Rule.FindsEqual b a) :
    ∃ respelled, ofValue other = .ok respelled ∧
      ∀ actual, respelled.isMetBy actual = expected.isMetBy actual := by
  have hothers : ∀ b ∈ allowedValues other, v.Takes b := by
    intro b hb
    obtain ⟨a, ha, hequal⟩ := hback b hb
    exact (htakes a ha).of_findsEqual hequal
  obtain ⟨respelled, hrespelled, hspelled⟩ := exists_ofValue fun b hb => (hothers b hb).isKey
  refine ⟨respelled, hrespelled, fun actual => ?_⟩
  rw [hspelled.isMetBy hothers, (spelled_of_ofValue htakes h).isMetBy htakes, Bool.eq_iff_iff,
    List.any_eq_true, List.any_eq_true]
  constructor
  · rintro ⟨b, hb, hmet⟩
    obtain ⟨a, ha, hequal⟩ := hback b hb
    exact ⟨a, ha, (htakes a ha).strictlySame_of_findsEqual hequal actual ▸ hmet⟩
  · rintro ⟨a, ha, hmet⟩
    obtain ⟨b, hb, hequal⟩ := hthere a ha
    exact ⟨b, hb, (htakes a ha).strictlySame_of_findsEqual hequal actual ▸ hmet⟩

end Expected

/-! ### Conditions of a document -/

namespace Document

/-- The bundle of an output in the document has a mandatory condition on a variable, spelled by a
value. -/
def Demands (document : Entries Value) (output name : String) (value : Value) : Prop :=
  ∃ found bundle conditions, rulesSection document = .object found ∧
    (output, .object bundle) ∈ found ∧ Document.conditions bundle = .object conditions ∧
    (name, value) ∈ conditions

variable {document : Entries Value} {vs : List Variable} {outputs : List Output}
  {bundles : List Bundle} {output name : String} {value : Value}

theorem rulesFit_of_problems (hproblems : problems document = .ok [])
    (hread : ReadParts document vs outputs bundles) :
    IsObject (fun found => ∀ entry ∈ found, entry.1 ∈ outputs.map (·.name) ∧
      IsObject (BundleFits (registered vs)) entry.2) (rulesSection document) := by
  rw [problems] at hproblems
  split at hproblems
  · rw [hread.registry, hread.outputs] at hproblems
    exact ruleProblems_eq_nil_iff.mp hproblems
  · rename_i hfound
    exact absurd (Except.ok.inj hproblems) hfound

theorem exists_takes_of_demands (hproblems : problems document = .ok [])
    (hread : ReadParts document vs outputs bundles) (h : Demands document output name value) :
    ∃ v : Variable, ∀ a ∈ allowedValues value, v.Takes a := by
  obtain ⟨found, entries, conditions, hfound, hentry, hconditions, hmem⟩ := h
  have hfits := rulesFit_of_problems hproblems hread
  rw [hfound, isObject_object] at hfits
  have hbundle := isObject_object.mp (hfits _ hentry).2
  have hall := hbundle.conditions
  rw [hconditions, isObject_object] at hall
  obtain ⟨v, -, -, htakes⟩ := hall _ hmem
  exact ⟨v, htakes⟩

theorem exists_condition_of_demands (hread : ReadParts document vs outputs bundles)
    (h : Demands document output name value) :
    ∃ b ∈ bundles, b.output = output ∧
      ∃ expected, (name, expected) ∈ b.conditions ∧ Expected.ofValue value = .ok expected := by
  obtain ⟨found, entries, conditions, hfound, hentry, hconditions, hmem⟩ := h
  have hbundles := hread.bundles
  rw [readBundles, hfound] at hbundles
  obtain ⟨b, hb, hbundle⟩ := exists_of_forall₂_right (mapM_eq_ok_iff.mp hbundles).flip hentry
  obtain ⟨expectations, hexpectations, hb'⟩ := Except.bind_eq_ok.mp hbundle
  obtain rfl := Except.pure_eq_ok.mp hb'
  refine ⟨_, hb, rfl, ?_⟩
  rw [Value.object?, Option.getD_some, hconditions, Document.expectations] at hexpectations
  obtain ⟨⟨found, expected⟩, hcondition, hstep⟩ :=
    exists_of_forall₂_right (mapM_eq_ok_iff.mp hexpectations).flip hmem
  obtain ⟨read, hvalue, hpair⟩ := Except.bind_eq_ok.mp hstep
  obtain ⟨rfl, rfl⟩ := Prod.mk.inj (Except.pure_eq_ok.mp hpair)
  exact ⟨read, hcondition, hvalue⟩

end Document

namespace Catalog

open Document (allowedValues)

/-- A mandatory condition of a document that is loaded is met by an answer exactly if a rule would
find the answer equal to one of the values in the document. So another spelling of the condition
with equal values, in any order and as often as one likes, is met by the same answers. -/
theorem conditions_compare_like_rules {v : Value} {catalog : Catalog}
    (hload : load v = .ok catalog) :
    ∃ document canonical, v = .object document ∧ Document.current document = .ok canonical ∧
      ∀ output name value, Document.Demands canonical output name value →
        ∃ bundle expected, catalog.bundleFor? output = some bundle ∧
          (name, expected) ∈ bundle.conditions ∧ Expected.ofValue value = .ok expected ∧
          (∀ actual, expected.isMetBy actual = true ↔
            ∃ a ∈ allowedValues value, Rule.FindsEqual actual a) ∧
          ∀ other, (∀ a ∈ allowedValues value, ∃ b ∈ allowedValues other, Rule.FindsEqual b a) →
            (∀ b ∈ allowedValues other, ∃ a ∈ allowedValues value, Rule.FindsEqual b a) →
            ∃ respelled, Expected.ofValue other = .ok respelled ∧
              ∀ actual, respelled.isMetBy actual = expected.isMetBy actual := by
  obtain ⟨document, canonical, rfl, hcurrent, hcatalog⟩ := exists_of_load hload
  obtain ⟨hproblems, hread⟩ := ofCurrent_eq_ok_iff.mp hcatalog
  refine ⟨document, canonical, rfl, hcurrent, fun output name value hdemands => ?_⟩
  obtain ⟨declared, htakes⟩ := Document.exists_takes_of_demands hproblems hread hdemands
  obtain ⟨bundle, hbundle, rfl, expected, hcondition, hexpected⟩ :=
    Document.exists_condition_of_demands hread hdemands
  exact ⟨bundle, expected, bundleFor?_of_mem hbundle, hcondition, hexpected,
    Expected.isMetBy_iff_findsEqual htakes hexpected,
    fun other => Expected.exists_isMetBy_eq htakes hexpected⟩

end Catalog

/-- A document that demands the number one, spelled as an integer and as a double, or two. -/
def Document.numberSpecimen : Entries Value :=
  [("variables", .list [.object [("name", .text "n"), ("type", .text "number")]]),
   ("outputs", .list [.object [("name", .text "A")]]),
   ("rules", .object [("A", .object [("mandatory_conditions",
      .object [("n", .list [.int 1, .double (.ofInt 1), .int 2])])])])]

/-- The double two meets the demand and a boolean does not, and neither the order of the members nor
their spelling counts. -/
theorem Catalog.doubles_meet_integers :
    ∃ catalog bundle expected, load (.object Document.numberSpecimen) = .ok catalog ∧
      catalog.bundleFor? "A" = some bundle ∧ ("n", expected) ∈ bundle.conditions ∧
      expected.isMetBy (.double (.ofInt 2)) = true ∧
      expected.isMetBy (.boolean true) = false ∧
      ∃ respelled, Expected.ofValue (.list [.double (.ofInt 2), .int 1]) = .ok respelled ∧
        ∀ actual, respelled.isMetBy actual = expected.isMetBy actual := by
  have hproblems : Document.problems Document.numberSpecimen = .ok [] :=
    Except.eq_ok_nil_of_length (by decide +kernel)
  have hcurrent : Document.current Document.numberSpecimen = .ok Document.numberSpecimen := by
    have hversion : Document.version Document.numberSpecimen = .ok (.int 1) := rfl
    have hone : ¬(Number.int 1).isZero = true := by decide +kernel
    rw [Document.current_of_version hversion, if_neg hone]
  have hdistinct : ∀ found : Entries Value,
      Document.rulesSection Document.numberSpecimen = .object found → found.names.Nodup :=
    fun _ => Document.nodup_rulesSection (by decide) hcurrent
  obtain ⟨catalog, hcatalog, -⟩ := exists_ofCurrent hproblems hdistinct
  have hload := (load_object hcurrent).trans hcatalog
  obtain ⟨document, canonical, hv, hcanonical, h⟩ := conditions_compare_like_rules hload
  cases hv
  obtain rfl := Except.ok.inj (hcurrent.symm.trans hcanonical)
  have hdemands : Document.Demands Document.numberSpecimen "A" "n"
      (.list [.int 1, .double (.ofInt 1), .int 2]) :=
    ⟨_, _, _, rfl, List.mem_singleton_self _, rfl, List.mem_singleton_self _⟩
  obtain ⟨bundle, expected, hbundle, hcondition, -, hmet, hspelling⟩ := h _ _ _ hdemands
  have hequal : ∀ {a b : Value}, Rule.equalValues false a b = true → Rule.FindsEqual a b :=
    Rule.findsEqual_iff.mpr
  refine ⟨catalog, bundle, expected, hload, hbundle, hcondition, ?_, ?_, ?_⟩
  · exact (hmet _).mpr ⟨.int 2, by simp [Document.allowedValues], hequal (by decide +kernel)⟩
  · rw [← Bool.not_eq_true, hmet]
    rintro ⟨a, ha, hfound⟩
    simp only [Document.allowedValues, List.mem_cons, List.not_mem_nil, or_false] at ha
    rcases ha with rfl | rfl | rfl <;> cases Rule.findsEqual_iff.mp hfound
  · refine hspelling _ (fun a ha => ?_) fun b hb => ?_
    · simp only [Document.allowedValues, List.mem_cons, List.not_mem_nil, or_false] at ha
      rcases ha with rfl | rfl | rfl
      · exact ⟨.int 1, by simp [Document.allowedValues], hequal (by decide +kernel)⟩
      · exact ⟨.int 1, by simp [Document.allowedValues], hequal (by decide +kernel)⟩
      · exact ⟨.double (.ofInt 2), by simp [Document.allowedValues], hequal (by decide +kernel)⟩
    · simp only [Document.allowedValues, List.mem_cons, List.not_mem_nil, or_false] at hb
      rcases hb with rfl | rfl
      · exact ⟨.int 2, by simp [Document.allowedValues], hequal (by decide +kernel)⟩
      · exact ⟨.int 1, by simp [Document.allowedValues], hequal (by decide +kernel)⟩

end Shortlist
