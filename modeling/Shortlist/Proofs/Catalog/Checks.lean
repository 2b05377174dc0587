import Mathlib.Data.List.Nodup
import Mathlib.Tactic.Common
import Shortlist.Proofs.Catalog.Sound
import Shortlist.Proofs.Number.Line

/-!
# Checks that find nothing

What the checks of a catalog ask, said of the weights, rules and bundles themselves. Each check is
empty exactly if its subject fits, so a catalog can be built from parts that fit, and the parts of a
catalog that was built fit.
-/

namespace Shortlist

/-! ### Lists of problems -/

theorem ok_cons_ne_ok_nil {ε α : Type} {x : α} {xs : List α} :
    (.ok (x :: xs) : Except ε (List α)) ≠ .ok [] := by
  intro h
  cases h

theorem flatten_mapM_eq_nil_iff {ε α β : Type} {f : α → Except ε (List β)} {xs : List α} :
    (xs.mapM f >>= fun found => pure found.flatten) = .ok [] ↔ ∀ x ∈ xs, f x = .ok [] := by
  induction xs with
  | nil => simp
  | cons x xs ih =>
    rw [List.forall_mem_cons, ← ih, Except.bind_eq_ok, Except.bind_eq_ok, List.mapM_cons]
    constructor
    · rintro ⟨found, hfound, hnil⟩
      obtain ⟨first, hfirst, hmore⟩ := Except.bind_eq_ok.mp hfound
      obtain ⟨rest, hrest, hcons⟩ := Except.bind_eq_ok.mp hmore
      obtain rfl := Except.pure_eq_ok.mp hcons
      rw [List.flatten_cons] at hnil
      obtain ⟨rfl, hflat⟩ := List.append_eq_nil_iff.mp (Except.pure_eq_ok.mp hnil)
      exact ⟨hfirst, rest, hrest, Except.pure_eq_ok.mpr hflat⟩
    · rintro ⟨hfirst, rest, hrest, hnil⟩
      refine ⟨[] :: rest, ?_, hnil⟩
      rw [hfirst, hrest]
      rfl

/-! ### Weights -/

/-- A weight that a soft rule may have: none, or a finite number of a magnitude up to the largest
one. -/
def Value.IsWeight (v : Value) : Prop :=
  v = .null ∨ ∃ n, v = .number n ∧ n.isFinite = true ∧
    (Number.int (-maxWeight)).atMost n = true ∧ n.atMost (.int maxWeight) = true

theorem weightDefect?_eq_none_iff {v : Value} : weightDefect? v = none ↔ v.IsWeight := by
  cases v with
  | null => exact iff_of_true rfl (.inl rfl)
  | number n =>
    have hmost := fun hn => Number.less_eq_false_iff (m := .int maxWeight) (n := n) rfl hn
    have hleast := fun hn => Number.less_eq_false_iff (m := n) (n := .int (-maxWeight)) hn rfl
    rw [weightDefect?]
    split
    · rename_i hinfinite
      refine iff_of_false nofun ?_
      rintro (⟨⟨⟩⟩ | ⟨_, ⟨⟩, hfinite, -⟩)
      simp [hfinite] at hinfinite
    · rename_i hfinite
      simp only [Bool.not_eq_true', Bool.not_eq_false] at hfinite
      split
      · rename_i hout
        refine iff_of_false nofun ?_
        rintro (⟨⟨⟩⟩ | ⟨_, ⟨⟩, -, hlow, hhigh⟩)
        rw [(hmost hfinite).mpr hhigh, (hleast hfinite).mpr hlow] at hout
        cases hout
      · rename_i hin
        simp only [Bool.or_eq_true, not_or, Bool.not_eq_true] at hin
        exact iff_of_true rfl
          (.inr ⟨n, rfl, hfinite, (hleast hfinite).mp hin.2, (hmost hfinite).mp hin.1⟩)
  | _ => exact iff_of_false nofun (by rintro (⟨⟨⟩⟩ | ⟨_, ⟨⟩, -⟩))

/-! ### Rules -/

/-- The text is not blank and can be read as a rule, and the rule names declared variables only. -/
structure Rule.Fits (declared : List String) (text : String) : Prop where
  filled : Text.isBlankText text = false
  readable : ∃ rule, Rule.read text = .ok rule ∧ ∀ name ∈ rule.names, name ∈ declared

theorem expressionProblems_eq_nil_iff {v : Value} {declared : List String} {place : Place} :
    expressionProblems v declared place = .ok [] ↔
      ∃ text, v = .text text ∧ Rule.Fits declared text := by
  unfold expressionProblems
  split
  · rename_i s
    have htext : (∃ text, Value.text s = .text text ∧ Rule.Fits declared text) ↔
        Rule.Fits declared s :=
      ⟨by rintro ⟨_, ⟨⟩, h⟩; exact h, fun h => ⟨s, rfl, h⟩⟩
    rw [htext]
    split
    · rename_i hblank
      exact iff_of_false nofun fun h => by simp [h.filled] at hblank
    · rename_i hfilled
      rw [Bool.not_eq_true] at hfilled
      cases hread : Rule.read s with
      | ok rule =>
        simp only [Except.ok.injEq, List.map_eq_nil_iff, List.filter_eq_nil_iff,
          Bool.not_eq_true', Bool.not_eq_false, List.contains_iff_mem]
        constructor
        · exact fun h => ⟨hfilled, rule, hread, h⟩
        · rintro ⟨-, other, hother, h⟩
          rw [hread] at hother
          cases hother
          exact h
      | error e =>
        have hunread : ¬Rule.Fits declared s := by
          rintro ⟨-, rule, hrule, -⟩
          rw [hread] at hrule
          cases hrule
        cases e <;> exact iff_of_false nofun hunread
  · rename_i hother
    refine iff_of_false nofun ?_
    rintro ⟨text, rfl, -⟩
    exact hother text rfl

/-! ### Bundles -/

/-- What the check of a catalog asks of a bundle: its conditions are on declared variables, its
texts are rules, and its soft rules have weights and declared subjects. -/
structure Bundle.Fits (registry : Registry) (bundle : Bundle) : Prop where
  conditions : ∀ name ∈ bundle.conditions.names, name ∈ registry.names
  texts : ∀ text ∈ bundle.allTexts, Rule.Fits registry.names text
  weights : ∀ rule ∈ bundle.softRules, rule.weight.IsWeight
  subjects : ∀ rule ∈ bundle.softRules, ∀ name, rule.subject = some name → name ∈ registry.names

section Bundle

variable {registry : Registry} {bundle : Bundle} {bundles : List Bundle}

theorem Bundle.softRuleProblems_eq_nil_iff {place : Place} {rule : SoftRule} :
    softRuleProblems registry place rule = [] ↔
      (∀ name, rule.subject = some name → name ∈ registry.names) ∧ rule.weight.IsWeight := by
  rw [softRuleProblems, List.append_eq_nil_iff, ← weightDefect?_eq_none_iff]
  refine and_congr ?_ ?_
  · cases rule.subject with
    | none => simp
    | some name => simp [Registry.has]
  · cases weightDefect? rule.weight <;> simp

theorem Bundle.problems_eq_nil_iff : bundle.problems registry = .ok [] ↔ bundle.Fits registry := by
  have htext : ∀ text, expressionProblems (.text text) registry.names (.bundle bundle.output) =
      .ok [] ↔ Rule.Fits registry.names text := by
    intro text
    rw [expressionProblems_eq_nil_iff]
    exact ⟨by rintro ⟨_, ⟨⟩, h⟩; exact h, fun h => ⟨text, rfl, h⟩⟩
  unfold problems
  simp only [Except.bind_eq_ok, Except.pure_eq_ok, List.append_eq_nil_iff, List.map_eq_nil_iff,
    List.filter_eq_nil_iff, List.flatMap_eq_nil_iff, softRuleProblems_eq_nil_iff]
  constructor
  · rintro ⟨found, hfound, ⟨hconditions, hflat⟩, hsoft⟩
    have htexts := flatten_mapM_eq_nil_iff.mp
      (Except.bind_eq_ok.mpr ⟨found, hfound, Except.pure_eq_ok.mpr hflat⟩)
    exact ⟨by simpa [Registry.has] using hconditions,
      fun text hmem => (htext text).mp (htexts text hmem),
      fun rule hmem => (hsoft rule hmem).2, fun rule hmem => (hsoft rule hmem).1⟩
  · intro h
    obtain ⟨found, hfound, hflat⟩ := Except.bind_eq_ok.mp
      (flatten_mapM_eq_nil_iff.mpr fun text hmem => (htext text).mpr (h.texts text hmem))
    exact ⟨found, hfound, ⟨by simpa [Registry.has] using h.conditions, Except.pure_eq_ok.mp hflat⟩,
      fun rule hmem => ⟨h.subjects rule hmem, h.weights rule hmem⟩⟩

end Bundle

/-! ### Catalogs -/

theorem repeatedNames_go_eq_nil {seen names : List String} (hnames : names.Nodup)
    (hnew : ∀ name ∈ names, name ∉ seen) : repeatedNames.go seen names = [] := by
  induction names generalizing seen with
  | nil => rfl
  | cons first rest ih =>
    obtain ⟨hfirst, hrest⟩ := List.nodup_cons.mp hnames
    obtain ⟨hseen, hnew⟩ := List.forall_mem_cons.mp hnew
    rw [repeatedNames.go, if_neg (by simpa using hseen)]
    refine ih hrest fun name hname hmem => ?_
    rcases List.mem_cons.mp hmem with rfl | hmem
    · exact hfirst hname
    · exact hnew name hname hmem

theorem repeatedNames_eq_nil_iff {names : List String} :
    repeatedNames names = [] ↔ names.Nodup :=
  ⟨fun h => (Catalog.nodup_of_repeatedNames_go h).1, fun h => repeatedNames_go_eq_nil h nofun⟩

namespace Catalog

variable {registry : Registry} {outputs : List Output} {bundles : List Bundle}

theorem bundleProblems_eq_nil_iff {declared seen : List String} :
    bundleProblems registry declared seen bundles = .ok [] ↔
      (∀ bundle ∈ bundles, bundle.output ∈ declared ∧ bundle.Fits registry) ∧
        (bundles.map (·.output)).Nodup ∧ ∀ bundle ∈ bundles, bundle.output ∉ seen := by
  induction bundles generalizing seen with
  | nil => simp [bundleProblems]
  | cons first rest ih =>
    rw [bundleProblems]
    simp only [Except.bind_eq_ok, Except.pure_eq_ok, List.append_eq_nil_iff]
    constructor
    · rintro ⟨own, hown, others, hothers, ⟨⟨hdeclared, honce⟩, rfl⟩, rfl⟩
      obtain ⟨hrest, hdistinct, hnew⟩ := ih.mp hothers
      refine ⟨List.forall_mem_cons.mpr ⟨⟨by simpa using hdeclared, ?_⟩, hrest⟩,
        List.nodup_cons.mpr ⟨?_, hdistinct⟩, List.forall_mem_cons.mpr ⟨by simpa using honce, ?_⟩⟩
      · exact Bundle.problems_eq_nil_iff.mp hown
      · intro hmem
        obtain ⟨bundle, hbundle, hsame⟩ := List.mem_map.mp hmem
        exact hnew bundle hbundle (hsame ▸ List.mem_cons_self)
      · exact fun bundle hbundle hseen => hnew bundle hbundle (List.mem_cons_of_mem _ hseen)
    · rintro ⟨hfits, hdistinct, hnew⟩
      obtain ⟨⟨hdeclared, hfirst⟩, hrest⟩ := List.forall_mem_cons.mp hfits
      obtain ⟨honce, hdistinct⟩ := List.nodup_cons.mp hdistinct
      obtain ⟨hfirstnew, hnew⟩ := List.forall_mem_cons.mp hnew
      refine ⟨[], Bundle.problems_eq_nil_iff.mpr hfirst, [], ih.mpr ⟨hrest, hdistinct, ?_⟩,
        ⟨⟨by simpa using hdeclared, by simpa using hfirstnew⟩, rfl⟩, rfl⟩
      intro bundle hbundle hmem
      rcases List.mem_cons.mp hmem with hsame | hmem
      · exact honce (List.mem_map.mpr ⟨bundle, hbundle, hsame⟩)
      · exact hnew bundle hbundle hmem

/-- A configuration is sound if the outputs have distinct names and the bundles fit and belong to
different declared outputs. -/
theorem problems_eq_nil_iff :
    problems registry outputs bundles = .ok [] ↔
      (outputs.map (·.name)).Nodup ∧ (bundles.map (·.output)).Nodup ∧
        ∀ bundle ∈ bundles, bundle.output ∈ outputs.map (·.name) ∧ bundle.Fits registry := by
  unfold problems
  simp only [Except.bind_eq_ok, Except.pure_eq_ok, List.append_eq_nil_iff, List.map_eq_nil_iff,
    repeatedNames_eq_nil_iff]
  constructor
  · rintro ⟨found, hfound, houtputs, rfl⟩
    obtain ⟨hfits, hdistinct, -⟩ := bundleProblems_eq_nil_iff.mp hfound
    exact ⟨houtputs, hdistinct, hfits⟩
  · rintro ⟨houtputs, hdistinct, hfits⟩
    have hnew : ∀ bundle ∈ bundles, bundle.output ∉ [] := fun _ _ => List.not_mem_nil
    exact ⟨[], bundleProblems_eq_nil_iff.mpr ⟨hfits, hdistinct, hnew⟩, houtputs, rfl⟩

theorem bundleFor?_of_mem {catalog : Catalog} {bundle : Bundle}
    (hmem : bundle ∈ catalog.bundles) :
    catalog.bundleFor? bundle.output = some bundle := by
  cases hfind : catalog.bundleFor? bundle.output with
  | none => simpa using List.find?_eq_none.mp hfind bundle hmem
  | some found =>
    obtain ⟨hin, hsame⟩ := bundleFor?_eq_some hfind
    obtain ⟨-, hdistinct, -⟩ := problems_eq_nil_iff.mp catalog.sound
    rw [List.inj_on_of_nodup_map hdistinct hin hmem hsame]

theorem build_eq_ok_iff {catalog : Catalog} :
    build registry outputs bundles = .ok catalog ↔
      catalog.registry = registry ∧ catalog.outputs = outputs ∧ catalog.bundles = bundles := by
  unfold build
  constructor
  · intro h
    split at h
    · cases h
      exact ⟨rfl, rfl, rfl⟩
    · cases h
    · cases h
  · rintro ⟨rfl, rfl, rfl⟩
    split
    · rfl
    · rename_i problem rest hproblems
      rw [catalog.sound] at hproblems
      cases hproblems
    · rename_i f hproblems
      rw [catalog.sound] at hproblems
      cases hproblems

end Catalog

theorem Registry.ofList_eq_ok_iff {vs : List Variable} {registry : Registry} :
    Registry.ofList vs = .ok registry ↔ registry.toList = vs := by
  unfold Registry.ofList
  constructor
  · intro h
    split at h
    · cases h
      rfl
    · cases h
  · rintro rfl
    rw [dif_pos registry.distinct]

end Shortlist
