import Mathlib.Data.List.Perm.Basic
import Shortlist.Proofs.Catalog.Checks
import Shortlist.Proofs.Decision.Evaluation
import Shortlist.Proofs.Decision.Ranking

/-!
# The order of rules

A configuration lists its bundles in some order, and so does every bundle with its conditions and
rules. The decision does not depend on it. The filter stops at the first rule that rules an output
out, so what it looks at does depend on the order; its answer is compared through what it says of
all rules (`Bundle.Passes`). Fields are sets, and a score is one exact sum. What is left to go wrong
is a rule that is a fault, which one order may reach and another one not: evaluations are compared
where there are two of them, and there are two as soon as no rule is a fault (`Catalog.Judges`).
-/

namespace Shortlist

open Rule (Assignment)

variable {A : Assignment} {D : List String}

/-! ### Lists that are related element by element -/

theorem map_eq_map_of_forall₂ {α β γ : Type} {R : α → β → Prop} {f : α → γ} {g : β → γ}
    (hsame : ∀ a b, R a b → f a = g b) {xs : List α} {ys : List β} (h : List.Forall₂ R xs ys) :
    xs.map f = ys.map g := by
  rw [← List.forall₂_eq_eq_eq, List.forall₂_map_left_iff, List.forall₂_map_right_iff]
  exact h.imp hsame

/-- Lists that are related element by element stay so when they are sorted, if related elements
compare alike. -/
theorem forall₂_mergeSort {α β : Type} {R : α → β → Prop} {le : α → α → Bool} {le' : β → β → Bool}
    (hle : ∀ a b c d, R a b → R c d → le a c = le' b d) {xs : List α} {ys : List β}
    (h : List.Forall₂ R xs ys) : List.Forall₂ R (xs.mergeSort le) (ys.mergeSort le') := by
  have hlength := h.length_eq
  have hrelated : ∀ p ∈ xs.zip ys, R p.1 p.2 := fun p hp => List.forall₂_zip h hp
  -- both are projections of the list of pairs, sorted by the first components
  have hfst : ((xs.zip ys).mergeSort fun p q => le p.1 q.1).map Prod.fst = xs.mergeSort le := by
    rw [List.map_mergeSort (s := le) (f := Prod.fst) fun _ _ _ _ => rfl,
      List.map_fst_zip hlength.le]
  have hsnd : ((xs.zip ys).mergeSort fun p q => le p.1 q.1).map Prod.snd = ys.mergeSort le' := by
    rw [List.map_mergeSort (s := le') (f := Prod.snd) fun p hp q hq =>
      hle _ _ _ _ (hrelated p hp) (hrelated q hq), List.map_snd_zip hlength.ge]
  rw [← hfst, ← hsnd, List.forall₂_map_left_iff, List.forall₂_map_right_iff, List.forall₂_same]
  exact fun p hp => hrelated p ((List.mergeSort_perm _ _).mem_iff.mp hp)

/-! ### Reordered bundles -/

namespace Bundle

/-- The bundle of the same output with its conditions and rules in another order. -/
structure Reordered (b c : Bundle) : Prop where
  output : b.output = c.output
  conditions : List.Perm b.conditions c.conditions
  inclusions : b.inclusions.Perm c.inclusions
  exclusions : b.exclusions.Perm c.exclusions
  softRules : b.softRules.Perm c.softRules

variable {b c : Bundle} {name : String}

namespace Reordered

theorem symm (h : b.Reordered c) : c.Reordered b :=
  ⟨h.output.symm, h.conditions.symm, h.inclusions.symm, h.exclusions.symm, h.softRules.symm⟩

theorem hardTexts (h : b.Reordered c) : b.hardTexts.Perm c.hardTexts :=
  h.inclusions.append h.exclusions

theorem allTexts (h : b.Reordered c) : b.allTexts.Perm c.allTexts :=
  h.hardTexts.append (h.softRules.map _)

theorem names (h : b.Reordered c) : b.conditions.names.Perm c.conditions.names :=
  h.conditions.map _

theorem fits {registry : Registry} (h : b.Reordered c) (hb : b.Fits registry) :
    c.Fits registry where
  conditions := fun name hname => hb.conditions name (h.names.mem_iff.mpr hname)
  texts := fun text htext => hb.texts text (h.allTexts.mem_iff.mpr htext)
  weights := fun rule hrule => hb.weights rule (h.softRules.mem_iff.mpr hrule)
  subjects := fun rule hrule => hb.subjects rule (h.softRules.mem_iff.mpr hrule)

theorem passes (h : b.Reordered c) (hb : b.Passes A D) : c.Passes A D where
  conditions := fun condition hmem => hb.conditions condition (h.conditions.mem_iff.mpr hmem)
  inclusions := fun text htext => hb.inclusions text (h.inclusions.mem_iff.mpr htext)
  exclusions := fun text htext => hb.exclusions text (h.exclusions.mem_iff.mpr htext)

theorem mem_hardFields (h : b.Reordered c) (hname : name ∈ b.hardFields D) :
    name ∈ c.hardFields D := by
  rcases Bundle.mem_hardFields.mp hname with hcondition | ⟨text, htext, hfield⟩
  · exact Bundle.mem_hardFields.mpr (.inl (h.names.mem_iff.mp hcondition))
  · exact Bundle.mem_hardFields.mpr (.inr ⟨text, h.hardTexts.mem_iff.mp htext, hfield⟩)

theorem mem_fields (h : b.Reordered c) (hname : name ∈ b.fields D) : name ∈ c.fields D := by
  rcases Bundle.mem_fields.mp hname with hhard | ⟨rule, hrule, hfield⟩
  · exact Bundle.mem_fields.mpr (.inl (h.mem_hardFields hhard))
  · exact Bundle.mem_fields.mpr (.inr ⟨rule, h.softRules.mem_iff.mp hrule, hfield⟩)

end Reordered

theorem exists_isFeasible
    (h : ∀ text ∈ b.hardTexts, ∃ outcome, Rule.truthOf text A D = .ok outcome) :
    ∃ answer, b.isFeasible A D = .ok answer := by
  have htest : ∀ outcome text, text ∈ b.hardTexts →
      ∃ has, hasOutcome A D outcome text = .ok has := by
    intro outcome text htext
    obtain ⟨found, hfound⟩ := h text htext
    exact ⟨_, hasOutcome_eq_ok_iff.mpr ⟨found, hfound, rfl⟩⟩
  obtain ⟨failed, hfailed⟩ := exists_anyM fun text htext =>
    htest .fails text (List.mem_append_left b.exclusions htext)
  obtain ⟨triggered, htriggered⟩ := exists_anyM fun text htext =>
    htest .holds text (List.mem_append_right b.inclusions htext)
  rw [isFeasible, hfailed, htriggered]
  cases b.isSatisfied A with
  | false => exact ⟨false, rfl⟩
  | true =>
    cases failed with
    | true => exact ⟨false, rfl⟩
    | false => exact ⟨!triggered, rfl⟩

end Bundle

/-- The same bundles in another order, and with their rules in another order. -/
def ReorderedBundles (bs cs : List Bundle) : Prop :=
  ∃ middle, List.Forall₂ Bundle.Reordered bs middle ∧ middle.Perm cs

namespace ReorderedBundles

variable {bs cs : List Bundle}

theorem symm (h : ReorderedBundles bs cs) : ReorderedBundles cs bs := by
  obtain ⟨middle, hbundles, hperm⟩ := h
  exact List.perm_comp_forall₂ hperm.symm (hbundles.imp fun _ _ => .symm).flip

theorem exists_mem (h : ReorderedBundles bs cs) {b : Bundle} (hb : b ∈ bs) :
    ∃ c ∈ cs, b.Reordered c := by
  obtain ⟨middle, hbundles, hperm⟩ := h
  obtain ⟨c, hc, hreordered⟩ := exists_of_forall₂_right hbundles.flip hb
  exact ⟨c, hperm.mem_iff.mp hc, hreordered⟩

theorem outputs_perm (h : ReorderedBundles bs cs) :
    (bs.map (·.output)).Perm (cs.map (·.output)) := by
  obtain ⟨middle, hbundles, hperm⟩ := h
  have hsame : bs.map (·.output) = middle.map (·.output) :=
    map_eq_map_of_forall₂ (fun _ _ hbc => hbc.output) hbundles
  rw [hsame]
  exact hperm.map _

end ReorderedBundles

/-! ### Decisions that are the same -/

structure Scored.Alike (s t : Scored) : Prop where
  name : s.name = t.name
  description : s.description = t.description
  score : s.score = t.score
  contributions : s.contributions.Perm t.contributions

structure Ranked.Alike (r s : Ranked) : Prop where
  scored : r.toScored.Alike s.toScored
  probability : r.probability = s.probability

/-- Evaluations that differ at most in the order in which the contributions to a score are shown. -/
structure Evaluation.SameDecision (e f : Evaluation) : Prop where
  state : e.state = f.state
  assignment : e.assignment = f.assignment
  feasible : e.feasible = f.feasible
  relevant : e.relevant = f.relevant
  mandatory : e.mandatory = f.mandatory
  pending : e.pending = f.pending
  ranking : List.Forall₂ Ranked.Alike e.ranking f.ranking

/-! ### Reordered catalogs -/

namespace Catalog

/-- A catalog of the same variables and outputs with its bundles and rules in another order. -/
structure Reordered (catalog other : Catalog) : Prop where
  registry : catalog.registry = other.registry
  outputs : catalog.outputs = other.outputs
  bundles : ReorderedBundles catalog.bundles other.bundles

/-- No rule of the catalog is a fault under the assignment. -/
def Judges (catalog : Catalog) (A : Assignment) : Prop :=
  ∀ bundle ∈ catalog.bundles, ∀ text ∈ bundle.allTexts,
    ∃ outcome, Rule.truthOf text A catalog.declared = .ok outcome

variable {catalog other : Catalog} {output : String}

theorem scoreOf_perm {cs ds : List Contribution} (h : cs.Perm ds) : scoreOf cs = scoreOf ds := by
  rw [scoreOf, scoreOf, Binary64.sum_perm (h.map _)]

theorem Judges.exists_rank (h : catalog.Judges A) (outputs : List Output) :
    ∃ ranking, catalog.rank outputs A = .ok ranking :=
  Catalog.exists_rank fun _ _ bundle hbundle _ hrule =>
    h bundle (bundleFor?_eq_some hbundle).1 _
      (List.mem_append_right _ (List.mem_map_of_mem hrule))

theorem Judges.exists_feasible (h : catalog.Judges A) :
    ∃ feasible, catalog.feasible A = .ok feasible := by
  refine ⟨_, selectM_eq_ok_iff.mpr ⟨fun output _ => ?_, rfl⟩⟩
  unfold isFeasible
  cases hbundle : catalog.bundleFor? output.name with
  | none => exact ⟨false, rfl⟩
  | some bundle =>
    exact Bundle.exists_isFeasible fun text htext =>
      h bundle (bundleFor?_eq_some hbundle).1 text (List.mem_append_left _ htext)

theorem Judges.exists_evaluation (h : catalog.Judges A) :
    ∃ e, catalog.evaluate A = .ok e := by
  obtain ⟨feasible, hfeasible⟩ := h.exists_feasible
  obtain ⟨ranking, hranking⟩ := h.exists_rank feasible
  rw [evaluate, hfeasible, Except.ok_bind]
  dsimp only
  split
  · exact ⟨_, rfl⟩
  · split
    · exact ⟨_, rfl⟩
    · rw [hranking]
      exact ⟨_, rfl⟩

namespace Reordered

theorem symm (h : catalog.Reordered other) : other.Reordered catalog :=
  ⟨h.registry.symm, h.outputs.symm, h.bundles.symm⟩

theorem declared (h : catalog.Reordered other) : catalog.declared = other.declared := by
  rw [Catalog.declared, Catalog.declared, h.registry]

theorem judges (h : catalog.Reordered other) (hjudges : catalog.Judges A) : other.Judges A := by
  intro c hc text htext
  obtain ⟨b, hb, hreordered⟩ := h.bundles.symm.exists_mem hc
  rw [← h.declared]
  exact hjudges b hb text (hreordered.allTexts.mem_iff.mp htext)

theorem exists_bundleFor? (h : catalog.Reordered other) {b : Bundle}
    (hb : catalog.bundleFor? output = some b) :
    ∃ c, other.bundleFor? output = some c ∧ b.Reordered c := by
  obtain ⟨hmem, rfl⟩ := bundleFor?_eq_some hb
  obtain ⟨c, hc, hreordered⟩ := h.bundles.exists_mem hmem
  exact ⟨c, hreordered.output ▸ bundleFor?_of_mem hc, hreordered⟩

theorem bundleFor?_eq_none (h : catalog.Reordered other)
    (hnone : catalog.bundleFor? output = none) : other.bundleFor? output = none := by
  cases hfind : other.bundleFor? output with
  | none => rfl
  | some c =>
    obtain ⟨b, hb, -⟩ := h.symm.exists_bundleFor? hfind
    rw [hnone] at hb
    cases hb

/-! #### Outputs and fields -/

theorem isFeasible (h : catalog.Reordered other) {output : Output}
    (haccepted : catalog.isFeasible A output = .ok true) :
    other.isFeasible A output = .ok true := by
  obtain ⟨b, hb, hpasses⟩ := isFeasible_eq_true_iff.mp haccepted
  obtain ⟨c, hc, hreordered⟩ := h.exists_bundleFor? hb
  rw [h.declared] at hpasses
  exact isFeasible_eq_true_iff.mpr ⟨c, hc, hreordered.passes hpasses⟩

theorem feasible_eq (h : catalog.Reordered other) {before after : List Output}
    (hbefore : catalog.feasible A = .ok before) (hafter : other.feasible A = .ok after) :
    before = after := by
  obtain ⟨-, rfl⟩ := selectM_eq_ok_iff.mp hbefore
  obtain ⟨-, rfl⟩ := selectM_eq_ok_iff.mp hafter
  rw [h.outputs]
  refine List.filter_congr fun output _ => ?_
  rw [Bool.eq_iff_iff, accepts_iff, accepts_iff]
  exact ⟨h.isFeasible, h.symm.isFeasible⟩

theorem mem_mandatory (h : catalog.Reordered other) {name : String}
    (hname : name ∈ catalog.mandatory) : name ∈ other.mandatory := by
  obtain ⟨b, hb, hfield⟩ := Catalog.mem_mandatory.mp hname
  obtain ⟨c, hc, hreordered⟩ := h.bundles.exists_mem hb
  rw [h.declared] at hfield
  exact Catalog.mem_mandatory.mpr ⟨c, hc, hreordered.mem_hardFields hfield⟩

theorem mandatory_eq (h : catalog.Reordered other) : catalog.mandatory = other.mandatory := by
  refine Text.sortedSet_congr fun name => ?_
  have hmem : name ∈ catalog.mandatory ↔ name ∈ other.mandatory :=
    ⟨h.mem_mandatory, h.symm.mem_mandatory⟩
  rwa [mandatory, mandatory, Text.mem_sortedSet, Text.mem_sortedSet] at hmem

theorem mem_relevant (h : catalog.Reordered other) {feasible : List Output} {name : String}
    (hname : name ∈ catalog.relevant feasible A) : name ∈ other.relevant feasible A := by
  rcases Catalog.mem_relevant.mp hname with hassigned | ⟨output, houtput, b, hb, hfield⟩
  · exact Catalog.mem_relevant.mpr (.inl hassigned)
  · obtain ⟨c, hc, hreordered⟩ := h.exists_bundleFor? hb
    rw [h.declared] at hfield
    exact Catalog.mem_relevant.mpr (.inr ⟨output, houtput, c, hc, hreordered.mem_fields hfield⟩)

theorem relevant_eq (h : catalog.Reordered other) (feasible : List Output) :
    catalog.relevant feasible A = other.relevant feasible A := by
  refine Text.sortedSet_congr fun name => ?_
  have hmem : name ∈ catalog.relevant feasible A ↔ name ∈ other.relevant feasible A :=
    ⟨h.mem_relevant, h.symm.mem_relevant⟩
  rwa [relevant, relevant, Text.mem_sortedSet, Text.mem_sortedSet] at hmem

/-! #### Scores -/

theorem contributions_perm (h : catalog.Reordered other) {cs ds : List Contribution}
    (hcs : catalog.contributions output A = .ok cs)
    (hds : other.contributions output A = .ok ds) : cs.Perm ds := by
  unfold contributions at hcs hds
  cases hb : catalog.bundleFor? output with
  | none =>
    rw [hb] at hcs
    rw [h.bundleFor?_eq_none hb] at hds
    rw [← Except.ok.inj hcs, ← Except.ok.inj hds]
  | some b =>
    obtain ⟨c, hc, hreordered⟩ := h.exists_bundleFor? hb
    rw [hb, h.declared] at hcs
    rw [hc] at hds
    exact perm_of_mapM hreordered.softRules hcs hds

theorem score_alike (h : catalog.Reordered other) {output : Output} {s t : Scored}
    (hs : catalog.score A output = .ok s) (ht : other.score A output = .ok t) : s.Alike t := by
  obtain ⟨cs, hcs, hs⟩ := Except.bind_eq_ok.mp hs
  obtain ⟨ds, hds, ht⟩ := Except.bind_eq_ok.mp ht
  obtain rfl := Except.pure_eq_ok.mp hs
  obtain rfl := Except.pure_eq_ok.mp ht
  have hperm := h.contributions_perm hcs hds
  refine ⟨rfl, rfl, ?_, hperm⟩
  rw [scoreOf_perm hperm]

theorem forall₂_zip {ss ts : List Scored} (h : List.Forall₂ Scored.Alike ss ts)
    (shares : List Binary64) :
    List.Forall₂ Ranked.Alike ((ss.zip shares).map fun (s, p) => (⟨s, p⟩ : Ranked))
      ((ts.zip shares).map fun (t, p) => (⟨t, p⟩ : Ranked)) := by
  induction h generalizing shares with
  | nil => exact .nil
  | cons halike hrest ih =>
    cases shares with
    | nil => exact .nil
    | cons share shares => exact .cons ⟨halike, rfl⟩ (ih shares)

theorem rank_alike (h : catalog.Reordered other) {outputs : List Output}
    {ranking reranking : List Ranked} (hranking : catalog.rank outputs A = .ok ranking)
    (hreranking : other.rank outputs A = .ok reranking) :
    List.Forall₂ Ranked.Alike ranking reranking := by
  obtain ⟨ss, hss, hranking⟩ := Except.bind_eq_ok.mp hranking
  obtain ⟨ts, hts, hreranking⟩ := Except.bind_eq_ok.mp hreranking
  have halike : List.Forall₂ Scored.Alike ss ts :=
    forall₂_of_mapM (fun _ _ _ => h.score_alike) hss hts
  have hscores : ss.map (fun s => Number.double s.score) =
      ts.map (fun t => Number.double t.score) :=
    map_eq_map_of_forall₂ (fun _ _ hst => congrArg Number.double hst.score) halike
  obtain ⟨shares, hshares, hranking⟩ := Except.bind_eq_ok.mp hranking
  rw [← hscores, hshares] at hreranking
  obtain rfl := Except.pure_eq_ok.mp hranking
  obtain rfl := Except.pure_eq_ok.mp hreranking
  refine forall₂_mergeSort (fun a b c d hab hcd => ?_) (forall₂_zip halike shares)
  rw [ranksBefore, ranksBefore, hab.probability, hcd.probability]

/-! #### Evaluations -/

theorem sameDecision (h : catalog.Reordered other) {e f : Evaluation}
    (he : catalog.evaluate A = .ok e) (hf : other.evaluate A = .ok f) : e.SameDecision f := by
  have he := decides_of_evaluate he
  have hf := decides_of_evaluate hf
  have hfeasible : e.feasible = f.feasible := h.feasible_eq he.feasible hf.feasible
  have hmandatory : e.mandatory = f.mandatory := by
    rw [he.mandatory, hf.mandatory, h.mandatory_eq]
  have hrelevant : e.relevant = f.relevant := by
    rw [he.relevant, hf.relevant, h.relevant_eq, hfeasible]
  have hpending : e.pending = f.pending := by
    rw [he.pending, hf.pending, hmandatory, hrelevant, pending, pending, h.declared]
  have hstate : e.state = f.state := by rw [he.state, hf.state, hpending, hfeasible]
  refine ⟨hstate, he.assignment.trans hf.assignment.symm, hfeasible, hrelevant, hmandatory,
    hpending, ?_⟩
  have hranking := he.ranking
  have hreranking := hf.ranking
  rw [← hstate, ← hfeasible] at hreranking
  split at hranking
  · rename_i hranked
    rw [if_pos hranked] at hreranking
    exact h.rank_alike hranking hreranking
  · rename_i hunranked
    rw [if_neg hunranked] at hreranking
    rw [← Except.ok.inj hranking, ← Except.ok.inj hreranking]
    exact .nil

end Reordered

/-- Reordered bundles are as sound as the ones of a catalog. -/
theorem exists_reordered (catalog : Catalog) {bundles : List Bundle}
    (h : ReorderedBundles catalog.bundles bundles) :
    ∃ other, build catalog.registry catalog.outputs bundles = .ok other ∧
      catalog.Reordered other := by
  obtain ⟨houtputs, hdistinct, hfits⟩ := problems_eq_nil_iff.mp catalog.sound
  have hsound : problems catalog.registry catalog.outputs bundles = .ok [] := by
    refine problems_eq_nil_iff.mpr ⟨houtputs, h.outputs_perm.nodup_iff.mp hdistinct, ?_⟩
    intro c hc
    obtain ⟨b, hb, hreordered⟩ := h.symm.exists_mem hc
    obtain ⟨hdeclared, hbundle⟩ := hfits b hb
    exact ⟨hreordered.output ▸ hdeclared, hreordered.symm.fits hbundle⟩
  exact ⟨⟨_, _, bundles, hsound⟩, build_eq_ok_iff.mpr ⟨rfl, rfl, rfl⟩, rfl, rfl, h⟩

end Catalog

/-- A configuration with its bundles, conditions and rules in another order is a configuration as
well, and decides the same: the outputs that are feasible, the fields that are relevant, mandatory
and pending, and every score and probability, in the same order. If no rule is a fault, both
decisions are there, and so is the ranking of the feasible outputs while fields are pending. -/
theorem order_of_rules_does_not_count (catalog : Catalog) {bundles : List Bundle}
    (hbundles : ReorderedBundles catalog.bundles bundles) :
    ∃ other, Catalog.build catalog.registry catalog.outputs bundles = .ok other ∧
      ∀ A : Assignment,
        (∀ e f, catalog.evaluate A = .ok e → other.evaluate A = .ok f → e.SameDecision f) ∧
        (catalog.Judges A → ∃ e f ranking reranking,
          catalog.evaluate A = .ok e ∧ other.evaluate A = .ok f ∧ e.SameDecision f ∧
          catalog.rank e.feasible A = .ok ranking ∧ other.rank f.feasible A = .ok reranking ∧
          List.Forall₂ Ranked.Alike ranking reranking) := by
  obtain ⟨other, hbuild, hreordered⟩ := catalog.exists_reordered hbundles
  refine ⟨other, hbuild, fun A => ⟨fun _ _ => hreordered.sameDecision, fun hjudges => ?_⟩⟩
  obtain ⟨e, he⟩ := hjudges.exists_evaluation
  obtain ⟨f, hf⟩ := (hreordered.judges hjudges).exists_evaluation
  have hsame := hreordered.sameDecision he hf
  obtain ⟨ranking, hranking⟩ := hjudges.exists_rank e.feasible
  obtain ⟨reranking, hreranking⟩ := (hreordered.judges hjudges).exists_rank e.feasible
  exact ⟨e, f, ranking, reranking, he, hf, hsame, hranking, hsame.feasible ▸ hreranking,
    hreordered.rank_alike hranking hreranking⟩

def Bundle.reversed (bundle : Bundle) : Bundle :=
  ⟨bundle.output, bundle.conditions.reverse, bundle.inclusions.reverse, bundle.exclusions.reverse,
    bundle.softRules.reverse⟩

theorem reordered_reversed (bundles : List Bundle) :
    ReorderedBundles bundles (bundles.map .reversed).reverse := by
  refine ⟨bundles.map .reversed, ?_, (List.reverse_perm _).symm⟩
  rw [List.forall₂_map_right_iff, List.forall₂_same]
  exact fun bundle _ => ⟨rfl, (List.reverse_perm _).symm, (List.reverse_perm _).symm,
    (List.reverse_perm _).symm, (List.reverse_perm _).symm⟩

/-- One, two and three tenths for a garden. Added one by one their sum depends on the order. -/
def Catalog.tenths : Catalog :=
  ⟨specimenRegistry, [forHomes],
    [⟨"A", [("kind", .exactly (.text "home"))], ["garden", "!vault"], [],
      [⟨"garden", .number (.double (.ofQuotient 1 10)), none⟩,
        ⟨"garden", .number (.double (.ofQuotient 2 10)), none⟩,
        ⟨"garden", .number (.double (.ofQuotient 3 10)), none⟩]⟩],
    problems_eq_nil (by decide +kernel)⟩

def gardenHome : Assignment :=
  [("kind", .text "home"), ("garden", .boolean true), ("vault", .boolean false)]

/-- From either end, the catalog decides the same for a home with a garden. -/
theorem tenths_reversed :
    ReorderedBundles Catalog.tenths.bundles (Catalog.tenths.bundles.map .reversed).reverse ∧
      ∃ other e f, Catalog.build Catalog.tenths.registry Catalog.tenths.outputs
          (Catalog.tenths.bundles.map .reversed).reverse = .ok other ∧
        Catalog.tenths.evaluate gardenHome = .ok e ∧ other.evaluate gardenHome = .ok f ∧
        e.SameDecision f := by
  have hbundles := reordered_reversed Catalog.tenths.bundles
  obtain ⟨other, hbuild, h⟩ := order_of_rules_does_not_count Catalog.tenths hbundles
  have hjudges : Catalog.tenths.Judges gardenHome := by
    intro bundle hbundle text htext
    obtain rfl := List.mem_singleton.mp hbundle
    have hcases : text = "garden" ∨ text = "!vault" ∨ text = "garden" := by
      simpa [Bundle.allTexts, Bundle.hardTexts] using htext
    have hgarden : Rule.truthOf "garden" gardenHome Catalog.tenths.declared = .ok .holds := by
      decide +kernel
    rcases hcases with rfl | rfl | rfl
    · exact ⟨.holds, hgarden⟩
    · exact ⟨.holds, by decide +kernel⟩
    · exact ⟨.holds, hgarden⟩
  obtain ⟨e, f, -, -, he, hf, hsame, -⟩ := (h gardenHome).2 hjudges
  exact ⟨hbundles, other, e, f, hbuild, he, hf, hsame⟩

end Shortlist
