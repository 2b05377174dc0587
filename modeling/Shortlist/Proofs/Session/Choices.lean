import Shortlist.Command.Run
import Shortlist.Proofs.Command.Pair
import Shortlist.Proofs.Document.WellFormed
import Shortlist.Proofs.Session.Batch

/-!
# Choosing from a domain

What a text does to a variable of choices hangs on two questions, asked in this order: whether it is
blank, and whether it is a choice. A blank text is no answer, even where the domain lists it. So a
declared choice can be chosen if it is not blank, and on a command line, which takes the blank
characters off both ends of a text, if it also has none there.
-/

namespace Shortlist

open Rule (Assignment)

theorem Registry.get?_of_mem {registry : Registry} {v : Variable} (hv : v ∈ registry.toList) :
    registry.get? v.name = some v := by
  cases hfind : registry.get? v.name with
  | none => simpa using List.find?_eq_none.mp hfind v hv
  | some found =>
    obtain ⟨hfound, hname⟩ := Registry.get?_eq_some hfind
    rw [List.inj_on_of_nodup_map registry.distinct hfound hv hname]

namespace Session

variable {catalog : Catalog} {session : Session} {registry : Registry} {A : Assignment}
  {v : Variable} {name word : String} {raw : Value} {value : Option Value}

/-! ### A text for a variable of choices -/

theorem taken_choice (hv : registry.get? v.name = some v) (hchoice : v.type = .choice)
    (word : String) :
    taken registry v.name (.text word) =
      if Text.isBlankText word = true then .ok none
      else if word ∈ v.domain then .ok (some (.text word))
      else .error (.rejected ⟨v.name, .text word, .notInDomain v.domain⟩) := by
  have hrequire : registry.require v.name = .ok v := Registry.require_eq_ok.mpr hv
  by_cases hblank : Text.isBlankText word = true
  · have hempty : (Value.text word).isEmptyAnswer = true := hblank
    rw [if_pos hblank, taken, if_pos hempty, hrequire]
    rfl
  · have hfilled : ¬(Value.text word).isEmptyAnswer = true := hblank
    rw [if_neg hblank, taken, if_neg hfilled, Registry.accept, hrequire, Except.ok_bind,
      Variable.accept, if_neg hfilled, hchoice]
    by_cases hmem : word ∈ v.domain
    · have hcontains : v.domain.contains word = true := List.contains_iff_mem.mpr hmem
      simp only [Variable.acceptChoice, Value.plain?, Except.mapError, Except.ok_bind,
        if_pos hcontains, if_pos hmem]
      rfl
    · have hcontains : ¬v.domain.contains word = true := fun h => hmem (List.contains_iff_mem.mp h)
      simp only [Variable.acceptChoice, Value.plain?, Except.mapError, Except.ok_bind,
        if_neg hcontains, if_neg hmem, Variable.mismatch, hchoice]
      rfl

/-! ### What an answer leaves -/

/-- The request succeeds and leaves a value with a variable, or none. -/
def Leaves (result : Except AnswerError Session) (name : String) (value : Option Value) : Prop :=
  ∃ next, result = .ok next ∧ Entries.get? next.assignment name = value

theorem get?_put (A : Assignment) (name : String) (value : Option Value) :
    Entries.get? (put A name value) name = value := by
  cases value with
  | none => rw [put, Entries.get?_erase, if_pos rfl]
  | some value => rw [put, Entries.get?_insert, if_pos rfl]

theorem setAll_singleton (session : Session) (name : String) (raw : Value) :
    session.setAll [(name, raw)] = session.set name raw := by
  have hall : session.apply (.setAll [(name, raw)]) = session.apply (.set name raw) := by
    rw [apply_eq, apply_eq, Change.target_of_answers rfl, Change.target_of_answers rfl]
  exact hall

theorem taken_of_leaves (h : Leaves (session.set name raw) name value) :
    taken session.catalog.registry name raw = .ok value := by
  obtain ⟨next, hnext, rfl⟩ := h
  rw [set_eq_bind] at hnext
  obtain ⟨B, hB, hnext⟩ := Except.bind_eq_ok.mp hnext
  obtain ⟨value, htaken, rfl⟩ := Except.map_eq_ok.mp hB
  obtain ⟨e, -, rfl⟩ := adopt_eq_ok.mp hnext
  rw [get?_put, htaken]

/-- Unless a fault stops the evaluation, an answer leaves what is taken from it. -/
theorem leaves_of_taken (htaken : taken session.catalog.registry name raw = .ok value)
    (hfaultless : Faultless (session.set name raw)) :
    Leaves (session.set name raw) name value := by
  obtain ⟨next, hnext⟩ := hfaultless.exists_ok fun r hr => by
    rw [set_eq_rejected_iff, htaken] at hr
    cases hr
  refine ⟨next, hnext, ?_⟩
  rw [set_eq_bind, htaken] at hnext
  obtain ⟨e, -, rfl⟩ := adopt_eq_ok.mp hnext
  exact get?_put _ _ _

end Session

/-! ### A pair on the command line -/

namespace Command

/-- A command with one pair gives its text, without blank characters at the ends, to a new
session. -/
theorem openSession_pair {files : Files} {config : Option String} {catalog : Catalog}
    (hcatalog : openCatalog files config = .ok catalog) {name : String}
    (hname : Text.isIdentifier name = true) (text : String) :
    openSession files config [some (name ++ "=" ++ text)] =
      (Session.start catalog).mapError .fault >>= fun first =>
        (first.setAll [(name, .text (Text.trim text))]).mapError .ofAnswer := by
  have hanswers : answersOf [some (name ++ "=" ++ text)] = .ok [(name, Text.trim text)] := by
    rw [answersOf, List.mapM_cons]
    dsimp only
    rw [readPair_identifier hname]
    rfl
  rw [openSession, hcatalog, hanswers]
  change (Session.start catalog).mapError Trouble.fault >>= _ = _
  refine bind_congr fun first => ?_
  rw [Except.ok_bind, List.isEmpty_cons, if_neg Bool.false_ne_true]
  rfl

end Command

/-! ### Declared choices -/

namespace Session

variable {document : Value} {catalog : Catalog} {session : Session} {v : Variable} {word : String}

/-- A declared choice that is not blank is stored as it stands when it is given as an answer; one
that is blank clears the variable. On a command line the pair of the variable and the choice is read
as the choice without the blank characters at its ends, so it stores the choice exactly if the
choice has none there and is not blank. -/
theorem declared_choices_can_be_chosen (hload : Catalog.load document = .ok catalog)
    (hreach : Reachable catalog session) (hv : v ∈ catalog.registry.toList)
    (hchoice : v.type = .choice) (hword : word ∈ v.domain) :
    (Text.isBlankText word = false → Faultless (session.set v.name (.text word)) →
      Leaves (session.set v.name (.text word)) v.name (some (.text word))) ∧
    (Text.isBlankText word = true → Faultless (session.set v.name (.text word)) →
      Leaves (session.set v.name (.text word)) v.name none) ∧
    Command.readPairs [v.name ++ "=" ++ word] = .ok [(v.name, Text.trim word)] ∧
    (∀ files config, Command.openCatalog files config = .ok catalog →
      Command.openSession files config [some (v.name ++ "=" ++ word)] =
        (start catalog).mapError .fault >>= fun first =>
          (first.setAll [(v.name, .text (Text.trim word))]).mapError .ofAnswer) ∧
    (Faultless (session.setAll [(v.name, .text (Text.trim word))]) →
      (Leaves (session.setAll [(v.name, .text (Text.trim word))]) v.name (some (.text word)) ↔
        Text.trim word = word ∧ Text.isBlankText word = false)) := by
  obtain rfl := hreach.sound.catalog_eq
  have hidentifier := ((Catalog.wellFormed_of_load hload).1.identifiers v hv).1
  have htaken := taken_choice (Registry.get?_of_mem hv) hchoice
  have hstored : Text.isBlankText word = false →
      taken session.catalog.registry v.name (.text word) = .ok (some (.text word)) := by
    intro hblank
    rw [htaken, if_neg (Bool.eq_false_iff.mp hblank), if_pos hword]
  refine ⟨fun hblank => leaves_of_taken (hstored hblank), fun hblank => ?_, ?_,
    fun files config hcatalog => Command.openSession_pair hcatalog hidentifier word, ?_⟩
  · exact leaves_of_taken (by rw [htaken, if_pos hblank])
  · rw [Command.readPairs_singleton, Command.readPair_identifier hidentifier]
    rfl
  · rw [setAll_singleton]
    refine fun hfaultless => ⟨fun hleaves => ?_, fun ⟨htrim, hblank⟩ => ?_⟩
    · have hleft := (htaken _).symm.trans (taken_of_leaves hleaves)
      split at hleft
      · cases hleft
      · rename_i hblank
        split at hleft
        · have htrim : Text.trim word = word := by
            rw [Except.ok.injEq, Option.some.injEq, Value.text.injEq] at hleft
            exact hleft
          rw [htrim, Bool.not_eq_true] at hblank
          exact ⟨htrim, hblank⟩
        · cases hleft
    · rw [htrim] at hfaultless ⊢
      exact leaves_of_taken (hstored hblank) hfaultless

/-- A variable with a blank choice and one that has a blank character at its front. -/
def blankChoices : Entries Value :=
  [("variables", .list [.object [("name", .text "kind"), ("type", .text "enum"),
      ("domain", .list [.text "home", .text "", .text " shop"])]]),
   ("outputs", .list [.object [("name", .text "A")]]),
   ("rules", .object [("A", .object [])])]

theorem exists_blankChoices :
    ∃ catalog v first e, Catalog.load (.object blankChoices) = .ok catalog ∧
      v ∈ catalog.registry.toList ∧ v.name = "kind" ∧ v.type = .choice ∧
      v.domain = ["home", "", " shop"] ∧ catalog.evaluate [] = .ok first ∧
      catalog.evaluate [("kind", .text "home")] = .ok e := by
  have hloaded : ((Catalog.load (.object blankChoices)).map fun catalog =>
      (catalog.registry.toList.map fun v => (v.name, v.type, v.domain),
        (catalog.evaluate []).isOk, (catalog.evaluate [("kind", .text "home")]).isOk)).toOption =
      some ([("kind", .choice, ["home", "", " shop"])], true, true) := by decide +kernel
  cases hload : Catalog.load (.object blankChoices) with
  | error e =>
    rw [hload] at hloaded
    cases hloaded
  | ok catalog =>
    rw [hload] at hloaded
    obtain ⟨hvariables, hevaluations⟩ := Prod.mk.inj (Option.some.inj hloaded)
    obtain ⟨hfirst, hhome⟩ := Prod.mk.inj hevaluations
    obtain ⟨v, hlist, hv⟩ := List.map_eq_singleton_iff.mp hvariables
    obtain ⟨hname, hrest⟩ := Prod.mk.inj hv
    obtain ⟨hchoice, hdomain⟩ := Prod.mk.inj hrest
    obtain ⟨first, hfirst⟩ := Except.exists_of_isOk hfirst
    obtain ⟨e, he⟩ := Except.exists_of_isOk hhome
    exact ⟨catalog, v, first, e, rfl, hlist ▸ List.mem_singleton_self v, hname, hchoice, hdomain,
      hfirst, he⟩

theorem home_can_be_chosen :
    ∃ catalog session, Catalog.load (.object blankChoices) = .ok catalog ∧
      Reachable catalog session ∧
      Leaves (session.set "kind" (.text "home")) "kind" (some (.text "home")) ∧
      Leaves (session.setAll [("kind", .text "home")]) "kind" (some (.text "home")) := by
  obtain ⟨catalog, v, first, e, hload, hv, hname, hchoice, hdomain, hfirst, he⟩ :=
    exists_blankChoices
  have hreach := reachable_of_evaluate hfirst
  have hmem : "home" ∈ v.domain := by rw [hdomain]; decide
  have htarget : (Change.set v.name (.text "home")).target catalog.registry [] =
      .ok [("kind", .text "home")] := by
    rw [target_set_eq_map, taken_choice (Registry.get?_of_mem hv) hchoice, if_neg (by decide),
      if_pos hmem, hname]
    rfl
  have hset : Faultless (set ⟨catalog, [], first, false⟩ v.name (.text "home")) := by
    have happly : set ⟨catalog, [], first, false⟩ v.name (.text "home") = .ok _ :=
      apply_of_evaluate htarget he
    rw [happly]
    exact faultless_ok _
  obtain ⟨hstores, -, -, -, hpair⟩ :=
    declared_choices_can_be_chosen hload hreach hv hchoice hmem
  have htrim : Text.trim "home" = "home" := by decide
  rw [htrim, setAll_singleton] at hpair
  refine ⟨catalog, _, hload, hreach, hname ▸ hstores (by decide) hset, ?_⟩
  rw [setAll_singleton]
  exact hname ▸ (hpair hset).mpr ⟨rfl, by decide⟩

/-- A blank choice is declared and clears its variable. The pair of the choice with a blank
character at its front is rejected, as there is no such choice without it. -/
theorem some_choices_cannot_be_chosen :
    ∃ catalog session v, Catalog.load (.object blankChoices) = .ok catalog ∧
      Reachable catalog session ∧ v ∈ catalog.registry.toList ∧ v.type = .choice ∧
      "" ∈ v.domain ∧ " shop" ∈ v.domain ∧
      (∃ next, session.set v.name (.text "") = .ok next ∧
        Entries.get? next.assignment v.name ≠ some (.text "")) ∧
      Command.readPairs [v.name ++ "=" ++ " shop"] = .ok [(v.name, "shop")] ∧
      session.setAll [(v.name, .text "shop")] =
        .error (.rejected ⟨v.name, .text "shop", .notInDomain v.domain⟩) := by
  obtain ⟨catalog, v, first, e, hload, hv, hname, hchoice, hdomain, hfirst, -⟩ :=
    exists_blankChoices
  have htaken := taken_choice (Registry.get?_of_mem hv) hchoice
  refine ⟨catalog, _, v, hload, reachable_of_evaluate hfirst, hv, hchoice, by rw [hdomain]; decide,
    by rw [hdomain]; decide, ?_, ?_, ?_⟩
  · have htarget : (Change.set v.name (.text "")).target catalog.registry [] = .ok [] := by
      rw [target_set_eq_map, htaken, if_pos (by decide)]
      rfl
    refine ⟨⟨catalog, [], first, true⟩, apply_of_evaluate htarget hfirst, ?_⟩
    exact Option.some_ne_none _ ∘ Eq.symm
  · rw [hname]
    decide
  · rw [setAll_singleton, set_eq_bind, htaken, if_neg (by decide), if_neg (by rw [hdomain]; decide)]
    rfl

end Session

end Shortlist
