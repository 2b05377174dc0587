import Mathlib.Tactic.Common
import Shortlist.Proofs.Document.Declaration
import Shortlist.Proofs.Rule.Words

/-!
# Which declared names can be used

A name may be declared if it is an identifier and not reserved. A rule can use it if it is a word.
The first does not imply the second: a name with an accent as a character of its own is declared
without complaint, and no rule whatever can refer to it.
-/

namespace Shortlist.Document

variable {items : List Value} {entries : Entries Value} {name : String}

theorem identifier_of_declared (h : variableProblems (.list items) = [])
    (hmem : Value.object entries ∈ items) (hname : name? entries = some name) :
    Text.isIdentifier name = true ∧ Rule.isReserved name = false := by
  have hfrom : variableProblemsFrom 0 [] items = [] := by
    cases items with
    | nil => rfl
    | cons item rest => exact h
  obtain ⟨vs, -, hdeclares⟩ := exists_variables hfrom
  obtain ⟨v, -, declared, hobject, hspells, hproper⟩ :=
    exists_of_forall₂_right hdeclares.spelled.flip hmem
  obtain rfl := Value.object.inj hobject
  have hsame : v.name = name := by
    have hget := name?_of_get? hname
    rw [hspells.name, Option.some.injEq] at hget
    exact Value.text.inj hget
  exact ⟨hsame ▸ hproper.identifier, hsame ▸ hproper.not_reserved⟩

/-- A name that was declared without problems is read as one name exactly if it is a word, and as a
rule it has the value of its variable then; any other name stands in no rule at all. In ASCII every
declared name is a word. -/
theorem declared_name_usable_iff (h : variableProblems (.list items) = [])
    (hmem : Value.object entries ∈ items) (hname : name? entries = some name) :
    (Rule.tokens name = .ok [⟨.name name, 0⟩, ⟨.finish, name.toList.length⟩] ↔
      Text.isWord name = true) ∧
    ((∃ text rule, Rule.read text = .ok rule ∧ name ∈ rule.names) ↔ Text.isWord name = true) ∧
    (Text.isWord name = true → Rule.parse name = .ok (.name name) ∧
      ∀ (A : Rule.Assignment) (D : List String), name ∈ D →
        Rule.judgeText name A D = .ok
          (match A.value? name with
            | none => .undecided
            | some v => .ofValue v)) ∧
    ((∀ c ∈ name.toList, c.toNat < 128) → Text.isWord name = true) := by
  obtain ⟨hidentifier, hreserved⟩ := identifier_of_declared h hmem hname
  refine ⟨⟨fun htokens => ?_, fun hword => ?_⟩, ⟨?_, fun hword => ?_⟩, fun hword => ⟨?_, ?_⟩, ?_⟩
  · exact Rule.isWord_of_mem_tokens htokens List.mem_cons_self rfl
  · exact Rule.tokens_word hword hreserved
  · rintro ⟨text, rule, hread, huse⟩
    exact Rule.isWord_of_mem_names hread huse
  · exact ⟨name, _, Rule.read_word hword hreserved, List.mem_singleton_self name⟩
  · exact Rule.parse_of_read (Rule.read_word hword hreserved)
  · exact fun A D => Rule.judgeText_word hword hreserved A
  · exact Text.isWord_of_ascii hidentifier

/-- A field with a plain name can be used. -/
theorem plain_name_usable :
    variableProblems (.list [.object [("name", .text "kind"), ("type", .text "boolean")]]) = [] ∧
      Text.isWord "kind" = true ∧
      Rule.judgeText "kind" [("kind", .boolean true)] ["kind"] = .ok (.decided true) := by
  have hproblems : variableProblems
      (.list [.object [("name", .text "kind"), ("type", .text "boolean")]]) = [] := by
    decide +kernel
  obtain ⟨-, -, hjudged, hascii⟩ := declared_name_usable_iff hproblems List.mem_cons_self rfl
  have hplain : ("kind".toList.all fun c => decide (c.toNat < 128)) = true := by decide +kernel
  have hword : Text.isWord "kind" = true :=
    hascii fun c hc => of_decide_eq_true (List.all_eq_true.mp hplain c hc)
  refine ⟨hproblems, hword, ?_⟩
  rw [(hjudged hword).2 _ _ (List.mem_singleton_self "kind")]
  rfl

/-- A declared name with a tilde as a character of its own: it is no name for a rule, reading it
stops at the tilde. -/
theorem accented_name_unusable :
    variableProblems
        (.list [.object [("name", .text "an\u0303o"), ("type", .text "boolean")]]) = [] ∧
      ¬ Rule.tokens "an\u0303o" = .ok [⟨.name "an\u0303o", 0⟩, ⟨.finish, 4⟩] ∧
      ∀ text rule, Rule.read text = .ok rule → "an\u0303o" ∉ rule.names := by
  have hword : Text.isWord "an\u0303o" = false := by decide +kernel
  refine ⟨by decide +kernel, by decide +kernel, fun text rule hread huse => ?_⟩
  rw [Rule.isWord_of_mem_names hread huse] at hword
  cases hword

end Shortlist.Document
