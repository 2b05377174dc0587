import Shortlist.Command.Run
import Shortlist.Proofs.Catalog.Stored

/-!
# How the check of a file ends

The check of a configuration ends with one of two exit codes, unless a fault stops it. Where the
fault comes from is what a maintainer has to know: either the value that the file spells brings the
loading or its report down, however it is written, or the bytes bring the reading down before there
is a value at all. The second kind is not reported, although it is a matter of the file alone.
-/

namespace Shortlist.Command

open Catalog (Defeats Mentions Reading Stores readStored)

variable {files : Files} {path : String} {stored : Option ByteArray} {f : Fault}
  {response : Response}

/-- A value brings its loading down, or the report on its problems. -/
def Stumps (v : Value) (f : Fault) : Prop :=
  Catalog.load v = .error (.fault f) ∨
    ∃ problems, Catalog.load v = .error (.refused problems) ∧ Problem.texts problems = .error f

theorem code_of_check {config : Option String} (h : check files config = .ok response) :
    response.code = successCode ∨ response.code = configurationCode := by
  unfold check at h
  split at h
  · cases h
    exact .inl rfl
  · obtain ⟨lines, -, h⟩ := Except.bind_eq_ok.mp h
    cases h
    exact .inr rfl
  · cases h

/-- The check is stopped by what stops the loading, or by a problem that cannot be put into
words. -/
theorem check_eq_error_iff {config : Option String} :
    check files config = .error f ↔ openCatalog files config = .error (.fault f) ∨
      ∃ problems, openCatalog files config = .error (.refused problems) ∧
        Problem.texts problems = .error f := by
  unfold check
  split
  · rename_i hopen
    simp [hopen]
  · rename_i problems hopen
    rw [hopen, Except.bind_pure_eq_error, problemLines, Except.bind_pure_eq_error]
    constructor
    · exact fun h => .inr ⟨problems, rfl, h⟩
    · rintro (h | ⟨_, hsame, h⟩)
      · cases h
      · cases hsame
        exact h
  · rename_i found hopen
    simp [hopen]

theorem openCatalog_of_stores {v : Value} (h : Stores files path v) :
    openCatalog files (some path) = Catalog.load v := by
  rw [openCatalog, Catalog.loadFile, Catalog.readStored_eq_ok_iff.mpr h]
  rfl

theorem openCatalog_of_error {e : ConfigurationError}
    (h : readStored files (.ofText path) = .error e) :
    openCatalog files (some path) = .error e := by
  rw [openCatalog, Catalog.loadFile, h]
  rfl

theorem check_of_refused {problem : Problem} {text : String}
    (hread : readStored files (.ofText path) = .error (.refused [problem]))
    (htext : problem.text = .ok text) :
    check files (some path) =
      .ok ⟨configurationCode, ["Configuration is INVALID:", bullet text]⟩ := by
  have htexts : Problem.texts [problem] = .ok [text] := mapM_eq_ok_iff.mpr (.cons htext .nil)
  rw [check, openCatalog_of_error hread]
  dsimp only
  rw [problemLines, htexts]
  rfl

theorem check_of_fault (hread : readStored files (.ofText path) = .error (.fault f)) :
    check files (some path) = .error f :=
  check_eq_error_iff.mpr (.inl (openCatalog_of_error hread))

theorem check_of_value {v : Value} (hread : readStored files (.ofText path) = .ok v) :
    (∃ response, check files (some path) = .ok response ∧
      (response.code = successCode ∨ response.code = configurationCode)) ∨
      ∃ f, check files (some path) = .error f ∧ Stumps v f := by
  cases hcheck : check files (some path) with
  | ok response => exact .inl ⟨response, rfl, code_of_check hcheck⟩
  | error f =>
    have hopen := openCatalog_of_stores (Catalog.readStored_eq_ok_iff.mp hread)
    rw [check_eq_error_iff, hopen] at hcheck
    exact .inr ⟨f, rfl, hcheck⟩

/-- Reading a file that is there or missing gives a value or a refusal with its path, unless the
bytes bring it down: they are no text, or hold an integer of too many digits or too many brackets.
The check reports a refusal, it ends with one of two exit codes where a value is read unless the
value stops it, and it does not end where the reading is brought down. Bytes that are no text always
bring it down. -/
theorem check_ends_unless_file_defeats (hstored : files (.ofText path) = .ok stored) :
    Reading (.ofText path) stored (readStored files (.ofText path)) ∧
      (∀ problem, readStored files (.ofText path) = .error (.refused [problem]) →
        ∃ text, problem.text = .ok text ∧ check files (some path) =
          .ok ⟨configurationCode, ["Configuration is INVALID:", bullet text]⟩) ∧
      (∀ v, readStored files (.ofText path) = .ok v →
        (∃ response, check files (some path) = .ok response ∧
          (response.code = successCode ∨ response.code = configurationCode)) ∨
          ∃ f, check files (some path) = .error f ∧ Stumps v f) ∧
      (∀ f, readStored files (.ofText path) = .error (.fault f) →
        check files (some path) = .error f) ∧
      ∀ bytes, stored = some bytes → String.fromUTF8? bytes = none →
        readStored files (.ofText path) = .error (.fault .notUtf8) := by
  have hreading := Catalog.reading_readStored hstored
  refine ⟨hreading, fun problem hread => ?_, fun _ => check_of_value, fun _ => check_of_fault, ?_⟩
  · rw [hread] at hreading
    cases hreading with
    | refused hmentions =>
      obtain ⟨before, behind, htext⟩ := hmentions
      exact ⟨_, htext, check_of_refused hread htext⟩
  · rintro bytes rfl hnone
    exact Catalog.readStored_of_encoding hstored hnone

def inOneFile (bytes : ByteArray) : Folder := [(["catalog.json"], bytes)]

theorem files_inOneFile (bytes : ByteArray) :
    (inOneFile bytes).files (.ofText "catalog.json") = .ok (some bytes) := by
  with_unfolding_all rfl

/-- A text that ends too early. -/
def unfinished : String := "\x7b"

theorem read_unfinished : Json.read unfinished = .error (.invalid ⟨.expectedName, 1⟩) := rfl

theorem readStored_unfinished :
    ∃ problem, readStored (inOneFile unfinished.toUTF8).files (.ofText "catalog.json") =
      .error (.refused [problem]) := by
  rw [Catalog.readStored_of_bytes (files_inOneFile _),
    Catalog.textOfBytes_toUTF8 (by decide +kernel), Except.mapError, Except.ok_bind,
    Catalog.valueOfText, read_unfinished]
  exact ⟨_, rfl⟩

theorem check_of_unfinished_text : ∃ (problem : Problem) (text : String), problem.text = .ok text ∧
    check (inOneFile unfinished.toUTF8).files (some "catalog.json") =
      .ok ⟨configurationCode, ["Configuration is INVALID:", bullet text]⟩ := by
  obtain ⟨problem, hread⟩ := readStored_unfinished
  obtain ⟨text, htext, hcheck⟩ :=
    (check_ends_unless_file_defeats (files_inOneFile unfinished.toUTF8)).2.1 problem hread
  exact ⟨problem, text, htext, hcheck⟩

/-- Bytes of which the first begins no character. -/
def strayBytes : ByteArray := ⟨#[0xff, 0x7b, 0x7d]⟩

/-- The file is there, but neither a value nor a refusal comes of reading it, and the check does not
end with an exit code. -/
theorem stray_byte_stops_check :
    (inOneFile strayBytes).files (.ofText "catalog.json") = .ok (some strayBytes) ∧
      readStored (inOneFile strayBytes).files (.ofText "catalog.json") =
        .error (.fault .notUtf8) ∧
      check (inOneFile strayBytes).files (some "catalog.json") = .error .notUtf8 := by
  have hfile := files_inOneFile strayBytes
  have hread := Catalog.readStored_of_encoding hfile (by decide +kernel)
  exact ⟨hfile, hread, check_of_fault hread⟩

end Shortlist.Command
