import Mathlib.Tactic.Common
import Shortlist.Catalog.Stored
import Shortlist.Proofs.Json.Reading

/-!
# What the files of a catalog hold

A file holds bytes, the bytes hold a text, and the text spells a value. Each of the three steps can
fail on its own, so that a file is read exactly if all of them succeed, and a text that was written
as it is comes back as it is if it ends its lines with line feeds only. A file that is missing or
holds no JSON is refused with its path in the report; bytes that are no text at all, and texts that
ask for too much, are faults.
-/

namespace Shortlist.Catalog

variable {files : Files} {path : String} {text : String} {v : Value}

/-- The file at a path holds a text that spells a value. -/
def Stores (files : Files) (path : String) (v : Value) : Prop :=
  ∃ bytes text, files (.ofText path) = .ok (some bytes) ∧ textOfBytes bytes = .ok text ∧
    Json.read text = .ok v

theorem valueOfText_eq_ok_iff {place : Path} :
    valueOfText place text = .ok v ↔ Json.read text = .ok v :=
  Except.mapError_eq_ok

theorem readStored_eq_ok_iff : readStored files (.ofText path) = .ok v ↔ Stores files path v := by
  unfold readStored
  rw [Except.bind_eq_ok]
  constructor
  · rintro ⟨stored, hstored, h⟩
    cases stored with
    | none => cases h
    | some bytes =>
      obtain ⟨text, htext, hvalue⟩ := Except.bind_eq_ok.mp h
      exact ⟨bytes, text, Except.mapError_eq_ok.mp hstored, Except.mapError_eq_ok.mp htext,
        valueOfText_eq_ok_iff.mp hvalue⟩
  · rintro ⟨bytes, text, hstored, htext, hvalue⟩
    refine ⟨some bytes, Except.mapError_eq_ok.mpr hstored, Except.bind_eq_ok.mpr ?_⟩
    exact ⟨text, Except.mapError_eq_ok.mpr htext, valueOfText_eq_ok_iff.mpr hvalue⟩

theorem normalizeNewlines_eq_self {cs : List Char} (h : '\r' ∉ cs) : normalizeNewlines cs = cs := by
  fun_induction normalizeNewlines cs with
  | case1 rest ih => exact absurd List.mem_cons_self h
  | case2 c rest hne ih =>
    rw [List.mem_cons, not_or] at h
    rw [if_neg (Ne.symm h.1), ih h.2]
  | case3 => rfl

theorem fromUTF8?_toUTF8 (text : String) : String.fromUTF8? text.toUTF8 = some text := by
  rw [String.fromUTF8?, String.toUTF8_eq_toByteArray, dif_pos text.isValidUTF8]
  rfl

theorem textOfBytes_toUTF8 (h : '\r' ∉ text.toList) : textOfBytes text.toUTF8 = .ok text := by
  unfold textOfBytes
  rw [fromUTF8?_toUTF8]
  dsimp only
  rw [normalizeNewlines_eq_self h, String.ofList_toList]

theorem stores_of_text (hstored : files (.ofText path) = .ok (some text.toUTF8))
    (hlines : '\r' ∉ text.toList) (hvalue : Json.read text = .ok v) : Stores files path v :=
  ⟨_, text, hstored, textOfBytes_toUTF8 hlines, hvalue⟩

/-! ### How reading can end -/

/-- Bytes that cannot be read: they are no text, or the text asks for too much. -/
inductive Defeats (bytes : ByteArray) : Fault → Prop
  | encoding : String.fromUTF8? bytes = none → Defeats bytes .notUtf8
  | size {text : String} {f : Fault} : textOfBytes bytes = .ok text →
      Json.Overtaxes Json.maxNesting text.toList f → Defeats bytes f

def Mentions (problem : Problem) (place : Path) : Prop :=
  ∃ before behind, problem.text = .ok (before ++ place.text ++ behind)

/-- What comes of reading what a path leads to: the value that is spelled there, a refusal with the
path, or a fault that the bytes are to blame for. -/
inductive Reading (place : Path) (stored : Option ByteArray) :
    Except ConfigurationError Value → Prop
  | value {bytes : ByteArray} {text : String} {v : Value} : stored = some bytes →
      textOfBytes bytes = .ok text → Json.read text = .ok v → Reading place stored (.ok v)
  | refused {problem : Problem} : Mentions problem place →
      Reading place stored (.error (.refused [problem]))
  | defeated {bytes : ByteArray} {f : Fault} : stored = some bytes → Defeats bytes f →
      Reading place stored (.error (.fault f))

variable {place : Path} {stored : Option ByteArray} {bytes : ByteArray}

theorem textOfBytes_of_none (h : String.fromUTF8? bytes = none) :
    textOfBytes bytes = .error .notUtf8 := by
  rw [textOfBytes, h]

theorem defeats_of_textOfBytes {f : Fault} (h : textOfBytes bytes = .error f) :
    Defeats bytes f := by
  unfold textOfBytes at h
  split at h
  · cases h
  · rename_i hnone
    cases h
    exact .encoding hnone

theorem mentions_fileNotFound : Mentions (.ofDocument (.fileNotFound place.text)) place :=
  ⟨"configuration file not found: ", "", by rw [String.append_empty]; rfl⟩

theorem mentions_invalidJson {message : String} :
    Mentions (.ofDocument (.invalidJson place.text message)) place :=
  ⟨"", ": invalid JSON (" ++ message ++ ")", by
    rw [String.empty_append, ← String.append_assoc, ← String.append_assoc]; rfl⟩

/-- Reading a text gives its value, refuses it at its path, or is a fault. -/
theorem reading_valueOfText (htext : textOfBytes bytes = .ok text) :
    Reading place (some bytes) (valueOfText place text) := by
  rw [valueOfText]
  cases hread : Json.read text with
  | ok v => exact .value rfl htext hread
  | error trouble =>
    cases trouble with
    | invalid e => exact .refused mentions_invalidJson
    | fault f => exact .defeated rfl (.size htext (Json.overtaxes_of_read hread))

theorem readStored_of_bytes (h : files place = .ok (some bytes)) :
    readStored files place = (textOfBytes bytes).mapError .fault >>= valueOfText place := by
  rw [readStored, h]
  rfl

theorem reading_readStored (h : files place = .ok stored) :
    Reading place stored (readStored files place) := by
  cases stored with
  | none =>
    rw [readStored, h]
    exact .refused mentions_fileNotFound
  | some bytes =>
    rw [readStored_of_bytes h]
    cases htext : textOfBytes bytes with
    | ok text => exact reading_valueOfText htext
    | error f => exact .defeated rfl (defeats_of_textOfBytes htext)

theorem readStored_of_encoding (h : files place = .ok (some bytes))
    (hnone : String.fromUTF8? bytes = none) :
    readStored files place = .error (.fault .notUtf8) := by
  rw [readStored_of_bytes h, textOfBytes_of_none hnone]
  rfl

theorem loadFiles_of_stores {first second third : String} {declared outputs rules : Value}
    (hfirst : Stores files first declared) (hsecond : Stores files second outputs)
    (hthird : Stores files third rules) :
    loadFiles files first second third = load (joinSections declared outputs rules) := by
  rw [loadFiles, readStored_eq_ok_iff.mpr hfirst, readStored_eq_ok_iff.mpr hsecond,
    readStored_eq_ok_iff.mpr hthird]
  rfl

end Shortlist.Catalog
