import Mathlib.Tactic.Common
import Shortlist.Json.Reader
import Shortlist.Proofs.Fallible

/-!
# What comes of reading JSON

Reading takes characters off the front, so that what is left is always a proper end of what there
was. A text is refused for its form in many places, but a fault comes from two only: an integer of
too many digits, and a bracket for which there is no room. Both leave their mark in the text, since
what is read at any point is an end of it and each bracket that takes up room is a character of it.
The bound on the steps of reading leaves none: there are always more than are taken.
-/

namespace Shortlist.Json

variable {α β : Type} {cs rest mid : List Char} {room : Nat} {f : Fault}

/-! ### What is left -/

/-- Something is read off the front of characters, and the rest is left. -/
structure Leaves (cs rest : List Char) : Prop where
  suffix : rest <:+ cs
  shorter : rest.length < cs.length

theorem Leaves.of_cons {c : Char} (h : rest <:+ cs) : Leaves (c :: cs) rest :=
  ⟨h.trans (List.suffix_cons c cs), Nat.lt_succ_of_le h.length_le⟩

theorem Leaves.trans_suffix (h : Leaves cs mid) (hrest : rest <:+ mid) : Leaves cs rest :=
  ⟨hrest.trans h.suffix, Nat.lt_of_le_of_lt hrest.length_le h.shorter⟩

theorem Leaves.of_suffix (hmid : mid <:+ cs) (h : Leaves mid rest) : Leaves cs rest :=
  ⟨h.suffix.trans hmid, Nat.lt_of_lt_of_le h.shorter hmid.length_le⟩

theorem leaves_drop {n : Nat} (hn : 0 < n) (hcs : n ≤ cs.length) : Leaves cs (cs.drop n) :=
  ⟨List.drop_suffix n cs, by rw [List.length_drop]; omega⟩

theorem skipBlank_suffix (cs : List Char) : skipBlank cs <:+ cs := List.dropWhile_suffix isBlank

theorem Leaves.behind {c : Char} {more : List Char} (h : Leaves cs rest)
    (hblank : skipBlank rest = c :: more) : Leaves cs more := by
  refine h.trans_suffix ((List.suffix_cons c more).trans ?_)
  rw [← hblank]
  exact skipBlank_suffix rest

theorem Leaves.suffix_behind {c : Char} {more : List Char} (h : Leaves cs rest)
    (hblank : skipBlank rest = c :: more) : skipBlank more <:+ cs :=
  (skipBlank_suffix more).trans (h.behind hblank).suffix

/-! ### What a fault leaves in the text -/

/-- There are more digits in a row than are read as an integer. -/
def HasLongNumeral (cs : List Char) : Prop :=
  ∃ digits, digits <:+: cs ∧ (∀ c ∈ digits, c.isDigit = true) ∧
    Numeral.maxDigits < digits.length

def openings (cs : List Char) : Nat := cs.countP fun c => c == '[' || c == '\x7b'

/-- Characters ask for more than is read where there is room for a number of brackets. -/
inductive Overtaxes (room : Nat) (cs : List Char) : Fault → Prop
  | digits : HasLongNumeral cs → Overtaxes room cs .tooManyDigits
  | brackets : room < openings cs → Overtaxes room cs .nestedTooDeeply

theorem Overtaxes.of_suffix (hmid : mid <:+ cs) (h : Overtaxes room mid f) :
    Overtaxes room cs f := by
  cases h with
  | digits h =>
    obtain ⟨digits, hdigits, hall, hlong⟩ := h
    exact .digits ⟨digits, hdigits.trans hmid.isInfix, hall, hlong⟩
  | brackets h => exact .brackets (Nat.lt_of_lt_of_le h (hmid.sublist.countP_le))

theorem Overtaxes.of_bracket {c : Char} (hc : c = '[' ∨ c = '\x7b')
    (h : Overtaxes room cs f) : Overtaxes (room + 1) (c :: cs) f := by
  cases h with
  | digits h => exact .of_suffix (List.suffix_cons c cs) (.digits h)
  | brackets h =>
    refine .brackets ?_
    have hopening : openings (c :: cs) = openings cs + 1 :=
      List.countP_cons_of_pos (by simpa using hc)
    omega

/-- What comes of reading something off the front of characters: a part of them is read, they are
refused, or they ask for too much. -/
inductive Reads (room : Nat) (cs : List Char) : Except Trouble (α × List Char) → Prop
  | done {a : α} {rest : List Char} : Leaves cs rest → Reads room cs (.ok (a, rest))
  | refused {cause : Cause} {left : Nat} : Reads room cs (.error (.invalid cause left))
  | overtaxed {f : Fault} : Overtaxes room cs f → Reads room cs (.error (.fault f))

variable {x : Except Trouble (α × List Char)}

theorem Reads.map {g : α × List Char → β × List Char} (h : Reads room cs x)
    (hg : ∀ a rest, (g (a, rest)).2 = rest) : Reads room cs (x.map g) := by
  cases h with
  | @done a rest h => exact .done ((hg a rest).symm ▸ h)
  | refused => exact .refused
  | overtaxed h => exact .overtaxed h

theorem Reads.of_suffix (hmid : mid <:+ cs) (h : Reads room mid x) : Reads room cs x := by
  cases h with
  | done h => exact .done (h.of_suffix hmid)
  | refused => exact .refused
  | overtaxed h => exact .overtaxed (h.of_suffix hmid)

/-- Reading goes on behind what has been read. -/
theorem Reads.bind {next : α × List Char → Except Trouble (β × List Char)} (h : Reads room cs x)
    (hnext : ∀ a rest, Leaves cs rest → Reads room cs (next (a, rest))) :
    Reads room cs (x >>= next) := by
  cases h with
  | done h => exact hnext _ _ h
  | refused => exact .refused
  | overtaxed h => exact .overtaxed h

theorem Reads.of_bracket {c : Char} (hc : c = '[' ∨ c = '\x7b') (hmid : mid <:+ cs)
    (h : Reads room mid x) : Reads (room + 1) (c :: cs) x := by
  cases h with
  | done h => exact .done (h.of_suffix (hmid.trans (List.suffix_cons c cs)))
  | refused => exact .refused
  | overtaxed h => exact .overtaxed ((h.of_suffix hmid).of_bracket hc)

/-! ### Strings and numbers -/

theorem reads_consCode {code : Nat} {found : Read (List Nat)} (h : Reads room cs found) :
    Reads room cs (consCode code found) :=
  h.map fun _ _ => rfl

theorem reads_codes {opening : List Char} {skip : Nat} :
    Reads room cs (codes opening skip cs) := by
  fun_induction codes opening skip cs with
  | case1 skip => exact .refused
  | case2 skip c rest ih => exact ih.of_suffix (List.suffix_cons c rest)
  | case3 rest => exact .done (.of_cons (List.suffix_refl rest))
  | case4 => exact .refused
  | case5 => exact .refused
  | case6 more code hcode hfull hquote ih =>
    exact reads_consCode (ih.of_suffix (List.suffix_cons _ _))
  | case7 => exact .refused
  | case8 letter more hletter meant hmeant hquote ih =>
    exact reads_consCode (ih.of_suffix (List.suffix_cons _ _))
  | case9 => exact .refused
  | case10 => exact .refused
  | case11 c rest hquote hescape hcontrol ih =>
    exact reads_consCode (ih.of_suffix (List.suffix_cons _ _))

theorem reads_string : Reads room cs (string cs) :=
  (reads_codes.of_suffix (List.tail_suffix cs)).map fun _ _ => rfl

theorem wholeDigits_prefix (cs : List Char) : wholeDigits cs <+: cs := by
  unfold wholeDigits
  split
  · exact ⟨_, rfl⟩
  · exact List.takeWhile_prefix _

theorem isDigit_of_mem_wholeDigits {c : Char} (h : c ∈ wholeDigits cs) : c.isDigit = true := by
  unfold wholeDigits at h
  split at h
  · obtain rfl := List.mem_singleton.mp h
    rfl
  · exact List.all_eq_true.mp List.all_takeWhile c h

theorem unsigned_suffix (negative : Prop) [Decidable negative] (cs : List Char) :
    (if negative then cs.tail else cs) <:+ cs := by
  split
  · exact List.tail_suffix cs
  · exact List.suffix_refl cs

theorem reads_number : Reads room cs (number cs) := by
  unfold number
  dsimp only
  have hunsigned := unsigned_suffix (cs.head? = some '-') cs
  generalize (if cs.head? = some '-' then cs.tail else cs) = unsigned at hunsigned ⊢
  generalize hwhole : wholeDigits unsigned = whole
  have hprefix : whole <+: unsigned := hwhole ▸ wholeDigits_prefix unsigned
  split
  · exact .refused
  · rename_i hne
    have hpos : 0 < whole.length := by
      rw [List.length_pos_iff]
      rintro rfl
      exact hne rfl
    -- what is left starts behind the whole digits in any case
    have hleaves : ∀ {rest}, rest <:+ unsigned.drop whole.length → Leaves cs rest := fun hrest =>
      ((leaves_drop hpos hprefix.length_le).trans_suffix hrest).of_suffix hunsigned
    generalize fractionDigits (unsigned.drop whole.length) = fraction
    have hfraction : (if fraction.isEmpty = true then unsigned.drop whole.length
        else (unsigned.drop whole.length).drop (fraction.length + 1)) <:+
          unsigned.drop whole.length := by
      split
      · exact List.suffix_refl _
      · exact List.drop_suffix _ _
    split
    · exact .done (hleaves ((List.drop_suffix _ _).trans hfraction))
    · split
      · exact .done (hleaves hfraction)
      · split
        · rename_i hlong
          refine .overtaxed (.digits ⟨whole, hprefix.isInfix.trans hunsigned.isInfix, ?_, hlong⟩)
          exact fun c hc => isDigit_of_mem_wholeDigits (hwhole ▸ hc)
        · exact .done (hleaves hfraction)

theorem length_words : ∀ word ∈ words, 0 < word.1.length := by decide

theorem reads_scalar : Reads room cs (scalar cs) := by
  unfold scalar
  split
  · rename_i word v hword
    have hfound : word.toList.isPrefixOf cs = true := by simpa using List.find?_some hword
    have hprefix : word.toList <+: cs := List.isPrefixOf_iff_prefix.mp hfound
    exact .done (leaves_drop (length_words _ (List.mem_of_find?_eq_some hword))
      (String.length_toList ▸ hprefix.length_le))
  · exact reads_number.map fun _ _ => rfl

/-! ### Values -/

section Values

variable {fuel : Nat}

theorem reads_value_succ (hitems : ∀ room cs, Reads room cs (items room fuel cs))
    (hmembers : ∀ room cs, Reads room cs (members room fuel cs)) :
    Reads room cs (value room (fuel + 1) cs) := by
  unfold value
  split
  · exact reads_string.map fun _ _ => rfl
  · rename_i rest
    cases room with
    | zero => exact .overtaxed (.brackets (by simp [openings]))
    | succ room =>
      refine Reads.of_bracket (.inl rfl) (skipBlank_suffix rest) ?_
      dsimp only
      split
      · rename_i hclosing
        rw [hclosing]
        exact .done (.of_cons (List.suffix_refl _))
      · exact (hitems room _).map fun _ _ => rfl
  · rename_i rest
    cases room with
    | zero => exact .overtaxed (.brackets (by simp [openings]))
    | succ room =>
      refine Reads.of_bracket (.inr rfl) (skipBlank_suffix rest) ?_
      dsimp only
      split
      · rename_i hclosing
        rw [hclosing]
        exact .done (.of_cons (List.suffix_refl _))
      · exact (hmembers room _).map fun _ _ => rfl
  · exact reads_scalar

theorem reads_items_succ (hvalue : ∀ room cs, Reads room cs (value room fuel cs))
    (hitems : ∀ room cs, Reads room cs (items room fuel cs)) :
    Reads room cs (items room (fuel + 1) cs) := by
  rw [items]
  refine (hvalue room cs).bind fun item rest hitem => ?_
  dsimp only
  split
  · rename_i hblank
    exact .done (hitem.behind hblank)
  · rename_i hblank
    exact ((hitems room _).of_suffix (hitem.suffix_behind hblank)).bind fun _ _ hrest =>
      .done hrest
  · exact .refused

theorem reads_members_succ (hvalue : ∀ room cs, Reads room cs (value room fuel cs))
    (hmembers : ∀ room cs, Reads room cs (members room fuel cs)) :
    Reads room cs (members room (fuel + 1) cs) := by
  unfold members
  split
  · refine reads_string.bind fun name rest hname => ?_
    dsimp only
    split
    · rename_i hcolon
      refine ((hvalue room _).of_suffix (hname.suffix_behind hcolon)).bind
        fun found rest hfound => ?_
      dsimp only
      split
      · rename_i hblank
        exact .done (hfound.behind hblank)
      · rename_i hblank
        exact ((hmembers room _).of_suffix (hfound.suffix_behind hblank)).bind fun _ _ hrest =>
          .done hrest
      · exact .refused
    · exact .refused
  · exact .refused

/-- Each step of the fuel reads one more value, list of items or list of entries, so that the three
go together. -/
theorem reads_values (fuel : Nat) : (∀ room cs, Reads room cs (value room fuel cs)) ∧
    (∀ room cs, Reads room cs (items room fuel cs)) ∧
    ∀ room cs, Reads room cs (members room fuel cs) := by
  induction fuel with
  | zero =>
    refine ⟨fun room cs => ?_, fun room cs => ?_, fun room cs => ?_⟩
    · rw [value]
      exact .refused
    · rw [items]
      exact .refused
    · rw [members]
      exact .refused
  | succ fuel ih =>
    obtain ⟨hvalue, hitems, hmembers⟩ := ih
    exact ⟨fun _ _ => reads_value_succ hitems hmembers,
      fun _ _ => reads_items_succ hvalue hitems, fun _ _ => reads_members_succ hvalue hmembers⟩

end Values

/-! ### The bound on steps -/

/-- Two readings agree if they agree on the front and go on alike behind it. -/
theorem bind_congr_of_reads {next other : α × List Char → Except Trouble (β × List Char)}
    {y : Except Trouble (α × List Char)} (h : Reads room cs y) (hxy : x = y)
    (hnext : ∀ a rest, Leaves cs rest → next (a, rest) = other (a, rest)) :
    x >>= next = y >>= other := by
  subst hxy
  cases h with
  | done h => exact hnext _ _ h
  | refused => rfl
  | overtaxed h => rfl

/-- Steps that are enough for characters are enough, but for one, for what is behind the first. -/
theorem steps_behind {c : Char} {fuel : Nat} (h : 2 * (c :: cs).length < fuel + 1) :
    2 * (skipBlank cs).length + 1 < fuel := by
  have hblank := (skipBlank_suffix cs).length_le
  rw [List.length_cons] at h
  omega

theorem Leaves.steps {c : Char} {more : List Char} {fuel : Nat} (h : Leaves cs rest)
    (hblank : skipBlank rest = c :: more) (hsteps : 2 * cs.length < fuel) :
    2 * (skipBlank more).length + 1 < fuel := by
  have hmore := (skipBlank_suffix more).length_le
  have hshorter := (h.behind hblank).shorter
  omega

/-- One more step changes nothing for a reader if there are enough for the characters. -/
def HasSteps (reader : Nat → Nat → List Char → Except Trouble (α × List Char))
    (needed fuel : Nat) : Prop :=
  ∀ room cs, 2 * cs.length + needed < fuel → reader room (fuel + 1) cs = reader room fuel cs

section Steps

variable {fuel : Nat}

theorem hasSteps_value_succ (hitems : HasSteps items 1 fuel) (hmembers : HasSteps members 1 fuel) :
    HasSteps value 0 (fuel + 1) := by
  intro room cs h
  unfold value
  split
  · rfl
  · cases room with
    | zero => rfl
    | succ room =>
      dsimp only
      split
      · rfl
      · rw [hitems room _ (steps_behind (c := '[') h)]
  · cases room with
    | zero => rfl
    | succ room =>
      dsimp only
      split
      · rfl
      · rw [hmembers room _ (steps_behind (c := '\x7b') h)]
  · rfl

theorem hasSteps_items_succ (hvalue : HasSteps value 0 fuel) (hitems : HasSteps items 1 fuel) :
    HasSteps items 1 (fuel + 1) := by
  intro room cs h
  have hsteps : 2 * cs.length < fuel := Nat.lt_of_succ_lt_succ h
  rw [items, items]
  refine bind_congr_of_reads ((reads_values fuel).1 room cs) (hvalue room cs hsteps)
    fun item rest hitem => ?_
  dsimp only
  split
  · rfl
  · rename_i hblank
    rw [hitems room _ (hitem.steps hblank hsteps)]
  · rfl

theorem hasSteps_members_succ (hvalue : HasSteps value 0 fuel)
    (hmembers : HasSteps members 1 fuel) : HasSteps members 1 (fuel + 1) := by
  intro room cs h
  have hsteps : 2 * cs.length < fuel := Nat.lt_of_succ_lt_succ h
  unfold members
  split
  · rename_i more
    have hstring : Reads room ('"' :: more) (string ('"' :: more)) := reads_string
    refine bind_congr_of_reads hstring rfl fun name rest hname => ?_
    dsimp only
    split
    · rename_i more hcolon
      have hfew : 2 * (skipBlank more).length < fuel :=
        Nat.lt_of_succ_lt (hname.steps hcolon hsteps)
      refine bind_congr_of_reads ((reads_values fuel).1 room _) (hvalue room _ hfew)
        fun found rest hfound => ?_
      dsimp only
      split
      · rfl
      · rename_i hblank
        rw [hmembers room _ (hfound.steps hblank hfew)]
      · rfl
    · rfl
  · rfl

/-- Reading ends because of what it meets, and never because the steps are used up. -/
theorem hasSteps_values (fuel : Nat) :
    HasSteps value 0 fuel ∧ HasSteps items 1 fuel ∧ HasSteps members 1 fuel := by
  induction fuel with
  | zero =>
    exact ⟨fun _ _ h => absurd h (Nat.not_lt_zero _), fun _ _ h => absurd h (Nat.not_lt_zero _),
      fun _ _ h => absurd h (Nat.not_lt_zero _)⟩
  | succ fuel ih =>
    obtain ⟨hvalue, hitems, hmembers⟩ := ih
    exact ⟨hasSteps_value_succ hitems hmembers, hasSteps_items_succ hvalue hitems,
      hasSteps_members_succ hvalue hmembers⟩

end Steps

/-- However many steps there are beyond twice the characters, the same is read. -/
theorem value_of_steps {fuel : Nat} (h : 2 * cs.length < fuel) :
    value room fuel cs = value room (2 * cs.length + 1) cs := by
  induction h with
  | refl => rfl
  | step hsteps ih => rw [Nat.succ_eq_add_one, (hasSteps_values _).1 room cs hsteps, ih]

/-! ### Texts -/

theorem overtaxes_of_document (h : document cs = .error (.fault f)) :
    Overtaxes maxNesting cs f := by
  unfold document at h
  split at h
  · cases h
  · obtain hvalue | ⟨⟨found, rest⟩, -, h⟩ := Except.bind_eq_error.mp h
    · have hreads := (reads_values (2 * cs.length + 2)).1 maxNesting (skipBlank cs)
      rw [hvalue] at hreads
      cases hreads with
      | overtaxed hmore => exact hmore.of_suffix (skipBlank_suffix cs)
    · dsimp only at h
      split at h <;> cases h

/-- A text that brings the reading down has a long row of digits or many brackets. -/
theorem overtaxes_of_read {text : String} (h : read text = .error (.fault f)) :
    Overtaxes maxNesting text.toList f := by
  obtain ⟨trouble, hdocument, htrouble⟩ := Except.mapError_eq_error.mp h
  cases trouble with
  | invalid cause left => cases htrouble
  | fault found =>
    obtain rfl := ReadError.fault.inj htrouble
    exact overtaxes_of_document hdocument

end Shortlist.Json
