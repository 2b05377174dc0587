import Mathlib.Data.List.Forall2
import Mathlib.Data.List.Perm.Basic
import Mathlib.Tactic.Common
import Shortlist.Decision.Feasibility

/-!
# Lists of steps that may be faults

Most requests walk a list and stop at the first fault. What such a walk yields when it does not stop
is an ordinary fact about the list: a walk that maps pairs every element with its image, a walk that
searches finds an element or has looked at all of them, and a walk that selects is a filter. The
proofs about rules, outputs and sessions read the walks through these facts only.
-/

namespace Except

variable {ε ε' α β : Type}

theorem bind_eq_ok {x : Except ε α} {f : α → Except ε β} {b : β} :
    (x >>= f) = .ok b ↔ ∃ a, x = .ok a ∧ f a = .ok b := by
  cases x with
  | error e => simp [bind, Except.bind]
  | ok a => simp [bind, Except.bind]

theorem bind_eq_error {x : Except ε α} {f : α → Except ε β} {e : ε} :
    (x >>= f) = .error e ↔ x = .error e ∨ ∃ a, x = .ok a ∧ f a = .error e := by
  cases x with
  | error e' => simp [bind, Except.bind]
  | ok a => simp [bind, Except.bind]

theorem bind_pure_eq_error {x : Except ε α} {f : α → β} {e : ε} :
    (x >>= fun a => pure (f a)) = .error e ↔ x = .error e := by
  cases x with
  | error e' => simp [bind, Except.bind]
  | ok a => simp [bind, Except.bind, pure, Except.pure]

theorem map_eq_ok {x : Except ε α} {f : α → β} {b : β} :
    x.map f = .ok b ↔ ∃ a, x = .ok a ∧ f a = b := by
  cases x with
  | error e => simp [Except.map]
  | ok a => simp [Except.map]

theorem mapError_eq_ok {x : Except ε α} {f : ε → ε'} {a : α} :
    x.mapError f = .ok a ↔ x = .ok a := by
  cases x with
  | error e => simp [Except.mapError]
  | ok b => simp [Except.mapError]

theorem mapError_bind {x : Except ε α} {f : α → Except ε β} {g : ε → ε'} :
    (x >>= f).mapError g = x.mapError g >>= fun a => (f a).mapError g := by
  cases x <;> rfl

theorem map_eq_error {x : Except ε α} {f : α → β} {e : ε} : x.map f = .error e ↔ x = .error e := by
  cases x with
  | error e' => simp [Except.map]
  | ok a => simp [Except.map]

theorem mapError_eq_error {x : Except ε α} {f : ε → ε'} {e : ε'} :
    x.mapError f = .error e ↔ ∃ e', x = .error e' ∧ f e' = e := by
  cases x with
  | error e' => simp [Except.mapError]
  | ok a => simp [Except.mapError]

theorem exists_of_isOk {x : Except ε α} (h : x.isOk = true) : ∃ a, x = .ok a := by
  cases x with
  | error e => cases h
  | ok a => exact ⟨a, rfl⟩

theorem eq_ok_nil_of_length {x : Except ε (List α)} (h : x.map List.length = .ok 0) :
    x = .ok [] := by
  obtain ⟨found, rfl, hlength⟩ := map_eq_ok.mp h
  rw [List.eq_nil_of_length_eq_zero hlength]

theorem ok_bind (a : α) (f : α → Except ε β) : (Except.ok a >>= f) = f a := rfl

@[simp] theorem pure_eq_ok {a b : α} : (pure a : Except ε α) = .ok b ↔ a = b := by
  simp [pure, Except.pure]

end Except

namespace Shortlist

variable {ε α β : Type}

theorem mapM_eq_ok_iff {f : α → Except ε β} {xs : List α} {ys : List β} :
    xs.mapM f = .ok ys ↔ List.Forall₂ (fun x y => f x = .ok y) xs ys := by
  induction xs generalizing ys with
  | nil => cases ys <;> simp
  | cons x xs ih =>
    rw [List.mapM_cons]
    constructor
    · intro h
      obtain ⟨y, hy, h⟩ := Except.bind_eq_ok.mp h
      obtain ⟨rest, hrest, h⟩ := Except.bind_eq_ok.mp h
      obtain rfl := Except.pure_eq_ok.mp h
      exact .cons hy (ih.mp hrest)
    · intro h
      cases h with
      | cons hy hrest =>
        exact Except.bind_eq_ok.mpr
          ⟨_, hy, Except.bind_eq_ok.mpr ⟨_, ih.mpr hrest, Except.pure_eq_ok.mpr rfl⟩⟩

theorem exists_of_forall₂_right {R : α → β → Prop} {xs : List α} {ys : List β}
    (h : List.Forall₂ R xs ys) {y : β} (hy : y ∈ ys) : ∃ x ∈ xs, R x y := by
  induction h with
  | nil => cases hy
  | @cons x z xs zs hxz hrest ih =>
    rcases List.mem_cons.mp hy with rfl | hy
    · exact ⟨x, List.mem_cons_self, hxz⟩
    · obtain ⟨w, hw, hR⟩ := ih hy
      exact ⟨w, List.mem_cons_of_mem x hw, hR⟩

theorem forall_mem_iff_of_forall₂ {R : α → β → Prop} {P : α → Prop} {Q : β → Prop} {xs : List α}
    {ys : List β} (h : List.Forall₂ R xs ys) (hiff : ∀ x y, R x y → (P x ↔ Q y)) :
    (∀ x ∈ xs, P x) ↔ ∀ y ∈ ys, Q y := by
  induction h with
  | nil => simp
  | cons hxy hrest ih => rw [List.forall_mem_cons, List.forall_mem_cons, ih, hiff _ _ hxy]

/-- A walk over everything that the steps of another walk yield can be made step by step. -/
theorem exists_parts_of_mapM {γ : Type} {f : α → Except ε (List β)} {g : β → Except ε γ}
    {xs : List α} {found : List (List β)} {ys : List γ} (hfound : xs.mapM f = .ok found)
    (hys : found.flatten.mapM g = .ok ys) :
    ∃ parts, List.Forall₂ (fun x own => (f x >>= fun few => few.mapM g) = .ok own) xs parts ∧
      ys = parts.flatten := by
  induction mapM_eq_ok_iff.mp hfound generalizing ys with
  | nil => exact ⟨[], .nil, (Except.pure_eq_ok.mp hys).symm⟩
  | cons hx hrest ih =>
    rw [List.flatten_cons, List.mapM_append] at hys
    obtain ⟨own, hown, hys⟩ := Except.bind_eq_ok.mp hys
    obtain ⟨others, hothers, hys⟩ := Except.bind_eq_ok.mp hys
    obtain rfl := Except.pure_eq_ok.mp hys
    obtain ⟨parts, hparts, rfl⟩ := ih (mapM_eq_ok_iff.mpr hrest) hothers
    exact ⟨own :: parts, .cons (Except.bind_eq_ok.mpr ⟨_, hx, hown⟩) hparts, rfl⟩

theorem map_eq_of_mapM {γ : Type} {f : α → Except ε β} {g : β → γ} {k : α → γ}
    (hstep : ∀ x y, f x = .ok y → g y = k x) {xs : List α} {ys : List β}
    (h : xs.mapM f = .ok ys) : ys.map g = xs.map k := by
  induction mapM_eq_ok_iff.mp h with
  | nil => rfl
  | cons hxy hrest ih =>
    rw [List.map_cons, List.map_cons, hstep _ _ hxy, ih (mapM_eq_ok_iff.mpr hrest)]

theorem exists_mapM {f : α → Except ε β} {xs : List α} (h : ∀ x ∈ xs, ∃ y, f x = .ok y) :
    ∃ ys, xs.mapM f = .ok ys := by
  induction xs with
  | nil => exact ⟨[], rfl⟩
  | cons x xs ih =>
    obtain ⟨y, hy⟩ := h x List.mem_cons_self
    obtain ⟨ys, hys⟩ := ih fun z hz => h z (List.mem_cons_of_mem x hz)
    exact ⟨y :: ys, mapM_eq_ok_iff.mpr (.cons hy (mapM_eq_ok_iff.mp hys))⟩

/-- A walk that fails does so on the first element whose step fails. -/
theorem mapM_eq_error_iff {f : α → Except ε β} {xs : List α} {e : ε} :
    xs.mapM f = .error e ↔ ∃ before x behind, xs = before ++ x :: behind ∧ f x = .error e ∧
      ∀ y ∈ before, ∃ z, f y = .ok z := by
  induction xs with
  | nil => simp [pure, Except.pure]
  | cons x xs ih =>
    rw [List.mapM_cons, Except.bind_eq_error]
    constructor
    · rintro (hx | ⟨y, hy, hrest⟩)
      · exact ⟨[], x, xs, rfl, hx, by simp⟩
      · rw [Except.bind_pure_eq_error, ih] at hrest
        obtain ⟨before, z, behind, rfl, hz, hbefore⟩ := hrest
        exact ⟨x :: before, z, behind, rfl, hz, List.forall_mem_cons.mpr ⟨⟨y, hy⟩, hbefore⟩⟩
    · rintro ⟨before, z, behind, hcut, hz, hbefore⟩
      cases before with
      | nil =>
        obtain ⟨rfl, rfl⟩ := List.cons.inj hcut
        exact .inl hz
      | cons y before =>
        obtain ⟨rfl, rfl⟩ := List.cons.inj hcut
        obtain ⟨⟨w, hw⟩, hbefore⟩ := List.forall_mem_cons.mp hbefore
        refine .inr ⟨w, hw, ?_⟩
        rw [Except.bind_pure_eq_error, ih]
        exact ⟨before, z, behind, rfl, hz, hbefore⟩

/-- Failures can be put in other words at each step or at the end. -/
theorem mapError_mapM {ε' : Type} {f : α → Except ε β} {g : ε → ε'} {xs : List α} :
    (xs.mapM f).mapError g = xs.mapM fun x => (f x).mapError g := by
  induction xs with
  | nil => rfl
  | cons x xs ih =>
    rw [List.mapM_cons, List.mapM_cons, Except.mapError_bind, ← ih]
    refine bind_congr fun y => ?_
    rw [Except.mapError_bind]
    rfl

theorem mapM_congr {f g : α → Except ε β} {xs : List α} (h : ∀ x ∈ xs, f x = g x) :
    xs.mapM f = xs.mapM g := by
  induction xs with
  | nil => rfl
  | cons x xs ih =>
    rw [List.mapM_cons, List.mapM_cons, h x List.mem_cons_self,
      ih fun y hy => h y (List.mem_cons_of_mem x hy)]

theorem forall₂_of_mapM {γ : Type} {R : β → γ → Prop} {f : α → Except ε β} {g : α → Except ε γ}
    (hstep : ∀ x y z, f x = .ok y → g x = .ok z → R y z) {xs : List α} {ys : List β}
    {zs : List γ} (hys : xs.mapM f = .ok ys) (hzs : xs.mapM g = .ok zs) :
    List.Forall₂ R ys zs := by
  induction mapM_eq_ok_iff.mp hys generalizing zs with
  | nil =>
    obtain rfl := Except.pure_eq_ok.mp hzs
    exact .nil
  | cons hxy hrest ih =>
    cases mapM_eq_ok_iff.mp hzs with
    | cons hxz hright =>
      exact .cons (hstep _ _ _ hxy hxz) (ih (mapM_eq_ok_iff.mpr hrest) (mapM_eq_ok_iff.mpr hright))

/-- A walk over the same elements in another order yields the same images in another order. -/
theorem perm_of_mapM {f : α → Except ε β} {xs ys : List α} {us vs : List β} (h : xs.Perm ys)
    (hus : xs.mapM f = .ok us) (hvs : ys.mapM f = .ok vs) : us.Perm vs := by
  obtain ⟨middle, hmiddle, hperm⟩ := List.perm_comp_forall₂ h (mapM_eq_ok_iff.mp hvs)
  rw [mapM_eq_ok_iff.mpr hmiddle] at hus
  exact Except.ok.inj hus ▸ hperm

theorem foldlM_keeps {f : β → α → Except ε β} (P : β → Prop) {xs : List α}
    (step : ∀ b x b', x ∈ xs → P b → f b x = .ok b' → P b') {start last : β} (hstart : P start)
    (h : xs.foldlM f start = .ok last) : P last := by
  induction xs generalizing start with
  | nil =>
    obtain rfl := Except.pure_eq_ok.mp h
    exact hstart
  | cons x xs ih =>
    rw [List.foldlM_cons] at h
    obtain ⟨next, hnext, h⟩ := Except.bind_eq_ok.mp h
    exact ih (fun b y b' hy => step b y b' (List.mem_cons_of_mem x hy))
      (step start x next List.mem_cons_self hstart hnext) h

theorem exists_foldlM {f : β → α → Except ε β} {xs : List α}
    (h : ∀ x ∈ xs, ∀ b, ∃ next, f b x = .ok next) (start : β) :
    ∃ last, xs.foldlM f start = .ok last := by
  induction xs generalizing start with
  | nil => exact ⟨start, rfl⟩
  | cons x xs ih =>
    obtain ⟨next, hnext⟩ := h x List.mem_cons_self start
    obtain ⟨last, hlast⟩ := ih (fun y hy => h y (List.mem_cons_of_mem x hy)) next
    exact ⟨last, by rw [List.foldlM_cons, hnext]; exact hlast⟩

/-- A walk whose steps fail on an element, whatever came before, fails on the first such element. -/
theorem foldlM_eq_error {f : β → α → Except ε β} {before behind : List α} {x : α} {e : ε}
    (hbefore : ∀ y ∈ before, ∀ b, ∃ next, f b y = .ok next) (hx : ∀ b, f b x = .error e)
    (start : β) : (before ++ x :: behind).foldlM f start = .error e := by
  obtain ⟨middle, hmiddle⟩ := exists_foldlM hbefore start
  rw [List.foldlM_append, hmiddle, Except.ok_bind, List.foldlM_cons, hx]
  rfl

/-! ### Searching -/

theorem anyM_eq_false_iff {test : α → Except ε Bool} {xs : List α} :
    xs.anyM test = .ok false ↔ ∀ x ∈ xs, test x = .ok false := by
  induction xs with
  | nil => simp [List.anyM]
  | cons x xs ih =>
    rw [List.anyM, Except.bind_eq_ok]
    constructor
    · rintro ⟨found, hfound, h⟩
      cases found with
      | true => cases h
      | false => simpa [hfound] using ih.mp h
    · intro h
      exact ⟨false, h x List.mem_cons_self, ih.mpr fun y hy => h y (List.mem_cons_of_mem x hy)⟩

theorem exists_of_anyM_eq_true {test : α → Except ε Bool} {xs : List α}
    (h : xs.anyM test = .ok true) : ∃ x ∈ xs, test x = .ok true := by
  induction xs with
  | nil => cases h
  | cons x xs ih =>
    rw [List.anyM, Except.bind_eq_ok] at h
    obtain ⟨found, hfound, h⟩ := h
    cases found with
    | true => exact ⟨x, List.mem_cons_self, hfound⟩
    | false =>
      obtain ⟨y, hy, htest⟩ := ih h
      exact ⟨y, List.mem_cons_of_mem x hy, htest⟩

theorem exists_anyM {test : α → Except ε Bool} {xs : List α} (h : ∀ x ∈ xs, ∃ b, test x = .ok b) :
    ∃ found, xs.anyM test = .ok found := by
  induction xs with
  | nil => exact ⟨false, rfl⟩
  | cons x xs ih =>
    obtain ⟨hx, hxs⟩ := List.forall_mem_cons.mp h
    obtain ⟨b, hb⟩ := hx
    cases b with
    | true => exact ⟨true, Except.bind_eq_ok.mpr ⟨true, hb, rfl⟩⟩
    | false =>
      obtain ⟨found, hfound⟩ := ih hxs
      exact ⟨found, Except.bind_eq_ok.mpr ⟨false, hb, hfound⟩⟩

theorem anyM_congr {f g : α → Except ε Bool} {xs : List α} (h : ∀ x ∈ xs, f x = g x) :
    xs.anyM f = xs.anyM g := by
  induction xs with
  | nil => rfl
  | cons x xs ih =>
    rw [List.anyM, List.anyM, h x List.mem_cons_self,
      ih fun y hy => h y (List.mem_cons_of_mem x hy)]

/-! ### Selecting -/

def accepts (test : α → Except Fault Bool) (a : α) : Bool :=
  match test a with
  | .ok accepted => accepted
  | .error _ => false

theorem accepts_iff {test : α → Except Fault Bool} {a : α} :
    accepts test a = true ↔ test a = .ok true := by
  cases h : test a with
  | error f => simp [accepts, h]
  | ok accepted => simp [accepts, h]

/-- A walk that selects is a filter, unless the test of some element is a fault. -/
theorem selectM_eq_ok_iff {test : α → Except Fault Bool} {xs ys : List α} :
    selectM test xs = .ok ys ↔
      (∀ x ∈ xs, ∃ accepted, test x = .ok accepted) ∧ ys = xs.filter (accepts test) := by
  induction xs generalizing ys with
  | nil => simp [selectM, eq_comm]
  | cons x xs ih =>
    rw [selectM, Except.bind_eq_ok]
    constructor
    · rintro ⟨accepted, hx, h⟩
      obtain ⟨others, hothers, h⟩ := Except.bind_eq_ok.mp h
      obtain rfl := Except.pure_eq_ok.mp h
      obtain ⟨hall, rfl⟩ := ih.mp hothers
      refine ⟨List.forall_mem_cons.mpr ⟨⟨accepted, hx⟩, hall⟩, ?_⟩
      simp [List.filter_cons, accepts, hx]
    · rintro ⟨hall, rfl⟩
      obtain ⟨⟨accepted, hx⟩, hall⟩ := List.forall_mem_cons.mp hall
      refine ⟨accepted, hx, Except.bind_eq_ok.mpr ⟨_, ih.mpr ⟨hall, rfl⟩, ?_⟩⟩
      simp [List.filter_cons, accepts, hx]

theorem selectM_congr {f g : α → Except Fault Bool} {xs : List α} (h : ∀ x ∈ xs, f x = g x) :
    selectM f xs = selectM g xs := by
  induction xs with
  | nil => rfl
  | cons x xs ih =>
    rw [selectM, selectM, h x List.mem_cons_self,
      ih fun y hy => h y (List.mem_cons_of_mem x hy)]

theorem mem_of_selectM {test : α → Except Fault Bool} {xs ys : List α}
    (h : selectM test xs = .ok ys) {a : α} : a ∈ ys ↔ a ∈ xs ∧ test a = .ok true := by
  obtain ⟨-, rfl⟩ := selectM_eq_ok_iff.mp h
  rw [List.mem_filter, accepts_iff]

theorem selectM_sublist {test stricter : α → Except Fault Bool} {xs ys zs : List α}
    (hrefuse : ∀ x ∈ xs, test x = .ok false → stricter x ≠ .ok true)
    (hys : selectM test xs = .ok ys) (hzs : selectM stricter xs = .ok zs) : zs.Sublist ys := by
  obtain ⟨hall, rfl⟩ := selectM_eq_ok_iff.mp hys
  obtain ⟨-, rfl⟩ := selectM_eq_ok_iff.mp hzs
  have hpart : xs.filter (accepts stricter) =
      (xs.filter (accepts test)).filter (accepts stricter) := by
    rw [List.filter_filter]
    refine List.filter_congr fun x hx => ?_
    cases hs : accepts stricter x with
    | false => rfl
    | true =>
      obtain ⟨b, hb⟩ := hall x hx
      cases b with
      | false => exact absurd (accepts_iff.mp hs) (hrefuse x hx hb)
      | true => simp [accepts_iff.mpr hb]
  rw [hpart]
  exact List.filter_sublist

end Shortlist
