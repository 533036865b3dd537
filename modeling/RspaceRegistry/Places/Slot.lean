import Mathlib.Logic.Function.Basic
import Mathlib.Data.List.Basic

namespace RspaceRegistry.Places

-- One thing that may be kept at several places. A reader goes through places
-- in an order of its own and takes the first that has it; a copier reads with
-- one order and writes to a place that is the first of another.
abbrev Slot (P α : Type) : Type := P → Option α

variable {P α : Type}

def first (order : List P) (slot : Slot P α) : Option α := order.findSome? slot

theorem first_eq_none {order : List P} {slot : Slot P α} :
    first order slot = none ↔ ∀ p ∈ order, slot p = none := List.findSome?_eq_none_iff

theorem first_isSome {order : List P} {slot : Slot P α} :
    (first order slot).isSome ↔ ∃ p ∈ order, (slot p).isSome := List.findSome?_isSome_iff

theorem exists_of_first {order : List P} {slot : Slot P α} {value : α}
    (h : first order slot = some value) : ∃ p ∈ order, slot p = some value :=
  List.exists_of_findSome?_eq_some h

theorem first_cons_of_some {p : P} {rest : List P} {slot : Slot P α} {value : α}
    (h : slot p = some value) : first (p :: rest) slot = some value := by
  rw [first, List.findSome?_cons, h]

theorem first_append {order order' : List P} {slot : Slot P α} :
    first (order ++ order') slot = (first order slot).or (first order' slot) :=
  List.findSome?_append

-- Only the places of the order matter.
theorem first_congr {order : List P} {slot slot' : Slot P α}
    (h : ∀ p ∈ order, slot p = slot' p) : first order slot = first order slot' := by
  induction order with
  | nil => rfl
  | cons p rest ih =>
      have hp := h p List.mem_cons_self
      have hr := ih fun q hq => h q (List.mem_cons_of_mem p hq)
      simp only [first, List.findSome?_cons] at hr ⊢
      rw [hp, hr]

-- All places that have the thing have the same.
def Coherent (slot : Slot P α) : Prop :=
  ∀ p q value value', slot p = some value → slot q = some value' → value = value'

theorem Coherent.first_eq {slot : Slot P α} (h : Coherent slot) {order : List P} {p : P} {value : α}
    (hp : p ∈ order) (hv : slot p = some value) : first order slot = some value := by
  have hs : (first order slot).isSome := first_isSome.mpr ⟨p, hp, by rw [hv]; rfl⟩
  obtain ⟨value', hf⟩ := Option.isSome_iff_exists.mp hs
  obtain ⟨q, _, hq⟩ := exists_of_first hf
  rw [hf, h q p value' value hq hv]

-- Readers of one coherent thing who both find it find the same.
theorem Coherent.first_unique {slot : Slot P α} (h : Coherent slot) {order order' : List P}
    {value value' : α} (hv : first order slot = some value) (hv' : first order' slot = some value') :
    value = value' := by
  obtain ⟨p, _, hp⟩ := exists_of_first hv
  obtain ⟨q, _, hq⟩ := exists_of_first hv'
  exact h p q value value' hp hq

-- New copies of what a reader gets anyway do not change what it gets.
theorem Coherent.first_grown {slot slot' : Slot P α} (hcoh : Coherent slot) {order : List P}
    (hkept : ∀ p value, slot p = some value → slot' p = some value)
    (hnew : ∀ p value, slot' p = some value → slot p = some value ∨ first order slot = some value) :
    first order slot' = first order slot := by
  cases hs : first order slot with
  | none =>
      rw [first_eq_none] at hs ⊢
      intro p hp
      by_contra hne
      obtain ⟨value, hv⟩ := Option.ne_none_iff_exists'.mp hne
      rcases hnew p value hv with hv | hf
      · rw [hs p hp] at hv
        cases hv
      · rw [first_eq_none.mpr hs] at hf
        cases hf
  | some value =>
      obtain ⟨p, hp, hv⟩ := exists_of_first hs
      have hcoh' : Coherent slot' := by
        have hold : ∀ q other, slot' q = some other → other = value := by
          intro q other hq
          rcases hnew q other hq with hq | hf
          · exact hcoh q p other value hq hv
          · rw [hs] at hf
            exact (Option.some.inj hf).symm
        intro q r other other' hq hr
        rw [hold q other hq, hold r other' hr]
      exact hcoh'.first_eq hp (hkept p value hv)

-- Nor does writing that over anything.
theorem first_overwritten {order : List P} {slot slot' : Slot P α} {value : α}
    (h : ∀ p, slot' p = slot p ∨ slot' p = some value) (hf : first order slot = some value) :
    first order slot' = some value := by
  induction order with
  | nil => cases hf
  | cons p rest ih =>
      simp only [first, List.findSome?_cons] at hf ih ⊢
      rcases h p with hp | hp
      · rw [hp]
        cases hs : slot p with
        | none =>
            rw [hs] at hf
            exact ih hf
        | some other =>
            rw [hs] at hf
            exact hf
      · rw [hp]

variable [DecidableEq P]

-- Writing what a reader reads anyway does not change what it reads.
theorem first_update_self {order : List P} {slot : Slot P α} {value : α} (p : P)
    (h : first order slot = some value) :
    first order (Function.update slot p (some value)) = some value := by
  induction order with
  | nil => cases h
  | cons q rest ih =>
      by_cases hq : q = p
      · subst hq
        exact first_cons_of_some (Function.update_self q (some value) slot)
      · have hu : Function.update slot p (some value) q = slot q := Function.update_of_ne hq _ _
        simp only [first, List.findSome?_cons, hu] at h ih ⊢
        cases hs : slot q with
        | none =>
            rw [hs] at h
            exact ih h
        | some other =>
            rw [hs] at h
            exact h

-- Copy to `home` what `src` reads, unless `dst` reads something already.
def fill (src dst : List P) (home : P) (slot : Slot P α) : Slot P α :=
  if (first dst slot).isSome then slot else Function.update slot home (first src slot)

-- Copy to `home` what `src` reads, whatever is there.
def force (src : List P) (home : P) (slot : Slot P α) : Slot P α :=
  match first src slot with
  | some value => Function.update slot home (some value)
  | none => slot

def clear (places : List P) (slot : Slot P α) : Slot P α :=
  fun p => if p ∈ places then none else slot p

section Fill

variable {src dst : List P} {home : P} {slot : Slot P α}

theorem fill_of_some (h : (first dst slot).isSome) : fill src dst home slot = slot := if_pos h

theorem fill_of_none (h : first dst slot = none) :
    fill src dst home slot = Function.update slot home (first src slot) := by
  rw [fill, h]
  rfl

theorem fill_of_ne {p : P} (h : p ≠ home) : fill src dst home slot p = slot p := by
  unfold fill
  split
  · rfl
  · exact Function.update_of_ne h _ _

-- Where the source reads nothing there is nothing to copy.
theorem fill_of_src_none (hhome : home ∈ dst) (h : first src slot = none) :
    fill src dst home slot = slot := by
  cases hd : first dst slot with
  | some value => exact fill_of_some (by rw [hd]; rfl)
  | none =>
      rw [fill_of_none hd, h]
      have hn : slot home = none := first_eq_none.mp hd home hhome
      rw [← hn, Function.update_eq_self]

theorem isSome_fill (hhome : home ∈ dst) (p : P) : (fill src dst home slot p).isSome ↔
    (slot p).isSome ∨ p = home ∧ first dst slot = none ∧ (first src slot).isSome := by
  cases hd : first dst slot with
  | some value =>
      rw [fill_of_some (by rw [hd]; rfl)]
      simp
  | none =>
      rw [fill_of_none hd]
      by_cases hp : p = home
      · subst hp
        rw [Function.update_self, first_eq_none.mp hd p hhome]
        simp
      · rw [Function.update_of_ne hp]
        simp [hp]

-- What was there stays, and what comes is what the source reads.

theorem fill_kept (hhome : home ∈ dst) {p : P} {value : α} (h : slot p = some value) :
    fill src dst home slot p = some value := by
  cases hd : first dst slot with
  | some other => rw [fill_of_some (by rw [hd]; rfl), h]
  | none =>
      have hp : p ≠ home := by
        rintro rfl
        rw [first_eq_none.mp hd p hhome] at h
        cases h
      rw [fill_of_ne hp, h]

theorem fill_new {p : P} {value : α} (h : fill src dst home slot p = some value) :
    slot p = some value ∨ p = home ∧ first src slot = some value ∧ first dst slot = none := by
  cases hd : first dst slot with
  | some other =>
      rw [fill_of_some (by rw [hd]; rfl)] at h
      exact .inl h
  | none =>
      by_cases hp : p = home
      · rw [fill_of_none hd, hp, Function.update_self] at h
        exact .inr ⟨hp, h, rfl⟩
      · rw [fill_of_ne hp] at h
        exact .inl h

-- Copies are of what is somewhere already.
theorem exists_of_fill {p : P} {value : α} (h : fill src dst home slot p = some value) :
    ∃ q, slot q = some value := by
  rcases fill_new h with h | ⟨_, h, _⟩
  · exact ⟨p, h⟩
  · obtain ⟨q, _, hq⟩ := exists_of_first h
    exact ⟨q, hq⟩

theorem first_src_fill (hhome : home ∈ dst) :
    first src (fill src dst home slot) = first src slot := by
  cases hd : first dst slot with
  | some value => rw [fill_of_some (by rw [hd]; rfl)]
  | none =>
      cases hs : first src slot with
      | none => rw [fill_of_src_none hhome hs, hs]
      | some value =>
          rw [fill_of_none hd, hs]
          exact first_update_self home hs

theorem first_dst_fill {rest : List P} (hdst : dst = home :: rest) :
    first dst (fill src dst home slot) = (first dst slot).or (first src slot) := by
  have hhome : home ∈ dst := hdst ▸ List.mem_cons_self
  cases hd : first dst slot with
  | some value => rw [fill_of_some (by rw [hd]; rfl), hd, Option.some_or]
  | none =>
      rw [Option.none_or]
      cases hs : first src slot with
      | none => rw [fill_of_src_none hhome hs, hd]
      | some value =>
          rw [fill_of_none hd, hs, hdst]
          exact first_cons_of_some (Function.update_self home (some value) slot)

theorem fill_fill (hhome : home ∈ dst) {rest : List P} (hdst : dst = home :: rest) :
    fill src dst home (fill src dst home slot) = fill src dst home slot := by
  cases hs : first src slot with
  | none =>
      rw [fill_of_src_none hhome hs, fill_of_src_none hhome hs]
  | some value =>
      apply fill_of_some
      rw [first_dst_fill hdst, hs]
      cases first dst slot <;> rfl

end Fill

section Force

variable {src dst : List P} {home : P} {slot : Slot P α}

theorem force_of_some {value : α} (h : first src slot = some value) :
    force src home slot = Function.update slot home (some value) := by
  rw [force, h]

theorem force_of_none (h : first src slot = none) : force src home slot = slot := by
  rw [force, h]

theorem force_of_ne {p : P} (h : p ≠ home) : force src home slot p = slot p := by
  cases hs : first src slot with
  | none => rw [force_of_none hs]
  | some value =>
      rw [force_of_some hs]
      exact Function.update_of_ne h _ _

theorem force_kept (hcoh : Coherent slot) {p : P} {value : α} (h : slot p = some value) :
    force src home slot p = some value := by
  cases hs : first src slot with
  | none => rw [force_of_none hs, h]
  | some copied =>
      by_cases hp : p = home
      · obtain ⟨q, _, hq⟩ := exists_of_first hs
        rw [force_of_some hs, hp, Function.update_self, hcoh q p copied value hq h]
      · rw [force_of_ne hp, h]

theorem force_new {p : P} {value : α} (h : force src home slot p = some value) :
    slot p = some value ∨ p = home ∧ first src slot = some value := by
  cases hs : first src slot with
  | none =>
      rw [force_of_none hs] at h
      exact .inl h
  | some copied =>
      by_cases hp : p = home
      · rw [force_of_some hs, hp, Function.update_self] at h
        exact .inr ⟨hp, h⟩
      · rw [force_of_ne hp] at h
        exact .inl h

theorem exists_of_force {p : P} {value : α} (h : force src home slot p = some value) :
    ∃ q, slot q = some value := by
  rcases force_new h with h | ⟨_, h⟩
  · exact ⟨p, h⟩
  · obtain ⟨q, _, hq⟩ := exists_of_first h
    exact ⟨q, hq⟩

theorem first_src_force : first src (force src home slot) = first src slot := by
  cases hs : first src slot with
  | none => rw [force_of_none hs, hs]
  | some value =>
      rw [force_of_some hs]
      exact first_update_self home hs

theorem first_dst_force {rest : List P} (hdst : dst = home :: rest) :
    first dst (force src home slot) = (first src slot).or (first dst slot) := by
  cases hs : first src slot with
  | none => rw [force_of_none hs, Option.none_or]
  | some value =>
      rw [force_of_some hs, Option.some_or, hdst]
      exact first_cons_of_some (Function.update_self home (some value) slot)

theorem force_force : force src home (force src home slot) = force src home slot := by
  cases hs : first src slot with
  | none => rw [force_of_none hs, force_of_none hs]
  | some value =>
      have hf : first src (force src home slot) = some value := by
        rw [first_src_force, hs]
      rw [force_of_some hf, force_of_some hs, Function.update_idem]

theorem force_fill (hhome : home ∈ dst) :
    force src home (fill src dst home slot) = force src home slot := by
  cases hs : first src slot with
  | none => rw [fill_of_src_none hhome hs]
  | some value =>
      have hf : first src (fill src dst home slot) = some value := by
        rw [first_src_fill hhome, hs]
      rw [force_of_some hf, force_of_some hs]
      cases hd : first dst slot with
      | some other => rw [fill_of_some (by rw [hd]; rfl)]
      | none => rw [fill_of_none hd, Function.update_idem]

end Force

section Clear

variable {places order : List P} {slot : Slot P α}

theorem clear_of_mem {p : P} (h : p ∈ places) : clear places slot p = none := if_pos h

theorem clear_of_not_mem {p : P} (h : p ∉ places) : clear places slot p = slot p := if_neg h

theorem exists_of_clear {p : P} {value : α} (h : clear places slot p = some value) :
    ∃ q, slot q = some value := by
  by_cases hp : p ∈ places
  · rw [clear_of_mem hp] at h
    cases h
  · rw [clear_of_not_mem hp] at h
    exact ⟨p, h⟩

theorem clear_clear : clear places (clear places slot) = clear places slot := by
  funext p
  by_cases hp : p ∈ places
  · rw [clear_of_mem hp, clear_of_mem hp]
  · rw [clear_of_not_mem hp]

theorem clear_of_none (h : ∀ p ∈ places, slot p = none) : clear places slot = slot := by
  funext p
  by_cases hp : p ∈ places
  · rw [clear_of_mem hp, h p hp]
  · rw [clear_of_not_mem hp]

theorem first_clear_of_subset (h : ∀ p ∈ order, p ∈ places) :
    first order (clear places slot) = none :=
  first_eq_none.mpr fun p hp => clear_of_mem (h p hp)

theorem first_clear_of_disjoint (h : ∀ p ∈ order, p ∉ places) :
    first order (clear places slot) = first order slot :=
  first_congr fun p hp => clear_of_not_mem (h p hp)

end Clear

end RspaceRegistry.Places
