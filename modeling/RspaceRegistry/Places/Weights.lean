import Mathlib.Algebra.BigOperators.Group.Finset.Basic
import Mathlib.Algebra.Order.BigOperators.Group.Finset
import Mathlib.Algebra.Ring.Nat

namespace RspaceRegistry.Places

-- What the entries of a finite table add up to.

variable {κ : Type} {size : κ → Option Nat} {total total' : Nat} {key : κ}

def Weighs (size : κ → Option Nat) (total : Nat) : Prop :=
  ∃ keys : Finset κ, (∀ key, key ∈ keys ↔ (size key).isSome) ∧
    total = ∑ key ∈ keys, (size key).getD 0

namespace Weighs

theorem unique (h : Weighs size total) (h' : Weighs size total') : total = total' := by
  obtain ⟨keys, hmem, rfl⟩ := h
  obtain ⟨keys', hmem', rfl⟩ := h'
  have heq : keys = keys' := Finset.ext fun key => (hmem key).trans (hmem' key).symm
  rw [heq]

variable [DecidableEq κ]

theorem of_list {list : List κ} (hnodup : list.Nodup)
    (hmem : ∀ key, key ∈ list ↔ (size key).isSome) :
    Weighs size (list.map fun key => (size key).getD 0).sum := by
  refine ⟨list.toFinset, fun key => by rw [List.mem_toFinset, hmem], ?_⟩
  rw [List.sum_toFinset _ hnodup]

-- A new entry counts by its size.
theorem insert (h : Weighs size total) (hkey : size key = none) (n : Nat) :
    Weighs (Function.update size key (some n)) (total + n) := by
  obtain ⟨keys, hmem, rfl⟩ := h
  have hnot : key ∉ keys := by
    rw [hmem, hkey]
    simp
  refine ⟨keys.cons key hnot, fun other => ?_, ?_⟩
  · rw [Finset.mem_cons]
    by_cases heq : other = key
    · simp [heq]
    · simp [heq, hmem]
  · rw [Finset.sum_cons, Function.update_self, Option.getD_some, Nat.add_comm]
    congr 1
    apply Finset.sum_congr rfl
    intro other hother
    rw [Function.update_of_ne]
    rintro rfl
    exact hnot hother

theorem erase (h : Weighs size total) (key : κ) :
    ∃ rest, Weighs (Function.update size key none) rest ∧ rest ≤ total := by
  obtain ⟨keys, hmem, rfl⟩ := h
  refine ⟨_, ⟨keys.erase key, fun other => ?_, rfl⟩, ?_⟩
  · rw [Finset.mem_erase, hmem]
    by_cases heq : other = key
    · simp [heq]
    · simp [heq]
  · have hsame : ∑ other ∈ keys.erase key, (Function.update size key none other).getD 0 =
        ∑ other ∈ keys.erase key, (size other).getD 0 := by
      apply Finset.sum_congr rfl
      intro other hother
      rw [Function.update_of_ne (Finset.ne_of_mem_erase hother)]
    rw [hsame]
    exact Finset.sum_le_sum_of_subset (Finset.erase_subset key keys)

end Weighs

end RspaceRegistry.Places
