import Mathlib.Order.Defs.LinearOrder
import Mathlib.Order.Basic
import Mathlib.Data.List.Sort

namespace RspaceRegistry.Ordered

-- A set kept as its strictly increasing list of members, so that iteration is
-- in order and a set is determined by its members.
structure BTreeSet (α : Type) [LinearOrder α] where
  toList : List α
  sorted : toList.Pairwise (· < ·)
deriving DecidableEq

namespace BTreeSet

variable {α : Type} [LinearOrder α]

instance : Membership α (BTreeSet α) := ⟨fun set value => value ∈ set.toList⟩

instance (value : α) (set : BTreeSet α) : Decidable (value ∈ set) :=
  inferInstanceAs (Decidable (value ∈ set.toList))

@[simp] theorem mem_toList (set : BTreeSet α) (value : α) : value ∈ set.toList ↔ value ∈ set :=
  Iff.rfl

def empty : BTreeSet α := ⟨[], .nil⟩

@[simp] theorem not_mem_empty (value : α) : ¬value ∈ (empty : BTreeSet α) := List.not_mem_nil

def insertList (value : α) : List α → List α
  | [] => [value]
  | head :: tail =>
      if value < head then value :: head :: tail
      else if value = head then head :: tail
      else head :: insertList value tail

theorem mem_insertList (value other : α) (list : List α) :
    other ∈ insertList value list ↔ other = value ∨ other ∈ list := by
  induction list with
  | nil => simp [insertList]
  | cons head tail ih =>
      simp only [insertList]
      split
      · simp
      split
      · rename_i heq
        subst heq
        simp
      · simp only [List.mem_cons, ih]
        tauto

theorem sorted_insertList (value : α) (list : List α) (hs : list.Pairwise (· < ·)) :
    (insertList value list).Pairwise (· < ·) := by
  induction list with
  | nil => simp [insertList]
  | cons head tail ih =>
      obtain ⟨hhead, htail⟩ := List.pairwise_cons.mp hs
      simp only [insertList]
      split
      · rename_i hlt
        refine List.pairwise_cons.mpr ⟨?_, hs⟩
        intro other ho
        rcases List.mem_cons.mp ho with rfl | ho
        · exact hlt
        · exact hlt.trans (hhead other ho)
      split
      · exact hs
      · rename_i hnlt hne
        refine List.pairwise_cons.mpr ⟨?_, ih htail⟩
        intro other ho
        rcases (mem_insertList value other tail).mp ho with rfl | ho
        · exact lt_of_le_of_ne (not_lt.mp hnlt) (Ne.symm hne)
        · exact hhead other ho

def insert (set : BTreeSet α) (value : α) : BTreeSet α :=
  ⟨insertList value set.toList, sorted_insertList value set.toList set.sorted⟩

@[simp] theorem mem_insert (set : BTreeSet α) (value other : α) :
    other ∈ set.insert value ↔ other = value ∨ other ∈ set :=
  mem_insertList value other set.toList

theorem ext {first second : BTreeSet α} (h : ∀ value, value ∈ first ↔ value ∈ second) :
    first = second := by
  obtain ⟨first, hf⟩ := first
  obtain ⟨second, hs⟩ := second
  have hp : first.Perm second :=
    (List.perm_ext_iff_of_nodup (hf.imp ne_of_lt) (hs.imp ne_of_lt)).mpr h
  have heq := hp.eq_of_pairwise' (hf.imp le_of_lt) (hs.imp le_of_lt)
  subst heq
  rfl

-- Insert the values of a list one by one, as `for v in list { set.insert(v) }`.
def extend (set : BTreeSet α) (list : List α) : BTreeSet α := list.foldl insert set

@[simp] theorem mem_extend (set : BTreeSet α) (list : List α) (value : α) :
    value ∈ set.extend list ↔ value ∈ list ∨ value ∈ set := by
  induction list generalizing set with
  | nil => simp [extend]
  | cons head tail ih =>
      have h := ih (set.insert head)
      simp only [extend, List.foldl_cons] at h ⊢
      rw [h, mem_insert, List.mem_cons]
      tauto

theorem empty_extend (set : BTreeSet α) : empty.extend set.toList = set := by
  apply ext
  intro value
  rw [mem_extend, mem_toList]
  constructor
  · rintro (h | h)
    · exact h
    · exact absurd h (not_mem_empty value)
  · exact .inl

theorem nodup (set : BTreeSet α) : set.toList.Nodup := set.sorted.imp ne_of_lt

end BTreeSet

end RspaceRegistry.Ordered
