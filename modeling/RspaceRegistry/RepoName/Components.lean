import RspaceRegistry.RepoName

namespace RspaceRegistry

theorem components_injective : Function.Injective components := by
  intro a b h
  have hparts : a.toList.splitOn '/' = b.toList.splitOn '/' :=
    List.map_injective_iff.mpr (fun _ _ => String.ofList_inj.mp) h
  apply String.toList_injective
  have hjoined := congrArg (List.intercalate ['/']) hparts
  rwa [List.intercalate_splitOn, List.intercalate_splitOn] at hjoined

theorem validateComponents_ok {parts : List String} (h : validateComponents parts = .ok ())
    {part : String} (hpart : part ∈ parts) : validateComponent part = .ok () := by
  induction parts with
  | nil => cases hpart
  | cons head rest ih =>
      rw [validateComponents] at h
      split at h
      · cases h
      · rename_i hhead
        rcases List.mem_cons.mp hpart with rfl | hrest
        · exact hhead
        · exact ih h hrest

theorem validateComponent_nonempty {part : String} (h : validateComponent part = .ok ()) :
    part ≠ "" := by
  rintro rfl
  cases h

theorem validateComponent_chars {part : String} (h : validateComponent part = .ok ()) :
    ∀ c ∈ part.toList, isNameChar c = true := by
  rw [validateComponent] at h
  intro c hc
  split at h
  · cases h
  · rename_i first chars hchars
    split at h
    · cases h
    · rename_i hfirst
      split at h
      · rename_i hall
        rw [hchars] at hc
        rcases List.mem_cons.mp hc with rfl | hrest
        · simp only [Bool.not_eq_true, Bool.not_eq_false'] at hfirst
          simp only [isNameChar, hfirst, Bool.true_or]
        · exact List.all_eq_true.mp hall c hrest
      · cases h

-- What the components of an accepted name are.
theorem validateRepoName_ok {name : String} (h : validateRepoName name = .ok ()) :
    name ≠ "" ∧ ∀ part ∈ components name, validateComponent part = .ok () := by
  rw [validateRepoName] at h
  split at h
  · cases h
  · rename_i hlength
    refine ⟨?_, fun part hpart => validateComponents_ok h hpart⟩
    rintro rfl
    exact hlength rfl

-- Joining the components with slashes goes the other way.
theorem intercalate_components (name : String) : "/".intercalate (components name) = name := by
  apply String.toList_injective
  have hparts : (components name).map String.toList = name.toList.splitOn '/' := by
    rw [components, List.map_map]
    exact (List.map_congr_left fun part _ => String.toList_ofList).trans (List.map_id _)
  rw [String.toList_intercalate, hparts]
  exact List.intercalate_splitOn '/'

theorem components_intercalate {parts : List String} (hne : parts ≠ [])
    (h : ∀ part ∈ parts, '/' ∉ part.toList) : components ("/".intercalate parts) = parts := by
  have hsplit : ("/".intercalate parts).toList.splitOn '/' = parts.map String.toList := by
    rw [String.toList_intercalate]
    apply List.splitOn_intercalate
    · intro chars hchars
      obtain ⟨part, hpart, rfl⟩ := List.mem_map.mp hchars
      exact h part hpart
    · simpa using hne
  rw [components, hsplit, List.map_map]
  exact (List.map_congr_left fun part _ => String.ofList_toList).trans (List.map_id _)

theorem mem_intercalate {parts : List String} {c : Char} (hc : c ∈ ("/".intercalate parts).toList) :
    c = '/' ∨ ∃ part ∈ parts, c ∈ part.toList := by
  induction parts with
  | nil => cases hc
  | cons part rest ih =>
      by_cases hrest : rest = []
      · subst hrest
        rw [String.intercalate_singleton] at hc
        exact .inr ⟨part, List.mem_cons_self, hc⟩
      · rw [String.intercalate_cons_of_ne_nil hrest, String.toList_append, String.toList_append,
          List.mem_append, List.mem_append] at hc
        rcases hc with (hpart | hslash) | hlater
        · exact .inr ⟨part, List.mem_cons_self, hpart⟩
        · exact .inl (List.mem_singleton.mp hslash)
        · exact (ih hlater).imp_right fun ⟨other, hother, hmem⟩ =>
            ⟨other, List.mem_cons_of_mem part hother, hmem⟩

end RspaceRegistry
