import Mathlib.Order.Lattice
import Mathlib.Data.List.Basic

namespace RspaceRegistry.Ordered.Pages

-- A sorted list that is read page by page. Each page but the last leads to the next
-- one by a limit and a cursor, of which the entries behind it are still to come.

variable {α : Type} [LinearOrder α]

def behind (entries : List α) (cursor : Option α) : List α :=
  match cursor with
  | some after => entries.filter fun entry => after < entry
  | none => entries

-- What a reader collects who goes on for as long as there is a next page.
def follow (next : Nat → α → Option (Option Nat × Option α)) (entries : List α) :
    Nat → Option Nat → Option α → Option (List α)
  | 0, _, _ => none
  | _ + 1, none, cursor => some (behind entries cursor)
  | fuel + 1, some limit, cursor =>
      let rest := behind entries cursor
      if rest.length ≤ limit then some rest
      else
        match (rest.take limit).getLast? with
        | none => some []
        | some final =>
            match next limit final with
            | none => some (rest.take limit)
            | some (limit', cursor') =>
                (follow next entries fuel limit' cursor').map (rest.take limit ++ ·)

-- At the end of each page but the last, the next page is the one behind it.
inductive Separates (next : Nat → α → Option (Option Nat × Option α)) (entries : List α) :
    Option Nat → List α → Prop
  | whole {limit : Option Nat} {rest : List α}
      (h : ∀ most, limit = some most → rest.length ≤ most) : Separates next entries limit rest
  | cut {limit : Nat} {rest : List α} {final : α} {limit' : Option Nat} {cursor : Option α}
      (hmore : limit < rest.length) (hfinal : (rest.take limit).getLast? = some final)
      (hnext : next limit final = some (limit', cursor))
      (hsame : ∀ entry ∈ entries, (∀ after, cursor = some after → after < entry) ↔ final < entry)
      (hrest : Separates next entries limit' (rest.drop limit)) :
      Separates next entries (some limit) rest

section Sorted

variable {entries : List α} (hsorted : entries.Pairwise (· < ·))

theorem behind_eq (entries : List α) (cursor : Option α) : behind entries cursor =
    entries.filter fun entry => cursor.all fun after => after < entry := by
  cases cursor <;> simp [behind]

include hsorted

theorem sorted_behind (cursor : Option α) : (behind entries cursor).Pairwise (· < ·) := by
  rw [behind_eq]
  exact hsorted.filter _

-- The entries after a page are those that are greater than its last one.
theorem drop_eq_filter {limit : Nat} {final : α} (hfinal : (entries.take limit).getLast? = some final) :
    entries.drop limit = entries.filter fun entry => final < entry := by
  obtain ⟨front, hfront⟩ := List.getLast?_eq_some_iff.mp hfinal
  have hsplit : entries = front ++ final :: entries.drop limit := by
    have hparts := List.take_append_drop limit entries
    rw [hfront, List.append_assoc] at hparts
    exact hparts.symm
  have hparts := hsorted
  rw [hsplit, List.pairwise_append, List.pairwise_cons] at hparts
  obtain ⟨-, ⟨hbehind, -⟩, hbefore⟩ := hparts
  have hlow : (front.filter fun entry => final < entry) = [] := by
    rw [List.filter_eq_nil_iff]
    intro entry hentry
    simpa using (hbefore entry hentry final List.mem_cons_self).le
  have hhigh : ((entries.drop limit).filter fun entry => final < entry) = entries.drop limit := by
    rw [List.filter_eq_self]
    intro entry hentry
    simpa using hbehind entry hentry
  conv_rhs => rw [hsplit, List.filter_append, hlow, List.filter_cons, hhigh]
  simp

theorem drop_behind {cursor : Option α} {limit : Nat} {final : α}
    (hfinal : ((behind entries cursor).take limit).getLast? = some final) :
    (behind entries cursor).drop limit = entries.filter fun entry => final < entry := by
  have hmem : final ∈ behind entries cursor :=
    (List.take_subset _ _) (List.mem_of_getLast? hfinal)
  rw [drop_eq_filter (sorted_behind hsorted cursor) hfinal, behind_eq, List.filter_filter]
  apply List.filter_congr
  intro entry _
  rw [behind_eq, List.mem_filter] at hmem
  have hbehind := hmem.2
  cases cursor with
  | none => simp
  | some after =>
      simp only [Option.all_some, decide_eq_true_eq] at hbehind ⊢
      by_cases hless : final < entry
      · simp [hless, hbehind.trans hless]
      · simp [hless]

-- What is behind a cursor is known from its first entry.
theorem behind_eq_of_head {cursor : Option α} {final first : α}
    (hhead : (behind entries cursor).head? = some first)
    (hhead' : (entries.filter fun entry => final < entry).head? = some first) :
    ∀ entry ∈ entries, (∀ after, cursor = some after → after < entry) ↔ final < entry := by
  have hleast : ∀ {p : α → Bool}, (∀ a b, a < b → p a = true → p b = true) →
      (entries.filter p).head? = some first → ∀ entry ∈ entries, p entry = true ↔ first ≤ entry := by
    intro p hup hfirst entry hentry
    obtain ⟨rest, hrest⟩ := List.head?_eq_some_iff.mp hfirst
    have hordered := hsorted.filter p
    rw [hrest, List.pairwise_cons] at hordered
    have hmem : first ∈ entries.filter p := by rw [hrest]; exact List.mem_cons_self
    constructor
    · intro hp
      have hin : entry ∈ entries.filter p := List.mem_filter.mpr ⟨hentry, hp⟩
      rw [hrest] at hin
      rcases List.mem_cons.mp hin with rfl | hbehind
      · exact le_refl _
      · exact (hordered.1 entry hbehind).le
    · intro hle
      rcases hle.eq_or_lt with rfl | hlt
      · exact (List.mem_filter.mp hmem).2
      · exact hup _ _ hlt (List.mem_filter.mp hmem).2
  intro entry hentry
  rw [behind_eq] at hhead
  have hcursor := hleast (by
    intro a b hlt ha
    cases cursor with
    | none => rfl
    | some after => simpa using (of_decide_eq_true ha).trans hlt) hhead entry hentry
  have hfinal := hleast (by
    intro a b hlt ha
    simpa using (of_decide_eq_true ha).trans hlt) hhead' entry hentry
  rw [decide_eq_true_eq] at hfinal
  rw [hfinal, ← hcursor]
  cases cursor <;> simp

end Sorted

section Follow

variable {next : Nat → α → Option (Option Nat × Option α)} {entries : List α}

-- The first page starts behind the cursor.
theorem follow_head {fuel : Nat} {limit : Option Nat} {cursor : Option α} {found : List α}
    (h : follow next entries fuel limit cursor = some found) :
    found = [] ∨ found.head? = (behind entries cursor).head? := by
  cases fuel with
  | zero => cases h
  | succ fuel =>
      cases limit with
      | none => exact .inr (by rw [Option.some.inj h])
      | some limit =>
          rw [follow] at h
          split at h
          · exact .inr (by rw [Option.some.inj h])
          · rename_i hmore
            split at h
            · exact .inl (Option.some.inj h).symm
            · rename_i final hfinal
              have hne : (behind entries cursor).take limit ≠ [] := by
                intro hnil
                rw [hnil] at hfinal
                cases hfinal
              have hhead : ∀ tail, ((behind entries cursor).take limit ++ tail).head? =
                  (behind entries cursor).head? := by
                intro tail
                rw [List.head?_append_of_ne_nil _ hne, List.head?_take, if_neg]
                rintro rfl
                exact hne List.take_zero
              right
              split at h
              · rw [← Option.some.inj h, ← hhead [], List.append_nil]
              · obtain ⟨tail, -, rfl⟩ := Option.map_eq_some_iff.mp h
                exact hhead tail

theorem separates_of_follow (hsorted : entries.Pairwise (· < ·)) {fuel : Nat} {limit : Option Nat}
    {cursor : Option α}
    (h : follow next entries fuel limit cursor = some (behind entries cursor)) :
    Separates next entries limit (behind entries cursor) := by
  induction fuel generalizing limit cursor with
  | zero => cases h
  | succ fuel ih =>
      cases limit with
      | none => exact .whole nofun
      | some limit =>
          by_cases hmore : (behind entries cursor).length ≤ limit
          · exact .whole fun most hmost => Option.some.inj hmost ▸ hmore
          · rw [follow, if_neg hmore] at h
            have hlt := Nat.lt_of_not_le hmore
            split at h
            · have hnil := Option.some.inj h
              rw [← hnil] at hlt
              cases hlt
            · rename_i final hfinal
              split at h
              · have hlen := congrArg List.length (Option.some.inj h)
                rw [List.length_take] at hlen
                omega
              · rename_i limit' cursor' hnext
                obtain ⟨tail, htail, hfound⟩ := Option.map_eq_some_iff.mp h
                have hdrop : tail = (behind entries cursor).drop limit := by
                  have hparts := List.take_append_drop limit (behind entries cursor)
                  exact List.append_cancel_left (hfound.trans hparts.symm)
                have hne : tail ≠ [] := by
                  rw [hdrop, ne_eq, List.drop_eq_nil_iff]
                  omega
                obtain ⟨first, hfirst⟩ : ∃ first, tail.head? = some first :=
                  ⟨_, List.head?_eq_some_head hne⟩
                have hhead := (follow_head htail).resolve_left hne
                have hfilter := drop_behind hsorted hfinal
                have hsame := behind_eq_of_head hsorted (hhead.symm.trans hfirst)
                  (by rw [← hfilter, ← hdrop]; exact hfirst)
                have hbehind : behind entries cursor' = tail := by
                  rw [hdrop, hfilter, behind_eq]
                  apply List.filter_congr
                  intro entry hentry
                  rw [Bool.eq_iff_iff, decide_eq_true_eq, ← hsame entry hentry]
                  cases cursor' <;> simp
                refine .cut hlt hfinal hnext hsame ?_
                rw [← hdrop, ← hbehind]
                exact ih (by rw [hbehind]; exact htail)

theorem follow_of_separates (hsorted : entries.Pairwise (· < ·)) {limit : Option Nat}
    {rest : List α} (h : Separates next entries limit rest) {cursor : Option α}
    (hrest : behind entries cursor = rest) :
    ∃ fuel, follow next entries fuel limit cursor = some rest := by
  induction h generalizing cursor with
  | @whole limit rest hwhole =>
      refine ⟨1, ?_⟩
      cases limit with
      | none => rw [follow, hrest]
      | some most =>
          rw [follow, hrest, if_pos (hwhole most rfl)]
  | @cut limit rest final limit' cursor' hmore hfinal hnext hsame _ ih =>
      have hbehind : behind entries cursor' = rest.drop limit := by
        rw [← hrest] at hfinal ⊢
        rw [drop_behind hsorted hfinal, behind_eq]
        apply List.filter_congr
        intro entry hentry
        rw [Bool.eq_iff_iff, decide_eq_true_eq, ← hsame entry hentry]
        cases cursor' <;> simp
      obtain ⟨fuel, hfuel⟩ := ih hbehind
      refine ⟨fuel + 1, ?_⟩
      rw [follow, hrest, if_neg (Nat.not_le.mpr hmore)]
      simp only [hfinal, hnext, hfuel, Option.map_some, List.take_append_drop]

-- A reader gets the whole list exactly when every cursor cuts where its page ends.
theorem follow_iff (hsorted : entries.Pairwise (· < ·)) (limit : Option Nat) :
    (∃ fuel, follow next entries fuel limit none = some entries) ↔
      Separates next entries limit entries :=
  ⟨fun ⟨_, hfuel⟩ => separates_of_follow hsorted hfuel,
    fun h => follow_of_separates hsorted h rfl⟩

-- A cursor that is the last entry of its page cuts there.
theorem separates_of_exact {limit : Nat} (hlimit : 0 < limit) {rest : List α}
    (hnext : ∀ final ∈ rest, next limit final = some (some limit, some final)) :
    Separates next entries (some limit) rest := by
  induction hlen : rest.length using Nat.strongRecOn generalizing rest with
  | ind len ih =>
      by_cases hmore : limit < rest.length
      · obtain ⟨final, hfinal⟩ : ∃ final, (rest.take limit).getLast? = some final := by
          have hne : rest.take limit ≠ [] := by
            intro hnil
            have hlen := congrArg List.length hnil
            rw [List.length_take, List.length_nil] at hlen
            omega
          exact ⟨_, List.getLast?_eq_some_getLast hne⟩
        have hmem : final ∈ rest := (List.take_subset _ _) (List.mem_of_getLast? hfinal)
        refine .cut hmore hfinal (hnext final hmem) (by simp) ?_
        refine ih (rest.drop limit).length ?_ (fun other hother => hnext other ?_) rfl
        · rw [List.length_drop]
          omega
        · exact (List.drop_subset _ _) hother
      · exact .whole fun most hmost => by rw [← Option.some.inj hmost]; omega

end Follow

end RspaceRegistry.Ordered.Pages
