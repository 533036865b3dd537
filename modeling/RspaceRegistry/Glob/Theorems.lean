import Mathlib.Data.List.Forall2
import Mathlib.Data.List.Infix
import RspaceRegistry.Glob

namespace RspaceRegistry.Glob

-- What one pattern character may take of the text.
def Takes (c : Char) (piece : List Char) : Prop :=
  if c = '*' then True else if c = '?' then piece.length = 1 else piece = [c]

-- A split of the text into consecutive pieces, one per pattern character.
def Splits (pat text : List Char) : Prop :=
  ∃ pieces, List.Forall₂ Takes pat pieces ∧ pieces.flatten = text

@[simp] theorem takes_star (piece : List Char) : Takes '*' piece := by simp [Takes]

@[simp] theorem takes_question {piece : List Char} : Takes '?' piece ↔ ∃ c, piece = [c] := by
  simp [Takes, List.length_eq_one_iff]

theorem takes_char {c : Char} {piece : List Char} (hstar : c ≠ '*') (hquestion : c ≠ '?') :
    Takes c piece ↔ piece = [c] := by
  simp [Takes, hstar, hquestion]

@[simp] theorem splits_nil {text : List Char} : Splits [] text ↔ text = [] := by
  constructor
  · rintro ⟨pieces, hpieces, rfl⟩
    cases hpieces
    rfl
  · intro h
    exact ⟨[], .nil, by simp [h]⟩

theorem splits_cons {c : Char} {pat text : List Char} :
    Splits (c :: pat) text ↔
      ∃ piece rest, text = piece ++ rest ∧ Takes c piece ∧ Splits pat rest := by
  constructor
  · rintro ⟨pieces, hpieces, rfl⟩
    cases hpieces with
    | cons hpiece hrest => exact ⟨_, _, List.flatten_cons, hpiece, _, hrest, rfl⟩
  · rintro ⟨piece, rest, rfl, hpiece, pieces, hpieces, rfl⟩
    exact ⟨piece :: pieces, .cons hpiece hpieces, List.flatten_cons⟩

theorem globHelper_char {c head : Char} {pat text : List Char} (hstar : c ≠ '*')
    (hquestion : c ≠ '?') :
    globHelper (c :: pat) (head :: text) = (head == c && globHelper pat text) := by
  simp [globHelper]

-- Every way to cut the text gives one of the rests the star tries.
theorem mem_tails_iff {text rest : List Char} :
    rest ∈ text.tails ↔ ∃ piece, text = piece ++ rest := by
  rw [List.mem_tails]
  exact ⟨fun ⟨piece, h⟩ => ⟨piece, h.symm⟩, fun ⟨piece, h⟩ => ⟨piece, h.symm⟩⟩

-- The induction is on the pattern, for every text: each choice of a split point is one
-- first piece, and the rest of the pattern splits the rest of the text.
theorem globHelper_iff (pat text : List Char) : globHelper pat text = true ↔ Splits pat text := by
  induction pat generalizing text with
  | nil => simp [globHelper]
  | cons c pat ih =>
      rw [splits_cons]
      by_cases hstar : c = '*'
      · subst hstar
        simp only [globHelper, List.any_eq_true, mem_tails_iff, ih, takes_star, true_and]
        constructor
        · rintro ⟨rest, ⟨piece, h⟩, hrest⟩
          exact ⟨piece, rest, h, hrest⟩
        · rintro ⟨piece, rest, h, hrest⟩
          exact ⟨rest, ⟨piece, h⟩, hrest⟩
      · by_cases hquestion : c = '?'
        · subst hquestion
          cases text with
          | nil => simp [globHelper]
          | cons head text =>
              simp only [globHelper, ih, takes_question]
              constructor
              · intro h
                exact ⟨[head], text, rfl, ⟨head, rfl⟩, h⟩
              · rintro ⟨_, rest, h, ⟨first, rfl⟩, hrest⟩
                obtain ⟨-, rfl⟩ := List.cons.inj h
                exact hrest
        · simp only [takes_char hstar hquestion]
          cases text with
          | nil => simp [globHelper]
          | cons head text =>
              rw [globHelper_char hstar hquestion]
              simp only [Bool.and_eq_true, beq_iff_eq, ih]
              constructor
              · rintro ⟨rfl, h⟩
                exact ⟨_, text, rfl, rfl, h⟩
              · rintro ⟨_, rest, h, rfl, hrest⟩
                obtain ⟨rfl, rfl⟩ := List.cons.inj h
                exact ⟨rfl, hrest⟩

namespace Checked

-- The star's loop over the split points, with its early return.
def tryEach (helper : Nat → Option Bool) : List Nat → Option Bool
  | [] => some false
  | k :: rest => do
      if ← helper k then
        return true
      tryEach helper rest

-- `glob_helper` on the two slices and the two indices, as the source has it. `none` is
-- the panic of an index out of range.
def globHelper (p : List Char) (pi : Nat) (t : List Char) (ti : Nat) : Option Bool :=
  if pi = p.length then
    some (decide (ti = t.length))
  else
    match h : p[pi]? with
    | none => none
    | some '*' =>
        tryEach (fun k => globHelper p (pi + 1) t k) (List.range' ti (t.length + 1 - ti))
    | some '?' => if ti < t.length then globHelper p (pi + 1) t (ti + 1) else some false
    | some c =>
        if ti < t.length then do
          let head ← t[ti]?
          if head == c then
            globHelper p (pi + 1) t (ti + 1)
          else
            some false
        else
          some false
  termination_by p.length - pi
  decreasing_by
    all_goals exact Nat.sub_succ_lt_self p.length pi (List.getElem?_eq_some_iff.mp h).1

def globMatch (pat s : String) : Option Bool := globHelper pat.toList 0 s.toList 0

theorem tryEach_eq {helper : Nat → Option Bool} {answer : Nat → Bool} {ks : List Nat}
    (h : ∀ k ∈ ks, helper k = some (answer k)) :
    tryEach helper ks = some (ks.any answer) := by
  induction ks with
  | nil => rfl
  | cons k rest ih =>
      have hrest := ih fun k hk => h k (List.mem_cons_of_mem _ hk)
      cases hk : answer k <;> simp [tryEach, h k (by simp), hrest, hk]

-- The split points of the loop are the ends of what is left of the text.
theorem any_range' (t : List Char) (answer : List Char → Bool) {ti : Nat} (hti : ti ≤ t.length) :
    (List.range' ti (t.length + 1 - ti)).any (fun k => answer (t.drop k)) =
      (t.drop ti).tails.any answer := by
  induction hn : t.length - ti generalizing ti with
  | zero =>
      have : ti = t.length := by omega
      subst this
      simp
  | succ n ih =>
      have hlt : ti < t.length := by omega
      have hsucc : t.length + 1 - ti = (t.length + 1 - (ti + 1)) + 1 := by omega
      rw [hsucc, List.range'_succ, List.any_cons, ih (by omega) (by omega),
        List.drop_eq_getElem_cons hlt, List.tails_cons, List.any_cons]

-- No index leaves its slice, and the loop over the indices computes what the recursion on
-- the rests does. The measure is the pattern that is left.
theorem globHelper_eq (p t : List Char) (pi ti : Nat) (hpi : pi ≤ p.length)
    (hti : ti ≤ t.length) :
    globHelper p pi t ti = some (RspaceRegistry.globHelper (p.drop pi) (t.drop ti)) := by
  induction hn : p.length - pi generalizing pi ti with
  | zero =>
      have : pi = p.length := by omega
      subst this
      have hend : (t.drop ti).isEmpty = decide (ti = t.length) := by
        rw [Bool.eq_iff_iff, List.isEmpty_iff, List.drop_eq_nil_iff, decide_eq_true_iff]
        omega
      rw [globHelper, if_pos rfl, List.drop_length, RspaceRegistry.globHelper, hend]
  | succ n ih =>
      have hlt : pi < p.length := by omega
      have hnext (k : Nat) (hk : k ≤ t.length) := ih (pi + 1) k hlt hk (by omega)
      have hget : p[pi]? = some p[pi] := List.getElem?_eq_getElem hlt
      rw [globHelper, if_neg (by omega), List.drop_eq_getElem_cons hlt]
      generalize p[pi] = c at hget
      split
      · next h => simp [h] at hget
      · next h =>
          obtain rfl : '*' = c := by simpa [h] using hget
          have hks : ∀ k ∈ List.range' ti (t.length + 1 - ti), globHelper p (pi + 1) t k =
              some (RspaceRegistry.globHelper (p.drop (pi + 1)) (t.drop k)) := by
            intro k hk
            apply hnext
            have := List.mem_range'_1.mp hk
            omega
          rw [tryEach_eq hks, any_range' t _ hti, RspaceRegistry.globHelper]
      · next h =>
          obtain rfl : '?' = c := by simpa [h] using hget
          by_cases hlt : ti < t.length
          · rw [if_pos hlt, hnext (ti + 1) hlt, List.drop_eq_getElem_cons hlt,
              RspaceRegistry.globHelper]
          · have hnil : t.drop ti = [] := List.drop_eq_nil_of_le (by omega)
            rw [if_neg hlt, hnil, RspaceRegistry.globHelper]
      · next x hstar hquestion h =>
          obtain rfl : c = x := Option.some.inj (hget.symm.trans h)
          by_cases hlt : ti < t.length
          · rw [if_pos hlt, List.getElem?_eq_getElem hlt, List.drop_eq_getElem_cons hlt,
              hnext (ti + 1) hlt, globHelper_char hstar hquestion]
            by_cases hhead : t[ti] = c <;> simp [hhead]
          · have hnil : t.drop ti = [] := List.drop_eq_nil_of_le (by omega)
            simp [hlt, hnil, RspaceRegistry.globHelper]

theorem globMatch_eq (pat s : String) :
    globMatch pat s = some (RspaceRegistry.globMatch pat s) := by
  rw [globMatch, globHelper_eq _ _ _ _ (Nat.zero_le _) (Nat.zero_le _)]
  rfl

end Checked

-- The matcher answers on every input without an index out of range, and answers true
-- exactly when the pattern's characters can share the text out.
theorem globMatch_correct (pat s : String) :
    Checked.globMatch pat s = some (globMatch pat s) ∧
      (globMatch pat s = true ↔ Splits pat.toList s.toList) :=
  ⟨Checked.globMatch_eq pat s, globHelper_iff _ _⟩

end RspaceRegistry.Glob
