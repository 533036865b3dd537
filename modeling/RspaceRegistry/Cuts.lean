import Mathlib.Data.List.Infix
import Mathlib.Data.List.TakeWhile
import Mathlib.Data.Nat.Find

namespace RspaceRegistry.Cuts

variable {α : Type} [DecidableEq α] {marker front back text : List α}

-- A text cut at the first place, and at the last place, where a marker stands:
-- what is before the marker and what is behind it.
def cutFirst (marker text : List α) : Option (List α × List α) := text.dropInfix? marker

def cutLast (marker text : List α) : Option (List α × List α) :=
  (text.reverse.dropInfix? marker.reverse).map fun parts => (parts.2.reverse, parts.1.reverse)

-- A text cut at the first separator.
def cutOnce (sep : α) (text : List α) : Option (List α × List α) :=
  match text.span (· ≠ sep) with
  | (_, []) => none
  | (front, _ :: back) => some (front, back)

theorem dropPrefix_eq_some : text.dropPrefix? front = some back ↔ text = front ++ back := by
  simp [List.dropPrefix?_eq_some_iff]

theorem dropSuffix_eq_some : text.dropSuffix? back = some front ↔ text = front ++ back := by
  simp [List.dropSuffix?_eq_some_iff]

theorem cutFirst_eq_some : cutFirst marker text = some (front, back) ↔
    text = front ++ marker ++ back ∧
      ∀ front' back', text = front' ++ marker ++ back' → front.length ≤ front'.length := by
  rw [cutFirst, List.dropInfix?_eq_some_iff]
  constructor
  · rintro ⟨⟨middle, htext, hmiddle⟩, hfirst⟩
    obtain rfl := beq_iff_eq.mp hmiddle
    exact ⟨htext, fun front' back' h => hfirst front' _ back' h BEq.rfl⟩
  · rintro ⟨htext, hfirst⟩
    refine ⟨⟨marker, htext, BEq.rfl⟩, ?_⟩
    intro front' middle back' h hmiddle
    obtain rfl := beq_iff_eq.mp hmiddle
    exact hfirst front' back' h

theorem cutLast_eq_some (h : cutLast marker text = some (front, back)) :
    text = front ++ marker ++ back := by
  obtain ⟨⟨first, last⟩, hcut, heq⟩ := Option.map_eq_some_iff.mp h
  obtain ⟨rfl, rfl⟩ := Prod.mk.inj heq
  obtain ⟨⟨middle, htext, hmiddle⟩, -⟩ := List.dropInfix?_eq_some_iff.mp hcut
  rw [beq_iff_eq.mp hmiddle] at htext
  have hreverse := congrArg List.reverse htext
  simpa using hreverse

theorem cutLast_eq_some_iff : cutLast marker text = some (front, back) ↔
    text = front ++ marker ++ back ∧
      ∀ front' back', text = front' ++ marker ++ back' → back.length ≤ back'.length := by
  have hreverse : ∀ front back : List α, text = front ++ marker ++ back ↔
      text.reverse = back.reverse ++ marker.reverse ++ front.reverse := by
    intro front back
    rw [← List.reverse_inj]
    simp
  have hcut : cutLast marker text = some (front, back) ↔
      cutFirst marker.reverse text.reverse = some (back.reverse, front.reverse) := by
    rw [cutLast, cutFirst, Option.map_eq_some_iff]
    constructor
    · rintro ⟨⟨first, last⟩, hparts, heq⟩
      obtain ⟨rfl, rfl⟩ := Prod.mk.inj heq
      rw [hparts, List.reverse_reverse, List.reverse_reverse]
    · intro hparts
      exact ⟨_, hparts, by rw [List.reverse_reverse, List.reverse_reverse]⟩
  rw [hcut, cutFirst_eq_some, ← hreverse]
  refine and_congr_right fun _ => ⟨fun h front' back' heq => ?_, fun h front' back' heq => ?_⟩
  · simpa using h _ _ ((hreverse front' back').mp heq)
  · rw [List.length_reverse, ← @List.length_reverse _ front']
    apply h back'.reverse front'.reverse
    rw [hreverse, List.reverse_reverse, List.reverse_reverse, heq]

-- A marker that stands somewhere stands somewhere first.
theorem cutFirst_isSome : (cutFirst marker text).isSome ↔ marker <:+: text := by
  rw [Option.isSome_iff_exists]
  constructor
  · rintro ⟨⟨front, back⟩, hcut⟩
    exact ⟨front, back, (cutFirst_eq_some.mp hcut).1.symm⟩
  · rintro ⟨front, back, htext⟩
    have hex : ∃ n front back, text = front ++ marker ++ back ∧ front.length = n :=
      ⟨_, front, back, htext.symm, rfl⟩
    classical
    obtain ⟨first, last, hfirst, hlength⟩ := Nat.find_spec hex
    refine ⟨(first, last), cutFirst_eq_some.mpr ⟨hfirst, ?_⟩⟩
    intro front' back' htext'
    rw [hlength]
    exact Nat.find_min' hex ⟨front', back', htext', rfl⟩

theorem cutFirst_eq_none : cutFirst marker text = none ↔ ¬marker <:+: text := by
  rw [← Option.not_isSome_iff_eq_none, cutFirst_isSome]

-- Cutting at the first marker of a list that stands in the text.
theorem findSome_cutFirst (markers : List (List α)) :
    markers.findSome? (fun marker => cutFirst marker text) =
      (markers.find? fun marker => decide (marker <:+: text)).bind fun marker =>
        cutFirst marker text := by
  induction markers with
  | nil => rfl
  | cons marker rest ih =>
      rw [List.findSome?_cons, List.find?_cons]
      by_cases hoccurs : marker <:+: text
      · obtain ⟨parts, hcut⟩ := Option.isSome_iff_exists.mp (cutFirst_isSome.mpr hoccurs)
        simp only [hoccurs, decide_true, Option.bind_some, hcut]
      · simp only [hoccurs, decide_false, cutFirst_eq_none.mpr hoccurs, ih]

section Segment

variable (sep : α)

-- What stands before the first separator.
def firstSegment (text : List α) : List α := text.takeWhile (· ≠ sep)

def behindFirst (text : List α) : List α := text.dropWhile (· ≠ sep)

variable {sep}

theorem head_splitOn (text : List α) : (text.splitOn sep).head? = some (firstSegment sep text) := by
  induction text with
  | nil => rfl
  | cons head rest ih =>
      rw [List.splitOn_cons_eq_if_modifyHead, firstSegment, List.takeWhile_cons]
      by_cases hsep : head = sep
      · simp [hsep]
      · cases hparts : rest.splitOn sep with
        | nil => exact absurd hparts (List.splitOn_ne_nil _ _)
        | cons first others =>
            rw [hparts] at ih
            simp [hsep, Option.some.inj ih, firstSegment]

theorem firstSegment_append_behind : firstSegment sep text ++ behindFirst sep text = text :=
  List.takeWhile_append_dropWhile

theorem firstSegment_append_of_mem (h : sep ∈ front) :
    firstSegment sep (front ++ back) = firstSegment sep front := by
  induction front with
  | nil => cases h
  | cons head rest ih =>
      by_cases hhead : head = sep
      · simp [firstSegment, hhead]
      · have hrest := ih ((List.mem_cons.mp h).resolve_left (Ne.symm hhead))
        rw [firstSegment] at hrest ⊢
        rw [List.cons_append, List.takeWhile_cons_of_pos (by simpa using hhead), hrest, firstSegment,
          firstSegment, List.takeWhile_cons_of_pos (by simpa using hhead)]

theorem firstSegment_append_cons (h : sep ∉ front) :
    firstSegment sep (front ++ sep :: back) = front ∧
      behindFirst sep (front ++ sep :: back) = sep :: back := by
  have hall : ∀ a ∈ front, decide (a ≠ sep) = true := by
    intro a ha
    rw [decide_eq_true_eq]
    rintro rfl
    exact h ha
  rw [firstSegment, behindFirst, List.takeWhile_append_of_pos hall, List.dropWhile_append_of_pos hall]
  simp

omit [DecidableEq α] in
-- What stands behind the last separator.
theorem lastSegment_inj {front' back' : List α} (hback : sep ∉ back) (hback' : sep ∉ back')
    (h : front ++ sep :: back = front' ++ sep :: back') : front = front' ∧ back = back' := by
  rcases List.append_eq_append_iff.mp h with ⟨middle, hfront, htail⟩ | ⟨middle, hfront, htail⟩
  · cases middle with
    | nil =>
        rw [List.append_nil] at hfront
        exact ⟨hfront.symm, (List.cons.inj htail).2⟩
    | cons head rest =>
        exfalso
        apply hback
        rw [(List.cons.inj htail).2]
        exact List.mem_append_right rest List.mem_cons_self
  · cases middle with
    | nil =>
        rw [List.append_nil] at hfront
        exact ⟨hfront, (List.cons.inj htail).2.symm⟩
    | cons head rest =>
        exfalso
        apply hback'
        rw [(List.cons.inj htail).2]
        exact List.mem_append_right rest List.mem_cons_self

-- A marker that ends in the separator is cut out at the last separator, if it
-- stands there.
theorem cutLast_of_notMem {rest : List α} (hback : sep ∉ back) :
    cutLast (rest ++ [sep]) (front ++ rest ++ sep :: back) = some (front, back) := by
  rw [cutLast_eq_some_iff]
  constructor
  · simp
  · intro front' back' h
    by_contra hlt
    have hlt : back'.length < back.length := Nat.lt_of_not_le hlt
    have hsuffix : sep :: back' <:+ sep :: back := by
      apply @List.suffix_of_suffix_length_le _ _ (front ++ rest ++ sep :: back) _
      · rw [h]
        exact ⟨front' ++ rest, by simp⟩
      · exact List.suffix_append _ _
      · simp only [List.length_cons]
        omega
    rcases List.suffix_cons_iff.mp hsuffix with heq | hinner
    · have hlen := congrArg List.length heq
      simp only [List.length_cons] at hlen
      omega
    · exact hback (hinner.subset List.mem_cons_self)

theorem sep_notMem_firstSegment : sep ∉ firstSegment sep text := by
  intro h
  have hp := List.mem_takeWhile_imp h
  simp at hp

omit [DecidableEq α] in
theorem infix_of_append {rest tail : List α} (hfront : sep ∉ front)
    (h : sep :: rest <:+: front ++ tail) : sep :: rest <:+: tail := by
  induction front with
  | nil => exact h
  | cons head front ih =>
      obtain ⟨hhead, hfront⟩ := not_or.mp (List.mem_cons.not.mp hfront)
      rcases List.infix_cons_iff.mp h with hbegins | hoccurs
      · exact absurd (List.cons_prefix_cons.mp hbegins).1 hhead
      · exact ih hfront hoccurs

-- A marker that begins with the separator is cut out without one before it
-- exactly if it stands right behind the first segment.
theorem sep_notMem_iff {rest : List α} (hcut : cutFirst (sep :: rest) text = some (front, back)) :
    sep ∉ front ↔ sep :: rest <+: behindFirst sep text := by
  obtain ⟨htext, hfirst⟩ := cutFirst_eq_some.mp hcut
  constructor
  · intro hfront
    rw [htext, List.append_assoc, List.cons_append, (firstSegment_append_cons hfront).2]
    exact List.prefix_append (sep :: rest) back
  · rintro ⟨last, hlast⟩ hmem
    have hsegment : text = firstSegment sep text ++ sep :: rest ++ last := by
      rw [List.append_assoc, hlast, firstSegment_append_behind]
    have hfront : front <+: text := ⟨sep :: rest ++ back, by rw [← List.append_assoc, ← htext]⟩
    have hbegins : front <+: firstSegment sep text :=
      List.prefix_of_prefix_length_le hfront (List.takeWhile_prefix _) (hfirst _ _ hsegment)
    exact sep_notMem_firstSegment (hbegins.subset hmem)

theorem cutOnce_eq : cutOnce sep text =
    if sep ∈ text then some (firstSegment sep text, (behindFirst sep text).tail) else none := by
  have hnil : text.dropWhile (· ≠ sep) = [] ↔ sep ∉ text := by
    rw [List.dropWhile_eq_nil_iff]
    constructor
    · intro h hmem
      simpa using h sep hmem
    · intro h a ha
      rw [decide_eq_true_eq]
      rintro rfl
      exact h ha
  rw [cutOnce, List.span_eq_takeWhile_dropWhile, firstSegment, behindFirst]
  cases hdrop : text.dropWhile (· ≠ sep) with
  | nil => rw [if_neg (hnil.mp hdrop)]
  | cons head back =>
      have hmem : sep ∈ text := by
        by_contra hnot
        rw [hnil.mpr hnot] at hdrop
        cases hdrop
      rw [if_pos hmem]
      rfl

theorem cutOnce_eq_some : cutOnce sep text = some (front, back) ↔
    text = front ++ sep :: back ∧ sep ∉ front := by
  rw [cutOnce_eq]
  constructor
  · intro h
    split at h
    · rename_i hmem
      obtain ⟨rfl, rfl⟩ := Prod.mk.inj (Option.some.inj h)
      obtain ⟨before, after, rfl, hbefore⟩ := List.eq_append_cons_of_mem hmem
      obtain ⟨hfirst, hbehind⟩ : firstSegment sep (before ++ sep :: after) = before ∧
          behindFirst sep (before ++ sep :: after) = sep :: after :=
        firstSegment_append_cons hbefore
      rw [hfirst, hbehind]
      exact ⟨rfl, hbefore⟩
    · cases h
  · rintro ⟨rfl, hfront⟩
    obtain ⟨hfirst, hbehind⟩ : firstSegment sep (front ++ sep :: back) = front ∧
        behindFirst sep (front ++ sep :: back) = sep :: back :=
      firstSegment_append_cons hfront
    rw [if_pos (by simp), hfirst, hbehind, List.tail_cons]

end Segment

end RspaceRegistry.Cuts
