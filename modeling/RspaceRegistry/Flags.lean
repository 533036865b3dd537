import RspaceRegistry.Http.Query
import RspaceRegistry.Slices

namespace RspaceRegistry.Flags

open Disk Http Slices

-- The sizes and durations of the command line. `none` is a panic: a slice that does not
-- exist, or an overflow where overflow is checked.

-- `.find(|c: char| !c.is_ascii_digit())`, in bytes.
def findUnit (s : List Char) : Option Nat :=
  if s.all Char.isDigit then none else some (String.utf8Len (s.takeWhile Char.isDigit))

-- `u64::checked_mul`
def checkedMul (a b : Nat) : Option Nat := if a * b < 2 ^ 64 then some (a * b) else none

-- `a * b` of two `u64`: a build with overflow checks panics where the product does not
-- fit, and one without them, as the release profile is, keeps its low bits.
def mulU64 (overflowChecks : Bool) (a b : Nat) : Option Nat :=
  if overflowChecks then checkedMul a b else some (a * b % 2 ^ 64)

def sizeMult (unit : String) : Option Nat :=
  if unit = "" ∨ unit = "b" then some 1
  else if unit = "k" ∨ unit = "ki" then some (1 <<< 10)
  else if unit = "m" ∨ unit = "mi" then some (1 <<< 20)
  else if unit = "g" ∨ unit = "gi" then some (1 <<< 30)
  else if unit = "t" ∨ unit = "ti" then some (1 <<< 40)
  else none

def parseSize (s : String) : Option (Except String Nat) := do
  let s := trim s
  let split := (findUnit s.toList).getD (String.utf8Len s.toList)
  let (num, unit) ← splitAtByte s.toList split
  let some n := parseUsize (String.ofList num) | return .error ("invalid size " ++ s.quote)
  let other := (trim (String.ofList unit)).toLower
  let some mult := sizeMult other
    | return .error ("unknown size unit " ++ other.quote ++ " in " ++ s.quote)
  match checkedMul n mult with
  | some size => return .ok size
  | none => return .error ("size " ++ s.quote ++ " overflows u64")

-- The number of a duration and what is behind it; a number alone is in seconds.
def durationParts (s : List Char) : Option (List Char × List Char) :=
  match findUnit s with
  | some i => do
      let num ← sliceTo s i
      let unit ← sliceFrom s i
      some (num, unit)
  | none => some (s, ['s'])

def durationSecs (overflowChecks : Bool) (n : Nat) (unit : String) : Option (Option Nat) :=
  if unit = "" ∨ unit = "s" then some (some n)
  else if unit = "m" then (mulU64 overflowChecks n 60).map some
  else if unit = "h" then (mulU64 overflowChecks n 3600).map some
  else some none

-- In seconds.
def parseDuration (overflowChecks : Bool) (s : String) : Option (Except String Nat) :=
  if s = "0" then some (.ok 0)
  else do
    let s := trim s
    let (num, unit) ← durationParts s.toList
    let some n := parseUsize (String.ofList num) | return .error ("invalid duration " ++ s.quote)
    match ← durationSecs overflowChecks n (String.ofList unit) with
    | some secs => return .ok secs
    | none =>
        return .error ("unknown duration unit " ++ (String.ofList unit).quote ++ " in " ++ s.quote)

-- What a flag says: a number in decimal digits and the unit behind it, with blanks around.
def Reads (s : String) (n : Nat) (unit : List Char) : Prop :=
  ∃ digits, (trim s).toList = digits ++ unit ∧ digits ≠ [] ∧ (∀ c ∈ digits, c.isDigit = true) ∧
    (∀ c ∈ unit.head?, c.isDigit = false) ∧ n = Nat.ofDigitChars 10 digits 0

def sizeUnits : List (String × Nat) :=
  [("", 1), ("b", 1), ("k", 1024), ("ki", 1024), ("m", 1024 ^ 2), ("mi", 1024 ^ 2),
    ("g", 1024 ^ 3), ("gi", 1024 ^ 3), ("t", 1024 ^ 4), ("ti", 1024 ^ 4)]

def durationUnits : List (String × Nat) := [("", 1), ("s", 1), ("m", 60), ("h", 60 * 60)]

-- A unit of a size may be in either case, and behind more blanks.
def ReadsSize (s : String) (n mult : Nat) : Prop :=
  ∃ unit, Reads s n unit ∧ ((trim (String.ofList unit)).toLower, mult) ∈ sizeUnits

def ReadsDuration (s : String) (n mult : Nat) : Prop :=
  ∃ unit, Reads s n unit ∧ (String.ofList unit, mult) ∈ durationUnits

-- An outcome is exact: no panic, no value but the product, and an error where the product
-- does not fit.
structure Exact (reads : Nat → Nat → Prop) (outcome : Option (Except String Nat)) : Prop where
  answers : outcome ≠ none
  value : ∀ v, outcome = some (.ok v) → ∃ n mult, reads n mult ∧ v = n * mult
  refuses : ∀ n mult, reads n mult → 2 ^ 64 ≤ n * mult → ∃ err, outcome = some (.error err)

-- The product where there is one that fits, and an error everywhere else.
def Decided (reads : Nat → Nat → Prop) (outcome : Option (Except String Nat)) : Prop :=
  (∃ n mult, reads n mult ∧ n * mult < 2 ^ 64 ∧ outcome = some (.ok (n * mult))) ∨
    ((∃ err, outcome = some (.error err)) ∧ ∀ n mult, reads n mult → 2 ^ 64 ≤ n * mult)

-- Where the plain multiplication of a duration leaves the range of `u64`.
def Overflows (s : String) : Prop :=
  ∃ n mult, ReadsDuration s n mult ∧ n < 2 ^ 64 ∧ 2 ^ 64 ≤ n * mult

section Numbers

variable {s : String} {n mult : Nat} {unit : List Char}

-- The number is as long as it can be: there is one way to read a flag.
theorem reads_iff : Reads s n unit ↔ (trim s).toList.takeWhile Char.isDigit ≠ [] ∧
    (trim s).toList.dropWhile Char.isDigit = unit ∧
    Nat.ofDigitChars 10 ((trim s).toList.takeWhile Char.isDigit) 0 = n := by
  constructor
  · intro ⟨digits, htext, hne, hdigits, hunit, hn⟩
    have hfront : (digits ++ unit).takeWhile Char.isDigit = digits := by
      rw [List.takeWhile_append_of_pos hdigits]
      cases unit with
      | nil => simp
      | cons c rest => simp [hunit c (by simp)]
    have hback : (digits ++ unit).dropWhile Char.isDigit = unit := by
      rw [List.dropWhile_append_of_pos hdigits]
      cases unit with
      | nil => simp
      | cons c rest => simp [hunit c (by simp)]
    rw [htext, hfront, hback]
    exact ⟨hne, rfl, hn.symm⟩
  · generalize htext : (trim s).toList = text
    intro ⟨hne, hunit, hn⟩
    refine ⟨text.takeWhile Char.isDigit, ?_, hne, fun c hc => List.mem_takeWhile_imp hc, ?_,
      hn.symm⟩
    · rw [htext, ← hunit, List.takeWhile_append_dropWhile]
    · intro c hc
      have hhead := List.head?_dropWhile_not Char.isDigit text
      rw [hunit, Option.mem_def.mp hc] at hhead
      exact hhead

theorem splitAt_unit (text : List Char) :
    splitAtByte text ((findUnit text).getD (String.utf8Len text)) =
      some (text.takeWhile Char.isDigit, text.dropWhile Char.isDigit) := by
  unfold findUnit
  split
  · next hall =>
      have hall' := List.all_eq_true.mp hall
      have hfront : text.takeWhile Char.isDigit = text := List.takeWhile_eq_self_iff.mpr hall'
      have hback : text.dropWhile Char.isDigit = [] := List.dropWhile_eq_nil_iff.mpr hall'
      have h := splitAtByte_append text []
      rw [List.append_nil] at h
      rw [Option.getD_none, hfront, hback, h]
  · have h := splitAtByte_append (text.takeWhile Char.isDigit) (text.dropWhile Char.isDigit)
    rw [List.takeWhile_append_dropWhile] at h
    rw [Option.getD_some, h]

theorem parseUsize_takeWhile (text : List Char) :
    parseUsize (String.ofList (text.takeWhile Char.isDigit)) =
      if text.takeWhile Char.isDigit ≠ [] ∧
          Nat.ofDigitChars 10 (text.takeWhile Char.isDigit) 0 < 2 ^ 64 then
        some (Nat.ofDigitChars 10 (text.takeWhile Char.isDigit) 0)
      else none := by
  by_cases hne : text.takeWhile Char.isDigit = []
  · rw [hne]
    rfl
  · rw [parseUsize_digits hne fun c hc => List.mem_takeWhile_imp hc]
    simp [hne]

theorem sizeMult_eq_some {unit : String} : sizeMult unit = some mult ↔ (unit, mult) ∈ sizeUnits := by
  have htable : ∀ entry ∈ sizeUnits, sizeMult entry.1 = some entry.2 := by decide
  constructor
  · intro h
    unfold sizeMult at h
    split_ifs at h with hunit hunit hunit hunit hunit <;> cases h <;>
      obtain rfl | rfl := hunit <;> decide
  · exact htable (unit, mult)

theorem one_le_mult {unit : String}
    (h : (unit, mult) ∈ sizeUnits ∨ (unit, mult) ∈ durationUnits) : 1 ≤ mult := by
  have hall : ∀ entry ∈ sizeUnits ++ durationUnits, 1 ≤ entry.2 := by decide
  exact hall (unit, mult) (List.mem_append.mpr h)

end Numbers

theorem exact_of_decided {reads : Nat → Nat → Prop} {outcome : Option (Except String Nat)}
    (hunique : ∀ n mult n' mult', reads n mult → reads n' mult' → n = n' ∧ mult = mult')
    (h : Decided reads outcome) : Exact reads outcome := by
  obtain ⟨n, mult, hreads, hfits, rfl⟩ | ⟨⟨err, rfl⟩, hlarge⟩ := h
  · refine ⟨by simp, ?_, ?_⟩
    · intro v hv
      cases hv
      exact ⟨n, mult, hreads, rfl⟩
    · intro n' mult' hreads' hlarge
      obtain ⟨rfl, rfl⟩ := hunique _ _ _ _ hreads hreads'
      omega
  · exact ⟨by simp, by simp, fun _ _ _ _ => ⟨err, rfl⟩⟩

section Size

variable {s : String} {n mult : Nat}

theorem readsSize_iff : ReadsSize s n mult ↔
    Reads s n ((trim s).toList.dropWhile Char.isDigit) ∧
      sizeMult (trim (String.ofList ((trim s).toList.dropWhile Char.isDigit))).toLower =
        some mult := by
  constructor
  · intro ⟨unit, hreads, hunit⟩
    obtain ⟨-, rfl, -⟩ := reads_iff.mp hreads
    exact ⟨hreads, sizeMult_eq_some.mpr hunit⟩
  · intro ⟨hreads, hunit⟩
    exact ⟨_, hreads, sizeMult_eq_some.mp hunit⟩

theorem readsSize_unique {n' mult' : Nat} (h : ReadsSize s n mult) (h' : ReadsSize s n' mult') :
    n = n' ∧ mult = mult' := by
  obtain ⟨hreads, hunit⟩ := readsSize_iff.mp h
  obtain ⟨hreads', hunit'⟩ := readsSize_iff.mp h'
  rw [← (reads_iff.mp hreads).2.2, ← (reads_iff.mp hreads').2.2]
  exact ⟨rfl, Option.some.inj (hunit.symm.trans hunit')⟩

theorem parseSize_decided (s : String) : Decided (ReadsSize s) (parseSize s) := by
  unfold parseSize
  simp only [splitAt_unit, Option.bind_eq_bind, Option.bind_some, parseUsize_takeWhile]
  by_cases hnum : (trim s).toList.takeWhile Char.isDigit ≠ [] ∧
      Nat.ofDigitChars 10 ((trim s).toList.takeWhile Char.isDigit) 0 < 2 ^ 64
  · rw [if_pos hnum]
    have hreads := reads_iff.mpr ⟨hnum.1, rfl, rfl⟩
    cases hunit : sizeMult (trim (String.ofList
        ((trim s).toList.dropWhile Char.isDigit))).toLower with
    | none =>
        refine .inr ⟨⟨_, rfl⟩, ?_⟩
        intro n mult h
        have := (readsSize_iff.mp h).2
        rw [hunit] at this
        cases this
    | some mult =>
        have hsize := readsSize_iff.mpr ⟨hreads, hunit⟩
        simp only [checkedMul]
        split_ifs with hfits
        · exact .inl ⟨_, _, hsize, hfits, rfl⟩
        · refine .inr ⟨⟨_, rfl⟩, ?_⟩
          intro n mult' h
          obtain ⟨rfl, rfl⟩ := readsSize_unique hsize h
          omega
  · rw [if_neg hnum]
    refine .inr ⟨⟨_, rfl⟩, ?_⟩
    intro n mult ⟨unit, hreads, hunit⟩
    obtain ⟨hne, -, hn⟩ := reads_iff.mp hreads
    have hlarge : 2 ^ 64 ≤ n := by
      rw [← hn]
      by_contra hlt
      exact hnum ⟨hne, by omega⟩
    exact hlarge.trans (Nat.le_mul_of_pos_right n (one_le_mult (.inl hunit)))

end Size

section Duration

variable {s : String} {n mult : Nat} {overflowChecks : Bool}

theorem mulU64_fits (h : n * mult < 2 ^ 64) : mulU64 overflowChecks n mult = some (n * mult) := by
  cases overflowChecks <;> simp only [mulU64, checkedMul, if_pos h, Nat.mod_eq_of_lt h] <;> rfl

theorem readsDuration_iff : ReadsDuration s n mult ↔
    Reads s n ((trim s).toList.dropWhile Char.isDigit) ∧
      (String.ofList ((trim s).toList.dropWhile Char.isDigit), mult) ∈ durationUnits := by
  constructor
  · intro ⟨unit, hreads, hunit⟩
    obtain ⟨-, rfl, -⟩ := reads_iff.mp hreads
    exact ⟨hreads, hunit⟩
  · intro ⟨hreads, hunit⟩
    exact ⟨_, hreads, hunit⟩

theorem durationUnits_unique {unit : String} {mult' : Nat} (h : (unit, mult) ∈ durationUnits)
    (h' : (unit, mult') ∈ durationUnits) : mult = mult' := by
  have hall : ∀ entry ∈ durationUnits, ∀ entry' ∈ durationUnits,
      entry.1 = entry'.1 → entry.2 = entry'.2 := by decide
  exact hall _ h _ h' rfl

theorem readsDuration_unique {n' mult' : Nat} (h : ReadsDuration s n mult)
    (h' : ReadsDuration s n' mult') : n = n' ∧ mult = mult' := by
  obtain ⟨hreads, hunit⟩ := readsDuration_iff.mp h
  obtain ⟨hreads', hunit'⟩ := readsDuration_iff.mp h'
  rw [← (reads_iff.mp hreads).2.2, ← (reads_iff.mp hreads').2.2]
  exact ⟨rfl, durationUnits_unique hunit hunit'⟩

theorem durationParts_eq (text : List Char) : durationParts text =
    some (text.takeWhile Char.isDigit,
      if text.dropWhile Char.isDigit = [] then ['s'] else text.dropWhile Char.isDigit) := by
  have h := splitAt_unit text
  unfold durationParts
  cases hfind : findUnit text with
  | none =>
      unfold findUnit at hfind
      split_ifs at hfind with hall
      have hall' := List.all_eq_true.mp hall
      simp only [List.takeWhile_eq_self_iff.mpr hall', List.dropWhile_eq_nil_iff.mpr hall', if_true]
  | some i =>
      rw [hfind, Option.getD_some] at h
      have hne : text.dropWhile Char.isDigit ≠ [] := by
        intro hnil
        unfold findUnit at hfind
        rw [if_pos (List.all_eq_true.mpr (List.dropWhile_eq_nil_iff.mp hnil))] at hfind
        cases hfind
      simp only [sliceTo, sliceFrom, h, if_neg hne, Option.map_some, Option.bind_eq_bind,
        Option.bind_some]

-- Every unit of the table multiplies, the seconds by one.
theorem durationSecs_of_mem {text : List Char} (hn : n < 2 ^ 64)
    (h : (String.ofList text, mult) ∈ durationUnits) :
    durationSecs overflowChecks n (String.ofList (if text = [] then ['s'] else text)) =
      (mulU64 overflowChecks n mult).map some := by
  have hsecs : mulU64 overflowChecks n 1 = some n := by
    rw [mulU64_fits (by omega), Nat.mul_one]
  have htext : ∀ unit : String, String.ofList text = unit → text = unit.toList := by
    intro unit hunit
    rw [← hunit, String.toList_ofList]
  simp only [durationUnits, List.mem_cons, Prod.mk.injEq, List.not_mem_nil, or_false] at h
  obtain ⟨hunit, rfl⟩ | ⟨hunit, rfl⟩ | ⟨hunit, rfl⟩ | ⟨hunit, rfl⟩ := h
  · rw [htext _ hunit, hsecs]
    rfl
  · rw [htext _ hunit, hsecs]
    rfl
  · rw [htext _ hunit]
    rfl
  · rw [htext _ hunit]
    rfl

theorem durationSecs_of_not_mem {text : List Char}
    (h : ∀ mult, (String.ofList text, mult) ∉ durationUnits) :
    durationSecs overflowChecks n (String.ofList (if text = [] then ['s'] else text)) =
      some none := by
  have hne : ∀ entry ∈ durationUnits, String.ofList text ≠ entry.1 := by
    intro entry hentry heq
    exact h entry.2 (heq ▸ hentry)
  have htext : text ≠ [] := by
    rintro rfl
    exact hne ("", 1) (by decide) rfl
  simp only [durationUnits, List.forall_mem_cons] at hne
  obtain ⟨hempty, hs, hm, hh, -⟩ := hne
  simp only [if_neg htext, durationSecs, hempty, hs, hm, hh, or_self, if_false]

-- What is multiplied, and that nothing else is: the number may not fit, or the unit may
-- be none.
theorem parseDuration_cases (overflowChecks : Bool) (s : String) :
    (∃ n mult, ReadsDuration s n mult ∧ n < 2 ^ 64 ∧
      parseDuration overflowChecks s = (mulU64 overflowChecks n mult).map .ok) ∨
    ((∃ err, parseDuration overflowChecks s = some (.error err)) ∧
      ∀ n mult, ReadsDuration s n mult → 2 ^ 64 ≤ n) := by
  by_cases hzero : s = "0"
  · subst hzero
    have hreads : Reads "0" 0 [] := ⟨['0'], by decide, by decide, by simp, by simp, by decide⟩
    refine .inl ⟨0, 1, ⟨[], hreads, by decide⟩, by decide, ?_⟩
    rw [mulU64_fits (by decide)]
    rfl
  · unfold parseDuration
    rw [if_neg hzero]
    simp only [durationParts_eq, Option.bind_eq_bind, Option.bind_some, parseUsize_takeWhile]
    by_cases hnum : (trim s).toList.takeWhile Char.isDigit ≠ [] ∧
        Nat.ofDigitChars 10 ((trim s).toList.takeWhile Char.isDigit) 0 < 2 ^ 64
    · have hreads := reads_iff.mpr ⟨hnum.1, rfl, rfl⟩
      rw [if_pos hnum]
      by_cases hunit : ∃ mult, (String.ofList ((trim s).toList.dropWhile Char.isDigit), mult) ∈
          durationUnits
      · obtain ⟨mult, hmult⟩ := hunit
        refine .inl ⟨_, mult, readsDuration_iff.mpr ⟨hreads, hmult⟩, hnum.2, ?_⟩
        simp only [durationSecs_of_mem hnum.2 hmult]
        cases mulU64 overflowChecks _ mult <;> rfl
      · rw [not_exists] at hunit
        simp only [durationSecs_of_not_mem hunit]
        refine .inr ⟨⟨_, rfl⟩, ?_⟩
        intro n mult h
        exact absurd (readsDuration_iff.mp h).2 (hunit mult)
    · rw [if_neg hnum]
      refine .inr ⟨⟨_, rfl⟩, ?_⟩
      intro n mult ⟨unit, hreads, _⟩
      obtain ⟨hne, -, hn⟩ := reads_iff.mp hreads
      rw [← hn]
      by_contra hlt
      exact hnum ⟨hne, by omega⟩

theorem parseDuration_exact_iff (overflowChecks : Bool) (s : String) :
    Exact (ReadsDuration s) (parseDuration overflowChecks s) ↔ ¬Overflows s := by
  obtain ⟨n, mult, hreads, hn, hparse⟩ | ⟨⟨err, herr⟩, hlarge⟩ := parseDuration_cases overflowChecks s
  · constructor
    · rintro hexact ⟨n', mult', hreads', -, hover⟩
      obtain ⟨rfl, rfl⟩ := readsDuration_unique hreads hreads'
      obtain ⟨err, herr⟩ := hexact.refuses n mult hreads hover
      rw [hparse, Option.map_eq_some_iff] at herr
      obtain ⟨_, -, herr⟩ := herr
      cases herr
    · intro hfits
      have hproduct : n * mult < 2 ^ 64 := by
        by_contra hover
        exact hfits ⟨n, mult, hreads, hn, by omega⟩
      refine exact_of_decided (fun _ _ _ _ => readsDuration_unique)
        (.inl ⟨n, mult, hreads, hproduct, ?_⟩)
      rw [hparse, mulU64_fits hproduct]
      rfl
  · have hfits : ¬Overflows s := by
      intro ⟨n, mult, hreads, hn, _⟩
      have := hlarge n mult hreads
      omega
    refine iff_of_true (exact_of_decided (fun _ _ _ _ => readsDuration_unique)
      (.inr ⟨⟨err, herr⟩, ?_⟩)) hfits
    intro n mult hreads
    have hone := one_le_mult (.inr (readsDuration_iff.mp hreads).2)
    exact (hlarge n mult hreads).trans (Nat.le_mul_of_pos_right n hone)

end Duration

-- Sizes are exact in every build. Durations are so but where their plain multiplication
-- leaves the range: there the one build panics, and the other keeps the low bits.
theorem flags_exact (overflowChecks : Bool) (s : String) :
    Exact (ReadsSize s) (parseSize s) ∧
      (Exact (ReadsDuration s) (parseDuration overflowChecks s) ↔ ¬Overflows s) :=
  ⟨exact_of_decided (fun _ _ _ _ => readsSize_unique) (parseSize_decided s),
    parseDuration_exact_iff overflowChecks s⟩

-- So many minutes are 44 seconds in a release build.
theorem overflowing_minutes :
    parseDuration false "307445734561825861m" = some (.ok 44) ∧
      parseDuration true "307445734561825861m" = none ∧
      ∀ overflowChecks, ¬Exact (ReadsDuration "307445734561825861m")
        (parseDuration overflowChecks "307445734561825861m") := by
  refine ⟨rfl, rfl, ?_⟩
  intro overflowChecks hexact
  have hreads : Reads "307445734561825861m" 307445734561825861 ['m'] :=
    ⟨"307445734561825861".toList, rfl, by decide, List.all_eq_true.mp rfl, by simp, by decide⟩
  apply (parseDuration_exact_iff overflowChecks _).mp hexact
  exact ⟨_, 60, ⟨['m'], hreads, by decide⟩, by decide, by decide⟩

end RspaceRegistry.Flags
