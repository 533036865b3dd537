import Mathlib.Data.String.Basic
import RspaceRegistry.Cuts

namespace RspaceRegistry.Slices

open Cuts

-- Texts cut at positions in bytes, as `&s[..i]` and `&s[i..]` are: there is nothing to
-- return where the position is behind the end or inside of a character.

def splitAtByte : List Char → Nat → Option (List Char × List Char)
  | [], i => if i = 0 then some ([], []) else none
  | c :: rest, i =>
      if i = 0 then some ([], c :: rest)
      else if c.utf8Size ≤ i then
        (splitAtByte rest (i - c.utf8Size)).map fun parts => (c :: parts.1, parts.2)
      else none

def sliceTo (text : List Char) (i : Nat) : Option (List Char) := (splitAtByte text i).map Prod.fst

def sliceFrom (text : List Char) (i : Nat) : Option (List Char) := (splitAtByte text i).map Prod.snd

-- `&s[i..j]`
def slice (text : List Char) (i j : Nat) : Option (List Char) :=
  if i ≤ j then (sliceTo text j).bind fun front => sliceFrom front i else none

-- Where a marker stands first, and where it stands last, in bytes.
def find (marker text : List Char) : Option Nat :=
  (cutFirst marker text).map fun parts => String.utf8Len parts.1

def rfind (marker text : List Char) : Option Nat :=
  (cutLast marker text).map fun parts => String.utf8Len parts.1

section Bytes

variable (front back : List Char)

@[simp] theorem splitAtByte_append :
    splitAtByte (front ++ back) (String.utf8Len front) = some (front, back) := by
  induction front with
  | nil => cases back <;> rfl
  | cons c rest ih =>
      have hpos := c.utf8Size_pos
      have hne : String.utf8Len rest + c.utf8Size ≠ 0 := by omega
      rw [List.cons_append, splitAtByte, String.utf8Len_cons, if_neg hne, if_pos (by omega),
        Nat.add_sub_cancel, ih]
      rfl

@[simp] theorem sliceTo_append : sliceTo (front ++ back) (String.utf8Len front) = some front := by
  rw [sliceTo, splitAtByte_append, Option.map_some]

@[simp] theorem sliceFrom_append : sliceFrom (front ++ back) (String.utf8Len front) = some back := by
  rw [sliceFrom, splitAtByte_append, Option.map_some]

theorem utf8Len_append :
    String.utf8Len (front ++ back) = String.utf8Len front + String.utf8Len back := by
  induction front with
  | nil => simp
  | cons c rest ih =>
      rw [List.cons_append, String.utf8Len_cons, String.utf8Len_cons, ih]
      omega

theorem slice_append (middle : List Char) :
    slice (front ++ middle ++ back) (String.utf8Len front) (String.utf8Len (front ++ middle)) =
      some middle := by
  rw [slice, if_pos (by rw [utf8Len_append]; omega), sliceTo_append, Option.bind_some,
    sliceFrom_append]

end Bytes

end RspaceRegistry.Slices
