import RspaceRegistry.Disk.Paths
import RspaceRegistry.Http.Handlers

namespace RspaceRegistry.Http

open Cuts Disk

-- The query string: its pairs, and the bytes that stand for others in them.

def hexNibble (b : UInt8) : Option UInt8 :=
  if 48 ≤ b ∧ b ≤ 57 then some (b - 48)
  else if 97 ≤ b ∧ b ≤ 102 then some (b - 97 + 10)
  else if 65 ≤ b ∧ b ≤ 70 then some (b - 65 + 10)
  else none

-- A plus sign is a space, and a percent sign with two hex digits is a byte. It counts as
-- itself where other bytes follow.
def decodeBytes : Bytes → Bytes
  | [] => []
  | b :: x :: y :: rest =>
      match hexNibble x, hexNibble y with
      | some hi, some lo =>
          if b = 37 then (hi <<< 4 ||| lo) :: decodeBytes rest
          else (if b = 43 then 32 else b) :: decodeBytes (x :: y :: rest)
      | _, _ => (if b = 43 then 32 else b) :: decodeBytes (x :: y :: rest)
  | b :: rest => (if b = 43 then 32 else b) :: decodeBytes rest

section Lossy

def isContinuation (b : UInt8) : Bool := 0x80 ≤ b && b ≤ 0xBF

-- The bytes that the first byte of a character leaves for its second.
def isSecond (first second : UInt8) : Bool :=
  if first = 0xE0 then 0xA0 ≤ second && second ≤ 0xBF
  else if first = 0xED then 0x80 ≤ second && second ≤ 0x9F
  else if first = 0xF0 then 0x90 ≤ second && second ≤ 0xBF
  else if first = 0xF4 then 0x80 ≤ second && second ≤ 0x8F
  else isContinuation second

def utf8Width (first : UInt8) : Nat :=
  if 0xC2 ≤ first ∧ first ≤ 0xDF then 2
  else if 0xE0 ≤ first ∧ first ≤ 0xEF then 3
  else if 0xF0 ≤ first ∧ first ≤ 0xF4 then 4
  else 1

-- How many bytes at the beginning belong to one character, as far as it goes.
def sequenceLen : Bytes → Nat
  | [] => 0
  | first :: rest =>
      match rest with
      | [] => 1
      | second :: rest =>
          if 2 ≤ utf8Width first ∧ isSecond first second then
            2 + ((rest.take (utf8Width first - 2)).takeWhile isContinuation).length
          else 1

-- Every sequence that is no character becomes a replacement character.
def replaceInvalid : Nat → Bytes → List Char
  | 0, _ => []
  | _, [] => []
  | steps + 1, bytes =>
      let len := sequenceLen bytes
      match fromUtf8 (bytes.take len) with
      | some s => s.toList ++ replaceInvalid steps (bytes.drop len)
      | none => '\uFFFD' :: replaceInvalid steps (bytes.drop len)

-- `String::from_utf8_lossy`
def fromUtf8Lossy (bytes : Bytes) : String :=
  match fromUtf8 bytes with
  | some s => s
  | none => String.ofList (replaceInvalid bytes.length bytes)

@[simp] theorem fromUtf8Lossy_utf8 (s : String) : fromUtf8Lossy (utf8 s) = s := by
  simp [fromUtf8Lossy]

end Lossy

def urlDecode (s : String) : String := fromUtf8Lossy (decodeBytes (utf8 s))

-- The pairs of the query string; a pair without `=` has an empty value.
def urlFormPairs (q : String) : Query :=
  ((q.toList.splitOn '&').filter (· ≠ [])).map fun pair =>
    let (key, value) := (cutOnce '=' pair).getD (pair, [])
    (urlDecode (String.ofList key), urlDecode (String.ofList value))

section Decode

theorem decodeBytes_cons (b : UInt8) (rest : Bytes) (h : b ≠ 37 ∨ rest.length < 2) :
    decodeBytes (b :: rest) = (if b = 43 then 32 else b) :: decodeBytes rest := by
  match rest with
  | [] => rfl
  | [x] => rfl
  | x :: y :: rest =>
      have hb : b ≠ 37 := h.resolve_right (by simp)
      rw [decodeBytes]
      split
      · rw [if_neg hb]
      · rfl

theorem decodeBytes_percent (x y : UInt8) (rest : Bytes) : decodeBytes (37 :: x :: y :: rest) =
    match hexNibble x, hexNibble y with
    | some hi, some lo => (hi <<< 4 ||| lo) :: decodeBytes rest
    | _, _ => 37 :: decodeBytes (x :: y :: rest) := by
  rw [decodeBytes]
  split
  · rw [if_pos rfl]
  · rw [if_neg (by decide)]

-- Bytes that stand for themselves.
theorem decodeBytes_plain {bytes : Bytes} (h : ∀ b ∈ bytes, b ≠ 37 ∧ b ≠ 43) :
    decodeBytes bytes = bytes := by
  induction bytes with
  | nil => rfl
  | cons b rest ih =>
      obtain ⟨hpercent, hplus⟩ := h b List.mem_cons_self
      rw [decodeBytes_cons b rest (.inl hpercent), if_neg hplus,
        ih fun b hb => h b (List.mem_cons_of_mem _ hb)]

end Decode

section Numbers

theorem parseUsize_digits {digits : List Char} (hne : digits ≠ [])
    (h : ∀ c ∈ digits, c.isDigit = true) : parseUsize (String.ofList digits) =
      if Nat.ofDigitChars 10 digits 0 < 2 ^ 64 then some (Nat.ofDigitChars 10 digits 0) else none := by
  unfold parseUsize
  extract_lets chars value
  have hchars : chars = digits := by
    unfold chars
    rw [String.toList_ofList]
    split
    · exact absurd (h '+' List.mem_cons_self) (by decide)
    · rfl
  have hplain : ¬(chars = [] ∨ !chars.all Char.isDigit) := by
    rw [not_or, hchars]
    exact ⟨hne, by simpa using h⟩
  have hvalue : value = Nat.ofDigitChars 10 digits 0 := by
    unfold value
    rw [hchars, Nat.ofDigitChars_eq_foldl]
  rw [if_neg hplain, hvalue]

theorem parseUsize_toString (n : Nat) :
    parseUsize (toString n) = if n < 2 ^ 64 then some n else none := by
  rw [Nat.toString_eq_ofList_toDigits, parseUsize_digits Nat.toDigits_ne_nil,
    Nat.ofDigitChars_ten_toDigits]
  exact fun c hc => Nat.isDigit_of_mem_toDigits (by decide) (by decide) hc

end Numbers

section Page

variable (entries : List String) (url : String)

-- The entries behind the one that the last page ended with.
def remaining (last : Option String) : List String :=
  match last with
  | some after => entries.filter fun entry => after < entry
  | none => entries

def linkText (limit : Nat) (final : String) : String :=
  "<" ++ url ++ "?n=" ++ toString limit ++ "&last=" ++ final ++ ">; rel=\"next\""

theorem page_all (last : Option String) : page entries url none last = (remaining entries last, []) := by
  cases last <;> rfl

variable {entries} {last : Option String} {limit : Nat}

theorem page_end (h : (remaining entries last).length ≤ limit) :
    page entries url (some limit) last = (remaining entries last, []) := by
  have htake : (remaining entries last).take limit = remaining entries last :=
    List.take_of_length_le h
  cases last <;> simp only [page, remaining] at h htake ⊢ <;> rw [if_pos h, htake]

theorem page_zero (h : remaining entries last ≠ []) :
    page entries url (some 0) last = ([], []) := by
  have hlen : ¬(remaining entries last).length ≤ 0 := by
    rw [Nat.le_zero, List.length_eq_zero_iff]
    exact h
  cases last <;> simp only [page, remaining] at hlen ⊢ <;> rw [if_neg hlen] <;> rfl

theorem page_more {final : String} (h : limit < (remaining entries last).length)
    (hfinal : ((remaining entries last).take limit).getLast? = some final) :
    page entries url (some limit) last = ((remaining entries last).take limit,
      (headerValue (linkText url limit final)).toList.map fun value => ("link", value)) := by
  have hlen : ¬(remaining entries last).length ≤ limit := by omega
  cases last <;> simp only [page, remaining] at hlen hfinal ⊢ <;>
    rw [if_neg hlen, hfinal] <;> rfl

-- The only header is the link, if its text can be a value.
theorem page_headers (n : Option Nat) : (page entries url n last).2 = [] ∨ ∃ text,
    (page entries url n last).2 = (headerValue text).toList.map fun value => ("link", value) := by
  cases n with
  | none => exact .inl (by rw [page_all])
  | some limit =>
      by_cases hend : (remaining entries last).length ≤ limit
      · exact .inl (by rw [page_end url hend])
      · cases hfinal : ((remaining entries last).take limit).getLast? with
        | some final => exact .inr ⟨_, by rw [page_more url (by omega) hfinal]⟩
        | none =>
            have hzero : limit = 0 := by
              have hnil := List.getLast?_eq_none_iff.mp hfinal
              rw [List.take_eq_nil_iff] at hnil
              refine hnil.resolve_right fun hempty => hend ?_
              rw [hempty]
              exact Nat.zero_le _
            rw [hzero] at hend ⊢
            refine .inl ?_
            rw [page_zero url]
            rintro hnil
            exact hend (by rw [hnil]; exact Nat.le_refl 0)

end Page

end RspaceRegistry.Http
