import Mathlib.Data.List.Forall2
import RspaceRegistry.Http.Pages
import RspaceRegistry.Http.Steps

namespace RspaceRegistry.Http

open Cuts Disk

-- What a client writes into a query, and what the server reads out of it.

def isUnreserved (b : UInt8) : Bool :=
  (48 ≤ b && b ≤ 57) || (65 ≤ b && b ≤ 90) || (97 ≤ b && b ≤ 122) ||
    b = 45 || b = 46 || b = 95 || b = 126

-- A digit of either case.
def IsHexDigit (c : Char) (n : Nat) : Prop :=
  "0123456789abcdef".toList[n]? = some c ∨ "0123456789ABCDEF".toList[n]? = some c

instance (c : Char) (n : Nat) : Decidable (IsHexDigit c n) :=
  inferInstanceAs (Decidable (_ ∨ _))

-- The texts that may stand for one byte.
inductive StandsFor : List Char → UInt8 → Prop
  | itself {b : UInt8} (h : isUnreserved b = true) : StandsFor [Char.ofNat b.toNat] b
  | plus : StandsFor ['+'] 32
  | escape {b : UInt8} {hi lo : Char} (h : isUnreserved b = false)
      (hhi : IsHexDigit hi (b.toNat / 16)) (hlo : IsHexDigit lo (b.toNat % 16)) :
      StandsFor ['%', hi, lo] b

def Encodes (text : List Char) (s : String) : Prop :=
  ∃ pieces, List.Forall₂ StandsFor pieces (utf8 s) ∧ text = pieces.flatten

def EncodesPair (text : List Char) (pair : String × String) : Prop :=
  ∃ key value, text = key ++ '=' :: value ∧ Encodes key pair.1 ∧ Encodes value pair.2

-- The pairs of a query string, each encoded in some way, with `&` between them.
def EncodesQuery (q : String) (pairs : Query) : Prop :=
  ∃ texts, List.Forall₂ EncodesPair texts pairs ∧ q.toList = ['&'].intercalate texts

section Positions

variable (bytes : Bytes)

-- The byte that a valid escape at position `i` stands for.
def escapeAt (i : Nat) : Option UInt8 :=
  match bytes[i]?, bytes[i + 1]?, bytes[i + 2]? with
  | some 37, some x, some y => do
      let hi ← hexNibble x
      let lo ← hexNibble y
      some (hi <<< 4 ||| lo)
  | _, _, _ => none

-- Position `i` holds one of the digits of a valid escape.
def InEscape (i : Nat) : Prop := ∃ j < i, i ≤ j + 2 ∧ (escapeAt bytes j).isSome

instance (i : Nat) : Decidable (InEscape bytes i) :=
  inferInstanceAs (Decidable (∃ j < i, _))

-- What the byte at position `i` turns into: an escape is read at its percent sign, and
-- every byte outside of the escapes is itself but for the plus sign.
def decodeAt (i : Nat) : Bytes :=
  match escapeAt bytes i with
  | some b => [b]
  | none =>
      if InEscape bytes i then []
      else (bytes[i]?.map fun b => if b = 43 then 32 else b).toList

end Positions

section Escapes

variable {bytes : Bytes} {i : Nat} {b : UInt8}

theorem hexNibble_ne_percent {x n : UInt8} (h : hexNibble x = some n) : x ≠ 37 := by
  intro hx
  rw [hx] at h
  cases h

theorem escapeAt_eq_some (h : escapeAt bytes i = some b) : ∃ x y hi lo, i + 2 < bytes.length ∧
    bytes.drop i = 37 :: x :: y :: bytes.drop (i + 3) ∧ bytes[i + 1]? = some x ∧
    bytes[i + 2]? = some y ∧ hexNibble x = some hi ∧ hexNibble y = some lo ∧
    b = hi <<< 4 ||| lo := by
  unfold escapeAt at h
  split at h
  · next x y hpercent hx hy =>
      simp only [Option.bind_eq_bind, Option.bind_eq_some_iff, Option.some.injEq] at h
      obtain ⟨hi, hhi, lo, hlo, rfl⟩ := h
      obtain ⟨hlen, hy'⟩ := List.getElem?_eq_some_iff.mp hy
      obtain ⟨hlen', hx'⟩ := List.getElem?_eq_some_iff.mp hx
      obtain ⟨_, hpercent'⟩ := List.getElem?_eq_some_iff.mp hpercent
      refine ⟨x, y, hi, lo, hlen, ?_, hx, hy, hhi, hlo, rfl⟩
      rw [List.drop_eq_getElem_cons (by omega), List.drop_eq_getElem_cons hlen',
        List.drop_eq_getElem_cons hlen, hpercent', hx', hy']
  · cases h

theorem escapeAt_eq_none {x : UInt8} (h : bytes[i]? = some x) (hx : x ≠ 37) :
    escapeAt bytes i = none := by
  unfold escapeAt
  split
  · next hpercent _ _ => exact absurd (Option.some.inj (h.symm.trans hpercent)) hx
  · rfl

theorem decodeBytes_escape (h : escapeAt bytes i = some b) :
    decodeBytes (bytes.drop i) = b :: decodeBytes (bytes.drop (i + 3)) := by
  obtain ⟨x, y, hi, lo, -, hdrop, -, -, hhi, hlo, rfl⟩ := escapeAt_eq_some h
  rw [hdrop, decodeBytes_percent, hhi, hlo]

theorem decodeBytes_other (hlt : i < bytes.length) (h : escapeAt bytes i = none) :
    decodeBytes (bytes.drop i) =
      (if bytes[i] = 43 then 32 else bytes[i]) :: decodeBytes (bytes.drop (i + 1)) := by
  rw [List.drop_eq_getElem_cons hlt]
  by_cases hlen : i + 2 < bytes.length
  · have hrest : bytes.drop (i + 1) = bytes[i + 1] :: bytes[i + 2] :: bytes.drop (i + 3) := by
      rw [List.drop_eq_getElem_cons (by omega), List.drop_eq_getElem_cons hlen]
    by_cases hpercent : bytes[i] = 37
    · simp only [escapeAt, List.getElem?_eq_getElem hlt, List.getElem?_eq_getElem hlen,
        List.getElem?_eq_getElem (show i + 1 < bytes.length by omega), hpercent,
        Option.bind_eq_bind] at h
      rw [hpercent, hrest, decodeBytes_percent]
      cases hhi : hexNibble bytes[i + 1] with
      | none => rfl
      | some hi =>
          cases hlo : hexNibble bytes[i + 2] with
          | none => rfl
          | some lo => simp [hhi, hlo] at h
    · rw [decodeBytes_cons _ _ (.inl hpercent)]
  · rw [decodeBytes_cons _ _ (.inr (by simp; omega))]

-- The digits of an escape are no percent signs: escapes do not overlap.
theorem inEscape_behind (h : escapeAt bytes i = some b) :
    InEscape bytes (i + 1) ∧ InEscape bytes (i + 2) ∧ ¬InEscape bytes (i + 3) ∧
      escapeAt bytes (i + 1) = none ∧ escapeAt bytes (i + 2) = none := by
  obtain ⟨x, y, hi, lo, -, -, hx, hy, hhi, hlo, -⟩ := escapeAt_eq_some h
  have hfirst := escapeAt_eq_none hx (hexNibble_ne_percent hhi)
  have hsecond := escapeAt_eq_none hy (hexNibble_ne_percent hlo)
  have hsome : (escapeAt bytes i).isSome := by simp [h]
  refine ⟨⟨i, by omega, by omega, hsome⟩, ⟨i, by omega, by omega, hsome⟩, ?_, hfirst, hsecond⟩
  intro ⟨j, hj, hle, hescape⟩
  obtain rfl | rfl : j = i + 1 ∨ j = i + 2 := by omega
  · simp [hfirst] at hescape
  · simp [hsecond] at hescape

theorem not_inEscape_succ (hin : ¬InEscape bytes i) (h : escapeAt bytes i = none) :
    ¬InEscape bytes (i + 1) := by
  intro ⟨j, hj, hle, hescape⟩
  by_cases hji : j = i
  · simp [hji, h] at hescape
  · exact hin ⟨j, by omega, by omega, hescape⟩

-- The decoding read position by position. The induction is on the bytes that are left,
-- between escapes.
theorem decodeBytes_positions (bytes : Bytes) (i : Nat) (hin : ¬InEscape bytes i) :
    decodeBytes (bytes.drop i) =
      (List.range' i (bytes.length - i)).flatMap (decodeAt bytes) := by
  induction hn : bytes.length - i using Nat.strong_induction_on generalizing i with
  | _ n ih =>
      by_cases hlt : i < bytes.length
      · cases h : escapeAt bytes i with
        | some b =>
            obtain ⟨hfirst, hsecond, hbehind, hnone, hnone'⟩ := inEscape_behind h
            obtain ⟨_, _, _, _, hlen, -⟩ := escapeAt_eq_some h
            obtain ⟨m, rfl⟩ : ∃ m, n = m + 3 := ⟨n - 3, by omega⟩
            have hrest := ih m (by omega) (i + 3) hbehind (by omega)
            rw [decodeBytes_escape h, hrest]
            simp [List.range'_succ, decodeAt, h, hfirst, hsecond, hnone, hnone']
        | none =>
            obtain ⟨m, rfl⟩ : ∃ m, n = m + 1 := ⟨n - 1, by omega⟩
            have hrest := ih m (by omega) (i + 1) (not_inEscape_succ hin h) (by omega)
            rw [decodeBytes_other hlt h, hrest]
            simp [List.range'_succ, decodeAt, h, hin, hlt]
      · obtain rfl : n = 0 := by omega
        rw [List.drop_eq_nil_of_le (by omega)]
        rfl

theorem decodeFrom_positions (bytes : Bytes) : Checked.decodeFrom bytes 0 [] =
    some ((List.range bytes.length).flatMap (decodeAt bytes)) := by
  have hstart : ¬InEscape bytes 0 := by
    intro ⟨j, hj, _⟩
    omega
  have h := decodeBytes_positions bytes 0 hstart
  rw [Nat.sub_zero, ← List.range_eq_range'] at h
  rw [Checked.decodeFrom_eq, h, List.nil_append]

end Escapes

section Encoding

-- The bytes of a text without marks, and a byte written as two digits, one value at a time.
theorem utf8_unreserved : ∀ n < 256, isUnreserved (UInt8.ofNat n) = true →
    String.utf8EncodeChar (Char.ofNat n) = [UInt8.ofNat n] ∧ n ≠ 37 ∧ n ≠ 43 ∧
      Char.ofNat n ≠ '&' ∧ Char.ofNat n ≠ '=' := by
  decide +kernel

theorem utf8_hexDigit {c : Char} {n : Nat} (h : IsHexDigit c n) :
    String.utf8EncodeChar c = [c.toUInt8] ∧ hexNibble c.toUInt8 = some (UInt8.ofNat n) ∧
      c ≠ '&' ∧ c ≠ '=' := by
  have hdigits : ∀ digit ∈ "0123456789abcdef".toList.zipIdx ++ "0123456789ABCDEF".toList.zipIdx,
      String.utf8EncodeChar digit.1 = [digit.1.toUInt8] ∧
        hexNibble digit.1.toUInt8 = some (UInt8.ofNat digit.2) ∧
        digit.1 ≠ '&' ∧ digit.1 ≠ '=' := by
    decide +kernel
  apply hdigits (c, n)
  rw [List.mem_append, List.mem_zipIdx_iff_getElem?, List.mem_zipIdx_iff_getElem?]
  exact h

theorem shift_or : ∀ n < 256,
    UInt8.ofNat (n / 16) <<< 4 ||| UInt8.ofNat (n % 16) = UInt8.ofNat n := by
  decide +kernel

variable {piece text : List Char} {b : UInt8}

theorem decodeBytes_piece (h : StandsFor piece b) (rest : Bytes) :
    decodeBytes (piece.flatMap String.utf8EncodeChar ++ rest) = b :: decodeBytes rest := by
  cases h with
  | itself hself =>
      obtain ⟨hbyte, hpercent, hplus, -⟩ := utf8_unreserved b.toNat b.toNat_lt (by simpa using hself)
      simp only [UInt8.ofNat_toNat] at hbyte
      have hpercent' : b ≠ 37 := by
        intro hb
        exact hpercent (by rw [hb]; rfl)
      have hplus' : b ≠ 43 := by
        intro hb
        exact hplus (by rw [hb]; rfl)
      rw [List.flatMap_singleton, hbyte, List.singleton_append,
        decodeBytes_cons _ _ (.inl hpercent'), if_neg hplus']
  | plus => exact decodeBytes_cons 43 rest (.inl (by decide))
  | @escape _ hi lo _ hhi hlo =>
      obtain ⟨hbyte, hnibble, -⟩ := utf8_hexDigit hhi
      obtain ⟨hbyte', hnibble', -⟩ := utf8_hexDigit hlo
      have hpercent : String.utf8EncodeChar '%' = [37] := by decide
      have hwhole := shift_or b.toNat b.toNat_lt
      rw [UInt8.ofNat_toNat] at hwhole
      simp only [List.flatMap_cons, List.flatMap_nil, hpercent, hbyte, hbyte', List.append_nil,
        List.cons_append, List.nil_append]
      rw [decodeBytes_percent, hnibble, hnibble']
      exact congrArg (· :: decodeBytes rest) hwhole

theorem no_marks (h : StandsFor piece b) : '&' ∉ piece ∧ '=' ∉ piece := by
  cases h with
  | itself hself =>
      obtain ⟨-, -, -, hamp, heq⟩ := utf8_unreserved b.toNat b.toNat_lt (by simpa using hself)
      simpa using ⟨hamp.symm, heq.symm⟩
  | plus => decide
  | escape _ hhi hlo =>
      obtain ⟨-, -, hamp, heq⟩ := utf8_hexDigit hhi
      obtain ⟨-, -, hamp', heq'⟩ := utf8_hexDigit hlo
      simpa using ⟨⟨hamp.symm, hamp'.symm⟩, heq.symm, heq'.symm⟩

theorem decodeBytes_pieces {pieces : List (List Char)} {bytes : Bytes}
    (h : List.Forall₂ StandsFor pieces bytes) :
    decodeBytes (pieces.flatten.flatMap String.utf8EncodeChar) = bytes := by
  induction h with
  | nil => rfl
  | cons hpiece _ ih =>
      rw [List.flatten_cons, List.flatMap_append, decodeBytes_piece hpiece, ih]

theorem urlDecode_encoded {s : String} (h : Encodes text s) :
    urlDecode (String.ofList text) = s := by
  obtain ⟨pieces, hpieces, rfl⟩ := h
  rw [urlDecode, utf8_eq, String.toList_ofList, decodeBytes_pieces hpieces, fromUtf8Lossy_utf8]

theorem encodes_no_marks {s : String} (h : Encodes text s) : '&' ∉ text ∧ '=' ∉ text := by
  obtain ⟨pieces, hpieces, rfl⟩ := h
  generalize utf8 s = bytes at hpieces
  induction hpieces with
  | nil => simp
  | cons hpiece _ ih =>
      obtain ⟨hamp, heq⟩ := no_marks hpiece
      rw [List.flatten_cons, List.mem_append, List.mem_append, not_or, not_or]
      exact ⟨⟨hamp, ih.1⟩, heq, ih.2⟩

theorem encodesPair_no_mark {pair : String × String} (h : EncodesPair text pair) :
    '&' ∉ text ∧ text ≠ [] := by
  obtain ⟨key, value, rfl, hkey, hvalue⟩ := h
  simp [(encodes_no_marks hkey).1, (encodes_no_marks hvalue).1]

-- What the server reads of one part between two ampersands.
def readPair (part : List Char) : String × String :=
  let (key, value) := (cutOnce '=' part).getD (part, [])
  (urlDecode (String.ofList key), urlDecode (String.ofList value))

theorem readPair_encoded {pair : String × String} (h : EncodesPair text pair) :
    readPair text = pair := by
  obtain ⟨key, value, rfl, hkey, hvalue⟩ := h
  rw [readPair, cutOnce_append (encodes_no_marks hkey).2]
  simp only [Option.getD_some, urlDecode_encoded hkey, urlDecode_encoded hvalue]

theorem urlFormPairs_encoded {q : String} {pairs : Query} (h : EncodesQuery q pairs) :
    urlFormPairs q = pairs := by
  obtain ⟨texts, htexts, hq⟩ := h
  have hmarks : ∀ text ∈ texts, '&' ∉ text ∧ text ≠ [] := by
    clear hq
    induction htexts with
    | nil => simp
    | cons hpair _ ih => exact List.forall_mem_cons.mpr ⟨encodesPair_no_mark hpair, ih⟩
  have hread : texts.map readPair = pairs := by
    clear hq hmarks
    induction htexts with
    | nil => rfl
    | cons hpair _ ih => rw [List.map_cons, readPair_encoded hpair, ih]
  have hparts : (q.toList.splitOn '&').filter (· ≠ []) = texts := by
    rw [hq]
    cases texts with
    | nil => rfl
    | cons text rest =>
        rw [List.splitOn_intercalate _ (fun part hpart => (hmarks part hpart).1) (by simp),
          List.filter_eq_self]
        intro part hpart
        simpa using (hmarks part hpart).2
  rw [← hread, ← hparts]
  rfl

theorem exists_standsFor (b : UInt8) : ∃ piece, StandsFor piece b := by
  cases h : isUnreserved b with
  | true => exact ⟨_, .itself h⟩
  | false =>
      have hdigit : ∀ n < 16, ("0123456789abcdef".toList[n]?).isSome = true := by decide
      have hb := b.toNat_lt
      obtain ⟨hi, hhi⟩ := Option.isSome_iff_exists.mp (hdigit (b.toNat / 16) (by omega))
      obtain ⟨lo, hlo⟩ := Option.isSome_iff_exists.mp (hdigit (b.toNat % 16) (by omega))
      exact ⟨_, .escape h (.inl hhi) (.inl hlo)⟩

theorem exists_encodes (s : String) : ∃ text, Encodes text s := by
  have hpieces : ∀ bytes : Bytes, ∃ pieces, List.Forall₂ StandsFor pieces bytes := by
    intro bytes
    induction bytes with
    | nil => exact ⟨[], .nil⟩
    | cons b rest ih =>
        obtain ⟨piece, hpiece⟩ := exists_standsFor b
        obtain ⟨pieces, hrest⟩ := ih
        exact ⟨piece :: pieces, .cons hpiece hrest⟩
  obtain ⟨pieces, h⟩ := hpieces (utf8 s)
  exact ⟨_, pieces, h, rfl⟩

theorem exists_encodesQuery (pairs : Query) : ∃ q, EncodesQuery q pairs := by
  have htexts : ∃ texts, List.Forall₂ EncodesPair texts pairs := by
    induction pairs with
    | nil => exact ⟨[], .nil⟩
    | cons pair rest ih =>
        obtain ⟨key, hkey⟩ := exists_encodes pair.1
        obtain ⟨value, hvalue⟩ := exists_encodes pair.2
        obtain ⟨texts, hrest⟩ := ih
        exact ⟨_ :: texts, .cons ⟨key, value, rfl, hkey, hvalue⟩ hrest⟩
  obtain ⟨texts, h⟩ := htexts
  exact ⟨_, texts, h, String.toList_ofList⟩

end Encoding

-- Every list of pairs has encodings, and each of them is read back as the list. Of any
-- bytes at all the loop reads none that is not there, and changes none but the escapes
-- and the plus signs.
theorem query_roundTrip :
    (∀ pairs : Query, (∃ q, EncodesQuery q pairs) ∧
      ∀ q, EncodesQuery q pairs → Checked.urlFormPairs q = some pairs) ∧
    (∀ bytes : Bytes, Checked.decodeFrom bytes 0 [] =
      some ((List.range bytes.length).flatMap (decodeAt bytes))) ∧
    ∀ s, Checked.urlDecode s =
      some (fromUtf8Lossy ((List.range (utf8 s).length).flatMap (decodeAt (utf8 s)))) := by
  refine ⟨fun pairs => ⟨exists_encodesQuery pairs, fun q h => ?_⟩, decodeFrom_positions, ?_⟩
  · rw [Checked.urlFormPairs_eq, urlFormPairs_encoded h]
  · intro s
    rw [Checked.urlDecode, decodeFrom_positions]
    rfl

theorem query_roundTrip_mount :
    Checked.urlFormPairs "a+=%c3%A9&=" = some [("a ", "é"), ("", "")] := by
  have hletter : StandsFor ['a'] 97 := StandsFor.itself (b := 97) (by decide)
  have hfirst : StandsFor ['%', 'c', '3'] 0xC3 := .escape (by decide) (by decide) (by decide)
  have hsecond : StandsFor ['%', 'A', '9'] 0xA9 := .escape (by decide) (by decide) (by decide)
  have hkey : utf8 "a " = [97, 32] := by decide
  have hvalue : utf8 "é" = [0xC3, 0xA9] := by decide
  have hempty : Encodes [] "" := ⟨[], .nil, rfl⟩
  apply (query_roundTrip.1 _).2
  refine ⟨["a+=%c3%A9".toList, ['=']], .cons ⟨['a', '+'], "%c3%A9".toList, rfl, ?_, ?_⟩ ?_, rfl⟩
  · exact ⟨[['a'], ['+']], hkey ▸ .cons hletter (.cons .plus .nil), rfl⟩
  · exact ⟨[['%', 'c', '3'], ['%', 'A', '9']], hvalue ▸ .cons hfirst (.cons hsecond .nil), rfl⟩
  · exact .cons ⟨[], [], rfl, hempty, hempty⟩ .nil

end RspaceRegistry.Http
