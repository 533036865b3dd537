import RspaceRegistry.Digest
import Mathlib.Data.Fintype.BigOperators
import Mathlib.Data.Fintype.Sum
import Mathlib.Data.String.Defs

namespace RspaceRegistry

-- There are finitely many digests, so a recursion that visits each at most once
-- ends.

theorem lowerHex_range {c : Char} (h : isLowerHex c = true) :
    48 ≤ c.toNat ∧ c.toNat ≤ 57 ∨ 97 ≤ c.toNat ∧ c.toNat ≤ 102 := by
  simp only [isLowerHex, Bool.or_eq_true, Bool.and_eq_true, decide_eq_true_eq] at h
  rcases h with ⟨hl, hu⟩ | ⟨hl, hu⟩
  · left
    exact ⟨hl, hu⟩
  · right
    exact ⟨hl, hu⟩

def hexValue (c : Char) : Fin 16 := Fin.ofNat 16 (if c.toNat ≤ 57 then c.toNat - 48 else c.toNat - 87)

theorem hexValue_injective {c c' : Char} (h : isLowerHex c = true) (h' : isLowerHex c' = true)
    (heq : hexValue c = hexValue c') : c = c' := by
  have hr := lowerHex_range h
  have hr' := lowerHex_range h'
  have hv : (if c.toNat ≤ 57 then c.toNat - 48 else c.toNat - 87) % 16 =
      (if c'.toNat ≤ 57 then c'.toNat - 48 else c'.toNat - 87) % 16 := congrArg Fin.val heq
  apply Char.toNat_inj.mp
  split_ifs at hv <;> omega

theorem utf8Len_lowerHex (cs : List Char) (h : cs.all isLowerHex = true) :
    String.utf8Len cs = cs.length := by
  induction cs with
  | nil => rfl
  | cons c rest ih =>
      rw [List.all_cons, Bool.and_eq_true] at h
      have hr := lowerHex_range h.1
      have hsize : c.utf8Size = 1 := by
        rw [Char.utf8Size_eq_one_iff]
        show c.toNat ≤ 127
        omega
      rw [String.utf8Len_cons, ih h.2, hsize, List.length_cons]

theorem ValidHex.length {algorithm : Algorithm} {hex : String} (h : ValidHex algorithm hex) :
    hex.toList.length = algorithm.hexLen := by
  rw [← h.1, ← String.utf8Len_toList, utf8Len_lowerHex _ h.2]

namespace Digest

-- The hex digits one after the other.
def code (d : Digest) : (Fin 64 → Fin 16) ⊕ (Fin 128 → Fin 16) :=
  match d.algorithm with
  | .sha256 => .inl fun i => hexValue (d.hex.toList.getD i '0')
  | .sha512 => .inr fun i => hexValue (d.hex.toList.getD i '0')

theorem hex_eq_of_digits {algorithm : Algorithm} {hex hex' : String} (h : ValidHex algorithm hex)
    (h' : ValidHex algorithm hex')
    (heq : ∀ i : Fin algorithm.hexLen,
      hexValue (hex.toList.getD i '0') = hexValue (hex'.toList.getD i '0')) : hex = hex' := by
  apply String.toList_inj.mp
  have hlen := h.length
  have hlen' := h'.length
  apply List.ext_getElem (hlen.trans hlen'.symm)
  intro i hi hi'
  have hv := heq ⟨i, hlen ▸ hi⟩
  simp only [List.getD_eq_getElem?_getD, List.getElem?_eq_getElem hi,
    List.getElem?_eq_getElem hi', Option.getD_some] at hv
  have hc := List.all_eq_true.mp h.2 _ (List.getElem_mem hi)
  have hc' := List.all_eq_true.mp h'.2 _ (List.getElem_mem hi')
  exact hexValue_injective hc hc' hv

theorem code_injective : Function.Injective code := by
  rintro ⟨algorithm, hex, hv⟩ ⟨algorithm', hex', hv'⟩ h
  cases algorithm <;> cases algorithm' <;> simp only [code, reduceCtorEq] at h
  · have hhex := hex_eq_of_digits hv hv' fun i => congrFun (Sum.inl.inj h) i
    subst hhex
    rfl
  · have hhex := hex_eq_of_digits hv hv' fun i => congrFun (Sum.inr.inj h) i
    subst hhex
    rfl

theorem nodup_length_le (ds : List Digest) (h : ds.Nodup) : ds.length ≤ count := by
  have hcard := (h.map code_injective).length_le_card
  rw [List.length_map, Fintype.card_sum, Fintype.card_fun, Fintype.card_fun] at hcard
  simpa only [Fintype.card_fin, count] using hcard

end Digest

end RspaceRegistry
