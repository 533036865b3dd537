import RspaceRegistry.Disk.Addressed
import RspaceRegistry.Http.Steps
import RspaceRegistry.Sample

namespace RspaceRegistry.Digest

open Disk Files

-- The forms of a digest: its text, the path of its blob and the name in a listing.

-- The texts that are digests, with their characters written out.
def Accepted (s : String) : Prop :=
  ∃ hex : List Char, (∀ c ∈ hex, c ∈ "0123456789abcdef".toList) ∧
    ((s.toList = "sha256:".toList ++ hex ∧ hex.length = 64) ∨
      (s.toList = "sha512:".toList ++ hex ∧ hex.length = 128))

theorem isLowerHex_iff {c : Char} : isLowerHex c = true ↔ c ∈ "0123456789abcdef".toList := by
  constructor
  · intro h
    have hall : ∀ n < 103, isLowerHex (Char.ofNat n) = true →
        Char.ofNat n ∈ "0123456789abcdef".toList := by
      decide
    have hrange := lowerHex_range h
    have hc := hall c.toNat (by omega)
    rw [Char.ofNat_toNat] at hc
    exact hc h
  · have hall : ∀ c ∈ "0123456789abcdef".toList, isLowerHex c = true := List.all_eq_true.mp rfl
    exact hall c

theorem validHex_ofList {algorithm : Algorithm} {hex : List Char}
    (hlen : hex.length = algorithm.hexLen) (hhex : ∀ c ∈ hex, c ∈ "0123456789abcdef".toList) :
    ValidHex algorithm (String.ofList hex) := by
  have hall : hex.all isLowerHex = true := List.all_eq_true.mpr fun c hc => isLowerHex_iff.mpr (hhex c hc)
  constructor
  · rw [← String.utf8Len_toList, String.toList_ofList, utf8Len_lowerHex hex hall, hlen]
  · rw [String.toList_ofList]
    exact hall

theorem accepted_toString (d : Digest) : Accepted d.toString := by
  obtain ⟨algorithm, hex, hvalid⟩ := d
  have hhex : ∀ c ∈ hex.toList, c ∈ "0123456789abcdef".toList :=
    fun c hc => isLowerHex_iff.mp (List.all_eq_true.mp hvalid.2 c hc)
  have hlen := hvalid.length
  refine ⟨hex.toList, hhex, ?_⟩
  simp only [toString, String.toList_append]
  cases algorithm with
  | sha256 => exact .inl ⟨rfl, hlen⟩
  | sha512 => exact .inr ⟨rfl, hlen⟩

theorem fromStr_of_toList (algorithm : Algorithm) {s : String} {hex : List Char}
    (hs : s.toList = (algorithm.name ++ ":").toList ++ hex) (hlen : hex.length = algorithm.hexLen)
    (hhex : ∀ c ∈ hex, c ∈ "0123456789abcdef".toList) : ∃ d, fromStr s = .ok d := by
  let d : Digest := ⟨algorithm, String.ofList hex, validHex_ofList hlen hhex⟩
  have hd : d.toString = s := by
    apply String.toList_injective
    rw [hs, toString, String.toList_append, String.toList_ofList]
  exact ⟨d, hd ▸ fromStr_toString d⟩

theorem accepted_iff {s : String} : (∃ d, fromStr s = .ok d) ↔ Accepted s := by
  constructor
  · intro ⟨d, h⟩
    rw [← toString_of_fromStr h]
    exact accepted_toString d
  · intro ⟨hex, hhex, h⟩
    obtain ⟨hs, hlen⟩ | ⟨hs, hlen⟩ := h
    · exact fromStr_of_toList .sha256 hs hlen hhex
    · exact fromStr_of_toList .sha512 hs hlen hhex

-- Hex digits are the name of a file, and neither of its directories leads elsewhere.
theorem isFileName_hex {name : String} (hne : name.toList ≠ [])
    (h : ∀ c ∈ name.toList, isLowerHex c = true) : IsFileName name := by
  refine ⟨?_, ?_, ?_, ?_⟩
  · rintro rfl
    exact hne rfl
  · intro hslash
    exact absurd (h '/' hslash) (by decide)
  · rintro rfl
    exact absurd (h '.' (by decide)) (by decide)
  · rintro rfl
    exact absurd (h '.' (by decide)) (by decide)

theorem isFileName_blobPath (d : Digest) : ∀ name ∈ blobPath d, IsFileName name := by
  have hhex : ∀ c ∈ d.hex.toList, isLowerHex c = true := List.all_eq_true.mp d.valid.2
  have hlen : 2 ≤ d.hex.toList.length := by
    rw [d.valid.length]
    cases d.algorithm <;> decide
  have hname : IsFileName d.algorithm.name := by cases d.algorithm <;> decide
  intro name hmem
  simp only [blobPath, List.mem_cons, List.not_mem_nil, or_false] at hmem
  obtain rfl | rfl | rfl | rfl := hmem
  · apply isFileName_hex _ hhex
    intro hnil
    simp [hnil] at hlen
  · apply isFileName_hex
    · intro hnil
      have := congrArg List.length hnil
      rw [String.toList_ofList, List.length_take, List.length_nil] at this
      omega
    · rw [String.toList_ofList]
      exact fun c hc => hhex c (List.take_subset 2 _ hc)
  · exact hname
  · decide

theorem blobPath_ne_tmpPath (d d' : Digest) : blobPath d ≠ tmpPath (blobPath d') := by
  intro h
  have hname : d.hex = tmpName d'.hex := (List.cons.inj h).1
  exact tmpName_ne (isTmp_hex d) hname.symm

theorem name_inj {algorithm algorithm' : Algorithm} {hex hex' : String}
    (h : algorithm.name ++ ":" ++ hex = algorithm'.name ++ ":" ++ hex') :
    algorithm = algorithm' ∧ hex = hex' := by
  have htext := congrArg String.toList h
  simp only [String.toList_append] at htext
  cases algorithm <;> cases algorithm' <;>
    simp_all [Algorithm.name, String.toList_inj]

-- A digest is listed for the file that has its hex digits as a name, and for no other.
theorem mem_blobsIn_iff {algorithm : Algorithm} {entries : List (String × Node)} {d : Digest} :
    d ∈ blobsIn algorithm entries ↔
      d.algorithm = algorithm ∧ ∃ inode, (d.hex, Node.file inode) ∈ entries := by
  rw [mem_blobsIn]
  constructor
  · intro ⟨name, inode, hmem, _, hparsed⟩
    obtain ⟨halg, rfl⟩ := name_inj (toString_of_fromStr hparsed)
    exact ⟨halg, inode, hmem⟩
  · intro ⟨halg, inode, hmem⟩
    refine ⟨d.hex, inode, hmem, isTmp_hex d, ?_⟩
    rw [← halg]
    exact fromStr_toString d

-- Text, digest and file determine each other: what is accepted is what is printed, no two
-- digests share a file with each other or with a temporary one, and a listing of the
-- directories has the digests of the files, whatever was stored and removed before.
theorem forms_agree [Sha2] :
    (∀ s d, fromStr s = .ok d → d.toString = s) ∧
    (∀ d : Digest, fromStr d.toString = .ok d) ∧
    (∀ s, (∃ d, fromStr s = .ok d) ↔ Accepted s) ∧
    (∀ d, Http.Checked.blobPath d = some (blobPath d)) ∧
    Function.Injective blobPath ∧
    (∀ d, ["blobs"] <:+ blobPath d ∧ ∀ name ∈ blobPath d, IsFileName name) ∧
    (∀ d d', blobPath d ≠ tmpPath (blobPath d')) ∧
    (∀ algorithm entries d, d ∈ blobsIn algorithm entries ↔
      d.algorithm = algorithm ∧ ∃ inode, (d.hex, Node.file inode) ∈ entries) ∧
    (∀ tree, Laid tree → ∃ listing, listAllBlobs.run Tree.handle tree = (.ok listing, tree) ∧
      ∀ d, d ∈ listing ↔ (tree.fileAt (blobPath d)).isSome) ∧
    ∀ calls, Laid (runCalls calls new) :=
  ⟨fun _ _ => toString_of_fromStr, fromStr_toString, fun _ => accepted_iff,
    Http.Checked.blobPath_eq, blobPath_injective,
    fun d => ⟨blobs_suffix d, isFileName_blobPath d⟩, blobPath_ne_tmpPath,
    fun _ _ _ => mem_blobsIn_iff, fun _ => run_listAllBlobs,
    fun calls => (sound_new.calls calls).toLaid⟩

section Sample

attribute [local instance] Sample.sha2

def stored : Tree :=
  runCalls [⟨.request (.blobWrite "r" (sha256Digest Sample.x) Sample.x), none⟩] new

theorem stored_listed : ∃ listing, listAllBlobs.run Tree.handle stored = (.ok listing, stored) ∧
    sha256Digest Sample.x ∈ listing := by
  obtain ⟨-, -, -, -, -, -, -, -, hlisting, hlaid⟩ := forms_agree
  obtain ⟨listing, hrun, hmem⟩ := hlisting stored (hlaid _)
  exact ⟨listing, hrun, (hmem _).mpr (by decide +kernel)⟩

end Sample

end RspaceRegistry.Digest
