import RspaceRegistry.Files.Tree
import RspaceRegistry.Digest.Count
import RspaceRegistry.StorageError

namespace RspaceRegistry.Disk

open Files

-- What a single path component may be, from the outside: `Path::join` then adds it
-- as it is.
def IsFileName (name : String) : Prop :=
  name ≠ "" ∧ '/' ∉ name.toList ∧ name ≠ "." ∧ name ≠ ".."

instance (name : String) : Decidable (IsFileName name) := inferInstanceAs (Decidable (_ ∧ _))

-- `Path::file_stem`: up to the last dot, unless that is the first character.
def fileStem (name : String) : String :=
  match name.toList.reverse.span (· ≠ '.') with
  | (_, []) => name
  | (_, _ :: []) => name
  | (_, _ :: before) => String.ofList before.reverse

def withExtension (path : Path) (extension : String) : Path :=
  match path with
  | [] => []
  | name :: parent => (fileStem name ++ "." ++ extension) :: parent

-- All paths are below the root of the storage.
def blobPath (d : Digest) : Path :=
  [d.hex, String.ofList (d.hex.toList.take 2), d.algorithm.name, "blobs"]

def repoPath (repo : String) : Path := (components repo).reverse ++ ["manifests"]

def manifestTagPath (repo tag : String) : Path := tag :: "tags" :: repoPath repo

def manifestDigestPath (repo : String) (d : Digest) : Path :=
  d.toString :: "digests" :: repoPath repo

def uploadPath (id : String) : Path := [id, "uploads"]

-- `name.ends_with(".tmp")`
def isTmp (name : String) : Bool := ['.', 't', 'm', 'p'].isSuffixOf name.toList

def tmpName (name : String) : String := fileStem name ++ "." ++ "tmp"

theorem isTmp_iff {name : String} : isTmp name = true ↔ ['.', 't', 'm', 'p'] <:+ name.toList := by
  rw [isTmp, List.isSuffixOf_iff_suffix]

@[simp] theorem isTmp_tmpName (name : String) : isTmp (tmpName name) = true := by
  rw [isTmp_iff, tmpName, String.toList_append, String.toList_append, List.append_assoc]
  exact List.suffix_append _ _

theorem tmpName_ne {name other : String} (h : isTmp other = false) : tmpName name ≠ other := by
  rintro rfl
  rw [isTmp_tmpName] at h
  cases h

-- Hex digits do not end in the extension of a temporary file.
theorem isTmp_append_hex (name : String) {hex : String} {algorithm : Algorithm}
    (h : ValidHex algorithm hex) :
    isTmp (name ++ hex) = false := by
  rw [← Bool.not_eq_true, isTmp_iff, String.toList_append]
  rintro ⟨front, heq⟩
  have hne : hex.toList ≠ [] := by
    have hlen := h.length
    intro hnil
    rw [hnil] at hlen
    cases algorithm <;> cases hlen
  have hlast := congrArg List.getLast? heq
  rw [List.getLast?_append_of_ne_nil _ hne, List.getLast?_append_of_ne_nil _ (by simp)] at hlast
  have hmem := List.mem_of_getLast? hlast.symm
  have hp := List.all_eq_true.mp h.2 _ hmem
  exact absurd hp (by decide)

theorem isTmp_digest (d : Digest) : isTmp d.toString = false := isTmp_append_hex _ d.valid

theorem isTmp_hex (d : Digest) : isTmp d.hex = false := by
  have h := isTmp_append_hex "" d.valid
  rwa [String.empty_append] at h

theorem tagPath_ne_digestPath (repo repo' tag : String) (d : Digest) :
    manifestTagPath repo tag ≠ manifestDigestPath repo' d := by
  simp [manifestTagPath, manifestDigestPath]

-- What a tag file holds, and how it is read back.
def utf8 (s : String) : Bytes := s.toUTF8.data.toList

def fromUtf8 (bytes : Bytes) : Option String := String.fromUTF8? ⟨bytes.toArray⟩

@[simp] theorem fromUtf8_utf8 (s : String) : fromUtf8 (utf8 s) = some s := by
  have h : (⟨s.toUTF8.data.toList.toArray⟩ : ByteArray) = s.toByteArray := by simp [String.toUTF8]
  rw [fromUtf8, utf8, String.fromUTF8?, h, dif_pos s.isValidUTF8]
  rfl

-- The Unicode property `White_Space`.
def isWhitespace (c : Char) : Bool :=
  (0x09 ≤ c.toNat && c.toNat ≤ 0x0d) || c.toNat == 0x20 || c.toNat == 0x85 || c.toNat == 0xa0 ||
    c.toNat == 0x1680 || (0x2000 ≤ c.toNat && c.toNat ≤ 0x200a) || c.toNat == 0x2028 ||
    c.toNat == 0x2029 || c.toNat == 0x202f || c.toNat == 0x205f || c.toNat == 0x3000

def trim (s : String) : String :=
  String.ofList ((s.toList.dropWhile isWhitespace).reverse.dropWhile isWhitespace).reverse

theorem isWhitespace_lowerHex {c : Char} (h : isLowerHex c = true) : isWhitespace c = false := by
  have hrange := lowerHex_range h
  simp only [isWhitespace, Bool.or_eq_false_iff, Bool.and_eq_false_iff, decide_eq_false_iff_not,
    beq_eq_false_iff_ne]
  omega

theorem trim_of_none {s : String} (h : ∀ c ∈ s.toList, isWhitespace c = false) : trim s = s := by
  have hdrop : ∀ cs : List Char, (∀ c ∈ cs, isWhitespace c = false) →
      cs.dropWhile isWhitespace = cs := by
    intro cs hcs
    cases cs with
    | nil => rfl
    | cons c rest => rw [List.dropWhile_cons, hcs c List.mem_cons_self, if_neg Bool.false_ne_true]
  rw [trim, hdrop _ h, hdrop _ fun c hc => h c (List.mem_reverse.mp hc), List.reverse_reverse,
    String.ofList_toList]

@[simp] theorem trim_digest (d : Digest) : trim d.toString = d.toString := by
  apply trim_of_none
  intro c hc
  rw [Digest.toString, String.toList_append, String.toList_append] at hc
  rcases List.mem_append.mp hc with hname | hhex
  · have hall : ∀ algorithm : Algorithm,
        (algorithm.name.toList ++ ":".toList).all (fun c => !isWhitespace c) = true := by
      intro algorithm
      cases algorithm <;> decide
    simpa using List.all_eq_true.mp (hall d.algorithm) c hname
  · exact isWhitespace_lowerHex (List.all_eq_true.mp d.valid.2 c hhex)

@[simp] theorem fromStr_toString (d : Digest) : Digest.fromStr d.toString = .ok d := by
  obtain ⟨algorithm, hex, hlen, hhex⟩ := d
  have hsplit : Digest.splitColon (algorithm.name ++ ":" ++ hex) = some (algorithm.name, hex) := by
    cases algorithm <;> simp [Digest.splitColon, Algorithm.name, List.span_eq_takeWhile_dropWhile]
  rw [Digest.fromStr, Digest.toString, hsplit]
  cases algorithm <;> simp [Algorithm.name, Digest.checkHex, hlen, hhex]

theorem splitColon_eq_some {s algorithm hex : String}
    (h : Digest.splitColon s = some (algorithm, hex)) : s = algorithm ++ ":" ++ hex := by
  rw [Digest.splitColon, List.span_eq_takeWhile_dropWhile] at h
  cases hdrop : s.toList.dropWhile (· ≠ ':') with
  | nil =>
      rw [hdrop] at h
      cases h
  | cons c rest =>
      rw [hdrop] at h
      obtain ⟨rfl, rfl⟩ := Prod.mk.inj (Option.some.inj h)
      have hc : c = ':' := by
        have hhead := List.head?_dropWhile_not (· ≠ ':') s.toList
        rw [hdrop] at hhead
        simpa using hhead
      have hparts := List.takeWhile_append_dropWhile (p := (· ≠ ':')) (l := s.toList)
      rw [hdrop, hc] at hparts
      apply String.toList_injective
      simp only [String.toList_append, String.toList_ofList, List.append_assoc]
      exact hparts.symm

theorem toString_of_checkHex {algorithm : Algorithm} {hex : String} {d : Digest}
    (h : Digest.checkHex algorithm hex = .ok d) : d.toString = algorithm.name ++ ":" ++ hex := by
  rw [Digest.checkHex] at h
  split at h
  · split at h <;> cases h
    rfl
  · cases h

-- A digest prints as the text it was parsed from.
theorem toString_of_fromStr {s : String} {d : Digest} (h : Digest.fromStr s = .ok d) :
    d.toString = s := by
  rw [Digest.fromStr] at h
  split at h
  · cases h
  · rename_i hsplit
    rw [splitColon_eq_some hsplit]
    exact toString_of_checkHex h
  · rename_i hsplit
    rw [splitColon_eq_some hsplit]
    exact toString_of_checkHex h
  · cases h

theorem toString_injective : Function.Injective Digest.toString := by
  intro d d' h
  have hparsed := fromStr_toString d'
  rw [← h, fromStr_toString] at hparsed
  exact Except.ok.inj hparsed

theorem blobPath_injective : Function.Injective blobPath := by
  intro d d' h
  obtain ⟨algorithm, hex, hvalid⟩ := d
  obtain ⟨algorithm', hex', hvalid'⟩ := d'
  simp only [blobPath, List.cons.injEq, and_true] at h
  obtain ⟨rfl, -, hname⟩ := h
  cases algorithm <;> cases algorithm' <;> simp_all [Algorithm.name]

end RspaceRegistry.Disk
