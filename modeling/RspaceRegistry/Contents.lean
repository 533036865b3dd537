import RspaceRegistry.FsStorage
import Mathlib.Logic.Function.Basic

namespace RspaceRegistry

open Ordered

-- A storage root by what can be looked up in it. This is all that the services
-- built on a root may depend on: not the order in which files were created.
@[ext]
structure Contents where
  blob : Digest → Option Bytes
  manifest : RepoName → Digest → Option Bytes
  tag : RepoName → TagName → Option Digest
  repo : RepoName → Prop

namespace Contents

def setBlob (c : Contents) (d : Digest) (content : Option Bytes) : Contents :=
  { c with blob := fun d' => if d' = d then content else c.blob d' }

def setManifest (c : Contents) (repo : RepoName) (d : Digest) (content : Option Bytes) : Contents :=
  { c with manifest := fun r d' => if r = repo ∧ d' = d then content else c.manifest r d' }

def setTag (c : Contents) (repo : RepoName) (tag : TagName) (d : Option Digest) : Contents :=
  { c with tag := fun r t => if r = repo ∧ t = tag then d else c.tag r t }

def addRepo (c : Contents) (repo : RepoName) : Contents :=
  { c with repo := fun r => r = repo ∨ c.repo r }

-- The digest a reference stands for.
def target (c : Contents) (repo : RepoName) : Reference → Option Digest
  | .digest digest => some digest
  | .tag tag => c.tag repo tag

def read (c : Contents) (repo : RepoName) (reference : Reference) : Option Bytes :=
  (c.target repo reference).bind (c.manifest repo)

@[simp] theorem read_digest (c : Contents) (repo : RepoName) (d : Digest) :
    c.read repo (.digest d) = c.manifest repo d := rfl

theorem read_tag (c : Contents) (repo : RepoName) (tag : TagName) :
    c.read repo (.tag tag) = (c.tag repo tag).bind (c.manifest repo) := rfl

theorem read_eq_some (c : Contents) (repo : RepoName) (reference : Reference) (content : Bytes) :
    c.read repo reference = some content ↔
      ∃ d, c.target repo reference = some d ∧ c.manifest repo d = some content :=
  Option.bind_eq_some_iff

-- A put leaves a manifest under its own digest, and the tag on it.
def put [Sha2] (c : Contents) (repo : RepoName) (reference : Reference) (content : Bytes) :
    Contents :=
  let stored := (c.setManifest repo (sha256Digest content) (some content)).addRepo repo
  match reference with
  | .digest _ => stored
  | .tag tag => stored.setTag repo tag (some (sha256Digest content))

-- What a delete would remove.
def present (c : Contents) (repo : RepoName) : Reference → Option Unit
  | .digest d => (c.manifest repo d).map fun _ => ()
  | .tag tag => (c.tag repo tag).map fun _ => ()

def delete (c : Contents) (repo : RepoName) : Reference → Contents
  | .digest d => c.setManifest repo d none
  | .tag tag => c.setTag repo tag none

-- The files after a put.

section Put

variable [Sha2] (c : Contents) (repo : RepoName) (reference : Reference) (content : Bytes)

@[simp] theorem put_blob : (c.put repo reference content).blob = c.blob := by
  cases reference <;> rfl

theorem put_manifest (r : RepoName) (d : Digest) : (c.put repo reference content).manifest r d =
    if r = repo ∧ d = sha256Digest content then some content else c.manifest r d := by
  cases reference <;> rfl

theorem put_tag (r : RepoName) (t : TagName) : (c.put repo reference content).tag r t =
    if r = repo ∧ reference = .tag t then some (sha256Digest content) else c.tag r t := by
  cases reference with
  | digest d => simp [put, setManifest, addRepo]
  | tag tag =>
      simp only [put, setTag, setManifest, addRepo, Reference.tag.injEq]
      exact if_congr (and_congr_right fun _ => eq_comm) rfl rfl

end Put

theorem setBlob_setBlob (c : Contents) (d : Digest) (first second : Option Bytes) :
    (c.setBlob d first).setBlob d second = c.setBlob d second := by
  ext1
  · funext d'
    by_cases h : d' = d <;> simp [setBlob, h]
  all_goals rfl

theorem delete_delete (c : Contents) (repo : RepoName) (reference : Reference) :
    (c.delete repo reference).delete repo reference = c.delete repo reference := by
  cases reference with
  | digest d =>
      ext1
      · rfl
      · funext r d'
        by_cases h : r = repo ∧ d' = d <;> simp [delete, setManifest, h]
      all_goals rfl
  | tag tag =>
      ext1
      · rfl
      · rfl
      · funext r t
        by_cases h : r = repo ∧ t = tag <;> simp [delete, setTag, h]
      · rfl

theorem present_delete (c : Contents) (repo : RepoName) (reference : Reference) :
    (c.delete repo reference).present repo reference = none := by
  cases reference <;> simp [present, delete, setManifest, setTag]

-- Everything is stored under its own hash, and what is stored is listed.
structure WellFormed [Sha2] (c : Contents) : Prop where
  blob_addressed : ∀ d content, c.blob d = some content → hashContent d.algorithm content = d
  manifest_addressed : ∀ repo d content,
    c.manifest repo d = some content → sha256Digest content = d
  manifest_listed : ∀ repo d content, c.manifest repo d = some content → c.repo repo
  tag_listed : ∀ repo tag d, c.tag repo tag = some d → c.repo repo

end Contents

-- A lookup that fails is `NotFound`.
def orNotFound {α : Type} : Option α → Except StorageError α
  | some value => .ok value
  | none => .error .notFound

@[simp] theorem orNotFound_some {α : Type} (value : α) : orNotFound (some value) = .ok value := rfl

@[simp] theorem orNotFound_none {α : Type} :
    orNotFound (none : Option α) = .error .notFound := rfl

theorem orNotFound_eq_ok {α : Type} (o : Option α) (value : α) :
    orNotFound o = .ok value ↔ o = some value := by
  cases o <;> simp

theorem orNotFound_eq_notFound {α : Type} (o : Option α) :
    orNotFound o = .error .notFound ↔ o = none := by
  cases o <;> simp

theorem orNotFound_injective {α : Type} : Function.Injective (orNotFound (α := α)) := by
  intro a b h
  cases a <;> cases b <;> simp_all

namespace FsStorage

variable [Sha2]

def contents (fs : FsStorage) : Contents where
  blob d := fs.blobs.lookup d
  manifest repo d := fs.manifests.lookup (repo, d)
  tag repo tag := fs.tags.lookup (repo, tag)
  repo r := r ∈ fs.repoDirs

theorem contents_wellFormed (fs : FsStorage) : fs.contents.WellFormed where
  blob_addressed := fs.blobs_addressed
  manifest_addressed := fs.manifests_addressed
  manifest_listed repo d content h :=
    fs.manifests_listed repo d (AList.lookup_isSome.mp (Option.isSome_iff_exists.mpr ⟨content, h⟩))
  tag_listed repo tag d h :=
    fs.tags_listed repo tag (AList.lookup_isSome.mp (Option.isSome_iff_exists.mpr ⟨d, h⟩))

theorem blobExists_eq (fs : FsStorage) (d : Digest) :
    fs.blobExists d = (fs.contents.blob d).isSome := by
  have h : (fs.blobs.lookup d).isSome ↔ d ∈ fs.blobs := AList.lookup_isSome
  rw [Bool.eq_iff_iff]
  exact decide_eq_true_iff.trans h.symm

theorem blobRead_eq (fs : FsStorage) (d : Digest) :
    fs.blobRead d = orNotFound (fs.contents.blob d) := by
  show fs.blobRead d = orNotFound (fs.blobs.lookup d)
  unfold blobRead
  cases fs.blobs.lookup d <;> rfl

theorem blobSize_eq (fs : FsStorage) (d : Digest) :
    fs.blobSize d = orNotFound ((fs.contents.blob d).map List.length) := by
  show fs.blobSize d = orNotFound ((fs.blobs.lookup d).map List.length)
  unfold blobSize
  cases fs.blobs.lookup d <;> rfl

theorem manifestGet_eq (fs : FsStorage) (repo : RepoName) (reference : Reference) :
    fs.manifestGet repo reference = orNotFound (fs.contents.read repo reference) := by
  have ht : fs.contents.target repo reference = fs.target repo reference := by
    cases reference <;> rfl
  unfold manifestGet Contents.read
  rw [ht]
  cases fs.target repo reference with
  | none => rfl
  | some d =>
      simp only [contents, Option.bind_some]
      cases fs.manifests.lookup (repo, d) <;> rfl

theorem insertBlob_contents (fs : FsStorage) (d : Digest) (content : Bytes)
    (h : hashContent d.algorithm content = d) :
    (fs.insertBlob d content h).contents = fs.contents.setBlob d (some content) := by
  ext1
  · funext d'
    by_cases hd : d' = d
    · subst hd
      simp [contents, insertBlob, Contents.setBlob]
    · simp [contents, insertBlob, Contents.setBlob, hd]
  all_goals rfl

theorem eraseBlob_contents (fs : FsStorage) (d : Digest) :
    (fs.eraseBlob d).contents = fs.contents.setBlob d none := by
  ext1
  · funext d'
    by_cases hd : d' = d
    · subst hd
      simp [contents, eraseBlob, Contents.setBlob]
    · simp [contents, eraseBlob, Contents.setBlob, hd]
  all_goals rfl

theorem makeRepoDir_contents (fs : FsStorage) (repo : RepoName) :
    (fs.makeRepoDir repo).contents = fs.contents.addRepo repo := by
  ext1
  · rfl
  · rfl
  · rfl
  · funext r
    exact propext (BTreeSet.mem_insert ..)

theorem insertManifest_contents (fs : FsStorage) (repo : RepoName) (content : Bytes) :
    (fs.insertManifest repo content).contents =
      (fs.contents.setManifest repo (sha256Digest content) (some content)).addRepo repo := by
  ext1
  · rfl
  · funext r d
    by_cases hk : (r, d) = (repo, sha256Digest content)
    · obtain ⟨rfl, rfl⟩ := Prod.mk.inj hk
      simp [contents, insertManifest, Contents.setManifest, Contents.addRepo]
    · have hk' : ¬(r = repo ∧ d = sha256Digest content) := fun h => hk (Prod.ext h.1 h.2)
      simp [contents, insertManifest, Contents.setManifest, Contents.addRepo, hk, hk']
  · rfl
  · funext r
    exact propext (BTreeSet.mem_insert ..)

theorem insertTag_contents (fs : FsStorage) (repo : RepoName) (tag : TagName) (d : Digest) :
    (fs.insertTag repo tag d).contents = (fs.contents.setTag repo tag (some d)).addRepo repo := by
  ext1
  · rfl
  · rfl
  · funext r t
    by_cases hk : (r, t) = (repo, tag)
    · obtain ⟨rfl, rfl⟩ := Prod.mk.inj hk
      simp [contents, insertTag, Contents.setTag, Contents.addRepo]
    · have hk' : ¬(r = repo ∧ t = tag) := fun h => hk (Prod.ext h.1 h.2)
      simp [contents, insertTag, Contents.setTag, Contents.addRepo, hk, hk']
  · funext r
    exact propext (BTreeSet.mem_insert ..)

theorem eraseManifest_contents (fs : FsStorage) (repo : RepoName) (d : Digest) :
    (fs.eraseManifest repo d).contents = fs.contents.setManifest repo d none := by
  ext1
  · rfl
  · funext r d'
    by_cases hk : (r, d') = (repo, d)
    · obtain ⟨rfl, rfl⟩ := Prod.mk.inj hk
      simp [contents, eraseManifest, Contents.setManifest]
    · have hk' : ¬(r = repo ∧ d' = d) := fun h => hk (Prod.ext h.1 h.2)
      simp [contents, eraseManifest, Contents.setManifest, hk, hk']
  · rfl
  · rfl

theorem eraseTag_contents (fs : FsStorage) (repo : RepoName) (tag : TagName) :
    (fs.eraseTag repo tag).contents = fs.contents.setTag repo tag none := by
  ext1
  · rfl
  · rfl
  · funext r t
    by_cases hk : (r, t) = (repo, tag)
    · obtain ⟨rfl, rfl⟩ := Prod.mk.inj hk
      simp [contents, eraseTag, Contents.setTag]
    · have hk' : ¬(r = repo ∧ t = tag) := fun h => hk (Prod.ext h.1 h.2)
      simp [contents, eraseTag, Contents.setTag, hk, hk']
  · rfl

theorem blobWrite_addressed (fs : FsStorage) (d : Digest) (content : Bytes)
    (h : hashContent d.algorithm content = d) :
    (fs.blobWrite d content).1 = .ok () ∧
      (fs.blobWrite d content).2.contents = fs.contents.setBlob d (some content) := by
  rw [blobWrite, dif_pos h]
  exact ⟨rfl, fs.insertBlob_contents d content h⟩

theorem blobWrite_mismatch (fs : FsStorage) (d : Digest) (content : Bytes)
    (h : hashContent d.algorithm content ≠ d) :
    fs.blobWrite d content = (.error (.digestMismatch d (hashContent d.algorithm content)), fs) :=
  dif_neg h

theorem manifestPut_answer (fs : FsStorage) (repo : RepoName) (reference : Reference)
    (content : Bytes) : (fs.manifestPut repo reference content).1 = .ok (sha256Digest content) := by
  cases reference <;> rfl

theorem manifestPut_contents (fs : FsStorage) (repo : RepoName) (reference : Reference)
    (content : Bytes) :
    (fs.manifestPut repo reference content).2.contents = fs.contents.put repo reference content := by
  cases reference with
  | digest d => exact fs.insertManifest_contents repo content
  | tag tag =>
      have h : (fs.manifestPut repo (.tag tag) content).2.contents =
          ((fs.insertManifest repo content).insertTag repo tag (sha256Digest content)).contents := rfl
      rw [h, insertTag_contents, insertManifest_contents]
      ext1
      · rfl
      · rfl
      · rfl
      · funext r
        exact propext or_self_left

-- A delete that finds nothing changes nothing, which is what deleting nothing
-- comes to.
theorem blobDelete_eq (fs : FsStorage) (d : Digest) :
    (fs.blobDelete d).1 = orNotFound ((fs.contents.blob d).map fun _ => ()) ∧
      (fs.blobDelete d).2.contents = fs.contents.setBlob d none := by
  by_cases h : d ∈ fs.blobs
  · obtain ⟨content, hc⟩ := Option.isSome_iff_exists.mp (AList.lookup_isSome.mpr h)
    have hb : fs.contents.blob d = some content := hc
    rw [blobDelete, if_pos h, hb]
    exact ⟨rfl, fs.eraseBlob_contents d⟩
  · have hb : fs.contents.blob d = none := AList.lookup_eq_none.mpr h
    rw [blobDelete, if_neg h, hb]
    refine ⟨rfl, ?_⟩
    ext1
    · funext d'
      by_cases hd : d' = d
      · simp [Contents.setBlob, hd, hb]
      · simp [Contents.setBlob, hd]
    all_goals rfl

theorem manifestDelete_answer (fs : FsStorage) (repo : RepoName) (reference : Reference) :
    (fs.manifestDelete repo reference).1 = orNotFound (fs.contents.present repo reference) := by
  cases reference with
  | digest d =>
      by_cases h : (repo, d) ∈ fs.manifests
      · obtain ⟨content, hc⟩ := Option.isSome_iff_exists.mp (AList.lookup_isSome.mpr h)
        have hm : fs.contents.manifest repo d = some content := hc
        rw [manifestDelete, if_pos h, Contents.present, hm]
        rfl
      · have hm : fs.contents.manifest repo d = none := AList.lookup_eq_none.mpr h
        rw [manifestDelete, if_neg h, Contents.present, hm]
        rfl
  | tag tag =>
      by_cases h : (repo, tag) ∈ fs.tags
      · obtain ⟨d, hd⟩ := Option.isSome_iff_exists.mp (AList.lookup_isSome.mpr h)
        have ht : fs.contents.tag repo tag = some d := hd
        rw [manifestDelete, if_pos h, Contents.present, ht]
        rfl
      · have ht : fs.contents.tag repo tag = none := AList.lookup_eq_none.mpr h
        rw [manifestDelete, if_neg h, Contents.present, ht]
        rfl

theorem manifestDelete_contents (fs : FsStorage) (repo : RepoName) (reference : Reference) :
    (fs.manifestDelete repo reference).2.contents = fs.contents.delete repo reference := by
  cases reference with
  | digest d =>
      by_cases h : (repo, d) ∈ fs.manifests
      · rw [manifestDelete, if_pos h]
        exact fs.eraseManifest_contents repo d
      · have hm : fs.contents.manifest repo d = none := AList.lookup_eq_none.mpr h
        rw [manifestDelete, if_neg h]
        ext1
        · rfl
        · funext r d'
          by_cases hk : r = repo ∧ d' = d
          · obtain ⟨rfl, rfl⟩ := hk
            simp [Contents.delete, Contents.setManifest, hm]
          · simp [Contents.delete, Contents.setManifest, hk]
        · rfl
        · rfl
  | tag tag =>
      by_cases h : (repo, tag) ∈ fs.tags
      · rw [manifestDelete, if_pos h]
        exact fs.eraseTag_contents repo tag
      · have hm : fs.contents.tag repo tag = none := AList.lookup_eq_none.mpr h
        rw [manifestDelete, if_neg h]
        ext1
        · rfl
        · rfl
        · funext r t
          by_cases hk : r = repo ∧ t = tag
          · obtain ⟨rfl, rfl⟩ := hk
            simp [Contents.delete, Contents.setTag, hm]
          · simp [Contents.delete, Contents.setTag, hk]
        · rfl

theorem mem_listTags (fs : FsStorage) (repo : RepoName) (tag : TagName) :
    tag ∈ fs.listTags repo ↔ (fs.contents.tag repo tag).isSome := by
  have h : (fs.contents.tag repo tag).isSome ↔ (repo, tag) ∈ fs.tags := AList.lookup_isSome
  rw [h]
  simp only [listTags, BTreeSet.mem_extend, BTreeSet.not_mem_empty, or_false,
    List.mem_map, List.mem_filter, decide_eq_true_eq, AList.mem_keys]
  constructor
  · rintro ⟨⟨r, t⟩, ⟨hm, rfl⟩, rfl⟩
    exact hm
  · intro hm
    exact ⟨(repo, tag), ⟨hm, rfl⟩, rfl⟩

theorem mem_listManifestDigests (fs : FsStorage) (repo : RepoName) (d : Digest) :
    d ∈ fs.listManifestDigests repo ↔ (fs.contents.manifest repo d).isSome := by
  have h : (fs.contents.manifest repo d).isSome ↔ (repo, d) ∈ fs.manifests := AList.lookup_isSome
  rw [h]
  simp only [listManifestDigests, BTreeSet.mem_extend,
    BTreeSet.not_mem_empty, or_false, List.mem_map, List.mem_filter, decide_eq_true_eq,
    AList.mem_keys]
  constructor
  · rintro ⟨⟨r, d'⟩, ⟨hm, rfl⟩, rfl⟩
    exact hm
  · intro hm
    exact ⟨(repo, d), ⟨hm, rfl⟩, rfl⟩

theorem mem_listAllBlobs (fs : FsStorage) (d : Digest) :
    d ∈ fs.listAllBlobs ↔ (fs.contents.blob d).isSome := by
  have h : (fs.contents.blob d).isSome ↔ d ∈ fs.blobs := AList.lookup_isSome
  rw [h]
  simp only [listAllBlobs, BTreeSet.mem_extend, BTreeSet.not_mem_empty,
    or_false, AList.mem_keys]

end FsStorage

end RspaceRegistry
