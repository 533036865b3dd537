import RspaceRegistry.Ordered.BTreeSet
import RspaceRegistry.StorageError
import Mathlib.Data.List.AList

namespace RspaceRegistry

open Ordered

-- One storage root, by the files under it: `blobs/<alg>/<xx>/<hex>`,
-- `manifests/<repo>/digests/<digest>` and `manifests/<repo>/tags/<tag>`, the last
-- holding a digest. Directories are created on demand and stay when the files
-- in them go, so `repoDirs` keeps every repository that was ever written to.
structure FsStorage [Sha2] where
  blobs : AList fun _ : Digest => Bytes
  manifests : AList fun _ : RepoName × Digest => Bytes
  tags : AList fun _ : RepoName × TagName => Digest
  repoDirs : BTreeSet RepoName
  blobs_addressed : ∀ d content, blobs.lookup d = some content → hashContent d.algorithm content = d
  manifests_addressed : ∀ repo d content,
    manifests.lookup (repo, d) = some content → sha256Digest content = d
  manifests_listed : ∀ repo d, (repo, d) ∈ manifests → repo ∈ repoDirs
  tags_listed : ∀ repo tag, (repo, tag) ∈ tags → repo ∈ repoDirs

namespace FsStorage

variable [Sha2]

-- `FsStorage::new` on a fresh directory.
def new : FsStorage where
  blobs := ∅
  manifests := ∅
  tags := ∅
  repoDirs := BTreeSet.empty
  blobs_addressed := by simp
  manifests_addressed := by simp
  manifests_listed := by simp
  tags_listed := by simp

def blobExists (fs : FsStorage) (digest : Digest) : Bool := digest ∈ fs.blobs

def blobRead (fs : FsStorage) (digest : Digest) : Except StorageError Bytes :=
  match fs.blobs.lookup digest with
  | some content => .ok content
  | none => .error .notFound

def blobSize (fs : FsStorage) (digest : Digest) : Except StorageError Nat :=
  match fs.blobs.lookup digest with
  | some content => .ok content.length
  | none => .error .notFound

def insertBlob (fs : FsStorage) (digest : Digest) (content : Bytes)
    (h : hashContent digest.algorithm content = digest) : FsStorage :=
  { fs with
    blobs := fs.blobs.insert digest content
    blobs_addressed := by
      intro d c hc
      by_cases hd : d = digest
      · subst hd
        rw [AList.lookup_insert] at hc
        exact Option.some.inj hc ▸ h
      · rw [AList.lookup_insert_ne hd] at hc
        exact fs.blobs_addressed d c hc }

def blobWrite (fs : FsStorage) (expected : Digest) (content : Bytes) :
    Except StorageError Unit × FsStorage :=
  if h : hashContent expected.algorithm content = expected then
    (.ok (), fs.insertBlob expected content h)
  else (.error (.digestMismatch expected (hashContent expected.algorithm content)), fs)

def eraseBlob (fs : FsStorage) (digest : Digest) : FsStorage :=
  { fs with
    blobs := fs.blobs.erase digest
    blobs_addressed := by
      intro d c hc
      by_cases hd : d = digest
      · subst hd
        rw [AList.lookup_erase] at hc
        cases hc
      · rw [AList.lookup_erase_ne hd] at hc
        exact fs.blobs_addressed d c hc }

def blobDelete (fs : FsStorage) (digest : Digest) : Except StorageError Unit × FsStorage :=
  if digest ∈ fs.blobs then (.ok (), fs.eraseBlob digest) else (.error .notFound, fs)

-- The digest a reference stands for: a tag is read from its file.
def target (fs : FsStorage) (repo : RepoName) : Reference → Option Digest
  | .digest digest => some digest
  | .tag tag => fs.tags.lookup (repo, tag)

def manifestGet (fs : FsStorage) (repo : RepoName) (reference : Reference) :
    Except StorageError Bytes :=
  match fs.target repo reference with
  | none => .error .notFound
  | some digest =>
      match fs.manifests.lookup (repo, digest) with
      | some content => .ok content
      | none => .error .notFound

def insertManifest (fs : FsStorage) (repo : RepoName) (content : Bytes) : FsStorage :=
  { fs with
    manifests := fs.manifests.insert (repo, sha256Digest content) content
    repoDirs := fs.repoDirs.insert repo
    manifests_addressed := by
      intro r d c hc
      by_cases hk : (r, d) = (repo, sha256Digest content)
      · rw [hk, AList.lookup_insert] at hc
        rw [← Option.some.inj hc]
        exact (Prod.mk.inj hk).2.symm
      · rw [AList.lookup_insert_ne hk] at hc
        exact fs.manifests_addressed r d c hc
    manifests_listed := by
      intro r d hm
      rw [BTreeSet.mem_insert]
      rcases (AList.mem_insert _).mp hm with hk | hm
      · exact .inl (Prod.mk.inj hk).1
      · exact .inr (fs.manifests_listed r d hm)
    tags_listed := by
      intro r t hm
      rw [BTreeSet.mem_insert]
      exact .inr (fs.tags_listed r t hm) }

def insertTag (fs : FsStorage) (repo : RepoName) (tag : TagName) (digest : Digest) : FsStorage :=
  { fs with
    tags := fs.tags.insert (repo, tag) digest
    repoDirs := fs.repoDirs.insert repo
    manifests_listed := by
      intro r d hm
      rw [BTreeSet.mem_insert]
      exact .inr (fs.manifests_listed r d hm)
    tags_listed := by
      intro r t hm
      rw [BTreeSet.mem_insert]
      rcases (AList.mem_insert _).mp hm with hk | hm
      · exact .inl (Prod.mk.inj hk).1
      · exact .inr (fs.tags_listed r t hm) }

-- A put that fails may have made the directories it needs.
def makeRepoDir (fs : FsStorage) (repo : RepoName) : FsStorage :=
  { fs with
    repoDirs := fs.repoDirs.insert repo
    manifests_listed := by
      intro r d hm
      rw [BTreeSet.mem_insert]
      exact .inr (fs.manifests_listed r d hm)
    tags_listed := by
      intro r t hm
      rw [BTreeSet.mem_insert]
      exact .inr (fs.tags_listed r t hm) }

-- The manifest file is written first, the tag file second.
def manifestPut (fs : FsStorage) (repo : RepoName) (reference : Reference) (content : Bytes) :
    Except StorageError Digest × FsStorage :=
  let fs := fs.insertManifest repo content
  match reference with
  | .digest _ => (.ok (sha256Digest content), fs)
  | .tag tag => (.ok (sha256Digest content), fs.insertTag repo tag (sha256Digest content))

def eraseManifest (fs : FsStorage) (repo : RepoName) (digest : Digest) : FsStorage :=
  { fs with
    manifests := fs.manifests.erase (repo, digest)
    manifests_addressed := by
      intro r d c hc
      by_cases hk : (r, d) = (repo, digest)
      · rw [hk, AList.lookup_erase] at hc
        cases hc
      · rw [AList.lookup_erase_ne hk] at hc
        exact fs.manifests_addressed r d c hc
    manifests_listed := fun r d hm => fs.manifests_listed r d (AList.mem_erase.mp hm).2 }

def eraseTag (fs : FsStorage) (repo : RepoName) (tag : TagName) : FsStorage :=
  { fs with
    tags := fs.tags.erase (repo, tag)
    tags_listed := fun r t hm => fs.tags_listed r t (AList.mem_erase.mp hm).2 }

def manifestDelete (fs : FsStorage) (repo : RepoName) :
    Reference → Except StorageError Unit × FsStorage
  | .digest digest =>
      if (repo, digest) ∈ fs.manifests then (.ok (), fs.eraseManifest repo digest)
      else (.error .notFound, fs)
  | .tag tag =>
      if (repo, tag) ∈ fs.tags then (.ok (), fs.eraseTag repo tag) else (.error .notFound, fs)

-- The listings are sorted and free of duplicates, which their type says. A
-- directory with a `tags` or `digests` child is a repository, empty or not.
def listRepos (fs : FsStorage) : BTreeSet RepoName := fs.repoDirs

def listTags (fs : FsStorage) (repo : RepoName) : BTreeSet TagName :=
  BTreeSet.empty.extend ((fs.tags.keys.filter (·.1 = repo)).map Prod.snd)

def listManifestDigests (fs : FsStorage) (repo : RepoName) : BTreeSet Digest :=
  BTreeSet.empty.extend ((fs.manifests.keys.filter (·.1 = repo)).map Prod.snd)

def listAllBlobs (fs : FsStorage) : BTreeSet Digest := BTreeSet.empty.extend fs.blobs.keys

end FsStorage

end RspaceRegistry
