import RspaceRegistry.Backend.Run

namespace RspaceRegistry

open Calls Fallible Ordered

variable [Sha2]

namespace Backend

variable (b : Backend) (w : World)

-- What a client of one handle reads while nobody else does anything.

def manifestGet (repo : RepoName) (reference : Reference) : Except StorageError Bytes :=
  ((b.storage.manifestGet repo reference).run World.handle w).1

def blobRead (repo : RepoName) (d : Digest) : Except StorageError Bytes :=
  ((b.storage.blobRead repo.text d).run World.handle w).1

def listTags (repo : RepoName) : Except StorageError (BTreeSet TagName) :=
  ((b.storage.listTags repo).run World.handle w).1

theorem manifestGet_eq (repo : RepoName) (reference : Reference) :
    b.manifestGet w repo reference = orNotFound (b.read w.volumes repo reference) := by
  unfold manifestGet
  rw [b.run_manifestGet]

theorem blobRead_eq (repo : RepoName) (d : Digest) :
    b.blobRead w repo d = orNotFound (b.blob w.volumes d) := by
  unfold blobRead
  rw [b.run_blobRead]

theorem listTags_eq (repo : RepoName) : ∃ tags, b.listTags w repo = .ok tags ∧
    ∀ tag, tag ∈ tags ↔ b.HasTag w.volumes repo tag := by
  obtain ⟨tags, hrun, hmem⟩ := b.run_listTags w repo
  refine ⟨tags, ?_, hmem⟩
  unfold listTags
  rw [hrun]

theorem manifestGet_eq_ok (repo : RepoName) (reference : Reference) (content : Bytes) :
    b.manifestGet w repo reference = .ok content ↔ b.read w.volumes repo reference = some content := by
  rw [manifestGet_eq, orNotFound_eq_ok]

theorem blobRead_eq_ok (repo : RepoName) (d : Digest) (content : Bytes) :
    b.blobRead w repo d = .ok content ↔ b.blob w.volumes d = some content := by
  rw [blobRead_eq, orNotFound_eq_ok]

end Backend

-- A directory lists every repository that it has a tag of.
theorem World.tag_listed (w : World) {root : RootId} {repo : RepoName} {tag : TagName}
    (h : ((w.volumes root).tag repo tag).isSome) : (w.volumes root).repo repo :=
  (w.roots root).tags_listed repo tag (AList.lookup_isSome.mp h)

theorem Backend.hasRepo_of_hasTag (b : Backend) (w : World) {repo : RepoName} {tag : TagName}
    (h : b.HasTag w.volumes repo tag) : b.HasRepo w.volumes repo := by
  obtain ⟨root, hroot, htag⟩ := h
  exact ⟨root, hroot, w.tag_listed htag⟩

theorem Backend.hasRepo_of_read (b : Backend) (w : World) {repo : RepoName} {reference : Reference}
    {content : Bytes} (h : b.read w.volumes repo reference = some content) :
    b.HasRepo w.volumes repo := by
  obtain ⟨root, hroot, hat⟩ := Backend.exists_of_read h
  obtain ⟨d, _, hd⟩ := (Contents.read_eq_some _ _ _ _).mp hat
  exact ⟨root, hroot, (w.volumes_wellFormed root).manifest_listed repo d content hd⟩

end RspaceRegistry
