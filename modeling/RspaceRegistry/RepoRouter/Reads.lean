import RspaceRegistry.Backend.Run
import RspaceRegistry.RepoRouter.Storage

namespace RspaceRegistry.World

open Calls Fallible Ordered

variable [Sha2] (w : World)

-- What a client reads through the router while nobody else does anything.

def manifestGet (repo : RepoName) (reference : Reference) : Except StorageError Bytes :=
  ((RepoRouter.storage.manifestGet repo reference).run handle w).1

def blobRead (repo : RepoName) (d : Digest) : Except StorageError Bytes :=
  ((RepoRouter.storage.blobRead repo.text d).run handle w).1

def listTags (repo : RepoName) : Except StorageError (BTreeSet TagName) :=
  ((RepoRouter.storage.listTags repo).run handle w).1

theorem run_backendFor (repo : String) :
    (StoreM.backendFor repo).run handle w = (.ok (w.router.resolve repo), w) := rfl

theorem manifestGet_eq (repo : RepoName) (reference : Reference) : w.manifestGet repo reference =
    orNotFound ((w.router.resolve repo.text).read w.volumes repo reference) := by
  unfold manifestGet RepoRouter.storage
  rw [run_bind_of_ok (w.run_backendFor repo.text), Backend.run_manifestGet]

theorem blobRead_eq (repo : RepoName) (d : Digest) :
    w.blobRead repo d = orNotFound ((w.router.resolve repo.text).blob w.volumes d) := by
  unfold blobRead RepoRouter.storage
  rw [run_bind_of_ok (w.run_backendFor repo.text), Backend.run_blobRead]

theorem listTags_eq (repo : RepoName) : ∃ tags, w.listTags repo = .ok tags ∧
    ∀ tag, tag ∈ tags ↔ (w.router.resolve repo.text).HasTag w.volumes repo tag := by
  obtain ⟨tags, hrun, hmem⟩ := (w.router.resolve repo.text).run_listTags w repo
  refine ⟨tags, ?_, hmem⟩
  unfold listTags RepoRouter.storage
  rw [run_bind_of_ok (w.run_backendFor repo.text), hrun]

theorem manifestGet_eq_ok (repo : RepoName) (reference : Reference) (content : Bytes) :
    w.manifestGet repo reference = .ok content ↔
      (w.router.resolve repo.text).read w.volumes repo reference = some content := by
  rw [manifestGet_eq, orNotFound_eq_ok]

theorem blobRead_eq_ok (repo : RepoName) (d : Digest) (content : Bytes) :
    w.blobRead repo d = .ok content ↔
      (w.router.resolve repo.text).blob w.volumes d = some content := by
  rw [blobRead_eq, orNotFound_eq_ok]

-- Listings are equal when they have the same members.
theorem listTags_eq_iff (w w' : World) (repo : RepoName) : w'.listTags repo = w.listTags repo ↔
    ∀ tag, (w'.router.resolve repo.text).HasTag w'.volumes repo tag ↔
      (w.router.resolve repo.text).HasTag w.volumes repo tag := by
  obtain ⟨tags, htags, hmem⟩ := w.listTags_eq repo
  obtain ⟨tags', htags', hmem'⟩ := w'.listTags_eq repo
  rw [htags, htags']
  constructor
  · intro h tag
    rw [← hmem, ← hmem', Except.ok.inj h]
  · intro h
    have heq : tags' = tags := BTreeSet.ext fun tag => by rw [hmem, hmem', h]
    rw [heq]

end RspaceRegistry.World
