import RspaceRegistry.Backend.Uses
import RspaceRegistry.Migrate

namespace RspaceRegistry.Migrate

open Calls Fallible Ordered

-- Where the parts of a migration write and delete: the backfill puts files into
-- the destination's head, the drain deletes below the old backend, and nothing
-- else is touched.

variable [SerdeJson]

section Walk

variable (storage : Backend) (repo : RepoName)

omit [SerdeJson] in
theorem readOnly_walkChildren {walk : Digest → Bytes → Walked → StoreM Walked}
    (hwalk : ∀ d bytes walked, ReadOnly (walk d bytes walked)) (children : List Digest)
    (walked : Walked) : ReadOnly (walkChildren storage.storage repo walk children walked) := by
  induction children generalizing walked with
  | nil => exact uses_pure _ _
  | cons child rest ih =>
      rw [walkChildren]
      split
      · exact ih walked
      · refine (storage.readOnly_manifestGet repo (.digest child)).attempt.bind ?_
        intro result
        rcases result with err | bytes
        · cases err with
          | notFound => exact ih walked
          | _ => exact uses_fail _ _
        · exact (hwalk child bytes walked).bind ih

theorem readOnly_walkFrom (steps : Nat) (d : Digest) (bytes : Bytes) (walked : Walked) :
    ReadOnly (walkFrom storage.storage repo steps d bytes walked) := by
  induction steps generalizing d bytes walked with
  | zero => exact uses_pure _ _
  | succ steps ih =>
      rw [walkFrom]
      split
      · exact uses_pure _ _
      · cases parseManifestRefs bytes with
        | none => exact uses_pure _ _
        | some m =>
            refine (readOnly_walkChildren storage repo ih m.childDigests _).bind ?_
            intro walked'
            exact uses_pure _ _

theorem readOnly_walk (d : Digest) (bytes : Bytes) (walked : Walked) :
    ReadOnly (walk storage.storage repo d bytes walked) :=
  readOnly_walkFrom storage repo _ d bytes walked

theorem readOnly_walkDetached (digests : List Digest) (walked : Walked) :
    ReadOnly (walkDetached storage.storage repo digests walked) := by
  induction digests generalizing walked with
  | nil => exact uses_pure _ _
  | cons d rest ih =>
      rw [walkDetached]
      split
      · exact ih walked
      · refine (storage.readOnly_manifestGet repo (.digest d)).attempt.bind ?_
        intro result
        rcases result with err | bytes
        · cases err with
          | notFound => exact ih walked
          | _ => exact uses_fail _ _
        · exact (readOnly_walk storage repo d bytes walked).bind ih

theorem readOnly_walkTags [Sha2] (listed : List TagName) (tags : List (TagName × Digest))
    (walked : Walked) : ReadOnly (walkTags storage.storage repo listed tags walked) := by
  induction listed generalizing tags walked with
  | nil => exact uses_pure _ _
  | cons tag rest ih =>
      refine (storage.readOnly_manifestGet repo (.tag tag)).bind ?_
      intro bytes
      refine (readOnly_walk storage repo _ bytes walked).bind ?_
      intro walked'
      exact ih _ _

end Walk

section Copy

variable (src dst : Backend)

omit [SerdeJson] in
theorem uses_copyBlobs (repo : RepoName) (blobs : List Digest) (report : MigrateReport) :
    (copyBlobs src.storage dst.storage repo blobs report).Uses (Op.Confined [dst.head] []) := by
  induction blobs generalizing report with
  | nil => exact uses_pure _ _
  | cons d rest ih =>
      refine ((dst.readOnly_blobExists repo.text d).uses _ _).bind ?_
      intro found
      split
      · exact ih report
      · refine ((src.readOnly_blobRead repo.text d).uses _ _).attempt.bind ?_
        intro result
        rcases result with err | bytes
        · cases err with
          | notFound => exact ih report
          | _ => exact uses_fail _ _
        · exact (dst.uses_blobWrite repo.text d bytes).bind fun _ => ih _

omit [SerdeJson] in
theorem uses_copyManifests (repo : RepoName) (digests : List Digest) (report : MigrateReport) :
    (copyManifests src.storage dst.storage repo digests report).Uses
      (Op.Confined [dst.head] []) := by
  induction digests generalizing report with
  | nil => exact uses_pure _ _
  | cons d rest ih =>
      refine ((dst.readOnly_manifestGet repo (.digest d)).uses _ _).attempt.bind ?_
      intro found
      rcases found with err | bytes
      · refine ((src.readOnly_manifestGet repo (.digest d)).uses _ _).attempt.bind ?_
        intro result
        rcases result with err | bytes
        · cases err with
          | notFound => exact ih report
          | _ => exact uses_fail _ _
        · exact (dst.uses_manifestPut repo (.digest d) bytes).bind fun _ => ih _
      · exact ih report

omit [SerdeJson] in
theorem uses_copyTags (repo : RepoName) (entries : List (TagName × Digest)) :
    (copyTags src.storage dst.storage repo entries).Uses (Op.Confined [dst.head] []) := by
  induction entries with
  | nil => exact uses_pure _ _
  | cons entry rest ih =>
      obtain ⟨tag, d⟩ := entry
      refine ((src.readOnly_manifestGet repo (.digest d)).uses _ _).attempt.bind ?_
      intro result
      rcases result with err | bytes
      · cases err with
        | notFound => exact ih
        | _ => exact uses_fail _ _
      · exact (dst.uses_manifestPut repo (.tag tag) bytes).bind fun _ => ih

variable [Sha2]

theorem uses_copyRepo (repo : RepoName) (report : MigrateReport) :
    (copyRepo src.storage dst.storage repo report).Uses (Op.Confined [dst.head] []) := by
  refine ((src.readOnly_listTags repo).uses _ _).bind ?_
  intro listed
  refine ((readOnly_walkTags src repo _ _ _).uses _ _).bind ?_
  intro found
  refine ((src.readOnly_listManifestDigests repo).uses _ _).bind ?_
  intro digests
  refine ((readOnly_walkDetached src repo _ _).uses _ _).bind ?_
  intro walked
  refine (uses_copyBlobs src dst repo _ report).bind ?_
  intro report₁
  refine (uses_copyManifests src dst repo _ report₁).bind ?_
  intro report₂
  exact (uses_copyTags src dst repo _).bind fun _ => uses_pure _ _

theorem uses_copyRepos (repos : List RepoName) (report : MigrateReport) :
    (copyRepos src.storage dst.storage repos report).Uses (Op.Confined [dst.head] []) := by
  induction repos generalizing report with
  | nil => exact uses_pure _ _
  | cons repo rest ih => exact (uses_copyRepo src dst repo report).bind ih

end Copy

section Drain

variable (b : Backend)

omit [SerdeJson] in
theorem uses_deleteEach (repo : RepoName) (references : List Reference) :
    (deleteEach b.storage repo references).Uses (Op.Confined [] b.leaves) := by
  induction references with
  | nil => exact uses_pure _ _
  | cons reference rest ih =>
      refine (b.uses_manifestDelete repo reference).attempt.bind ?_
      intro result
      rcases result with err | value
      · cases err with
        | notFound => exact ih
        | _ => exact uses_fail _ _
      · exact ih

omit [SerdeJson] in
theorem uses_purgeRepos (repos : List RepoName) :
    (purgeRepos b.storage repos).Uses (Op.Confined [] b.leaves) := by
  induction repos with
  | nil => exact uses_pure _ _
  | cons repo rest ih =>
      have hpurge : (purgeRepoManifests b.storage repo).Uses (Op.Confined [] b.leaves) := by
        refine ((b.readOnly_listTags repo).uses _ _).bind ?_
        intro tags
        refine (uses_deleteEach b repo _).bind ?_
        intro _
        refine ((b.readOnly_listManifestDigests repo).uses _ _).bind ?_
        intro digests
        exact uses_deleteEach b repo _
      exact hpurge.bind fun _ => ih

theorem readOnly_markDigests (repo : RepoName) (digests : List Digest)
    (reachable : BTreeSet Digest) (report : Gc.GcReport) :
    ReadOnly (Gc.markDigests b.storage repo digests reachable report) := by
  induction digests generalizing reachable report with
  | nil => exact uses_pure _ _
  | cons d rest ih =>
      refine (b.readOnly_manifestGet repo (.digest d)).attempt.bind ?_
      intro result
      rcases result with err | bytes
      · cases err with
        | notFound => exact ih _ _
        | _ => exact uses_fail _ _
      · exact ih _ _

theorem readOnly_markRepos (repos : List RepoName) (reachable : BTreeSet Digest)
    (report : Gc.GcReport) : ReadOnly (Gc.markRepos b.storage repos reachable report) := by
  induction repos generalizing reachable report with
  | nil => exact uses_pure _ _
  | cons repo rest ih =>
      refine (b.readOnly_listManifestDigests repo).bind ?_
      intro digests
      refine (readOnly_markDigests b repo _ reachable report).bind ?_
      intro marked
      exact ih _ _

omit [SerdeJson] in
theorem readOnly_locateOwner (d : Digest) (repos : List RepoName) :
    ReadOnly (Gc.locateOwner b.storage d repos) := by
  induction repos with
  | nil => exact uses_pure _ _
  | cons repo rest ih =>
      refine (b.readOnly_blobExists repo.text d).attempt.bind ?_
      intro result
      rcases result with err | found
      · exact ih
      · cases found with
        | false => exact ih
        | true => exact uses_pure _ _

omit [SerdeJson] in
theorem uses_sweep (repos : List RepoName) (reachable : BTreeSet Digest) (blobs : List Digest)
    (report : Gc.GcReport) :
    (Gc.sweep b.storage repos reachable blobs report).Uses (Op.Confined [] b.leaves) := by
  induction blobs generalizing report with
  | nil => exact uses_pure _ _
  | cons blob rest ih =>
      rw [Gc.sweep]
      split
      · exact ih report
      · refine ((readOnly_locateOwner b blob repos).uses _ _).bind ?_
        intro owner
        refine ((b.readOnly_blobSize _ blob).uses _ _).attempt.bind ?_
        intro size
        refine (b.uses_blobDelete _ blob).attempt.bind ?_
        intro result
        rcases result with err | value
        · cases err with
          | notFound => exact ih report
          | _ => exact uses_fail _ _
        · exact ih _

theorem uses_gc : (Gc.run b.storage).Uses (Op.Confined [] b.leaves) := by
  refine (b.readOnly_listRepos.uses _ _).bind ?_
  intro repos
  refine ((readOnly_markRepos b _ _ _).uses _ _).bind ?_
  intro marked
  refine (b.readOnly_listAllBlobs.uses _ _).bind ?_
  intro blobs
  exact uses_sweep b _ _ _ _

theorem uses_drainOld (repos : List RepoName) (report : MigrateReport) :
    (drainOld b repos report).Uses (Op.Confined [] b.leaves) := by
  refine (uses_purgeRepos b repos).bind ?_
  intro _
  exact (uses_gc b).bind fun _ => uses_pure _ _

end Drain

end RspaceRegistry.Migrate
