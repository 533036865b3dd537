import RspaceRegistry.Gc

namespace RspaceRegistry.Migrate

open Calls Fallible Ordered

structure MigrateReport where
  reposMigrated : Nat
  blobsCopied : Nat
  bytesCopied : Nat
  manifestsCopied : Nat
  blobsPurged : Nat
  bytesPurged : Nat
  cutover : Bool
deriving DecidableEq

def MigrateReport.empty : MigrateReport := ⟨0, 0, 0, 0, 0, 0, false⟩

-- The two sets that a walk fills.
structure Walked where
  manifests : BTreeSet Digest
  blobs : BTreeSet Digest

namespace Walked

def empty : Walked := ⟨.empty, .empty⟩

def visit (walked : Walked) (digest : Digest) : Walked :=
  { walked with manifests := walked.manifests.insert digest }

def collect (walked : Walked) (m : Manifest) : Walked :=
  { walked with blobs := walked.blobs.extend m.blobDigests }

end Walked

def walkChildren (storage : Storage) (repo : RepoName)
    (walk : Digest → Bytes → Walked → StoreM Walked) : List Digest → Walked → StoreM Walked
  | [], walked => pure walked
  | child :: rest, walked => do
      if child ∈ walked.manifests then walkChildren storage repo walk rest walked
      else
        match ← attempt (storage.manifestGet repo (.digest child)) with
        | .ok bytes =>
            let walked ← walk child bytes walked
            walkChildren storage repo walk rest walked
        | .error .notFound => walkChildren storage repo walk rest walked
        | .error err => fail err

variable [SerdeJson]

-- The recursion goes down one unvisited digest at a time, and there are
-- `Digest.count` of them: started with more steps than that, the first case is
-- never reached.
def walkFrom (storage : Storage) (repo : RepoName) :
    Nat → Digest → Bytes → Walked → StoreM Walked
  | 0, _, _, walked => pure walked
  | steps + 1, digest, bytes, walked =>
      if digest ∈ walked.manifests then pure walked
      else
        match parseManifestRefs bytes with
        | none => pure (walked.visit digest)
        | some m => do
            let walked ← walkChildren storage repo (walkFrom storage repo steps) m.childDigests
              (walked.visit digest)
            pure (walked.collect m)

def walk (storage : Storage) (repo : RepoName) : Digest → Bytes → Walked → StoreM Walked :=
  walkFrom storage repo (Digest.count + 1)

variable [Sha2]

def walkTags (src : Storage) (repo : RepoName) :
    List TagName → List (TagName × Digest) → Walked → StoreM (List (TagName × Digest) × Walked)
  | [], tags, walked => pure (tags, walked)
  | tag :: rest, tags, walked => do
      let bytes ← src.manifestGet repo (.tag tag)
      let d := sha256Digest bytes
      let walked ← walk src repo d bytes walked
      walkTags src repo rest (tags ++ [(tag, d)]) walked

def walkDetached (src : Storage) (repo : RepoName) : List Digest → Walked → StoreM Walked
  | [], walked => pure walked
  | d :: rest, walked => do
      if d ∈ walked.manifests then walkDetached src repo rest walked
      else
        match ← attempt (src.manifestGet repo (.digest d)) with
        | .ok bytes =>
            let walked ← walk src repo d bytes walked
            walkDetached src repo rest walked
        | .error .notFound => walkDetached src repo rest walked
        | .error err => fail err

def copyBlobs (src dst : Storage) (repo : RepoName) :
    List Digest → MigrateReport → StoreM MigrateReport
  | [], report => pure report
  | d :: rest, report => do
      if ← dst.blobExists repo.text d then copyBlobs src dst repo rest report
      else
        match ← attempt (src.blobRead repo.text d) with
        | .ok bytes =>
            dst.blobWrite repo.text d bytes
            copyBlobs src dst repo rest
              { report with
                blobsCopied := report.blobsCopied + 1
                bytesCopied := report.bytesCopied + bytes.length }
        | .error .notFound => copyBlobs src dst repo rest report
        | .error err => fail err

def copyManifests (src dst : Storage) (repo : RepoName) :
    List Digest → MigrateReport → StoreM MigrateReport
  | [], report => pure report
  | d :: rest, report => do
      match ← attempt (dst.manifestGet repo (.digest d)) with
      | .ok _ => copyManifests src dst repo rest report
      | .error _ =>
          match ← attempt (src.manifestGet repo (.digest d)) with
          | .ok bytes =>
              let _ ← dst.manifestPut repo (.digest d) bytes
              copyManifests src dst repo rest
                { report with manifestsCopied := report.manifestsCopied + 1 }
          | .error .notFound => copyManifests src dst repo rest report
          | .error err => fail err

-- Always written, whatever the destination holds.
def copyTags (src dst : Storage) (repo : RepoName) : List (TagName × Digest) → StoreM Unit
  | [] => pure ()
  | (tag, d) :: rest => do
      match ← attempt (src.manifestGet repo (.digest d)) with
      | .ok bytes =>
          let _ ← dst.manifestPut repo (.tag tag) bytes
          copyTags src dst repo rest
      | .error .notFound => copyTags src dst repo rest
      | .error err => fail err

def copyRepo (src dst : Storage) (repo : RepoName) (report : MigrateReport) :
    StoreM MigrateReport := do
  let listed ← src.listTags repo
  let (tags, walked) ← walkTags src repo listed.toList [] .empty
  let digests ← src.listManifestDigests repo
  let walked ← walkDetached src repo digests.toList walked
  let report ← copyBlobs src dst repo walked.blobs.toList report
  let report ← copyManifests src dst repo walked.manifests.toList report
  copyTags src dst repo tags
  pure report

def copyRepos (src dst : Storage) : List RepoName → MigrateReport → StoreM MigrateReport
  | [], report => pure report
  | repo :: rest, report => do
      let report ← copyRepo src dst repo report
      copyRepos src dst rest report

def deleteEach (storage : Storage) (repo : RepoName) : List Reference → StoreM Unit
  | [] => pure ()
  | reference :: rest => do
      match ← attempt (storage.manifestDelete repo reference) with
      | .ok () | .error .notFound => deleteEach storage repo rest
      | .error err => fail err

def purgeRepoManifests (storage : Storage) (repo : RepoName) : StoreM Unit := do
  let tags ← storage.listTags repo
  deleteEach storage repo (tags.toList.map .tag)
  let digests ← storage.listManifestDigests repo
  deleteEach storage repo (digests.toList.map .digest)

def purgeRepos (storage : Storage) : List RepoName → StoreM Unit
  | [] => pure ()
  | repo :: rest => do
      purgeRepoManifests storage repo
      purgeRepos storage rest

-- The repositories to move: those of the pattern that resolve to the old
-- backend at the moment each is looked at.
def selectRepos (pattern : String) (old : Backend) : List RepoName → StoreM (List RepoName)
  | [] => pure []
  | repo :: rest => do
      if globMatch pattern repo.text then
        let backend ← StoreM.backendFor repo.text
        let repos ← selectRepos pattern old rest
        pure (if backend.ptrEq old then repo :: repos else repos)
      else selectRepos pattern old rest

def newOverlay (newBackend old : Backend) : StoreM Backend := do
  let arc ← StoreM.newArc
  match MultiStore.new arc [⟨"new", newBackend⟩, ⟨"old", old⟩] "new" with
  | .ok overlay => pure overlay
  | .error err => fail err

-- Delete the migrated repositories' manifests from the old backend, then
-- collect it.
def drainOld (old : Backend) (repos : List RepoName) (report : MigrateReport) :
    StoreM MigrateReport := do
  purgeRepos old.storage repos
  let gc ← Gc.run old.storage
  pure { report with blobsPurged := gc.deletedBlobs, bytesPurged := gc.deletedBytes }

-- From the overlay cutover on: backfill, collapse and drain.
def move (pattern : String) (old newBackend : Backend) (drain : Bool) (repos : List RepoName) :
    StoreM MigrateReport := do
  let overlay ← newOverlay newBackend old
  let _ ← StoreM.upsert pattern overlay
  let report ← copyRepos old.storage newBackend.storage repos
    { MigrateReport.empty with reposMigrated := repos.length }
  let _ ← StoreM.upsert pattern newBackend
  let report := { report with cutover := true }
  if drain then drainOld old repos report
  else pure report

def run (pattern : String) (newBackend : Backend) (drain : Bool) : StoreM MigrateReport := do
  match ← StoreM.backendForPattern pattern with
  | none => fail (.invalid ("no route rule with pattern " ++ pattern.quote))
  | some old =>
      if old.ptrEq newBackend then pure .empty
      else
        let listed ← old.storage.listRepos
        let repos ← selectRepos pattern old listed.toList
        move pattern old newBackend drain repos

end RspaceRegistry.Migrate
