import RspaceRegistry.Manifest
import RspaceRegistry.Multi

namespace RspaceRegistry.Gc

open Calls Fallible Ordered

structure GcReport where
  reposScanned : Nat
  manifestsScanned : Nat
  reachableBlobs : Nat
  deletedBlobs : Nat
  deletedBytes : Nat
deriving DecidableEq

def GcReport.empty : GcReport := ⟨0, 0, 0, 0, 0⟩

variable [SerdeJson]

-- What one manifest's bytes add to the reachable set; a parse failure adds
-- nothing.
def references (bytes : Bytes) : List Digest :=
  match parseManifestRefs bytes with
  | some m => m.referencedDigests
  | none => []

def markDigests (storage : Storage) (repo : RepoName) :
    List Digest → BTreeSet Digest → GcReport → StoreM (BTreeSet Digest × GcReport)
  | [], reachable, report => pure (reachable, report)
  | digest :: rest, reachable, report => do
      let report := { report with manifestsScanned := report.manifestsScanned + 1 }
      let reachable := reachable.insert digest
      match ← attempt (storage.manifestGet repo (.digest digest)) with
      | .ok bytes => markDigests storage repo rest (reachable.extend (references bytes)) report
      | .error .notFound => markDigests storage repo rest reachable report
      | .error err => fail err

def markRepos (storage : Storage) :
    List RepoName → BTreeSet Digest → GcReport → StoreM (BTreeSet Digest × GcReport)
  | [], reachable, report => pure (reachable, report)
  | repo :: rest, reachable, report => do
      let digests ← storage.listManifestDigests repo
      let (reachable, report) ← markDigests storage repo digests.toList reachable report
      markRepos storage rest reachable report

def locateOwner (storage : Storage) (digest : Digest) :
    List RepoName → StoreM (Option RepoName)
  | [] => pure none
  | repo :: rest => do
      match ← attempt (storage.blobExists repo.text digest) with
      | .ok true => pure (some repo)
      | _ => locateOwner storage digest rest

def sweep (storage : Storage) (repos : List RepoName) (reachable : BTreeSet Digest) :
    List Digest → GcReport → StoreM GcReport
  | [], report => pure report
  | blob :: rest, report => do
      if blob ∈ reachable then sweep storage repos reachable rest report
      else
        let owner ← locateOwner storage blob repos
        let probeRepo := (owner.map (·.text)).getD ""
        let size := (← attempt (storage.blobSize probeRepo blob)).toOption.getD 0
        match ← attempt (storage.blobDelete probeRepo blob) with
        | .ok () =>
            sweep storage repos reachable rest
              { report with
                deletedBlobs := report.deletedBlobs + 1
                deletedBytes := report.deletedBytes + size }
        | .error .notFound => sweep storage repos reachable rest report
        | .error err => fail err

def run (storage : Storage) : StoreM GcReport := do
  let repos ← storage.listRepos
  let (reachable, report) ← markRepos storage repos.toList .empty
    { GcReport.empty with reposScanned := repos.toList.length }
  let report := { report with reachableBlobs := reachable.toList.length }
  let blobs ← storage.listAllBlobs
  sweep storage repos.toList reachable blobs.toList report

end RspaceRegistry.Gc
