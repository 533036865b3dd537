import RspaceRegistry.Manifest
import RspaceRegistry.Multi
import Mathlib.Data.Prod.Lex

namespace RspaceRegistry.Replicate

open Calls Fallible Ordered

structure ReplicateReport where
  partitionsScanned : Nat
  blobsCopied : Nat
  bytesCopied : Nat
  manifestsCopied : Nat
deriving DecidableEq

def ReplicateReport.empty : ReplicateReport := ⟨0, 0, 0, 0⟩

-- No glob replicates everything.
structure ReplicateConfig where
  tagGlob : Option String

def ReplicateConfig.selects (cfg : ReplicateConfig) (tag : TagName) : Bool :=
  match cfg.tagGlob with
  | some glob => globMatch glob tag.text
  | none => true

-- A digest in a repository, ordered by the repository first.
abbrev Key := RepoName ×ₗ Digest

def key (repo : RepoName) (digest : Digest) : Key := toLex (repo, digest)

-- What the secondaries should have, as gathered from the primary.
structure Wanted where
  manifests : BTreeSet Key
  blobs : BTreeSet Key
  tags : List (RepoName × TagName × Digest)

namespace Wanted

def empty : Wanted := ⟨.empty, .empty, []⟩

def visit (wanted : Wanted) (repo : RepoName) (digest : Digest) : Wanted :=
  { wanted with manifests := wanted.manifests.insert (key repo digest) }

def collect (wanted : Wanted) (repo : RepoName) (m : Manifest) : Wanted :=
  { wanted with blobs := wanted.blobs.extend (m.blobDigests.map (key repo)) }

def point (wanted : Wanted) (repo : RepoName) (tag : TagName) (digest : Digest) : Wanted :=
  { wanted with tags := wanted.tags ++ [(repo, tag, digest)] }

end Wanted

def walkChildren (storage : Storage) (repo : RepoName)
    (walk : Digest → Bytes → Wanted → StoreM Wanted) : List Digest → Wanted → StoreM Wanted
  | [], wanted => pure wanted
  | child :: rest, wanted => do
      if key repo child ∈ wanted.manifests then walkChildren storage repo walk rest wanted
      else
        match ← attempt (storage.manifestGet repo (.digest child)) with
        | .ok bytes =>
            let wanted ← walk child bytes wanted
            walkChildren storage repo walk rest wanted
        | .error .notFound => walkChildren storage repo walk rest wanted
        | .error err => fail err

variable [SerdeJson]

-- As in a migration's walk, one unvisited digest of the repository at a time.
def walkFrom (storage : Storage) (repo : RepoName) :
    Nat → Digest → Bytes → Wanted → StoreM Wanted
  | 0, _, _, wanted => pure wanted
  | steps + 1, digest, bytes, wanted =>
      if key repo digest ∈ wanted.manifests then pure wanted
      else
        match parseManifestRefs bytes with
        | none => pure (wanted.visit repo digest)
        | some m => do
            let wanted ← walkChildren storage repo (walkFrom storage repo steps) m.childDigests
              (wanted.visit repo digest)
            pure (wanted.collect repo m)

def walkManifest (storage : Storage) (repo : RepoName) : Digest → Bytes → Wanted → StoreM Wanted :=
  walkFrom storage repo (Digest.count + 1)

variable [Sha2]

def walkTags (primary : Storage) (cfg : ReplicateConfig) (repo : RepoName) :
    List TagName → Wanted → StoreM Wanted
  | [], wanted => pure wanted
  | tag :: rest, wanted => do
      if cfg.selects tag then
        let bytes ← primary.manifestGet repo (.tag tag)
        let digest := sha256Digest bytes
        let wanted ← walkManifest primary repo digest bytes (wanted.point repo tag digest)
        walkTags primary cfg repo rest wanted
      else walkTags primary cfg repo rest wanted

def walkDetached (primary : Storage) (repo : RepoName) : List Digest → Wanted → StoreM Wanted
  | [], wanted => pure wanted
  | d :: rest, wanted => do
      if key repo d ∈ wanted.manifests then walkDetached primary repo rest wanted
      else
        match ← attempt (primary.manifestGet repo (.digest d)) with
        | .ok bytes =>
            let wanted ← walkManifest primary repo d bytes wanted
            walkDetached primary repo rest wanted
        | .error .notFound => walkDetached primary repo rest wanted
        | .error err => fail err

def gatherRepo (primary : Storage) (cfg : ReplicateConfig) (repo : RepoName) (wanted : Wanted) :
    StoreM Wanted := do
  let tags ← primary.listTags repo
  let wanted ← walkTags primary cfg repo tags.toList wanted
  if cfg.tagGlob.isNone then
    let digests ← primary.listManifestDigests repo
    walkDetached primary repo digests.toList wanted
  else pure wanted

def gather (primary : Storage) (cfg : ReplicateConfig) : List RepoName → Wanted → StoreM Wanted
  | [], wanted => pure wanted
  | repo :: rest, wanted => do
      let wanted ← gatherRepo primary cfg repo wanted
      gather primary cfg rest wanted

def copyBlobs (primary target : Storage) : List Key → ReplicateReport → StoreM ReplicateReport
  | [], report => pure report
  | entry :: rest, report => do
      let (repo, d) := ofLex entry
      if ← target.blobExists repo.text d then copyBlobs primary target rest report
      else
        match ← attempt (primary.blobRead repo.text d) with
        | .ok bytes =>
            target.blobWrite repo.text d bytes
            copyBlobs primary target rest
              { report with
                blobsCopied := report.blobsCopied + 1
                bytesCopied := report.bytesCopied + bytes.length }
        | .error .notFound => copyBlobs primary target rest report
        | .error err => fail err

-- Unlike a migration, a target that cannot be read stops the pass.
def copyManifests (primary target : Storage) : List Key → ReplicateReport → StoreM ReplicateReport
  | [], report => pure report
  | entry :: rest, report => do
      let (repo, d) := ofLex entry
      match ← attempt (target.manifestGet repo (.digest d)) with
      | .ok _ => copyManifests primary target rest report
      | .error .notFound =>
          match ← attempt (primary.manifestGet repo (.digest d)) with
          | .ok bytes =>
              let _ ← target.manifestPut repo (.digest d) bytes
              copyManifests primary target rest
                { report with manifestsCopied := report.manifestsCopied + 1 }
          | .error .notFound => copyManifests primary target rest report
          | .error err => fail err
      | .error err => fail err

-- Always written, whatever the target holds.
def copyTags (primary target : Storage) : List (RepoName × TagName × Digest) → StoreM Unit
  | [] => pure ()
  | (repo, tag, d) :: rest => do
      match ← attempt (primary.manifestGet repo (.digest d)) with
      | .ok bytes =>
          let _ ← target.manifestPut repo (.tag tag) bytes
          copyTags primary target rest
      | .error .notFound => copyTags primary target rest
      | .error err => fail err

def copyInto (primary target : Storage) (wanted : Wanted) (report : ReplicateReport) :
    StoreM ReplicateReport := do
  let report ← copyBlobs primary target wanted.blobs.toList report
  let report ← copyManifests primary target wanted.manifests.toList report
  copyTags primary target wanted.tags
  pure report

def fanOut (primary : Storage) (wanted : Wanted) :
    List Storage → ReplicateReport → StoreM ReplicateReport
  | [], report => pure report
  | secondary :: rest, report => do
      let report ← copyInto primary secondary wanted
        { report with partitionsScanned := report.partitionsScanned + 1 }
      fanOut primary wanted rest report

def run (multi : MultiStore) (cfg : ReplicateConfig) : StoreM ReplicateReport := do
  let repos ← multi.primary.listRepos
  let wanted ← gather multi.primary cfg repos.toList .empty
  fanOut multi.primary wanted multi.secondaries .empty

end RspaceRegistry.Replicate
