import RspaceRegistry.Migrate
import RspaceRegistry.OciError
import RspaceRegistry.RepoRouter.Storage

namespace RspaceRegistry.Handlers

open Calls

variable [SerdeJson]

-- `PUT /v2/<name>/manifests/<reference>`, with the name and the reference
-- already taken from the path: any JSON text is stored, and only afterwards is
-- a digest in the path compared with the one of the body.
def manifestPut (storage : Storage) (repo : RepoName) (reference : Reference) (body : Bytes) :
    StoreM (Except OciError Digest) :=
  match SerdeJson.fromSlice body with
  | none => pure (.error (.new .manifestInvalid "not valid JSON"))
  | some _ => do
      let digest ← storage.manifestPut repo reference body
      match reference with
      | .tag _ => pure (.ok digest)
      | .digest want =>
          if want = digest then pure (.ok digest)
          else
            pure (.error (.new .digestInvalid
              ("path digest " ++ want.toString ++ " does not match computed " ++ digest.toString)))

variable [Sha2]

-- The body of `POST /admin/repo-migrate`; `toRoot` is the directory behind the
-- path in its `to` member.
structure RepoMigrateRequest where
  pattern : Option String
  className : Option String
  toRoot : RootId
  drain : Bool
  background : Bool
deriving DecidableEq

namespace RepoMigrateRequest

-- The rule a request is about, if it names one.
def key (body : RepoMigrateRequest) : Option String :=
  match body.pattern.filter (· ≠ ""), body.className.filter (· ≠ "") with
  | some p, _ => some p
  | none, some c => some (c ++ "/*")
  | none, none => none

end RepoMigrateRequest

-- The report, or the job that was spawned to make it.
inductive RepoMigrateResponse
  | report (report : Migrate.MigrateReport)
  | accepted (job : StoreM Migrate.MigrateReport)

def repoMigrate (body : RepoMigrateRequest) :
    StoreM (Except OciError RepoMigrateResponse) :=
  match body.key with
  | none =>
      pure (.error ((OciError.new .blobUploadInvalid
        "one of non-empty `pattern` or `class` is required").withStatus 400))
  | some pattern => do
      let arc ← StoreM.newArc
      let newBackend := Backend.fs arc body.toRoot
      if body.background then
        pure (.ok (.accepted (Migrate.run pattern newBackend body.drain)))
      else
        let report ← Migrate.run pattern newBackend body.drain
        pure (.ok (.report report))

-- A request together with its job, if it has one: what a caller sees who polls
-- until the job is over.
def repoMigrateToEnd (body : RepoMigrateRequest) :
    StoreM (Except OciError Migrate.MigrateReport) := do
  match ← repoMigrate body with
  | .error err => pure (.error err)
  | .ok (.report report) => pure (.ok report)
  | .ok (.accepted job) =>
      let report ← job
      pure (.ok report)

end RspaceRegistry.Handlers
