import Mathlib.Data.Option.Basic
import RspaceRegistry.Http.Classify

namespace RspaceRegistry.Http

open Cuts

-- The parts of the application that not every configuration has.
structure AppState where
  k8sAuth : Bool
  adminEnabled : Bool
  multi : Bool
  router : Bool
  quota : Bool
deriving DecidableEq

-- A handler together with what it takes from the path.
inductive Call
  | tokenEndpoint
  | versionCheck
  | gcRun
  | jobsList
  | jobGet (id : Text)
  | quotasList
  | partitionsList
  | replicateRun
  | repoRootsList
  | repoRootUpsert
  | repoMigrate
  | repoClassesList
  | catalog
  | tagsList (repo : Text)
  | uploadStart (repo : Text)
  | uploadStatus (repo uuid : Text)
  | uploadChunk (repo uuid : Text)
  | uploadFinish (repo uuid : Text)
  | uploadCancel (repo uuid : Text)
  | manifestGet (repo reference : Text) (headOnly : Bool)
  | manifestPut (repo reference : Text)
  | manifestDelete (repo reference : Text)
  | blobGet (repo digest : Text) (headOnly : Bool)
  | blobDelete (repo digest : Text)
  | referrers (repo digest : Text)
deriving DecidableEq

inductive Outcome
  | call (call : Call)
  | notFound
  | methodNotAllowed
deriving DecidableEq

-- What a path below `/v2/` is about: the part before the suffix is the
-- repository name.
inductive Endpoint
  | tags (repo : Text)
  | uploads (repo : Text)
  | upload (repo uuid : Text)
  | manifest (repo reference : Text)
  | blob (repo digest : Text)
  | referrers (repo digest : Text)
deriving DecidableEq

def stripSuffix (s suffix : Text) : Option Text := (s.dropSuffix? suffix).bind nonEmpty

def stripTwoSuffix (s marker : Text) : Option (Text × Text) :=
  (cutLast marker s).bind fun parts =>
    if parts.1 = [] ∨ parts.2 = [] ∨ '/' ∈ parts.2 then none else some parts

-- An upload is started with or without a trailing slash.
def endpoint (rest : Text) : Option Endpoint :=
  ((stripSuffix rest "/tags/list".toList).map Endpoint.tags) <|>
  ((stripSuffix ((rest.dropSuffix? "/".toList).getD rest) "/blobs/uploads".toList).map
    Endpoint.uploads) <|>
  ((stripTwoSuffix rest "/blobs/uploads/".toList).map fun parts =>
    Endpoint.upload parts.1 parts.2) <|>
  ((stripTwoSuffix rest "/manifests/".toList).map fun parts =>
    Endpoint.manifest parts.1 parts.2) <|>
  ((stripTwoSuffix rest "/blobs/".toList).map fun parts => Endpoint.blob parts.1 parts.2) <|>
  ((stripTwoSuffix rest "/referrers/".toList).map fun parts => Endpoint.referrers parts.1 parts.2)

def Endpoint.handler (method : Method) : Endpoint → Option Call
  | .tags repo =>
      match method with
      | .get | .head => some (.tagsList repo)
      | _ => none
  | .uploads repo =>
      match method with
      | .post => some (.uploadStart repo)
      | _ => none
  | .upload repo uuid =>
      match method with
      | .get => some (.uploadStatus repo uuid)
      | .patch => some (.uploadChunk repo uuid)
      | .put => some (.uploadFinish repo uuid)
      | .delete => some (.uploadCancel repo uuid)
      | _ => none
  | .manifest repo reference =>
      match method with
      | .get => some (.manifestGet repo reference false)
      | .head => some (.manifestGet repo reference true)
      | .put => some (.manifestPut repo reference)
      | .delete => some (.manifestDelete repo reference)
      | _ => none
  | .blob repo digest =>
      match method with
      | .get => some (.blobGet repo digest false)
      | .head => some (.blobGet repo digest true)
      | .delete => some (.blobDelete repo digest)
      | _ => none
  | .referrers repo digest =>
      match method with
      | .get => some (.referrers repo digest)
      | _ => none

def Method.isRead (method : Method) : Bool := method = .get || method = .head

-- The bodies of the admin requests are decoded on the way, and a body that does
-- not decode is answered before the handler.
def adminHandler (state : AppState) (method : Method) (path : Text) : Option Call :=
  if !state.adminEnabled then none
  else
    (if path = "/admin/gc".toList ∧ method = .post then some Call.gcRun else none) <|>
    (if path = "/admin/jobs".toList ∧ method.isRead then some Call.jobsList else none) <|>
    ((path.dropPrefix? "/admin/jobs/".toList).bind fun id =>
      if id ≠ [] ∧ method.isRead then some (Call.jobGet id) else none) <|>
    (if path = "/admin/quotas".toList ∧ method.isRead ∧ state.quota then some Call.quotasList
      else none) <|>
    (if state.multi ∧ path = "/admin/partitions".toList ∧ method.isRead then
      some Call.partitionsList else none) <|>
    (if state.multi ∧ path = "/admin/replicate".toList ∧ method = .post then
      some Call.replicateRun else none) <|>
    (if state.router ∧ path = "/admin/repo-roots".toList ∧ method.isRead then
      some Call.repoRootsList else none) <|>
    (if state.router ∧ path = "/admin/repo-root".toList ∧ method = .post then
      some Call.repoRootUpsert else none) <|>
    (if state.router ∧ path = "/admin/repo-migrate".toList ∧ method = .post then
      some Call.repoMigrate else none) <|>
    (if state.router ∧ path = "/admin/repo-classes".toList ∧ method.isRead then
      some Call.repoClassesList else none)

def dispatch (state : AppState) (method : Method) (path : Text) : Outcome :=
  if path = "/token".toList then
    if method = .get then if state.k8sAuth then .call .tokenEndpoint else .notFound
    else .methodNotAllowed
  else if path = "/v2".toList ∨ path = "/v2/".toList then
    if method.isRead then .call .versionCheck else .methodNotAllowed
  else
    match path.dropPrefix? "/v2/".toList with
    | none => (adminHandler state method path).elim .notFound .call
    | some rest =>
        if rest = "_catalog".toList then
          if method.isRead then .call .catalog else .methodNotAllowed
        else
          match endpoint rest with
          | some e => (e.handler method).elim .methodNotAllowed .call
          | none => .notFound

def Endpoint.repo : Endpoint → Text
  | .tags repo | .uploads repo | .upload repo _ | .manifest repo _ | .blob repo _
  | .referrers repo _ => repo

-- The repository of a handler that has one.
def Call.repo : Call → Option Text
  | .tagsList repo | .uploadStart repo | .uploadStatus repo _ | .uploadChunk repo _
  | .uploadFinish repo _ | .uploadCancel repo _ | .manifestGet repo _ _ | .manifestPut repo _
  | .manifestDelete repo _ | .blobGet repo _ _ | .blobDelete repo _ | .referrers repo _ => some repo
  | _ => none

def Call.isAdmin : Call → Bool
  | .gcRun | .jobsList | .jobGet _ | .quotasList | .partitionsList | .replicateRun | .repoRootsList
  | .repoRootUpsert | .repoMigrate | .repoClassesList => true
  | _ => false

theorem Call.repo_of_isAdmin {call : Call} (h : call.isAdmin = true) : call.repo = none := by
  cases call <;> first | rfl | cases h

section Cases

variable {state : AppState} {method : Method} {path : Text} {call : Call}

theorem adminHandler_eq_some (h : adminHandler state method path = some call) :
    call.isAdmin = true ∧ "/admin/".toList <+: path := by
  have hfixed : ∀ {cond : Prop} [Decidable cond] {name : Text} {handler : Call},
      (cond → path = name) → "/admin/".toList <+: name → handler.isAdmin = true →
        (if cond then some handler else none) = some call →
          call.isAdmin = true ∧ "/admin/".toList <+: path := by
    intro cond _ name handler hpath hname hadmin heq
    split at heq
    · rename_i hcond
      rw [hpath hcond, ← Option.some.inj heq]
      exact ⟨hadmin, hname⟩
    · cases heq
  rw [adminHandler] at h
  split at h
  · cases h
  · simp only [Option.orElse_eq_some] at h
    rcases h with h | ⟨-, h | ⟨-, h | ⟨-, h | ⟨-, h | ⟨-, h | ⟨-, h | ⟨-, h | ⟨-, h | ⟨-, h⟩⟩⟩⟩⟩⟩⟩⟩⟩
    · exact hfixed (fun hcond => hcond.1) (by decide) rfl h
    · exact hfixed (fun hcond => hcond.1) (by decide) rfl h
    · obtain ⟨id, hid, hcall⟩ := Option.bind_eq_some_iff.mp h
      split at hcall
      · rw [dropPrefix_eq_some.mp hid, ← Option.some.inj hcall]
        exact ⟨rfl, (by decide : "/admin/".toList <+: "/admin/jobs/".toList).trans
          (List.prefix_append _ _)⟩
      · cases hcall
    · exact hfixed (fun hcond => hcond.1) (by decide) rfl h
    all_goals exact hfixed (fun hcond => hcond.2.1) (by decide) rfl h

theorem Endpoint.handler_repo {e : Endpoint} (h : e.handler method = some call) :
    call.repo = some e.repo ∧ call.isAdmin = false := by
  cases e <;> cases method <;> cases h <;> exact ⟨rfl, rfl⟩

-- Where the handlers are reached.
theorem dispatch_eq_call (h : dispatch state method path = .call call) :
    call = .tokenEndpoint ∧ path = "/token".toList ∨
    call = .versionCheck ∧ (path = "/v2".toList ∨ path = "/v2/".toList) ∨
    call.isAdmin = true ∧ "/admin/".toList <+: path ∨
    call = .catalog ∧ method.isRead = true ∧ path = "/v2/_catalog".toList ∨
    ∃ rest e, path = "/v2/".toList ++ rest ∧ rest ≠ [] ∧ rest ≠ "_catalog".toList ∧
      endpoint rest = some e ∧ e.handler method = some call := by
  rw [dispatch] at h
  split at h
  · rename_i hpath
    split at h
    · split at h <;> cases h
      exact .inl ⟨rfl, hpath⟩
    · cases h
  · split at h
    · rename_i hpath
      split at h <;> cases h
      exact .inr (.inl ⟨rfl, hpath⟩)
    · rename_i hroot
      split at h
      · cases hadmin : adminHandler state method path with
        | none =>
            rw [hadmin] at h
            cases h
        | some handler =>
            rw [hadmin] at h
            cases h
            exact .inr (.inr (.inl (adminHandler_eq_some hadmin)))
      · rename_i rest hrest
        have hpath := dropPrefix_eq_some.mp hrest
        split at h
        · rename_i hcatalog
          split at h <;> cases h
          rename_i hread
          exact .inr (.inr (.inr (.inl ⟨rfl, hread, by rw [hpath, hcatalog]; rfl⟩)))
        · rename_i hcatalog
          have hne : rest ≠ [] := by
            rintro rfl
            exact hroot (.inr hpath)
          split at h
          · rename_i e hend
            cases hhandler : e.handler method with
            | none =>
                rw [hhandler] at h
                cases h
            | some handler =>
                rw [hhandler] at h
                cases h
                exact .inr (.inr (.inr (.inr ⟨rest, e, hpath, hne, hcatalog, hend, hhandler⟩)))
          · cases h

theorem dispatch_tokenEndpoint (h : dispatch state method path = .call .tokenEndpoint) :
    path = "/token".toList := by
  rcases dispatch_eq_call h with ⟨-, hpath⟩ | ⟨hcall, -⟩ | ⟨hadmin, -⟩ | ⟨hcall, -⟩ |
    ⟨rest, e, -, -, -, -, hhandler⟩
  · exact hpath
  · cases hcall
  · cases hadmin
  · cases hcall
  · cases (Endpoint.handler_repo hhandler).1

end Cases

end RspaceRegistry.Http
