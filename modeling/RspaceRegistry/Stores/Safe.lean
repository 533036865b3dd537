import RspaceRegistry.Http.Checked
import RspaceRegistry.Stores.Chunks

namespace RspaceRegistry.Stores

open Calls Disk Http

-- What the server is set up with: a directory, partitions of directories, rules that
-- route to them, and quotas over the rules.
inductive Registry
  | plain (b : Backend)
  | routed (router : RepoRouter)
  | quota (router : RepoRouter) (quotas : List Quota) (ttl : Nat)

section Safe

variable [Sha2]

def Registry.storage (m : Moment) : Registry → Handler StorageOp StorageOp.Ans (QuotaState Trees)
  | .plain b => fun op => passOn (b.serve (onTrees m.apart) (.request op))
  | .routed router => (Layer.routed router).storage m
  | .quota router quotas ttl => (Layer.quota router quotas ttl).storage m

theorem create_answer (m : Moment) (b : Backend) (repo drawn : String) (s : QuotaState Trees)
    {status : UploadStatus}
    (h : (passOn (b.serve (onTrees m.apart) (.request (.uploadCreate repo drawn))) s).1 = .ok status) :
    status.id = drawn := by
  have hop : ForPrimary (.request (.uploadCreate repo drawn)) := fun _ _ _ _ => rfl
  rw [Backend.serve_head (onTrees m.apart) hop b] at h
  have hcreate : ((Disk.uploadCreate drawn).run Files.Tree.handle (s.store b.head)).1 = .ok status := h
  obtain ⟨_, tree, -, hrest⟩ := Fallible.run_bind_eq_ok (Prod.ext hcreate rfl)
  obtain ⟨_, tree', -, hpure⟩ := Fallible.run_bind_eq_ok hrest
  rw [← Except.ok.inj (Prod.mk.inj hpure).1]

theorem createsUuids (m : Moment) (registry : Registry) :
    Checked.CreatesUuids (registry.storage m) := by
  intro repo drawn s status hdrawn h
  have hid : status.id = drawn := by
    cases registry with
    | plain b => exact create_answer m b repo drawn s h
    | routed router => exact create_answer m (router.resolve repo) repo drawn s h
    | quota router quotas ttl => exact create_answer m (router.resolve repo) repo drawn s h
  rw [hid]
  exact hdrawn

-- No request makes the process panic, whatever it finds in the stores.
theorem no_panic [SerdeJson] [UuidCrate]
    (huuid : ∀ text id, UuidCrate.parseStr text = some id → Checked.IsUuid id) (state : AppState)
    (registry : Registry) (m : Moment)
    (other : Http.Request → Call → QuotaState Trees → Response × QuotaState Trees) (r : Http.Request)
    (hdrawn : Checked.IsUuid r.drawn) (q : Option String) (s : QuotaState Trees) :
    (Checked.serve state (registry.storage m) other r q s).isSome ∧
      (∀ d, (Checked.blobPath d).isSome) ∧
      ∀ router repo, (Checked.resolve router repo).isSome := by
  refine ⟨?_, fun d => ?_, fun router repo => ?_⟩
  · rw [Checked.serve_eq state other huuid (createsUuids m registry) hdrawn]
    rfl
  · rw [Checked.blobPath_eq]
    rfl
  · rw [Checked.resolve_eq]
    rfl

end Safe

section

attribute [local instance] Sample.sha2 Sample.serdeJson

-- Texts that are identifiers already.
abbrev plainUuid : UuidCrate := ⟨fun text => if Checked.IsUuid text then some text else none⟩

attribute [local instance] plainUuid

theorem plainUuid_isUuid (text id : String) (h : UuidCrate.parseStr text = some id) :
    Checked.IsUuid id := by
  have hparse : (if Checked.IsUuid text then some text else none) = some id := h
  split at hparse
  · rename_i huuid
    rwa [← Option.some.inj hparse]
  · cases hparse

def startUpload : Http.Request where
  now := 0
  reviewer := ⟨fun _ => .error (.apiError []), fun _ => .error (.apiError [])⟩
  method := .post
  path := "/v2/a/blobs/uploads/".toList
  authorization := none
  peer := none
  query := []
  contentType := none
  body := []
  drawn := "0f"

theorem startUpload_no_panic :
    (Checked.serve ⟨false, false, false, false, true⟩
      ((Registry.quota (.single (.fs 0 0)) [⟨"*", 1⟩] 30).storage ⟨⟨0, 0⟩, fun _ => none⟩)
      (fun _ _ s => (notFound, s)) startUpload (some "digest=%") nothingYet).isSome ∧
    (∀ d, (Checked.blobPath d).isSome) ∧ ∀ router repo, (Checked.resolve router repo).isSome :=
  no_panic plainUuid_isUuid _ _ _ _ _ (by decide) _ _

end

end RspaceRegistry.Stores
