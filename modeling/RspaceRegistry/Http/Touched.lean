import RspaceRegistry.Calls.Local
import RspaceRegistry.Http.Handlers

namespace RspaceRegistry.Http

open Calls Disk Ordered

-- The repositories that the storage calls of a handler name.

section Parts

variable {α : Type} {allowed : StorageOp → Prop} {op : StorageOp}

theorem uses_lift (result : Except OciError α) : (lift result).Uses allowed := trivial

theorem uses_lift_bind {β : Type} {result : Except OciError α} {rest : α → HandlerM β}
    (h : ∀ value, result = .ok value → (rest value).Uses allowed) :
    (lift result >>= rest).Uses allowed := by
  cases result with
  | error err => trivial
  | ok value => exact h value rfl

theorem uses_ask (h : allowed op) : (ask op).Uses allowed := ⟨h, fun _ => trivial⟩

theorem uses_call (h : allowed op) : (call op).Uses allowed := (uses_ask h).mapError _

theorem uses_callOr (h : allowed op) (code : OciCode) (message : String) :
    (callOr op code message).Uses allowed := (uses_ask h).mapError _

end Parts

-- A call that names the repository, or the listing of all of them.
def Own (repo : String) (op : StorageOp) : Prop := op.repo = some repo ∨ op = .listRepos

section Uses

variable (repo : String) {allowed : StorageOp → Prop}

theorem uses_tagsList (n : Option Nat) (last : Option String) :
    (tagsList repo n last).Uses (Own repo) := by
  refine (uses_lift _).bind fun _ => ?_
  refine (uses_call (.inl rfl)).bind fun tags => ?_
  refine Fallible.Uses.bind ?_ fun _ => Fallible.uses_pure _ _
  rw [requireListed]
  split
  · refine (uses_call (.inr rfl)).bind fun repos => ?_
    split
    · exact Fallible.uses_pure _ _
    · exact Fallible.uses_fail _ _
  · exact Fallible.uses_pure _ _

theorem uses_blobGet {digest : String} (headOnly : Bool)
    (h : validateRepoName repo = .ok () → ∀ d, parseDigest digest = .ok d →
      allowed (.blobRead repo d)) : (blobGet repo digest headOnly).Uses allowed := by
  refine uses_lift_bind fun _ hvalid => ?_
  refine uses_lift_bind fun d hd => ?_
  exact (uses_callOr (h hvalid d hd) _ _).bind fun bytes => Fallible.uses_pure _ _

theorem uses_blobDelete (digest : String) : (blobDelete repo digest).Uses (Own repo) := by
  refine (uses_lift _).bind fun _ => ?_
  refine (uses_lift _).bind fun d => ?_
  exact (uses_callOr (.inl rfl) _ _).bind fun _ => Fallible.uses_pure _ _

theorem uses_manifestDelete (reference : String) :
    (manifestDelete repo reference).Uses (Own repo) := by
  refine (uses_lift _).bind fun _ => ?_
  exact (uses_callOr (.inl rfl) _ _).bind fun _ => Fallible.uses_pure _ _

section

variable [SerdeJson]

theorem uses_manifestGet [Sha2] {reference : String} (headOnly : Bool)
    (h : validateRepoName repo = .ok () → allowed (.manifestGet repo (parseReference reference))) :
    (manifestGet repo reference headOnly).Uses allowed := by
  refine uses_lift_bind fun _ hvalid => ?_
  exact (uses_callOr (h hvalid) _ _).bind fun bytes => Fallible.uses_pure _ _

theorem uses_manifestPut (reference : String) (contentType : Option String) (body : Bytes) :
    (manifestPut repo reference contentType body).Uses (Own repo) := by
  refine (uses_lift _).bind fun _ => ?_
  split
  · exact Fallible.uses_fail _ _
  · refine (uses_call (.inl rfl)).bind fun digest => ?_
    split
    · split
      · exact Fallible.uses_fail _ _
      · exact Fallible.uses_pure _ _
    · exact Fallible.uses_pure _ _

theorem uses_collectReferrers (subject : Digest) (filter : Option String) (digests : List Digest)
    (matched : List ReferrerEntry) (filtered : Bool)
    (h : ∀ d, allowed (.manifestGet repo (.digest d))) :
    (collectReferrers repo subject filter digests matched filtered).Uses allowed := by
  induction digests generalizing matched filtered with
  | nil => exact Fallible.uses_pure _ _
  | cons d rest ih =>
      refine ((uses_ask (h d)).attempt.mapError _).bind fun result => ?_
      split
      · exact ih matched filtered
      · exact Fallible.uses_fail _ _
      · split
        · exact ih matched filtered
        · split
          · exact ih matched filtered
          · split
            · exact ih matched true
            · exact ih _ filtered

theorem uses_referrers (digest : String) (filter : Option String)
    (h : validateRepoName repo = .ok () → allowed (.listManifestDigests repo) ∧
      ∀ d, allowed (.manifestGet repo (.digest d))) :
    (referrers repo digest filter).Uses allowed := by
  refine uses_lift_bind fun _ hvalid => ?_
  refine (uses_lift _).bind fun subject => ?_
  refine (uses_call (h hvalid).1).bind fun digests => ?_
  refine (uses_collectReferrers repo subject filter _ _ _ (h hvalid).2).bind fun found => ?_
  exact Fallible.uses_pure _ _

end

section

variable [UuidCrate]

theorem uses_uploadStatus {uuid : String}
    (h : validateRepoName repo = .ok () → ∀ id, parseUuid uuid = .ok id →
      allowed (.uploadStatus repo id)) : (uploadStatus repo uuid).Uses allowed := by
  refine uses_lift_bind fun _ hvalid => ?_
  refine uses_lift_bind fun id hid => ?_
  exact (uses_callOr (h hvalid id hid) _ _).bind fun status => Fallible.uses_pure _ _

theorem uses_uploadChunk {uuid : String} {body : Bytes}
    (h : ∀ id, parseUuid uuid = .ok id → allowed (.uploadAppend repo id body)) :
    (uploadChunk repo uuid body).Uses allowed := by
  refine (uses_lift _).bind fun _ => ?_
  refine uses_lift_bind fun id hid => ?_
  exact (uses_callOr (h id hid) _ _).bind fun status => Fallible.uses_pure _ _

theorem uses_uploadFinish {uuid : String} (digest : Option String) {body : Bytes}
    (h : ∀ id, parseUuid uuid = .ok id →
      allowed (.uploadAppend repo id body) ∧ ∀ d, allowed (.uploadFinalize repo id d)) :
    (uploadFinish repo uuid digest body).Uses allowed := by
  refine (uses_lift _).bind fun _ => ?_
  refine uses_lift_bind fun id hid => ?_
  obtain ⟨happend, hfinalize⟩ := h id hid
  split
  · exact Fallible.uses_fail _ _
  · refine (uses_lift _).bind fun d => ?_
    have hlast : (callOr (.uploadFinalize repo id d) .blobUploadUnknown "no such upload" >>=
        fun _ => pure ⟨201, blobLocation repo d, .empty⟩ : HandlerM Response).Uses allowed :=
      (uses_callOr (hfinalize d) _ _).bind fun _ => Fallible.uses_pure _ _
    split
    · exact (uses_callOr happend _ _).bind fun _ => hlast
    · exact hlast

theorem uses_uploadCancel {uuid : String}
    (h : ∀ id, parseUuid uuid = .ok id → allowed (.uploadCancel repo id)) :
    (uploadCancel repo uuid).Uses allowed := by
  refine (uses_lift _).bind fun _ => ?_
  refine uses_lift_bind fun id hid => ?_
  exact (uses_callOr (h id hid) _ _).bind fun _ => Fallible.uses_pure _ _

end

end Uses

section UploadStart

variable {σ : Type} (storage : Handler StorageOp StorageOp.Ans σ) (s : σ)

theorem calls_call {α : Type} (op : StorageOp) (rest : op.Value → HandlerM α) :
    (call op >>= rest).calls storage s = op ::
      (Fallible.andThen rest ((storage op s).1.mapError fromStorage) : HandlerM α).calls storage
        (storage op s).2 := rfl

-- A mount looks into another repository if the blob is not there yet.
def ReadsSource (repo : String) (mount from? : Option String) (source : String) (d : Digest) :
    Prop :=
  mountDigest mount = some d ∧ (storage (.blobExists repo d) s).1 = .ok false ∧
    mountSource from? = some source

variable {repo : String} {mount from? : Option String}

theorem calls_mountFrom {d : Digest} (hmount : mountDigest mount = some d) :
    (mountFrom repo mount from?).calls storage s = .blobExists repo d ::
      match (storage (.blobExists repo d) s).1 with
      | .ok false => (copyFrom repo d from?).calls storage
          (storage (.blobExists repo d) s).2
      | _ => [] := by
  rw [mountFrom, hmount]
  refine (calls_call storage s _ _).trans (congrArg _ ?_)
  rcases (storage (.blobExists repo d) s).1 with err | found
  · rfl
  · cases found <;> rfl

-- What a mount asks of its own repository before it looks into another.
def Fills (repo : String) : StorageOp → Prop
  | .blobExists r _ | .blobWrite r _ _ | .uploadCreate r _ => r = repo
  | _ => False

theorem fills_of_mountFrom {op : StorageOp}
    (hop : op ∈ (mountFrom repo mount from?).calls storage s)
    (hsource : ∀ source d, ¬ReadsSource storage s repo mount from? source d) : Fills repo op := by
  cases hmount : mountDigest mount with
  | none =>
      rw [mountFrom, hmount] at hop
      cases hop
  | some d =>
      rw [calls_mountFrom storage s hmount] at hop
      rcases List.mem_cons.mp hop with rfl | hrest
      · rfl
      · split at hrest
        · rename_i hexists
          rw [copyFrom] at hrest
          cases hfrom : mountSource from? with
          | none =>
              rw [hfrom] at hrest
              cases hrest
          | some source => exact absurd ⟨hmount, hexists, hfrom⟩ (hsource source d)
        · cases hrest

theorem read_of_mountFrom {source : String} {d : Digest}
    (h : ReadsSource storage s repo mount from? source d) :
    .blobRead source d ∈ (mountFrom repo mount from?).calls storage s := by
  obtain ⟨hmount, hexists, hsource⟩ := h
  rw [calls_mountFrom storage s hmount, hexists, copyFrom, hsource]
  exact List.mem_cons_of_mem _ List.mem_cons_self

theorem mem_calls_uploadStart {digest : Option String} {body : Bytes} {drawn : String}
    {op : StorageOp} (hop : op ∈ (uploadStart repo digest mount from? body drawn).calls storage s) :
    op ∈ (mountFrom repo mount from?).calls storage s ∨ Fills repo op := by
  cases hvalid : validateRepoName repo with
  | error err =>
      rw [uploadStart.eq_def, hvalid] at hop
      cases hop
  | ok _ =>
      rw [uploadStart.eq_def, hvalid] at hop
      refine Fallible.mem_calls_bind hop fun mounted => ?_
      split
      · exact Fallible.uses_pure _ _
      · split
        · refine (uses_lift _).bind fun d => ?_
          have hwrite : Fills repo (.blobWrite repo d body) := rfl
          exact (uses_call hwrite).bind fun _ => Fallible.uses_pure _ _
        · have hcreate : Fills repo (.uploadCreate repo drawn) := rfl
          exact (uses_call hcreate).bind fun session => Fallible.uses_pure _ _

theorem mem_calls_of_mountFrom (digest : Option String) (body : Bytes) (drawn : String)
    {op : StorageOp} (hvalid : validateRepoName repo = .ok ())
    (hop : op ∈ (mountFrom repo mount from?).calls storage s) :
    op ∈ (uploadStart repo digest mount from? body drawn).calls storage s := by
  rw [uploadStart.eq_def, hvalid]
  show op ∈ (mountFrom repo mount from? >>= _).calls storage s
  exact Fallible.mem_calls_of_bind _ hop

end UploadStart

section Program

variable {repo : String}

def Names (repo : String) (op : StorageOp) : Prop := op.repo = some repo

theorem starts_lift {α : Type} (result : Except OciError α) :
    (lift result).Starts (Names repo) := trivial

theorem starts_pure {α : Type} (value : α) : (pure value : HandlerM α).Starts (Names repo) := trivial

theorem starts_uploadStart (digest mount from? : Option String) (body : Bytes) (drawn : String) :
    (uploadStart repo digest mount from? body drawn).Starts (Names repo) := by
  refine (starts_lift _).bind fun _ => ?_
  refine Fallible.Starts.bind ?_ fun mounted => ?_
  · rw [mountFrom.eq_def]
    split
    · exact starts_pure _
    · exact rfl
  · split
    · exact starts_pure _
    · split
      · exact (starts_lift _).bind fun d => rfl
      · exact rfl

variable [Sha2] [SerdeJson] [UuidCrate] {r : Request} {call : Call} {prog : HandlerM Response}

-- The first call of a handler is about the repository of the path.
theorem program_starts {name : Text} (hprog : program r call = some prog)
    (hrepo : call.repo = some name) : prog.Starts (Names (String.ofList name)) := by
  cases call <;> cases hrepo <;> cases hprog
  case uploadStart => exact starts_uploadStart _ _ _ _ _
  case uploadFinish =>
    refine (starts_lift _).bind fun _ => (starts_lift _).bind fun id => ?_
    split
    · exact trivial
    · refine (starts_lift _).bind fun d => ?_
      split
      · exact rfl
      · exact rfl
  case manifestPut =>
    refine (starts_lift _).bind fun _ => ?_
    split
    · exact trivial
    · exact rfl
  all_goals
    refine (starts_lift _).bind fun _ => ?_
    first
    | exact rfl
    | exact (starts_lift _).bind fun d => rfl

theorem program_eq {name : Text} (hprog : program r call = some prog)
    (hrepo : call.repo = some name) : ∃ rest : Unit → HandlerM Response,
      prog = lift (validateRepoName (String.ofList name)) >>= rest := by
  cases call <;> cases hrepo <;> cases hprog <;> exact ⟨_, rfl⟩

-- Nothing is asked for a name that no repository has.
theorem program_validates {name : Text} (hprog : program r call = some prog)
    (hrepo : call.repo = some name) (hcalls : prog.isCall = true) :
    validateRepoName (String.ofList name) = .ok () := by
  obtain ⟨rest, rfl⟩ := program_eq hprog hrepo
  cases hvalid : validateRepoName (String.ofList name) with
  | ok _ => rfl
  | error err =>
      rw [hvalid] at hcalls
      cases hcalls

theorem program_uses {name : Text} (hprog : program r call = some prog)
    (hrepo : call.repo = some name) (hstart : call ≠ .uploadStart name) :
    prog.Uses (Own (String.ofList name)) := by
  cases call <;> cases hrepo <;> cases hprog
  case tagsList => exact uses_tagsList _ _ _
  case uploadStart => exact absurd rfl hstart
  case uploadStatus => exact uses_uploadStatus _ fun _ _ _ => .inl rfl
  case uploadChunk => exact uses_uploadChunk _ fun _ _ => .inl rfl
  case uploadFinish => exact uses_uploadFinish _ _ fun _ _ => ⟨.inl rfl, fun _ => .inl rfl⟩
  case uploadCancel => exact uses_uploadCancel _ fun _ _ => .inl rfl
  case manifestGet => exact uses_manifestGet _ _ fun _ => .inl rfl
  case manifestPut => exact uses_manifestPut _ _ _ _
  case manifestDelete => exact uses_manifestDelete _ _
  case blobGet => exact uses_blobGet _ _ fun _ _ _ => .inl rfl
  case blobDelete => exact uses_blobDelete _ _
  case referrers => exact uses_referrers _ _ _ fun _ => ⟨.inl rfl, fun _ => .inl rfl⟩

end Program

end RspaceRegistry.Http
