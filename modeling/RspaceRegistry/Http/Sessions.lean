import RspaceRegistry.Http.Rejected
import RspaceRegistry.Http.Touched

namespace RspaceRegistry.Http

open Calls Files Disk

-- What becomes of an upload session when another repository names it.

inductive UploadRequest
  | status (uuid : String)
  | chunk (uuid : String) (body : Bytes)
  | finish (uuid : String) (digest : Option String) (body : Bytes)
  | cancel (uuid : String)

def UploadRequest.uuid : UploadRequest → String
  | .status uuid | .chunk uuid _ | .finish uuid _ _ | .cancel uuid => uuid

-- A finish without a digest to check, which does not reach the storage.
def UploadRequest.Unchecked : UploadRequest → Prop
  | .finish _ digest _ => ∀ s, digest = some s → (parseDigest s).isOk = false
  | _ => False

-- A storage without sessions.
def noSessions {σ : Type} : Handler StorageOp StorageOp.Ans σ := fun _ s => (.error .notFound, s)

section Requests

variable [UuidCrate]

def UploadRequest.program (repo : String) : UploadRequest → HandlerM Response
  | .status uuid => uploadStatus repo uuid
  | .chunk uuid body => uploadChunk repo uuid body
  | .finish uuid digest body => uploadFinish repo uuid digest body
  | .cancel uuid => uploadCancel repo uuid

-- The answers to requests that name the repository, one after another.
def serveUploads {σ : Type} (storage : Handler StorageOp StorageOp.Ans σ) (repo : String) :
    List UploadRequest → σ → List (Except OciError Response) × σ
  | [], s => ([], s)
  | request :: rest, s =>
      let (answer, s) := (request.program repo).run storage s
      let (answers, s) := serveUploads storage repo rest s
      (answer :: answers, s)

end Requests

section Shared

variable [Sha2] [UuidCrate] {tree : Tree} {apart : Option IoError} {repo id : String}
variable {request : UploadRequest}

def unknownUpload : OciError := .new .blobUploadUnknown "no such upload"

omit [Sha2] in
theorem unchecked_request {σ : Type} (storage : Handler StorageOp StorageOp.Ans σ) (s : σ)
    (hunchecked : request.Unchecked) : ∃ answer,
      (request.program repo).run storage s = (answer, s) ∧
        (request.program repo).run noSessions () = (answer, ()) := by
  cases request with
  | finish uuid digest body =>
      show ∃ answer, (uploadFinish repo uuid digest body).run storage s = (answer, s) ∧
        (uploadFinish repo uuid digest body).run noSessions () = (answer, ())
      unfold uploadFinish
      cases validateRepoName repo with
      | error err => exact ⟨_, rfl, rfl⟩
      | ok _ =>
          cases parseUuid uuid with
          | error err => exact ⟨_, rfl, rfl⟩
          | ok id =>
              cases digest with
              | none => exact ⟨_, rfl, rfl⟩
              | some text =>
                  have hbad := hunchecked text rfl
                  cases hparse : parseDigest text with
                  | error err =>
                      simp only [hparse]
                      exact ⟨_, rfl, rfl⟩
                  | ok d =>
                      rw [hparse] at hbad
                      cases hbad
  | status _ | chunk _ _ | cancel _ => exact hunchecked.elim

-- What has no session is answered as where there are none.
theorem closed_request (h : Laid tree) (hid : parseUuid request.uuid = .ok id)
    (hnone : (shelf tree).sessions id = none) : ∃ answer,
      (request.program repo).run (fsStorageOn apart) tree = (answer, tree) ∧
        (request.program repo).run noSessions () = (answer, ()) := by
  have hstatus : fsStorageOn apart (.uploadStatus repo id) tree = (.error .notFound, tree) := by
    have hrun := run_uploadStatus_laid h id
    rw [hnone] at hrun
    exact hrun
  have happend : ∀ chunk, fsStorageOn apart (.uploadAppend repo id chunk) tree =
      (.error .notFound, tree) := by
    intro chunk
    have hrun := run_uploadAppend h id chunk
    rw [hnone] at hrun
    exact hrun
  have hfinalize : ∀ d, fsStorageOn apart (.uploadFinalize repo id d) tree =
      (.error .notFound, tree) := by
    intro d
    have hrun := uploadFinalize_cases apart h id d
    rw [hnone] at hrun
    exact hrun
  have hcancel : fsStorageOn apart (.uploadCancel repo id) tree = (.error .notFound, tree) := by
    have hrun := (remove_run (h.sessions id) (h.upload_free id)).1
    have hfile : tree.fileAt (uploadPath id) = none := hnone
    have hremove : (tree.remove (uploadPath id)).2 = tree := by
      rcases tree.remove_cases (uploadPath id) with hsame | ⟨inode, hnode, -⟩
      · exact hsame
      · rw [Tree.fileAt_of_file hnode] at hfile
        cases hfile
    rw [hfile, hremove] at hrun
    exact hrun
  apply Prog.run_alike
  cases request with
  | status uuid =>
      exact uses_uploadStatus repo fun _ id' hid' =>
        ⟨_, Except.ok.inj (hid.symm.trans hid') ▸ hstatus, rfl⟩
  | chunk uuid body =>
      exact uses_uploadChunk repo fun id' hid' =>
        ⟨_, Except.ok.inj (hid.symm.trans hid') ▸ happend body, rfl⟩
  | finish uuid digest body =>
      refine uses_uploadFinish repo digest fun id' hid' => ?_
      obtain rfl : id = id' := Except.ok.inj (hid.symm.trans hid')
      exact ⟨⟨_, happend body, rfl⟩, fun d => ⟨_, hfinalize d, rfl⟩⟩
  | cancel uuid =>
      exact uses_uploadCancel repo fun id' hid' =>
        ⟨_, Except.ok.inj (hid.symm.trans hid') ▸ hcancel, rfl⟩

omit [Sha2] [UuidCrate] in
theorem callOr_known {σ : Type} {storage : Handler StorageOp StorageOp.Ans σ} {op : StorageOp} {s : σ}
    (h : (storage op s).1 ≠ .error .notFound) :
    ((callOr op .blobUploadUnknown "no such upload").run storage s).1 ≠ .error unknownUpload := by
  rw [run_callOr]
  cases hanswer : (storage op s).1 with
  | ok value => nofun
  | error err =>
      rw [hanswer] at h
      have hne : err ≠ .notFound := fun heq => h (heq ▸ rfl)
      simp only [Except.mapError, hne, if_false]
      cases err <;> nofun

omit [Sha2] [UuidCrate] in
theorem digest_of_checked {uuid : String} {digest : Option String} {body : Bytes}
    (h : ¬(UploadRequest.finish uuid digest body).Unchecked) :
    ∃ text, digest = some text ∧ ∃ d, parseDigest text = .ok d := by
  cases digest with
  | none => exact absurd nofun h
  | some text =>
      cases hparse : parseDigest text with
      | ok d => exact ⟨text, rfl, d, hparse⟩
      | error err =>
          refine absurd (fun s heq => ?_) h
          rw [← Option.some.inj heq, hparse]
          rfl

omit [UuidCrate] in
theorem finalize_known {bytes : Bytes} (h : Laid tree) (hlive : (shelf tree).sessions id = some bytes)
    (d : Digest) : (fsStorageOn apart (.uploadFinalize repo id d) tree).1 ≠ .error .notFound := by
  by_cases hhash : hashContent d.algorithm bytes = d
  · rw [(serves_call apart h (.uploadFinalize repo id d)).2 (.ok ())
      (by simp only [Shelf.serve, hlive, if_pos hhash])]
    exact fun h => by cases h
  · rw [(serves_call apart h (.uploadFinalize repo id d)).2
      (.error (.digestMismatch d (hashContent d.algorithm bytes)))
      (by simp only [Shelf.serve, hlive, if_neg hhash])]
    exact fun h => by cases h

section Checked

variable (hname : validateRepoName repo = .ok ()) (hid : parseUuid request.uuid = .ok id)
variable (hchecked : ¬request.Unchecked)

include hname hid hchecked

omit [Sha2] in
theorem unknown_answer :
    (request.program repo).run noSessions () = (.error unknownUpload, ()) := by
  cases request with
  | status uuid =>
      show (uploadStatus repo uuid).run noSessions () = _
      unfold uploadStatus
      rw [hname, show parseUuid uuid = .ok id from hid]
      rfl
  | chunk uuid body =>
      show (uploadChunk repo uuid body).run noSessions () = _
      unfold uploadChunk
      rw [hname, show parseUuid uuid = .ok id from hid]
      rfl
  | cancel uuid =>
      show (uploadCancel repo uuid).run noSessions () = _
      unfold uploadCancel
      rw [hname, show parseUuid uuid = .ok id from hid]
      rfl
  | finish uuid digest body =>
      show (uploadFinish repo uuid digest body).run noSessions () = _
      unfold uploadFinish
      rw [hname, show parseUuid uuid = .ok id from hid]
      obtain ⟨text, rfl, d, hparse⟩ := digest_of_checked hchecked
      simp only [hparse]
      by_cases hempty : body = []
      · simp only [hempty]
        rfl
      · simp only [ne_eq, hempty, not_false_eq_true, if_true]
        rfl

theorem live_answer {bytes : Bytes} (h : Laid tree) (hlive : (shelf tree).sessions id = some bytes) :
    ((request.program repo).run (fsStorageOn apart) tree).1 ≠ .error unknownUpload := by
  have hstatus : (fsStorageOn apart (.uploadStatus repo id) tree).1 ≠ .error .notFound := by
    rw [(serves_call apart h (.uploadStatus repo id)).2 (.ok ⟨id, bytes.length⟩)
      (by simp only [Shelf.serve, hlive]; rfl)]
    exact fun h => by cases h
  have happend : ∀ chunk, (fsStorageOn apart (.uploadAppend repo id chunk) tree).1 ≠
      .error .notFound := by
    intro chunk
    rw [(serves_call apart h (.uploadAppend repo id chunk)).2 (.ok ⟨id, (bytes ++ chunk).length⟩)
      (by simp only [Shelf.serve, hlive])]
    exact fun h => by cases h
  have hcancel : (fsStorageOn apart (.uploadCancel repo id) tree).1 ≠ .error .notFound := by
    rw [(serves_call apart h (.uploadCancel repo id)).2 (.ok ())
      (by simp only [Shelf.serve, hlive])]
    exact fun h => by cases h
  cases request with
  | status uuid =>
      show ((uploadStatus repo uuid).run (fsStorageOn apart) tree).1 ≠ _
      unfold uploadStatus
      rw [hname, show parseUuid uuid = .ok id from hid, lift_ok_bind, lift_ok_bind]
      exact Fallible.run_bind_ne_error (callOr_known hstatus) fun _ _ _ h => by cases h
  | chunk uuid body =>
      show ((uploadChunk repo uuid body).run (fsStorageOn apart) tree).1 ≠ _
      unfold uploadChunk
      rw [hname, show parseUuid uuid = .ok id from hid, lift_ok_bind, lift_ok_bind]
      exact Fallible.run_bind_ne_error (callOr_known (happend body)) fun _ _ _ h => by cases h
  | cancel uuid =>
      show ((uploadCancel repo uuid).run (fsStorageOn apart) tree).1 ≠ _
      unfold uploadCancel
      rw [hname, show parseUuid uuid = .ok id from hid, lift_ok_bind, lift_ok_bind]
      exact Fallible.run_bind_ne_error (callOr_known hcancel) fun _ _ _ h => by cases h
  | finish uuid digest body =>
      show ((uploadFinish repo uuid digest body).run (fsStorageOn apart) tree).1 ≠ _
      unfold uploadFinish
      rw [hname, show parseUuid uuid = .ok id from hid, lift_ok_bind, lift_ok_bind]
      obtain ⟨text, rfl, d, hparse⟩ := digest_of_checked hchecked
      simp only [hparse, lift_ok_bind]
      by_cases hempty : body = []
      · simp only [ne_eq, hempty, not_true_eq_false, if_false]
        exact Fallible.run_bind_ne_error (callOr_known (finalize_known h hlive d))
          fun _ _ _ h => by cases h
      · simp only [ne_eq, hempty, not_false_eq_true, if_true]
        refine Fallible.run_bind_ne_error (callOr_known (happend body)) fun status tree' hrun => ?_
        have htree : (fsStorageOn apart (.uploadAppend repo id body) tree).2 = tree' := by
          rw [run_callOr] at hrun
          exact (Prod.mk.inj hrun).2
        have hlive' : (shelf tree').sessions id = some (bytes ++ body) := by
          rw [← htree, (serves_call apart h _).1]
          simp only [Shelf.serve, hlive, Shelf.keep_sessions, if_true]
        have hlaid : Laid tree' := htree ▸ laid_call apart h _
        exact Fallible.run_bind_ne_error (callOr_known (finalize_known hlaid hlive' d))
          fun _ _ _ h => by cases h

end Checked

omit [Sha2] in
theorem serveUploads_cons {σ : Type} (storage : Handler StorageOp StorageOp.Ans σ)
    (request : UploadRequest) (rest : List UploadRequest) (s : σ) :
    serveUploads storage repo (request :: rest) s =
      (((request.program repo).run storage s).1 ::
          (serveUploads storage repo rest ((request.program repo).run storage s).2).1,
        (serveUploads storage repo rest ((request.program repo).run storage s).2).2) := rfl

-- As long as each request is answered alike, the tree stays what it was.
theorem serveUploads_alike {requests : List UploadRequest}
    (h : ∀ request ∈ requests, ∃ answer,
      (request.program repo).run (fsStorageOn apart) tree = (answer, tree) ∧
        (request.program repo).run noSessions () = (answer, ())) :
    ∃ answers, serveUploads (fsStorageOn apart) repo requests tree = (answers, tree) ∧
      serveUploads noSessions repo requests () = (answers, ()) := by
  induction requests with
  | nil => exact ⟨[], rfl, rfl⟩
  | cons request rest ih =>
      obtain ⟨answer, hrun, hnone⟩ := h request List.mem_cons_self
      obtain ⟨answers, hrest, hrest'⟩ := ih fun other hother => h other (List.mem_cons_of_mem _ hother)
      refine ⟨answer :: answers, ?_, ?_⟩
      · rw [serveUploads_cons, hrun, hrest]
      · rw [serveUploads_cons, hnone, hrest']

-- The first request that comes to the session gets another answer.
theorem serveUploads_differ {requests : List UploadRequest} {bytes : Bytes} (h : Laid tree)
    (hlive : (shelf tree).sessions id = some bytes) (hname : validateRepoName repo = .ok ())
    (hids : ∀ request ∈ requests, parseUuid request.uuid = .ok id)
    (hchecked : ∃ request ∈ requests, ¬request.Unchecked) :
    (serveUploads (fsStorageOn apart) repo requests tree).1 ≠
      (serveUploads noSessions repo requests ()).1 := by
  induction requests with
  | nil =>
      obtain ⟨request, hmem, -⟩ := hchecked
      cases hmem
  | cons request rest ih =>
      have hid := hids request List.mem_cons_self
      rw [serveUploads_cons, serveUploads_cons]
      intro heq
      obtain ⟨hhead, htail⟩ := List.cons.inj heq
      by_cases hhere : request.Unchecked
      · have halike : ∃ answer, (request.program repo).run (fsStorageOn apart) tree = (answer, tree) ∧
            (request.program repo).run noSessions () = (answer, ()) := unchecked_request _ _ hhere
        obtain ⟨answer, hrun, hnone⟩ := halike
        rw [hrun, hnone] at htail
        refine ih (fun other hother => hids other (List.mem_cons_of_mem _ hother)) ?_ htail
        obtain ⟨other, hother, hne⟩ := hchecked
        rcases List.mem_cons.mp hother with rfl | hother
        · exact absurd hhere hne
        · exact ⟨other, hother, hne⟩
      · rw [unknown_answer hname hid hhere] at hhead
        exact live_answer hname hid hhere h hlive hhead

-- What a storage comes to in which the repository has begun the session.
def BegunBy (repo id : String) (tree : Tree) : Prop :=
  ∃ before create since, create.op = .request (.uploadCreate repo id) ∧
    tree = runCalls (before ++ create :: since) new

omit [UuidCrate] in
theorem BegunBy.laid (h : BegunBy repo id tree) : Laid tree := by
  obtain ⟨before, create, since, -, rfl⟩ := h
  exact (sound_new.calls _).toLaid

variable (apart) in
-- Requests that name another repository are answered as if there were no such session,
-- and leave it as it is.
def Scoped (tree : Tree) (repo id : String) (requests : List UploadRequest) : Prop :=
  ∀ other, validateRepoName other = .ok () → other ≠ repo →
    (serveUploads (fsStorageOn apart) other requests tree).1 =
        (serveUploads noSessions other requests ()).1 ∧
      (shelf (serveUploads (fsStorageOn apart) other requests tree).2).sessions id =
        (shelf tree).sessions id

theorem scoped_of_alike {requests : List UploadRequest}
    (h : ∀ repo, ∀ request ∈ requests, ∃ answer,
      (request.program repo).run (fsStorageOn apart) tree = (answer, tree) ∧
        (request.program repo).run noSessions () = (answer, ())) :
    Scoped apart tree repo id requests := by
  intro other _ _
  obtain ⟨answers, hrun, hnone⟩ := serveUploads_alike (h other)
  rw [hrun, hnone]
  exact ⟨rfl, rfl⟩

theorem not_scoped_of_live {requests : List UploadRequest} {bytes : Bytes} (h : Laid tree)
    (hlive : (shelf tree).sessions id = some bytes)
    (hids : ∀ request ∈ requests, parseUuid request.uuid = .ok id)
    (hchecked : ∃ request ∈ requests, ¬request.Unchecked) :
    ¬Scoped apart tree repo id requests := by
  intro hscoped
  obtain ⟨other, hother, hne⟩ : ∃ other, validateRepoName other = .ok () ∧ other ≠ repo := by
    by_cases heq : repo = "a"
    · exact ⟨"b", by decide, by rw [heq]; decide⟩
    · exact ⟨"a", by decide, fun hsame => heq hsame.symm⟩
  exact serveUploads_differ h hlive hother hids hchecked (hscoped other hother hne).1

-- A session is out of reach of other repositories exactly when it is over, or when they
-- only ask to finish it without a digest.
theorem scoped_iff (h : BegunBy repo id tree) {requests : List UploadRequest}
    (hids : ∀ request ∈ requests, parseUuid request.uuid = .ok id) :
    Scoped apart tree repo id requests ↔
      (shelf tree).sessions id = none ∨ ∀ request ∈ requests, request.Unchecked := by
  constructor
  · intro hscoped
    by_contra hnot
    obtain ⟨hopen, hsome⟩ := not_or.mp hnot
    obtain ⟨bytes, hlive⟩ := Option.ne_none_iff_exists'.mp hopen
    refine not_scoped_of_live h.laid hlive hids ?_ hscoped
    simpa using hsome
  · rintro (hover | hunchecked)
    · exact scoped_of_alike fun other request hmem =>
        closed_request h.laid (hids request hmem) hover
    · exact scoped_of_alike fun other request hmem =>
        unchecked_request _ _ (hunchecked request hmem)

end Shared

section

-- Texts in the one form in which identifiers print.
abbrev printedUuid : UuidCrate where
  parseStr text := if text.toList.length = 36 ∧ text.toList.all (fun c => isLowerHex c || c == '-') ∧
    (text.toList.splitOn '-').map List.length = [8, 4, 4, 4, 12] then some text else none

attribute [local instance] Sample.sha2 printedUuid

def sessionId : String := "9f1e0c3a-5b7d-4e21-8a64-2c0d9b3f7e15"

def begunByA : Tree := runCalls [⟨.request (.uploadCreate "a" sessionId), none⟩] new

theorem begunByA_begun : BegunBy "a" sessionId begunByA := ⟨[], _, [], rfl, rfl⟩

theorem unchecked_scoped :
    (BegunBy "a" sessionId begunByA ∧ parseUuid sessionId = .ok sessionId) ∧
      Scoped none begunByA "a" sessionId [.finish sessionId none Sample.x] := by
  refine ⟨⟨begunByA_begun, by decide⟩, ?_⟩
  refine (scoped_iff begunByA_begun ?_).mpr (.inr ?_)
  · simp only [List.mem_singleton, forall_eq]
    decide
  · simp only [List.mem_singleton, forall_eq]
    exact nofun

-- Another repository can ask for the offset of the session, add to it, finish it and
-- cancel it.
theorem session_shared :
    ¬(∀ tree repo id, BegunBy repo id tree → ∀ requests : List UploadRequest,
      (∀ request ∈ requests, parseUuid request.uuid = .ok id) →
        Scoped none tree repo id requests) ∧
    ∀ request ∈ [.status sessionId, .chunk sessionId Sample.x, .cancel sessionId,
        UploadRequest.finish sessionId (some (hashContent .sha256 []).toString) []],
      ¬Scoped none begunByA "a" sessionId [request] := by
  have hshared : ∀ request ∈ [.status sessionId, .chunk sessionId Sample.x, .cancel sessionId,
      UploadRequest.finish sessionId (some (hashContent .sha256 []).toString) []],
      ¬Scoped none begunByA "a" sessionId [request] := by
    intro request hmem
    have hlive : (shelf begunByA).sessions sessionId = some [] := by decide +kernel
    refine not_scoped_of_live begunByA_begun.laid hlive ?_ ⟨request, List.mem_singleton_self _, ?_⟩
    · have hid : request.uuid = sessionId := by
        simp only [List.mem_cons, List.not_mem_nil, or_false] at hmem
        rcases hmem with rfl | rfl | rfl | rfl <;> rfl
      simp only [List.mem_singleton, forall_eq, hid]
      decide
    · simp only [List.mem_cons, List.not_mem_nil, or_false] at hmem
      rcases hmem with rfl | rfl | rfl | rfl
      · exact id
      · exact id
      · exact id
      · intro hunchecked
        have hbad := hunchecked _ rfl
        rw [parseDigest, fromStr_toString] at hbad
        cases hbad
  refine ⟨fun hall => ?_, hshared⟩
  refine hshared (.status sessionId) List.mem_cons_self (hall _ _ _ begunByA_begun _ ?_)
  simp only [List.mem_singleton, forall_eq]
  decide

end

end RspaceRegistry.Http
