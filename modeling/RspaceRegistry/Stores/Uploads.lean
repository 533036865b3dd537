import RspaceRegistry.Stores.Durable

namespace RspaceRegistry.Stores

open Calls Disk Files Http Ordered

-- An upload in chunks while others use the server.

section Sessions

variable [Sha2]

-- The calls that leave the session alone.
def SparesSession (id : String) : StorageOp → Prop
  | .uploadCreate _ other | .uploadAppend _ other _ | .uploadFinalize _ other _
  | .uploadCancel _ other => id ≠ other
  | _ => True

def LeavesSession (id : String) (e : ServerEvent) : Prop :=
  ∀ op, e.op = some op → SparesSession id op

theorem serve_session {s : Shelf} {id : String} {op : StorageOp} (hop : SparesSession id op) :
    (s.serve op).2.sessions id = s.sessions id := by
  cases op with
  | blobWrite _ d content =>
      simp only [Shelf.serve]
      split <;> rfl
  | blobDelete _ d =>
      simp only [Shelf.serve]
      split <;> rfl
  | uploadCreate _ other => exact (Shelf.keep_sessions ..).trans (if_neg hop)
  | uploadAppend _ other chunk =>
      simp only [Shelf.serve]
      split
      · exact (Shelf.keep_sessions ..).trans (if_neg hop)
      · rfl
  | uploadFinalize _ other d =>
      simp only [Shelf.serve]
      split
      · split
        · exact (Shelf.close_sessions ..).trans (if_neg hop)
        · rfl
      · rfl
  | uploadCancel _ other =>
      simp only [Shelf.serve]
      split
      · exact (Shelf.close_sessions ..).trans (if_neg hop)
      · rfl
  | blobExists _ _ | blobRead _ _ | uploadStatus _ _ | manifestGet _ _ | manifestPut _ _ _
  | manifestDelete _ _ | listRepos | listTags _ | listManifestDigests _ => rfl

omit [Sha2] in
theorem isTmp_uuid {id : String} (h : Checked.IsUuid id) : isTmp id = false := by
  rw [Bool.eq_false_iff]
  intro htmp
  have hdot : '.' ∈ id.toList := (isTmp_iff.mp htmp).subset (by simp)
  have hchar := List.all_eq_true.mp h '.' hdot
  exact absurd hchar (by decide)

-- The session has received these bytes.
structure Received (root : RootId) (id : String) (bytes : Bytes) (s : QuotaState Trees) : Prop where
  sound : Sound s.store
  session : (shelf (s.store root)).sessions id = some bytes

variable {root : RootId} {id : String} {bytes : Bytes} {s s' : QuotaState Trees}

theorem Received.later (h : Received root id bytes s) (hid : Checked.IsUuid id)
    (hhappens : Happens (LeavesSession id) s s') : Received root id bytes s' := by
  refine ⟨hhappens.sound h.sound, ?_⟩
  refine hhappens.keeps_at (P := fun tree => (shelf tree).sessions id = some bytes) h.sound ?_
    h.session
  intro e hleaves turn tree tree' hop _ hsound hturn hsession
  have hfiles : ∀ tree tree', SameFiles tree tree' → (shelf tree).sessions id = some bytes →
      (shelf tree').sessions id = some bytes :=
    fun tree tree' hsame hheld => (hsame _ (not_temporary (isTmp_uuid hid))).trans hheld
  have hcall : ∀ tree op apart, ManifestsSound tree → SparesSession id op →
      (shelf tree).sessions id = some bytes →
        (shelf (fsStorageOn apart op tree).2).sessions id = some bytes := by
    intro tree op apart hsound hop hheld
    rw [(serves_call apart hsound.toLaid op).1, serve_session hop, hheld]
  have htorn : ∀ tree tree' d part, True → TornAt d part tree tree' →
      (shelf tree).sessions id = some bytes → (shelf tree').sessions id = some bytes :=
    fun tree tree' d part _ hat hheld => (hat.others _ (uploadPath_ne_blobPath id d)).trans hheld
  refine life_invariant (fun _ => True) hfiles hcall htorn (.turn .start hturn) ?_
    (fun _ _ _ _ => trivial)
    hsound.toManifestsSound hsession
  intro e' he' op hsome op' hcut
  have hspares := turn_of_event hop hleaves e' he' op hsome
  cases hcut with
  | whole _ => exact hspares
  | untagged _ _ _ | filed _ _ _ _ => trivial
  | part _ _ _ _ => exact hspares

variable {registry : Registry} {m : Moment} {repo : String}

section Asked

variable (hhead : (registry.home repo).head = root)

include hhead

-- What the directory of the session answers, or a quota in front of it.
theorem asked_head (h : Sound s.store) {op : StorageOp} (hop : op.repo = some repo)
    (hprimary : ForPrimary (.request op)) {answer : op.Ans} {after : Shelf}
    (hserve : (shelf (s.store root)).serve op = (some answer, after)) :
    ((registry.storage m op s).1 = answer ∧
        shelf ((registry.storage m op s).2.store root) = after) ∨
      Weighed op ∧ ∃ message, (registry.storage m op s).1 = .error (.quotaExceeded message) := by
  rcases storage_primary registry m h hop hprimary with ⟨hanswer, hstore⟩ | ⟨hweighed, hrefused, -⟩
  · rw [hhead] at hanswer hstore
    obtain ⟨hshelf, hserved⟩ := serves_call (m.apart root) (h root).toLaid op
    rw [hserve] at hshelf hserved
    refine .inl ⟨hanswer.trans (hserved answer rfl), ?_⟩
    rw [hstore]
    exact hshelf
  · exact .inr ⟨hweighed, hrefused⟩

theorem received_create (h : Sound s.store) :
    (registry.storage m (.uploadCreate repo id) s).1 = .ok ⟨id, 0⟩ ∧
      Received root id [] (registry.storage m (.uploadCreate repo id) s).2 := by
  have hprimary : ForPrimary (.request (.uploadCreate repo id)) := fun _ _ _ _ => rfl
  rcases asked_head (m := m) hhead h rfl hprimary rfl with ⟨hanswer, hshelf⟩ | ⟨hweighed, -⟩
  · refine ⟨hanswer, sound_after registry m _ h, ?_⟩
    rw [hshelf]
    exact (Shelf.keep_sessions ..).trans (if_pos rfl)
  · exact hweighed.elim

theorem received_append (h : Received root id bytes s) (chunk : Bytes) :
    (registry.storage m (.uploadAppend repo id chunk) s).1 = .ok ⟨id, (bytes ++ chunk).length⟩ ∧
      Received root id (bytes ++ chunk) (registry.storage m (.uploadAppend repo id chunk) s).2 := by
  have hprimary : ForPrimary (.request (.uploadAppend repo id chunk)) := fun _ _ _ _ => rfl
  have hserve : (shelf (s.store root)).serve (.uploadAppend repo id chunk) =
      (some (.ok ⟨id, (bytes ++ chunk).length⟩),
        (shelf (s.store root)).keep id (bytes ++ chunk)) := by
    simp only [Shelf.serve, h.session]
  rcases asked_head (m := m) hhead h.sound rfl hprimary hserve with
    ⟨hanswer, hshelf⟩ | ⟨hweighed, -⟩
  · refine ⟨hanswer, sound_after registry m _ h.sound, ?_⟩
    rw [hshelf]
    exact (Shelf.keep_sessions ..).trans (if_pos rfl)
  · exact hweighed.elim

theorem received_status (h : Received root id bytes s) :
    (registry.storage m (.uploadStatus repo id) s).1 = .ok ⟨id, bytes.length⟩ := by
  have hprimary : ForPrimary (.request (.uploadStatus repo id)) := fun _ _ _ _ => rfl
  have hserve : (shelf (s.store root)).serve (.uploadStatus repo id) =
      (some (.ok ⟨id, bytes.length⟩), shelf (s.store root)) := by
    rw [Shelf.serve, h.session]
    rfl
  rcases asked_head (m := m) hhead h.sound rfl hprimary hserve with ⟨hanswer, -⟩ | ⟨hweighed, -⟩
  · exact hanswer
  · exact hweighed.elim

theorem received_finalize (h : Received root id bytes s) (d : Digest) :
    let answer := (registry.storage m (.uploadFinalize repo id d) s).1
    (hashContent d.algorithm bytes = d ∧ answer = .ok ()) ∨
      (hashContent d.algorithm bytes ≠ d ∧
        answer = .error (.digestMismatch d (hashContent d.algorithm bytes))) ∨
      ∃ message, answer = .error (.quotaExceeded message) := by
  intro answer
  have hprimary : ForPrimary (.request (.uploadFinalize repo id d)) := fun _ _ _ _ => rfl
  by_cases hhash : hashContent d.algorithm bytes = d
  · have hserve : (shelf (s.store root)).serve (.uploadFinalize repo id d) =
        (some (.ok ()), ((shelf (s.store root)).put d bytes).close id) := by
      simp only [Shelf.serve, h.session, if_pos hhash]
    rcases asked_head (m := m) hhead h.sound rfl hprimary hserve with
      ⟨hanswer, -⟩ | ⟨-, hrefused⟩
    · exact .inl ⟨hhash, hanswer⟩
    · exact .inr (.inr hrefused)
  · have hserve : (shelf (s.store root)).serve (.uploadFinalize repo id d) =
        (some (.error (.digestMismatch d (hashContent d.algorithm bytes))),
          shelf (s.store root)) := by
      simp only [Shelf.serve, h.session, if_neg hhash]
    rcases asked_head (m := m) hhead h.sound rfl hprimary hserve with
      ⟨hanswer, -⟩ | ⟨-, hrefused⟩
    · exact .inr (.inl ⟨hhash, hanswer⟩)
    · exact .inr (.inr hrefused)

end Asked

end Sessions

section Requests

variable [Sha2] {root : RootId} {id : String} {bytes : Bytes} {s s' : QuotaState Trees}
  {allowed : ServerEvent → Prop}

omit [Sha2] in
-- The responses of a mount say that the blob was created.
theorem wp_mountFrom_created {sem : Sem StorageOp StorageOp.Ans (QuotaState Trees)}
    {rely : QuotaState Trees → QuotaState Trees → Prop} (repo : String)
    (mount from? : Option String) (s : QuotaState Trees) :
    (mountFrom repo mount from?).wp sem rely unguarded
      (Fallible.Outcome (fun mounted _ => ∀ response ∈ mounted, response.status = 201)
        fun _ _ => True) s := by
  have hnone : ∀ response ∈ (none : Option Response), response.status = 201 :=
    fun _ hmem => by cases hmem
  have hsome : ∀ stored : Digest, ∀ response ∈ some (⟨201, blobLocation repo stored, .empty⟩ :
      Response), response.status = 201 := by
    intro stored response hmem
    rw [← Option.some.inj hmem]
  rw [mountFrom]
  split
  · exact hnone
  · rename_i stored _
    rw [Fallible.wp_bind, call, Fallible.wp_mapError]
    intro s₁ _ answer s₂ _
    refine ⟨trivial, ?_⟩
    cases answer with
    | error err => trivial
    | ok found =>
        cases found with
        | true => exact hsome stored
        | false =>
            show (copyFrom repo stored from?).wp sem rely unguarded _ s₂
            rw [copyFrom]
            split
            · exact hnone
            · rw [Fallible.wp_bind, Fallible.wp_attempt, call, Fallible.wp_mapError]
              intro s₃ _ answer s₄ _
              refine ⟨trivial, ?_⟩
              cases answer with
              | error err => exact hnone
              | ok content =>
                  refine (Fallible.wp_bind _ _ _ _).mpr ((Fallible.wp_mapError _ _ _ _).mpr ?_)
                  intro s₅ _ answer s₆ _
                  refine ⟨trivial, ?_⟩
                  cases answer with
                  | error err => trivial
                  | ok _ => exact hsome stored

-- A session that is announced is there, without a byte.
def Announces (root : RootId) (id : String) (response : Response) (s : QuotaState Trees) : Prop :=
  response.status = 202 → response.header "docker-upload-uuid" = some id → Received root id [] s

theorem wp_uploadStart_session (h : Sound s.store) (repo : String)
    (digest mount from? : Option String) (body : Bytes) (drawn : String) :
    (uploadStart repo digest mount from? body drawn).wp (through (Heads repo root))
      (Happens allowed) unguarded (Fallible.Outcome (Announces root id) fun _ _ => True) s := by
  have hsound : (mountFrom repo mount from?).wp (through (Heads repo root)) (Happens allowed)
      (fun _ s _ s' => Sound s.store → Sound s'.store) (fun _ s => Sound s.store) s := by
    refine Prog.wp_invariant h (fun s s' hhappens => hhappens.sound) ?_
    rintro op s answer s' ⟨registry, m, -, hrun⟩ hsound
    have hafter := sound_after registry m op hsound
    rwa [hrun] at hafter
  unfold uploadStart
  cases validateRepoName repo with
  | error err => exact trivial
  | ok _ =>
      rw [lift_ok_bind, Fallible.wp_bind]
      have hboth := Prog.wp_and hsound (wp_mountFrom_created repo mount from? s)
      refine Prog.wp_mono hboth (fun _ _ _ _ hcall => hcall) (fun _ _ hhappens => hhappens)
        (fun _ _ _ _ _ _ => trivial) ?_
      rintro result s₁ ⟨h₁, hresult⟩
      cases result with
      | error err => trivial
      | ok mounted =>
          cases mounted with
          | some response =>
              intro hstatus
              have hcreated : response.status = 201 := hresult response rfl
              rw [hcreated] at hstatus
              exact absurd hstatus (by decide)
          | none =>
              cases digest with
              | some text =>
                  cases hd : parseDigest text with
                  | error err =>
                      simp only [hd]
                      exact trivial
                  | ok stored =>
                      simp only [hd, lift_ok_bind]
                      refine (Fallible.wp_bind _ _ _ _).mpr (wp_asked _ fun s₂ _ registry m _ => ?_)
                      refine ⟨fun _ _ hstatus => ?_, fun _ _ => trivial⟩
                      exact absurd (show 201 = 202 from hstatus) (by decide)
              | none =>
                  refine (Fallible.wp_bind _ _ _ _).mpr
                    (wp_asked _ fun s₂ hs₂ registry m hhead => ?_)
                  refine ⟨fun session hok _ huuid => ?_, fun _ _ => trivial⟩
                  obtain ⟨hcreated, hreceived⟩ :
                      (registry.storage m (.uploadCreate repo drawn) s₂).1 = .ok ⟨drawn, 0⟩ ∧
                        Received root drawn []
                          (registry.storage m (.uploadCreate repo drawn) s₂).2 :=
                    received_create hhead (hs₂.sound h₁)
                  rw [hcreated] at hok
                  have hsession : some session.id = some id := huuid
                  rw [← Except.ok.inj hok] at hsession
                  rw [← Option.some.inj hsession]
                  exact hreceived

variable [UuidCrate] {repo uuid : String}

def chunkReply (repo id : String) (received : Nat) : Response :=
  ⟨202, sessionHeaders repo id ("0-" ++ toString (received - 1)), .empty⟩

def statusReply (repo id : String) (received : Nat) : Response :=
  ⟨204, sessionHeaders repo id (if received = 0 then "0-0" else "0-" ++ toString (received - 1)),
    .empty⟩

-- The end of an upload: it is taken exactly if the digest is that of the content, unless
-- a quota refuses it.
def Concludes (repo : String) (d : Digest) (content : Bytes) (result : Except OciError Response) :
    Prop :=
  (hashContent d.algorithm content = d ∧ result = .ok (stored repo d)) ∨
    (hashContent d.algorithm content ≠ d ∧
      result = .error (fromStorage (.digestMismatch d (hashContent d.algorithm content)))) ∨
    ∃ message, result = .error (fromStorage (.quotaExceeded message))

section Session

variable (hid : Checked.IsUuid id) (hname : validateRepoName repo = .ok ())
  (huuid : parseUuid uuid = .ok id) (h : Received root id bytes s)

include hid hname huuid h

theorem wp_uploadChunk_received (body : Bytes) :
    (uploadChunk repo uuid body).wp (through (Heads repo root)) (Happens (LeavesSession id))
      unguarded (fun result s => result = .ok (chunkReply repo id (bytes ++ body).length) ∧
        Received root id (bytes ++ body) s) s := by
  unfold uploadChunk
  rw [hname, lift_ok_bind, huuid, lift_ok_bind, Fallible.wp_bind]
  refine wp_asked _ fun s₁ hs₁ registry m hhead => ?_
  obtain ⟨hanswer, hreceived⟩ := received_append (m := m) hhead (h.later hid hs₁) body
  rw [hanswer]
  refine ⟨fun status hok => ?_, fun err herror => by cases herror⟩
  rw [← Except.ok.inj hok]
  exact ⟨rfl, hreceived⟩

theorem wp_uploadStatus_received :
    (Http.uploadStatus repo uuid).wp (through (Heads repo root)) (Happens (LeavesSession id))
      unguarded (fun result _ => result = .ok (statusReply repo id bytes.length)) s := by
  unfold Http.uploadStatus
  rw [hname, lift_ok_bind, huuid, lift_ok_bind, Fallible.wp_bind]
  refine wp_asked _ fun s₁ hs₁ registry m hhead => ?_
  rw [received_status (m := m) hhead (h.later hid hs₁)]
  refine ⟨fun status hok => ?_, fun err herror => by cases herror⟩
  rw [← Except.ok.inj hok]
  rfl

theorem wp_uploadFinish_received {text : String} {d : Digest} (htext : Digest.fromStr text = .ok d)
    (body : Bytes) :
    (uploadFinish repo uuid (some text) body).wp (through (Heads repo root))
      (Happens (LeavesSession id)) unguarded
      (fun result _ => Concludes repo d (bytes ++ body) result) s := by
  have hfinalize : ∀ content s₁, Received root id content s₁ →
      (callOr (.uploadFinalize repo id d) .blobUploadUnknown "no such upload" >>= fun _ =>
        pure (stored repo d)).wp (through (Heads repo root)) (Happens (LeavesSession id)) unguarded
        (fun result _ => Concludes repo d content result) s₁ := by
    intro content s₁ hreceived
    refine (Fallible.wp_bind _ _ _ _).mpr (wp_asked _ fun s₂ hs₂ registry m hhead => ?_)
    rcases received_finalize (m := m) hhead (hreceived.later hid hs₂) d with
      ⟨hhash, hanswer⟩ | ⟨hhash, hanswer⟩ | ⟨message, hanswer⟩
    · rw [hanswer]
      exact ⟨fun _ _ => .inl ⟨hhash, rfl⟩, fun err herror => by cases herror⟩
    · rw [hanswer]
      refine ⟨fun _ hok => (by cases hok), fun err herror => ?_⟩
      rw [← Except.error.inj herror]
      exact .inr (.inl ⟨hhash, rfl⟩)
    · rw [hanswer]
      refine ⟨fun _ hok => (by cases hok), fun err herror => ?_⟩
      rw [← Except.error.inj herror]
      exact .inr (.inr ⟨message, rfl⟩)
  have hparse : parseDigest text = .ok d := by
    rw [parseDigest, htext]
    rfl
  unfold uploadFinish
  rw [hname, lift_ok_bind, huuid, lift_ok_bind]
  simp only [hparse, lift_ok_bind]
  by_cases hbody : body = []
  · subst hbody
    rw [if_neg (fun hne => hne rfl), List.append_nil]
    exact hfinalize bytes s h
  · rw [if_pos hbody]
    refine (Fallible.wp_bind _ _ _ _).mpr (wp_asked _ fun s₁ hs₁ registry m hhead => ?_)
    obtain ⟨hanswer, hreceived⟩ := received_append (m := m) hhead (h.later hid hs₁) body
    rw [hanswer]
    exact ⟨fun _ _ => hfinalize _ _ hreceived, fun err herror => by cases herror⟩

end Session

end Requests

section Uploads

variable [Sha2] [SerdeJson] [UuidCrate] {root : RootId} {repo uuid : Text} {id : String}
  {bytes : Bytes} {s s' : QuotaState Trees} {r : Http.Request} {result : Except OciError Response}

-- How far an upload has come: it is opened, it gets its chunks, and in between others are
-- served, who leave the session to its client.
inductive Uploading (root : RootId) (repo : Text) (id : String) : Bytes → QuotaState Trees → Prop
  | opened {usage : Backend → Option Cached} {s s' : QuotaState Trees} {r : Http.Request}
      {response : Response} (hbefore : Happens (fun _ => True) ⟨usage, fun _ => new⟩ s)
      (hopened : Answered (Heads (String.ofList repo) root) (LeavesSession id) r
        (.uploadStart repo) s (.ok response) s') (hstatus : response.status = 202)
      (hheader : response.header "docker-upload-uuid" = some id) : Uploading root repo id [] s'
  | chunk {bytes : Bytes} {s s' : QuotaState Trees} {r : Http.Request} {uuid : Text}
      {result : Except OciError Response} (h : Uploading root repo id bytes s)
      (huuid : parseUuid (String.ofList uuid) = .ok id)
      (hanswered : Answered (Heads (String.ofList repo) root) (LeavesSession id) r
        (.uploadChunk repo uuid) s result s') : Uploading root repo id (bytes ++ r.body) s'
  | others {bytes : Bytes} {s s' : QuotaState Trees} (h : Uploading root repo id bytes s)
      (hhappens : Happens (LeavesSession id) s s') : Uploading root repo id bytes s'

variable (hid : Checked.IsUuid id) (hname : validateRepoName (String.ofList repo) = .ok ())

include hid

theorem chunk_answered (hname : validateRepoName (String.ofList repo) = .ok ())
    (huuid : parseUuid (String.ofList uuid) = .ok id) (h : Received root id bytes s)
    (hanswered : Answered (Heads (String.ofList repo) root) (LeavesSession id) r
      (.uploadChunk repo uuid) s result s') :
    result = .ok (chunkReply (String.ofList repo) id (bytes ++ r.body).length) ∧
      Received root id (bytes ++ r.body) s' := by
  refine hanswered.meets (P := fun result s =>
    result = .ok (chunkReply (String.ofList repo) id (bytes ++ r.body).length) ∧
      Received root id (bytes ++ r.body) s) ?_ fun _ _ _ hhappens => And.imp_right fun hreceived =>
        hreceived.later hid hhappens
  intro prog hprog
  obtain rfl := Option.some.inj hprog
  exact wp_uploadChunk_received hid hname huuid h r.body

include hname

theorem Uploading.received (h : Uploading root repo id bytes s) : Received root id bytes s := by
  induction h with
  | @opened usage s s' r response hbefore hopened hstatus hheader =>
      refine hopened.gives (P := Announces root id) ?_ ?_ hstatus hheader
      · intro prog hprog
        obtain rfl := Option.some.inj hprog
        exact wp_uploadStart_session (hbefore.sound fun _ => sound_new) _ _ _ _ _ _
      · exact fun _ _ _ hhappens hannounced hstatus hheader =>
          (hannounced hstatus hheader).later hid hhappens
  | chunk _ huuid hanswered ih => exact (chunk_answered hid hname huuid ih hanswered).2
  | others _ hhappens ih => exact ih.later hid hhappens

-- An upload in chunks is of the chunks in the order in which they were sent, none lost
-- and none twice: every range that is reported is that of all that was sent, and the
-- content that the digest is held against is all of it.
theorem upload_exact (h : Uploading root repo id bytes s)
    (huuid : parseUuid (String.ofList uuid) = .ok id) {call : Call}
    (hanswered : Answered (Heads (String.ofList repo) root) (LeavesSession id) r call s result s') :
    (call = .uploadChunk repo uuid →
      result = .ok (chunkReply (String.ofList repo) id (bytes ++ r.body).length)) ∧
    (call = .uploadStatus repo uuid →
      result = .ok (statusReply (String.ofList repo) id bytes.length)) ∧
    ∀ text d, call = .uploadFinish repo uuid → r.query.get "digest" = some text →
      Digest.fromStr text = .ok d →
        Concludes (String.ofList repo) d (bytes ++ r.body) result := by
  have hreceived := h.received hid hname
  refine ⟨?_, ?_, ?_⟩
  · rintro rfl
    exact (chunk_answered hid hname huuid hreceived hanswered).1
  · rintro rfl
    refine hanswered.meets (P := fun result _ =>
      result = .ok (statusReply (String.ofList repo) id bytes.length)) ?_ fun _ _ _ _ hsame => hsame
    intro prog hprog
    obtain rfl := Option.some.inj hprog
    exact wp_uploadStatus_received hid hname huuid hreceived
  · rintro text d rfl hquery htext
    refine hanswered.meets (P := fun result _ =>
      Concludes (String.ofList repo) d (bytes ++ r.body) result) ?_ fun _ _ _ _ hsame => hsame
    intro prog hprog
    obtain rfl := Option.some.inj hprog
    rw [hquery]
    exact wp_uploadFinish_received hid hname huuid hreceived htext r.body

end Uploads

section

attribute [local instance] Sample.sha2 Sample.serdeJson anyUuid

-- One chunk, and a request that closes the session with another.

def openedUpload : QuotaState Trees :=
  (one.storage atOnce (.uploadCreate "a" "0f") nothingYet).2

theorem openedUpload_uploading : Uploading 0 "a".toList "0f" [] openedUpload := by
  have hname : String.ofList "a".toList = "a" := String.ofList_toList
  have hvalid : validateRepoName "a" = .ok () := by decide
  have hprogram : program startUpload (.uploadStart "a".toList) =
      some (uploadStart "a" none none none startUpload.body "0f") := by
    rw [program, hname]
    rfl
  have hcreate : one.storage atOnce (.uploadCreate "a" "0f") nothingYet =
      (.ok ⟨"0f", 0⟩, openedUpload) := Prod.ext (received_create rfl fun _ => sound_new).1 rfl
  have hcall : (call (.uploadCreate "a" "0f")).run (one.storage atOnce) nothingYet =
      (.ok ⟨"0f", 0⟩, openedUpload) := by
    rw [call, Fallible.run_mapError, show (ask (.uploadCreate "a" "0f")).run (one.storage atOnce)
      nothingYet = _ from hcreate]
    rfl
  have hrun : (uploadStart "a" none none none startUpload.body "0f").run (one.storage atOnce)
      nothingYet = (.ok ⟨202, sessionHeaders "a" "0f" "0-0", .empty⟩, openedUpload) := by
    unfold uploadStart
    rw [hvalid, lift_ok_bind]
    exact Fallible.run_bind_of_ok hcall _
  have hone : Heads (String.ofList "a".toList) 0 one := rfl
  exact .opened .refl (answered_of_run hone hprogram hrun) rfl rfl

def sendX : Http.Request :=
  { startUpload with query := [("digest", xDigest.toString)], body := Sample.x }

def chunkX : HandlerM Response := uploadChunk "a" "0f" Sample.x

def finishX : HandlerM Response := uploadFinish "a" "0f" (some xDigest.toString) Sample.x

def afterChunk : QuotaState Trees := (chunkX.run (one.storage atOnce) openedUpload).2

theorem afterChunk_uploading : Uploading 0 "a".toList "0f" ([] ++ sendX.body) afterChunk := by
  have hprogram : program sendX (.uploadChunk "a".toList "0f".toList) = some chunkX := by
    rw [program, String.ofList_toList, String.ofList_toList]
    rfl
  have huuid : parseUuid (String.ofList "0f".toList) = .ok "0f" := by
    rw [String.ofList_toList]
    rfl
  have hone : Heads (String.ofList "a".toList) 0 one := rfl
  exact openedUpload_uploading.chunk huuid
    (answered_of_run hone hprogram (Fallible.run_eq_mk rfl rfl))

theorem finishX_concludes : Concludes (String.ofList "a".toList) xDigest
    (([] ++ sendX.body) ++ sendX.body) (finishX.run (one.storage atOnce) afterChunk).1 := by
  have hprogram : program sendX (.uploadFinish "a".toList "0f".toList) = some finishX := by
    rw [program, String.ofList_toList, String.ofList_toList]
    rfl
  have huuid : parseUuid (String.ofList "0f".toList) = .ok "0f" := by
    rw [String.ofList_toList]
    rfl
  have hone : Heads (String.ofList "a".toList) 0 one := rfl
  have hanswered : Answered (Heads (String.ofList "a".toList) 0) (LeavesSession "0f") sendX
      (.uploadFinish "a".toList "0f".toList) afterChunk
      (finishX.run (one.storage atOnce) afterChunk).1
      (finishX.run (one.storage atOnce) afterChunk).2 :=
    answered_of_run hone hprogram (Fallible.run_eq_mk rfl rfl)
  exact (upload_exact (by decide) (by rw [String.ofList_toList]; decide) afterChunk_uploading huuid
    hanswered).2.2 xDigest.toString xDigest rfl rfl (fromStr_toString xDigest)

end

end RspaceRegistry.Stores
