import RspaceRegistry.Stores.Layer

namespace RspaceRegistry.Stores

open Calls Disk Files Http

-- A blob that is uploaded in chunks, and the same blob written at once.

section Session

variable [Sha2]

-- Nothing has happened but that a session was opened and has received these bytes.
structure Collects (b : Backend) (id : String) (bytes : Bytes) (s s' : QuotaState Trees) : Prop where
  sound : Sound s'.store
  usage : s'.usage = s.usage
  shelves : ∀ root, shelf (s'.store root) =
    if root = b.head then (shelf (s.store root)).keep id bytes else shelf (s.store root)

variable (layer : Layer) (m : Moment) {s s' : QuotaState Trees} (repo id : String) {bytes : Bytes}

namespace Collects

variable {b : Backend} {id} (h : Collects b id bytes s s')

include h

theorem session : (shelf (s'.store b.head)).sessions id = some bytes := by
  rw [h.shelves, if_pos rfl, Shelf.keep_sessions, if_pos rfl]

theorem sameBlobs : SameBlobs s.store s'.store := by
  intro root
  rw [h.shelves]
  split <;> rfl

end Collects

theorem storage_status (h : Sound s.store) :
    layer.storage m (.uploadStatus repo id) s =
      ((orNotFound ((shelf (s.store (layer.home repo).head)).sessions id)).map fun bytes =>
        ⟨id, bytes.length⟩, s) := by
  have hstatus := serve_status m.apart h (layer.home repo) repo id
  cases layer with
  | fs root => exact congrArg (fun result => (result.1, { s with store := result.2 })) hstatus
  | routed router => exact congrArg (fun result => (result.1, { s with store := result.2 })) hstatus
  | quota router quotas ttl => exact below_status router quotas ttl m.apart h repo id

theorem storage_create (h : Sound s.store) :
    (layer.storage m (.uploadCreate repo id) s).1 = .ok ⟨id, 0⟩ ∧
      Collects (layer.home repo) id [] s (layer.storage m (.uploadCreate repo id) s).2 := by
  have hop : ForPrimary (.request (.uploadCreate repo id)) := fun _ _ _ _ => rfl
  have hrun : layer.storage m (.uploadCreate repo id) s = passOn ((layer.home repo).serve
      (onTrees m.apart) (.request (.uploadCreate repo id))) s := by
    cases layer <;> rfl
  have hserve : (shelf (s.store (layer.home repo).head)).serve (.uploadCreate repo id) =
      (some (.ok ⟨id, 0⟩), (shelf (s.store (layer.home repo).head)).keep id []) := rfl
  obtain ⟨hanswer, hshelf⟩ := serve_answer m.apart h (layer.home repo) hop hserve
  rw [hrun]
  refine ⟨hanswer, serve_sound m.apart h _ _, rfl, fun root => (hshelf root).trans ?_⟩
  split
  · rename_i heq
    rw [heq]
  · rfl

variable {layer} {repo id}

theorem Collects.append (h : Collects (layer.home repo) id bytes s s') (chunk : Bytes) :
    (layer.storage m (.uploadAppend repo id chunk) s').1 = .ok ⟨id, (bytes ++ chunk).length⟩ ∧
      Collects (layer.home repo) id (bytes ++ chunk) s
        (layer.storage m (.uploadAppend repo id chunk) s').2 := by
  have hop : ForPrimary (.request (.uploadAppend repo id chunk)) := fun _ _ _ _ => rfl
  have hrun : layer.storage m (.uploadAppend repo id chunk) s' = passOn ((layer.home repo).serve
      (onTrees m.apart) (.request (.uploadAppend repo id chunk))) s' := by
    cases layer <;> rfl
  have hserve : (shelf (s'.store (layer.home repo).head)).serve (.uploadAppend repo id chunk) =
      (some (.ok ⟨id, (bytes ++ chunk).length⟩),
        (shelf (s'.store (layer.home repo).head)).keep id (bytes ++ chunk)) := by
    simp only [Shelf.serve, h.session]
  obtain ⟨hanswer, hshelf⟩ := serve_answer m.apart h.sound (layer.home repo) hop hserve
  rw [hrun]
  refine ⟨hanswer, serve_sound m.apart h.sound _ _, h.usage, fun root => (hshelf root).trans ?_⟩
  rw [h.shelves, h.shelves, if_pos rfl]
  split
  · rename_i heq
    rw [heq, Shelf.keep, Shelf.keep, Shelf.keep, Function.update_idem]
  · rfl

end Session

section Writes

variable [Sha2] (apart : RootId → Option IoError) {trees : Trees} (h : Sound trees) (b : Backend)

-- What becomes of content under a digest.
def verdict (d : Digest) (content : Bytes) : Except StorageError Unit :=
  if hashContent d.algorithm content = d then .ok ()
  else .error (.digestMismatch d (hashContent d.algorithm content))

include h

theorem run_blobWrite (repo : String) (d : Digest) (content : Bytes) :
    let result := b.serve (onTrees apart) (.request (.blobWrite repo d content)) trees
    result.1 = verdict d content ∧ ∀ root, shelf (result.2 root) =
      if root = b.head ∧ hashContent d.algorithm content = d then (shelf (trees root)).put d content
      else shelf (trees root) := by
  intro result
  have hop : ForPrimary (.request (.blobWrite repo d content)) := fun _ _ _ _ => rfl
  by_cases hhash : hashContent d.algorithm content = d
  · have hserve : (shelf (trees b.head)).serve (.blobWrite repo d content) =
        (some (.ok ()), (shelf (trees b.head)).put d content) := if_pos hhash
    obtain ⟨hanswer, hshelf⟩ := serve_answer apart h b hop hserve
    refine ⟨hanswer.trans (if_pos hhash).symm, fun root => (hshelf root).trans ?_⟩
    simp only [hhash, and_true]
    split
    · rename_i heq
      rw [heq]
    · rfl
  · have hserve : (shelf (trees b.head)).serve (.blobWrite repo d content) =
        (some (.error (.digestMismatch d (hashContent d.algorithm content))),
          shelf (trees b.head)) := if_neg hhash
    obtain ⟨hanswer, hshelf⟩ := serve_answer apart h b hop hserve
    refine ⟨hanswer.trans (if_neg hhash).symm, fun root => ?_⟩
    simp only [hhash, and_false, if_false]
    exact sameShelves_of_head b hshelf root

theorem run_uploadFinalize {id : String} {bytes : Bytes}
    (hsession : (shelf (trees b.head)).sessions id = some bytes) (repo : String) (d : Digest) :
    let result := b.serve (onTrees apart) (.request (.uploadFinalize repo id d)) trees
    result.1 = verdict d bytes ∧ ∀ root, shelf (result.2 root) =
      if root = b.head ∧ hashContent d.algorithm bytes = d then
        ((shelf (trees root)).put d bytes).close id
      else shelf (trees root) := by
  intro result
  have hop : ForPrimary (.request (.uploadFinalize repo id d)) := fun _ _ _ _ => rfl
  by_cases hhash : hashContent d.algorithm bytes = d
  · have hserve : (shelf (trees b.head)).serve (.uploadFinalize repo id d) =
        (some (.ok ()), ((shelf (trees b.head)).put d bytes).close id) := by
      simp only [Shelf.serve, hsession, if_pos hhash]
    obtain ⟨hanswer, hshelf⟩ := serve_answer apart h b hop hserve
    refine ⟨hanswer.trans (if_pos hhash).symm, fun root => (hshelf root).trans ?_⟩
    simp only [hhash, and_true]
    split
    · rename_i heq
      rw [heq]
    · rfl
  · have hserve : (shelf (trees b.head)).serve (.uploadFinalize repo id d) =
        (some (.error (.digestMismatch d (hashContent d.algorithm bytes))),
          shelf (trees b.head)) := by
      simp only [Shelf.serve, hsession, if_neg hhash]
    obtain ⟨hanswer, hshelf⟩ := serve_answer apart h b hop hserve
    refine ⟨hanswer.trans (if_neg hhash).symm, fun root => ?_⟩
    simp only [hhash, and_false, if_false]
    exact sameShelves_of_head b hshelf root

end Writes

section Chunks

variable [Sha2] (layer : Layer) (repo id : String)

-- Chunks as they are sent, each at its moment.
def sendAll (chunks : List (Moment × Bytes)) (s : QuotaState Trees) : QuotaState Trees :=
  chunks.foldl (fun s sent => (layer.storage sent.1 (.uploadAppend repo id sent.2) s).2) s

def joined (chunks : List (Moment × Bytes)) : Bytes := (chunks.map Prod.snd).flatten

-- The calls that `uploadFinish` makes, and what the storage answers to them.
def finish (d : Digest) (body : Bytes) : Fallible StorageError StorageOp StorageOp.Ans Unit := do
  if body ≠ [] then
    let _ ← ask (.uploadAppend repo id body)
  ask (.uploadFinalize repo id d)

variable {layer} {repo id} {s s' : QuotaState Trees} {bytes : Bytes}

theorem Collects.sendAll (h : Collects (layer.home repo) id bytes s s')
    (chunks : List (Moment × Bytes)) :
    Collects (layer.home repo) id (bytes ++ joined chunks) s (sendAll layer repo id chunks s') := by
  induction chunks generalizing bytes s' with
  | nil =>
      simp only [joined, List.map_nil, List.flatten_nil, List.append_nil]
      exact h
  | cons sent rest ih =>
      have hrest := ih (h.append sent.1 sent.2).2
      rw [List.append_assoc] at hrest
      exact hrest

-- The body of the last request is one chunk more.
theorem Collects.finish (h : Collects (layer.home repo) id bytes s s') (m : Moment) (d : Digest)
    (body : Bytes) : ∃ s'', Collects (layer.home repo) id (bytes ++ body) s s'' ∧
      (finish repo id d body).run (layer.storage m) s' =
        layer.storage m (.uploadFinalize repo id d) s'' := by
  by_cases hbody : body = []
  · subst hbody
    refine ⟨s', ?_, rfl⟩
    rw [List.append_nil]
    exact h
  · obtain ⟨hanswer, hcollects⟩ := h.append m body
    refine ⟨_, hcollects, ?_⟩
    have happend : (ask (.uploadAppend repo id body)).run (layer.storage m) s' =
        (.ok ⟨id, (bytes ++ body).length⟩,
          (layer.storage m (.uploadAppend repo id body) s').2) :=
      Fallible.run_eq_mk hanswer rfl
    simp only [Stores.finish, ne_eq, hbody, not_false_iff, if_true]
    exact Fallible.run_bind_of_ok happend _

-- The two ways to the same blob.
theorem Collects.as_whole (h : Collects (layer.home repo) id bytes s s') (hs : Sound s.store)
    (m : Moment) (d : Digest) :
    let finished := layer.storage m (.uploadFinalize repo id d) s'
    let written := layer.storage m (.blobWrite repo d bytes) s
    finished.1 = written.1 ∧ finished.2.usage = written.2.usage ∧
      SameBlobs written.2.store finished.2.store := by
  intro finished written
  have hfinished : finished = _ := layer.storage_uploadFinalize m h.sound repo id d
  have hwritten : written = _ := layer.storage_blobWrite m hs repo d bytes
  obtain ⟨hanswer, hshelf⟩ := run_blobWrite m.apart hs (layer.home repo) repo d bytes
  obtain ⟨hanswer', hshelf'⟩ :=
    run_uploadFinalize m.apart h.sound (layer.home repo) h.session repo d
  rw [h.session] at hfinished
  rw [hfinished, hwritten]
  refine layer.guarded_alike m hs repo d _ h.sound h.sameBlobs h.usage (hanswer'.trans hanswer.symm) ?_
  intro root
  rw [hshelf, hshelf']
  split
  · rw [Shelf.close_blobs, Shelf.put, Shelf.put, h.sameBlobs root]
  · exact h.sameBlobs root

-- A blob that is stored takes its session with it.
theorem Collects.closed (h : Collects (layer.home repo) id bytes s s') (m : Moment) (d : Digest)
    (hok : (layer.storage m (.uploadFinalize repo id d) s').1 = .ok ()) (later : Moment) :
    (layer.storage later (.uploadStatus repo id)
      (layer.storage m (.uploadFinalize repo id d) s').2).1 = .error .notFound := by
  have hfinished := layer.storage_uploadFinalize m h.sound repo id d
  obtain ⟨hanswer, hshelf⟩ :=
    run_uploadFinalize m.apart h.sound (layer.home repo) h.session repo d
  rcases layer.guarded_cases m h.sound repo d _ with ⟨-, hrun, hstore⟩ | ⟨-, ⟨message, hrun⟩, -⟩
  · rw [← hfinished] at hrun hstore
    have hhash : hashContent d.algorithm bytes = d := by
      by_contra hne
      rw [hrun, hanswer, verdict, if_neg hne] at hok
      cases hok
    have hsound : Sound (layer.storage m (.uploadFinalize repo id d) s').2.store := by
      rw [hstore]
      exact serve_sound m.apart h.sound _ _
    rw [storage_status layer later repo id hsound, hstore, hshelf,
      if_pos ⟨rfl, hhash⟩, Shelf.close_sessions, if_pos rfl]
    rfl
  · rw [← hfinished, hok] at hrun
    cases hrun

variable (layer) (repo)

theorem written_kinds (hs : Sound s.store) (m : Moment) (d : Digest) (content : Bytes) :
    let written := (layer.storage m (.blobWrite repo d content) s).1
    written = .ok () ∨ (∃ expected got, written = .error (.digestMismatch expected got)) ∨
      ∃ message, written = .error (.quotaExceeded message) := by
  intro written
  have hwritten := layer.storage_blobWrite m hs repo d content
  have hanswer := (run_blobWrite m.apart hs (layer.home repo) repo d content).1
  rcases layer.guarded_cases m hs repo d _ with ⟨-, hrun, -⟩ | ⟨-, hrun, -⟩
  · rw [← hwritten, hanswer, verdict] at hrun
    by_cases hhash : hashContent d.algorithm content = d
    · exact .inl (hrun.trans (if_pos hhash))
    · exact .inr (.inl ⟨d, _, hrun.trans (if_neg hhash)⟩)
  · rw [← hwritten] at hrun
    exact .inr (.inr hrun)

end Chunks

section Handlers

variable [UuidCrate] {repo id uuid text : String} {d : Digest}

-- An error of the storage in the last request of an upload.
def unknownUpload (err : StorageError) : OciError :=
  if err = .notFound then .new .blobUploadUnknown "no such upload" else fromStorage err

def stored (repo : String) (d : Digest) : Response := ⟨201, blobLocation repo d, .empty⟩

variable {σ : Type} {handler : Handler StorageOp StorageOp.Ans σ}

omit [UuidCrate] in
theorem run_callOr (op : StorageOp) (s : σ) :
    (callOr op .blobUploadUnknown "no such upload").run handler s =
      ((handler op s).1.mapError unknownUpload, (handler op s).2) :=
  Fallible.run_mapError _ _ _

omit [UuidCrate] in
theorem run_stored (s : σ) :
    (callOr (.uploadFinalize repo id d) .blobUploadUnknown "no such upload" >>= fun _ =>
      pure (stored repo d)).run handler s =
      (((handler (.uploadFinalize repo id d) s).1.mapError unknownUpload).map fun _ => stored repo d,
        (handler (.uploadFinalize repo id d) s).2) := by
  rw [Fallible.run_bind, run_callOr]
  cases (handler (.uploadFinalize repo id d) s).1 <;> rfl

theorem run_uploadFinish (hrepo : validateRepoName repo = .ok ()) (huuid : parseUuid uuid = .ok id)
    (htext : Digest.fromStr text = .ok d) (body : Bytes) (s : σ) :
    (uploadFinish repo uuid (some text) body).run handler s =
      ((((finish repo id d body).run handler s).1.mapError unknownUpload).map fun _ => stored repo d,
        ((finish repo id d body).run handler s).2) := by
  have hdigest : parseDigest text = .ok d := by
    rw [parseDigest, htext]
    rfl
  unfold uploadFinish finish
  simp only [hrepo, huuid, hdigest]
  by_cases hbody : body = []
  · simp only [hbody, ne_eq, not_true, if_false]
    exact run_stored s
  · simp only [hbody, ne_eq, not_false_iff, if_true]
    show (callOr (.uploadAppend repo id body) .blobUploadUnknown "no such upload" >>= fun _ =>
      callOr (.uploadFinalize repo id d) .blobUploadUnknown "no such upload" >>= fun _ =>
        pure (stored repo d)).run handler s = _
    rcases happend : handler (.uploadAppend repo id body) s with ⟨answer, s'⟩
    have hcall : (callOr (.uploadAppend repo id body) .blobUploadUnknown "no such upload").run
        handler s = _ := run_callOr (.uploadAppend repo id body) s
    have hask : (ask (.uploadAppend repo id body)).run handler s = (answer, s') := happend
    rw [happend] at hcall
    cases answer with
    | error err =>
        rw [Fallible.run_bind_of_error hcall, Fallible.run_bind_of_error hask]
        rfl
    | ok status =>
        rw [Fallible.run_bind_of_ok hcall, Fallible.run_bind_of_ok hask]
        exact run_stored s'

omit [UuidCrate] in
theorem run_uploadStart (hrepo : validateRepoName repo = .ok ())
    (htext : Digest.fromStr text = .ok d) (body : Bytes) (drawn : String) (s : σ) :
    (uploadStart repo (some text) none none body drawn).run handler s =
      (((handler (.blobWrite repo d body) s).1.mapError fromStorage).map fun _ => stored repo d,
        (handler (.blobWrite repo d body) s).2) := by
  have hdigest : parseDigest text = .ok d := by
    rw [parseDigest, htext]
    rfl
  unfold uploadStart
  simp only [hrepo, hdigest]
  show (call (.blobWrite repo d body) >>= fun _ => pure (stored repo d)).run handler s = _
  rw [Fallible.run_bind, call, Fallible.run_mapError]
  show ((Fallible.andThen _ ((handler (.blobWrite repo d body) s).1.mapError fromStorage)).run handler
    (handler (.blobWrite repo d body) s).2) = _
  cases (handler (.blobWrite repo d body) s).1 <;> rfl

end Handlers

section Theorem

variable [Sha2] [UuidCrate]

-- However the content is cut into chunks, the last of them perhaps within the request
-- that closes the session, the outcome is that of one write.
theorem chunked_as_whole (layer : Layer) {s : QuotaState Trees} (h : Sound s.store)
    (repo id : String) (d : Digest) (first last : Moment) (chunks : List (Moment × Bytes))
    (body : Bytes) :
    let created := layer.storage first (.uploadCreate repo id) s
    let received := sendAll layer repo id chunks created.2
    let finished := (finish repo id d body).run (layer.storage last) received
    let content := joined chunks ++ body
    let written := layer.storage last (.blobWrite repo d content) s
    created.1 = .ok ⟨id, 0⟩ ∧
    (∀ before, before <+: chunks → ∀ m,
      (layer.storage m (.uploadStatus repo id) (sendAll layer repo id before created.2)).1 =
        .ok ⟨id, (joined before).length⟩) ∧
    (∀ before m chunk, before ++ [(m, chunk)] <+: chunks →
      (layer.storage m (.uploadAppend repo id chunk) (sendAll layer repo id before created.2)).1 =
        .ok ⟨id, (joined (before ++ [(m, chunk)])).length⟩) ∧
    finished.1 = written.1 ∧
    (written.1 = .ok () ∨ (∃ expected got, written.1 = .error (.digestMismatch expected got)) ∨
      ∃ message, written.1 = .error (.quotaExceeded message)) ∧
    finished.2.usage = written.2.usage ∧
    SameBlobs written.2.store finished.2.store ∧
    (finished.1 = .ok () → ∀ later,
      (layer.storage later (.uploadStatus repo id) finished.2).1 = .error .notFound) ∧
    ∀ uuid text, validateRepoName repo = .ok () → parseUuid uuid = .ok id →
      Digest.fromStr text = .ok d → ∀ drawn,
        (uploadFinish repo uuid (some text) body).run (layer.storage last) received =
          (((uploadStart repo (some text) none none content drawn).run (layer.storage last) s).1,
            finished.2) := by
  intro created received finished content written
  obtain ⟨hcreated, hopen⟩ := storage_create layer first repo id h
  obtain ⟨s', hcollects, hrun⟩ := (hopen.sendAll chunks).finish last d body
  have hfinished : finished = layer.storage last (.uploadFinalize repo id d) s' := hrun
  obtain ⟨hanswer, husage, hblobs⟩ := hcollects.as_whole h last d
  have hkinds := written_kinds layer repo h last d content
  refine ⟨hcreated, ?_, ?_, ?_, hkinds, ?_, ?_, ?_, ?_⟩
  · intro before _ m
    rw [storage_status layer m repo id (hopen.sendAll before).sound, (hopen.sendAll before).session]
    rfl
  · intro before m chunk _
    rw [((hopen.sendAll before).append m chunk).1]
    simp [joined]
  · rw [hfinished]
    exact hanswer
  · rw [hfinished]
    exact husage
  · rw [hfinished]
    exact hblobs
  · rw [hfinished]
    exact hcollects.closed last d
  · intro uuid text hrepo hid htext drawn
    rw [run_uploadFinish hrepo hid htext, run_uploadStart hrepo htext]
    have hsame : finished.1 = written.1 := by
      rw [hfinished]
      exact hanswer
    show ((finished.1.mapError unknownUpload).map fun _ => stored repo d, finished.2) =
      ((written.1.mapError fromStorage).map fun _ => stored repo d, finished.2)
    rw [hsame]
    rcases hkinds with hkind | ⟨expected, got, hkind⟩ | ⟨message, hkind⟩ <;>
      rw [show written.1 = _ from hkind] <;> rfl

end Theorem

section Example

attribute [local instance] Sample.sha2

abbrev anyUuid : UuidCrate := ⟨some⟩

attribute [local instance] anyUuid

def roomy : Layer := .quota (.single (.fs 0 0)) [⟨"*", 9⟩] 30

def atOnce : Moment := ⟨⟨0, 0⟩, fun _ => none⟩

def nothingYet : QuotaState Trees := ⟨fun _ => none, fun _ => Disk.new⟩

-- The two brackets one after the other, and nothing in between.
def halves : List (Moment × Bytes) := [(atOnce, Sample.text "\x7b"), (atOnce, [])]

theorem joined_halves : joined halves ++ Sample.text "\x7d" = Sample.braces := by decide

theorem braces_in_chunks :
    ((finish "data/x" "u" (sha256Digest Sample.braces) (Sample.text "\x7d")).run
      (roomy.storage atOnce) (sendAll roomy "data/x" "u" halves
        (roomy.storage atOnce (.uploadCreate "data/x" "u") nothingYet).2)).1 =
      (roomy.storage atOnce (.blobWrite "data/x" (sha256Digest Sample.braces) Sample.braces)
        nothingYet).1 := by
  have hsame := (chunked_as_whole roomy (s := nothingYet) (fun _ => sound_new) "data/x" "u"
    (sha256Digest Sample.braces) atOnce atOnce halves (Sample.text "\x7d")).2.2.2.1
  rwa [joined_halves] at hsame

end Example

end RspaceRegistry.Stores
