import RspaceRegistry.Stores.Chunks

namespace RspaceRegistry.Stores

open Calls Disk Files Http

-- What the last request of an upload leaves behind where it fails.

section Outcome

variable [Sha2] (layer : Layer) {repo id : String} {bytes : Bytes} {s s' : QuotaState Trees}

-- The session as the storage has it.
def session (repo id : String) (s : QuotaState Trees) : Option Bytes :=
  (shelf (s.store (layer.home repo).head)).sessions id

-- The content has the digest, and the quota has room for it.
def Accepted (m : Moment) (repo : String) (d : Digest) (content : Bytes) (s : QuotaState Trees) :
    Prop :=
  hashContent d.algorithm content = d ∧ layer.Room m repo d content.length s

theorem room_alike (h : Sound s.store) (h' : Sound s'.store) (hblobs : SameBlobs s.store s'.store)
    (husage : s'.usage = s.usage) (m : Moment) (repo : String) (d : Digest) (incoming : Nat) :
    layer.Room m repo d incoming s' ↔ layer.Room m repo d incoming s := by
  cases layer with
  | fs root => exact Iff.rfl
  | routed router => exact Iff.rfl
  | quota router quotas ttl =>
      have hused := usedNow_alike ttl m.apart m.clock h h' hblobs husage (router.resolve repo)
      simp only [Layer.Room, hblobs.blobIn_eq, hused.1]

variable {layer}

theorem collects_of_session (h : Sound s.store) (hsession : session layer repo id s = some bytes) :
    Collects (layer.home repo) id bytes s s := by
  refine ⟨h, rfl, fun root => ?_⟩
  split
  · rename_i heq
    rw [heq, Shelf.keep, ← hsession, session, Function.update_eq_self]
  · rfl

-- The last request adds its body to the session before all else.
theorem finish_outcome (h : Sound s.store) (hsession : session layer repo id s = some bytes)
    (m : Moment) (d : Digest) (body : Bytes) :
    let finished := (finish repo id d body).run (layer.storage m) s
    (Accepted layer m repo d (bytes ++ body) s ∧ finished.1 = .ok ()) ∨
    (¬Accepted layer m repo d (bytes ++ body) s ∧ (∃ err, finished.1 = .error err) ∧
      session layer repo id finished.2 = some (bytes ++ body)) := by
  intro finished
  obtain ⟨s', hcollects, hrun⟩ := (collects_of_session h hsession).finish m d body
  have hfinished : finished = layer.storage m (.uploadFinalize repo id d) s' := hrun
  have hroom := room_alike layer h hcollects.sound hcollects.sameBlobs hcollects.usage m repo d
    (bytes ++ body).length
  obtain ⟨hanswer, hshelf⟩ :=
    run_uploadFinalize m.apart hcollects.sound (layer.home repo) hcollects.session repo d
  rw [layer.storage_uploadFinalize m hcollects.sound, hcollects.session, Option.elim_some]
    at hfinished
  rw [hfinished]
  rcases layer.guarded_cases m hcollects.sound repo d (bytes ++ body).length with
    ⟨hfits, hrun, hstore⟩ | ⟨hfull, ⟨message, hrun⟩, hstore⟩
  · by_cases hhash : hashContent d.algorithm (bytes ++ body) = d
    · exact .inl ⟨⟨hhash, hroom.mp hfits⟩, hrun.trans (hanswer.trans (if_pos hhash))⟩
    · refine .inr ⟨fun haccepted => hhash haccepted.1, ⟨_, hrun.trans (hanswer.trans (if_neg hhash))⟩, ?_⟩
      rw [session, hstore, hshelf, if_neg fun hboth => hhash hboth.2]
      exact hcollects.session
  · refine .inr ⟨fun haccepted => hfull (hroom.mpr haccepted.2), ⟨_, hrun⟩, ?_⟩
    rw [session, hstore]
    exact hcollects.session

end Outcome

section Retry

variable [Sha2] [UuidCrate] (layer : Layer) (repo uuid id : String) (bytes body : Bytes)

-- The reply to the last request of an upload, and the state after it.
def finishReply (m : Moment) (text : String) (s : QuotaState Trees) :
    Except OciError Response × QuotaState Trees :=
  (uploadFinish repo uuid (some text) body).run (layer.storage m) s

-- Where the request fails the session holds what it held before, and the same request
-- later goes through just when the content has the digest and there is room for it.
def Retryable (m : Moment) (text : String) (s : QuotaState Trees) : Prop :=
  let failed := finishReply layer repo uuid body m text s
  (∃ err, failed.1 = .error err) →
    session layer repo id failed.2 = some bytes ∧
    ∀ (later : Moment) (s' : QuotaState Trees), Sound s'.store →
      session layer repo id s' = session layer repo id failed.2 →
      ∀ text' d', Digest.fromStr text' = .ok d' →
        ((∃ response, (finishReply layer repo uuid body later text' s').1 = .ok response) ↔
          Accepted layer later repo d' (bytes ++ body) s')

variable {repo uuid id} {bytes} {m : Moment} {text : String} {d : Digest} {s : QuotaState Trees}

theorem finishReply_outcome (h : Sound s.store) (hsession : session layer repo id s = some bytes)
    (hrepo : validateRepoName repo = .ok ()) (huuid : parseUuid uuid = .ok id)
    (htext : Digest.fromStr text = .ok d) :
    let reply := finishReply layer repo uuid body m text s
    (Accepted layer m repo d (bytes ++ body) s ∧ ∃ response, reply.1 = .ok response) ∨
    (¬Accepted layer m repo d (bytes ++ body) s ∧ (∃ err, reply.1 = .error err) ∧
      session layer repo id reply.2 = some (bytes ++ body)) := by
  intro reply
  have hreply : reply = _ := run_uploadFinish hrepo huuid htext body s
  rw [hreply]
  rcases finish_outcome h hsession m d body with ⟨haccepted, hrun⟩ | ⟨hrefused, ⟨err, hrun⟩, hkept⟩
  · refine .inl ⟨haccepted, stored repo d, ?_⟩
    simp only [hrun]
    rfl
  · refine .inr ⟨hrefused, ⟨unknownUpload err, ?_⟩, hkept⟩
    simp only [hrun]
    rfl

theorem retryable_iff (h : Sound s.store) (hsession : session layer repo id s = some bytes)
    (hrepo : validateRepoName repo = .ok ()) (huuid : parseUuid uuid = .ok id)
    (htext : Digest.fromStr text = .ok d) :
    Retryable layer repo uuid id bytes body m text s ↔
      body = [] ∨ Accepted layer m repo d (bytes ++ body) s := by
  have houtcome := finishReply_outcome layer body (m := m) h hsession hrepo huuid htext
  constructor
  · intro hretry
    by_contra hnot
    obtain ⟨hbody, hrefused⟩ := not_or.mp hnot
    rcases houtcome with ⟨haccepted, -⟩ | ⟨-, herror, hkept⟩
    · exact hrefused haccepted
    · have hsame : some (bytes ++ body) = some bytes := hkept.symm.trans (hretry herror).1
      exact hbody (List.append_right_eq_self.mp (Option.some.inj hsame))
  · intro hcond herror
    rcases houtcome with ⟨-, response, hok⟩ | ⟨hrefused, -, hkept⟩
    · obtain ⟨err, herr⟩ := herror
      rw [hok] at herr
      cases herr
    · obtain rfl : body = [] := hcond.resolve_right hrefused
      rw [List.append_nil] at hkept
      refine ⟨hkept, fun later s' h' hsession' text' d' htext' => ?_⟩
      rw [hkept] at hsession'
      rcases finishReply_outcome layer [] (m := later) h' hsession' hrepo huuid htext' with
        ⟨haccepted, hok⟩ | ⟨hrefused', ⟨err, herr⟩, -⟩
      · exact ⟨fun _ => haccepted, fun _ => hok⟩
      · refine ⟨fun ⟨response, hok⟩ => ?_, fun haccepted => absurd haccepted hrefused'⟩
        rw [herr] at hok
        cases hok

end Retry

section Example

attribute [local instance] Sample.sha2

attribute [local instance] anyUuid

def straight : Layer := .fs 0

-- A session that has received nothing yet.
def opened : QuotaState Trees := (straight.storage atOnce (.uploadCreate "data/x" "u") nothingYet).2

theorem opened_collects : Collects (straight.home "data/x") "u" [] nothingYet opened :=
  (storage_create straight atOnce "data/x" "u" fun _ => sound_new).2

-- The text of the digest that `{}` has.
def bracesDigest : String := (sha256Digest Sample.braces).toString

theorem retryable_opened :
    Retryable straight "data/x" "u" "u" [] Sample.x atOnce bracesDigest opened ↔
      Sample.x = [] ∨
        Accepted straight atOnce "data/x" (sha256Digest Sample.braces) ([] ++ Sample.x) opened :=
  retryable_iff straight Sample.x opened_collects.sound opened_collects.session (by decide) rfl
    (fromStr_toString _)

theorem body_sent_twice :
    ¬Retryable straight "data/x" "u" "u" [] Sample.x atOnce bracesDigest opened := by
  intro hretry
  rcases finishReply_outcome straight Sample.x opened_collects.sound opened_collects.session
    (m := atOnce) (by decide) rfl (fromStr_toString (sha256Digest Sample.braces)) with
    ⟨haccepted, -⟩ | ⟨-, herror, hkept⟩
  · exact absurd haccepted.1 (by decide)
  · have hsame := hkept.symm.trans (hretry herror).1
    exact absurd (Option.some.inj hsame) (by decide)

end Example

end RspaceRegistry.Stores
