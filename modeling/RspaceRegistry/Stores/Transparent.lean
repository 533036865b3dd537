import RspaceRegistry.Stores.Events

namespace RspaceRegistry.Stores

open Calls Disk Http

-- Quotas refuse writes, and do nothing else.

-- A call with its answer.
abbrev Exchange : Type := Sigma StorageOp.Ans

def refused : Exchange → Bool
  | ⟨.blobWrite _ _ _, .error (.quotaExceeded _)⟩ => true
  | ⟨.uploadFinalize _ _ _, .error (.quotaExceeded _)⟩ => true
  | _ => false

theorem not_refused {answer : Except StorageError Unit}
    (h : ∀ message, answer ≠ .error (.quotaExceeded message)) (repo id : String) (d : Digest)
    (content : Bytes) : refused ⟨.blobWrite repo d content, answer⟩ = false ∧
      refused ⟨.uploadFinalize repo id d, answer⟩ = false := by
  cases answer with
  | ok _ => exact ⟨rfl, rfl⟩
  | error err =>
      cases err with
      | quotaExceeded message => exact absurd rfl (h message)
      | _ => exact ⟨rfl, rfl⟩

section Transparent

variable [Sha2]

-- Calls one after the other, each at its moment.
def Registry.exchanges (registry : Registry) :
    List (Moment × StorageOp) → QuotaState Trees → List (Moment × Exchange) × QuotaState Trees
  | [], s => ([], s)
  | (m, op) :: rest, s =>
      let (answer, mid) := registry.storage m op s
      let (later, last) := registry.exchanges rest mid
      ((m, ⟨op, answer⟩) :: later, last)

variable (router : RepoRouter) (quotas : List Quota) (ttl : Nat) (m : Moment)
  {s s' : QuotaState Trees}

-- A write that is let through is answered as without quotas.
theorem written_or_refused {answer : Except StorageError Unit} {mid : QuotaState Trees}
    {b : Backend} {repo : String} {d : Digest} {incoming : Nat} {write : Method Trees Unit}
    (h : Sound s.store) (hrun : (answer, mid) =
      (Layer.quota router quotas ttl).guarded m repo d incoming write s)
    (hwrites : Writes b d incoming s.store (write s.store)) :
    (∃ message, answer = .error (.quotaExceeded message)) ∧ mid.store = s.store ∧
        (matchingQuota quotas repo).isSome ∨
      (∀ message, answer ≠ .error (.quotaExceeded message)) ∧
        (write s.store).1 = answer ∧ (write s.store).2 = mid.store := by
  rcases Layer.guarded_cases (.quota router quotas ttl) m h repo d incoming with
    ⟨-, hanswer, hstore⟩ | ⟨hroom, ⟨message, hanswer⟩, hstore⟩
  · rw [← hrun] at hanswer hstore
    right
    refine ⟨fun message heq => ?_, hanswer.symm, hstore.symm⟩
    rcases hwrites with ⟨err, herr, hne, -⟩ | ⟨content, hok, -⟩
    · exact hne message (Except.error.inj (herr.symm.trans (hanswer.symm.trans heq)))
    · cases hok.symm.trans (hanswer.symm.trans heq)
  · rw [← hrun] at hanswer hstore
    refine .inl ⟨⟨message, hanswer⟩, hstore, ?_⟩
    cases hquota : matchingQuota quotas repo with
    | some quota => rfl
    | none =>
        refine absurd (.inr fun quota hsome => ?_) hroom
        rw [hquota] at hsome
        cases hsome

-- One call with quotas in front, and the same call without.
theorem exchange_cases (h : Sound s.store) (hsame : s'.store = s.store) (op : StorageOp) :
    let result := (Registry.quota router quotas ttl).storage m op s
    (refused ⟨op, result.1⟩ = true ∧ result.2.store = s.store ∧
        ∃ repo, op.repo = some repo ∧ (matchingQuota quotas repo).isSome) ∨
      refused ⟨op, result.1⟩ = false ∧
        ((Registry.routed router).storage m op s').1 = result.1 ∧
          ((Registry.routed router).storage m op s').2.store = result.2.store := by
  intro result
  obtain ⟨usage, store⟩ := s'
  obtain rfl : store = s.store := hsame
  cases op with
  | blobWrite repo d content =>
      have hrun : (result.1, result.2) = _ :=
        Layer.storage_blobWrite (.quota router quotas ttl) m h repo d content
      rcases written_or_refused router quotas ttl m h hrun
        (writes_blobWrite m.apart h (router.resolve repo) repo d content) with
        ⟨⟨message, hanswer⟩, hstore, hquota⟩ | ⟨hanswer, hwrite⟩
      · refine .inl ⟨?_, hstore, repo, rfl, hquota⟩
        rw [hanswer]
        rfl
      · exact .inr ⟨(not_refused hanswer repo "" d content).1, hwrite⟩
  | uploadFinalize repo id d =>
      have hrun : (result.1, result.2) = _ :=
        Layer.storage_uploadFinalize (.quota router quotas ttl) m h repo id d
      rcases written_or_refused router quotas ttl m h hrun
        (writes_uploadFinalize m.apart h (router.resolve repo) repo id d) with
        ⟨⟨message, hanswer⟩, hstore, hquota⟩ | ⟨hanswer, hwrite⟩
      · refine .inl ⟨?_, hstore, repo, rfl, hquota⟩
        rw [hanswer]
        rfl
      · exact .inr ⟨(not_refused hanswer repo id d []).2, hwrite⟩
  | _ => exact .inr ⟨rfl, rfl, rfl⟩

-- What the call was, without its answer.
def asked (call : Moment × Exchange) : Moment × StorageOp := (call.1, call.2.1)

-- A run with quotas in front is the run without, of the calls that were not refused:
-- these are answered alike and leave the same files. Only a repository that a quota
-- matches is ever refused something.
theorem quota_transparent (h : Sound s.store) (hsame : s'.store = s.store)
    (calls : List (Moment × StorageOp)) :
    let run := (Registry.quota router quotas ttl).exchanges calls s
    let kept := run.1.filter fun call => !refused call.2
    ((Registry.routed router).exchanges (kept.map asked) s').1 = kept ∧
      ((Registry.routed router).exchanges (kept.map asked) s').2.store = run.2.store ∧
      run.1.map asked = calls ∧ ∀ call ∈ run.1, refused call.2 = true →
        ∃ repo, call.2.1.repo = some repo ∧ (matchingQuota quotas repo).isSome := by
  induction calls generalizing s s' with
  | nil => exact ⟨rfl, hsame, rfl, fun _ hnone => by cases hnone⟩
  | cons first rest ih =>
      obtain ⟨m, op⟩ := first
      have hsound : Sound ((Registry.quota router quotas ttl).storage m op s).2.store :=
        Leads.sound (.call _ m op s) trivial h
      intro run kept
      rcases exchange_cases router quotas ttl m h hsame op with
        ⟨hrefused, hstore, hquota⟩ | ⟨hrefused, hanswer, hstore⟩
      · obtain ⟨hkept, hlast, hcalls, hmatched⟩ := ih hsound (hsame.trans hstore.symm)
        have hno : ¬(!refused ⟨op, ((Registry.quota router quotas ttl).storage m op s).1⟩) =
            true := by
          rw [hrefused]
          decide
        have hskip : kept = (((Registry.quota router quotas ttl).exchanges rest
            ((Registry.quota router quotas ttl).storage m op s).2).1.filter
              fun call => !refused call.2) :=
          List.filter_cons_of_neg hno
        rw [hskip]
        refine ⟨hkept, hlast, congrArg (List.cons (m, op)) hcalls, fun call hcall => ?_⟩
        rcases List.mem_cons.mp hcall with rfl | hrest
        · exact fun _ => hquota
        · exact hmatched call hrest
      · obtain ⟨hkept, hlast, hcalls, hmatched⟩ := ih hsound hstore
        have hyes : (!refused ⟨op, ((Registry.quota router quotas ttl).storage m op s).1⟩) =
            true := by
          rw [hrefused]
          rfl
        have htake : kept = (m, ⟨op, ((Registry.quota router quotas ttl).storage m op s).1⟩) ::
            (((Registry.quota router quotas ttl).exchanges rest
              ((Registry.quota router quotas ttl).storage m op s).2).1.filter
                fun call => !refused call.2) :=
          List.filter_cons_of_pos hyes
        rw [htake]
        refine ⟨?_, hlast, congrArg (List.cons (m, op)) hcalls, fun call hcall => ?_⟩
        · show (m, (⟨op, ((Registry.routed router).storage m op s').1⟩ : Exchange)) :: _ = _
          rw [hanswer]
          exact congrArg _ hkept
        · rcases List.mem_cons.mp hcall with rfl | hrest
          · exact fun hcall => absurd (hcall.symm.trans hrefused) (by decide)
          · exact hmatched call hrest

end Transparent

section

attribute [local instance] Sample.sha2

-- Of two blobs the second is one byte too many.
def twoWrites : List (Moment × StorageOp) :=
  [(atOnce, .blobWrite "a" (hashContent .sha256 Sample.x) Sample.x),
    (atOnce, .blobWrite "a" (hashContent .sha256 Sample.braces) Sample.braces)]

theorem twoWrites_transparent :
    let run := (Registry.quota (.single (.fs 0 0)) [⟨"*", 1⟩] 30).exchanges twoWrites nothingYet
    let kept := run.1.filter fun call => !refused call.2
    ((Registry.routed (.single (.fs 0 0))).exchanges (kept.map asked) nothingYet).1 = kept ∧
      ((Registry.routed (.single (.fs 0 0))).exchanges (kept.map asked) nothingYet).2.store =
        run.2.store ∧
      run.1.map asked = twoWrites ∧ ∀ call ∈ run.1, refused call.2 = true →
        ∃ repo, call.2.1.repo = some repo ∧ (matchingQuota [⟨"*", 1⟩] repo).isSome :=
  quota_transparent (.single (.fs 0 0)) [⟨"*", 1⟩] 30 (s := nothingYet) (fun _ => sound_new) rfl
    twoWrites

end

end RspaceRegistry.Stores
