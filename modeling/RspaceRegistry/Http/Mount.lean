import RspaceRegistry.Disk.Blobs
import RspaceRegistry.Http.Touched

namespace RspaceRegistry.Http

open Calls Cuts Disk Files

-- What the calls of a request touch, and what was authorized for it.

section Passing

variable [Base64] (cfg : K8sAuthConfig)

-- The API server allows the caller the verb in the namespace of the repository.
def Granted (reviewer : Reviewer) (r : Request) (verb repo : Text) : Prop :=
  ∃ token verdict ns, extractToken r.authorization = some token ∧
    reviewer.reviewToken token = .ok verdict ∧ repoNamespace cfg repo = some ns ∧
      reviewer.reviewAccess ⟨verdict.username, verdict.uid, verdict.groups, ns, verb,
        cfg.resourceGroup, cfg.resource⟩ = .ok true

def Request.op (r : Request) : Operation := classify r.method r.path

def Request.visit (r : Request) (reviewer : Reviewer) : Visit :=
  ⟨r.now, reviewer, some r.op, r.authorization, r.peer⟩

-- Some reviewer could let the request pass.
def Passable (r : Request) : Prop :=
  (extractToken r.authorization).isSome ∧ (namespaceFor cfg r.op).isSome

variable {cfg} {reviewer : Reviewer} {r : Request}

theorem hashApart_visit [Sha2] (v : Visit) : HashApart ([] ++ [v]) := by
  intro u hu u' hu' token token' htoken htoken' _
  rw [List.mem_singleton.mp hu] at htoken
  rw [List.mem_singleton.mp hu', htoken] at htoken'
  exact Option.some.inj htoken'

theorem keysApart_nil (v : Visit) : KeysApart cfg [] v := by
  intro first u last hbefore
  cases first <;> cases hbefore

theorem passes_of_check (hversion : r.op.action ≠ .version) (hpeer : exempt cfg r.peer = false)
    (h : checkUncached cfg reviewer r.op r.authorization r.peer = .ok ()) :
    ∃ token verdict ns, extractToken r.authorization = some token ∧
      reviewer.reviewToken token = .ok verdict ∧ namespaceFor cfg r.op = some ns ∧
        reviewer.reviewAccess (accessReview cfg r.op verdict ns) = .ok true := by
  rw [checkUncached, if_neg hversion, hpeer, if_neg Bool.false_ne_true] at h
  cases htoken : extractToken r.authorization with
  | none =>
      rw [htoken] at h
      cases h
  | some token =>
      rw [htoken] at h
      simp only at h
      cases hreview : reviewer.reviewToken token with
      | error err =>
          rw [hreview] at h
          cases h
      | ok verdict =>
          rw [hreview] at h
          simp only at h
          split at h
          · cases h
          · cases hns : namespaceFor cfg r.op with
            | none =>
                rw [hns] at h
                cases h
            | some ns =>
                rw [hns] at h
                simp only at h
                cases haccess : reviewer.reviewAccess (accessReview cfg r.op verdict ns) with
                | error err =>
                    rw [haccess] at h
                    cases h
                | ok allowed =>
                    rw [haccess] at h
                    cases allowed with
                    | false => cases h
                    | true => exact ⟨token, verdict, ns, rfl, hreview, rfl, haccess⟩

-- Any token is someone who may do one thing in one namespace.
def onlyReviewer (ns verb : Text) : Reviewer where
  reviewToken _ := .ok ⟨true, [], [], [], none⟩
  reviewAccess review := .ok (decide (review.ns = ns ∧ review.verb = verb))

theorem check_only {ns : Text} (hpeer : exempt cfg r.peer = false)
    (htoken : (extractToken r.authorization).isSome) (hns : namespaceFor cfg r.op = some ns) :
    checkUncached cfg (onlyReviewer ns r.op.action.verb) r.op r.authorization r.peer = .ok () := by
  obtain ⟨token, htoken⟩ := Option.isSome_iff_exists.mp htoken
  rw [checkUncached, hpeer, htoken, hns]
  simp [onlyReviewer, accessReview]

theorem Granted.only {ns verb verb' repo : Text}
    (h : Granted cfg (onlyReviewer ns verb) r verb' repo) :
    repoNamespace cfg repo = some ns ∧ verb' = verb := by
  obtain ⟨token, verdict, ns', -, -, hns, haccess⟩ := h
  obtain ⟨rfl, rfl⟩ := of_decide_eq_true (Except.ok.inj haccess)
  exact ⟨hns, rfl⟩

end Passing

section Covered

variable [Sha2] [SerdeJson] [UuidCrate] [Base64] (cfg : K8sAuthConfig) {σ : Type}
variable (storage : Handler StorageOp StorageOp.Ans σ) (s : σ)

def storageCalls (r : Request) (call : Call) : List StorageOp :=
  (program r call).elim [] fun prog => prog.calls storage s

-- Every call stays within what the caller may do with the verb of the request, and
-- what an upload starts from the caller may also pull.
def Authorized (reviewer : Reviewer) (r : Request) (call : Call) : Prop :=
  (∀ op ∈ storageCalls storage s r call, ∀ repo ∈ op.repo,
    Granted cfg reviewer r r.op.action.verb repo.toList) ∧
  ∀ repo, call = .uploadStart repo → ∀ source d,
    .blobRead source d ∈ storageCalls storage s r call →
      Granted cfg reviewer r "get".toList source.toList

-- That holds of a request that passes the check, whoever reviews it, after any
-- requests that the keys of the caches tell apart.
def Covered (r : Request) (call : Call) : Prop :=
  ∀ (reviewer : Reviewer) (before : List Visit), (∀ u ∈ before, u.reviewer = reviewer) →
    HashApart (before ++ [r.visit reviewer]) → KeysApart cfg before (r.visit reviewer) →
      (check cfg reviewer r.now r.op r.authorization r.peer (cachesAfter cfg before)).1 = .ok () →
        Authorized cfg storage s reviewer r call

-- The handler does not refuse the request before its first call.
def Accepted (r : Request) (call : Call) : Prop := ∃ prog ∈ program r call, prog.isCall = true

variable {cfg storage s} {r : Request} {call : Call}

theorem covered_iff_uncached : Covered cfg storage s r call ↔ ∀ reviewer,
    checkUncached cfg reviewer r.op r.authorization r.peer = .ok () →
      Authorized cfg storage s reviewer r call := by
  constructor
  · intro h reviewer hcheck
    have hhash := hashApart_visit (r.visit reviewer)
    have hkeys : KeysApart cfg [] (r.visit reviewer) := keysApart_nil _
    refine h reviewer [] (by simp) hhash hkeys ?_
    exact ((cached_check_sound rfl hhash hkeys).2 (by simp)).trans hcheck
  · intro h reviewer before hsame hhash hkeys hcheck
    have hop : (r.visit reviewer).op = some r.op := rfl
    have huncached := (cached_check_sound hop hhash hkeys).2 hsame
    exact h reviewer (huncached.symm.trans hcheck)

omit [Base64] in
-- The calls of a request for a repository name that repository, but for the mount
-- from another one.
theorem repo_of_storageCalls {repo : Text} {op : StorageOp} (hrepo : call.repo = some repo)
    (hsource : call = .uploadStart repo → ∀ source d, ¬ReadsSource storage s (String.ofList repo)
      (r.query.get "mount") (r.query.get "from") source d)
    (hop : op ∈ storageCalls storage s r call) : Own (String.ofList repo) op ∧
      (call = .uploadStart repo → Fills (String.ofList repo) op) := by
  rw [storageCalls] at hop
  cases hprog : program r call with
  | none =>
      rw [hprog] at hop
      cases hop
  | some prog =>
      rw [hprog] at hop
      by_cases hstart : call = .uploadStart repo
      · have hfills : Fills (String.ofList repo) op := by
          subst hstart
          cases hprog
          exact (mem_calls_uploadStart storage s hop).elim
            (fun h => fills_of_mountFrom storage s h (hsource rfl)) id
        refine ⟨?_, fun _ => hfills⟩
        cases op <;> cases hfills <;> exact .inl rfl
      · exact ⟨Prog.Uses.calls (program_uses hprog hrepo hstart) hop, fun h => absurd h hstart⟩

omit [Base64] in
theorem accepted_of_mem {op : StorageOp} (hop : op ∈ storageCalls storage s r call) :
    Accepted r call := by
  rw [storageCalls] at hop
  cases hprog : program r call with
  | none =>
      rw [hprog] at hop
      cases hop
  | some prog =>
      rw [hprog] at hop
      refine ⟨prog, hprog, ?_⟩
      by_contra hpure
      have hnone : prog.calls storage s = [] := Prog.calls_eq_nil (by simpa using hpure) s
      rw [Option.elim_some, hnone] at hop
      cases hop

omit [Sha2] [SerdeJson] [UuidCrate] [Base64] in
theorem usesStores_of_repo {repo : Text} (hrepo : call.repo = some repo) :
    call.usesStores = true := by
  cases call <;> first | rfl | cases hrepo

-- A request for a repository is covered unless the path is cut before another
-- segment of its name, or it mounts a blob that only another repository has.
theorem covered_iff {state : AppState} {repo : Text} (hpeer : exempt cfg r.peer = false)
    (hcall : dispatch state r.method r.path = .call call) (hrepo : call.repo = some repo) :
    Covered cfg storage s r call ↔ (Accepted r call → Passable cfg r →
      ('/' ∈ repo → CutShort r.path → cfg.defaultNamespace = some (firstSegment '/' repo)) ∧
      (call = .uploadStart repo → ∀ source d, ¬ReadsSource storage s (String.ofList repo)
        (r.query.get "mount") (r.query.get "from") source d)) := by
  rw [covered_iff_uncached]
  constructor
  · rintro h ⟨prog, hprog, hiscall⟩ ⟨htoken, hsome⟩
    obtain ⟨ns, hns⟩ := Option.isSome_iff_exists.mp hsome
    have hvalid := program_validates hprog hrepo hiscall
    have hcalls : storageCalls storage s r call = prog.calls storage s := by
      rw [storageCalls, Option.mem_def.mp hprog]
      rfl
    obtain ⟨hown, hpull⟩ := h _ (check_only hpeer htoken hns)
    constructor
    · rw [← namespaces_agree_iff cfg hcall hrepo hvalid]
      obtain ⟨op, hop, hnames⟩ : ∃ op ∈ prog.calls storage s, Names (String.ofList repo) op :=
        (program_starts hprog hrepo).exists_call hiscall s
      have honly := (hown op (hcalls ▸ hop) _ hnames).only.1
      rw [String.toList_ofList] at honly
      exact hns.trans honly.symm
    · rintro rfl source d hreads
      have hread : .blobRead source d ∈ storageCalls storage s r (.uploadStart repo) := by
        cases hprog
        rw [hcalls]
        exact mem_calls_of_mountFrom storage s _ _ _ hvalid (read_of_mountFrom storage s hreads)
      have hverb := (hpull repo rfl source d hread).only.2
      have haction := (action_of_call hcall).1 rfl
      simp only [List.mem_cons, List.not_mem_nil, or_false] at haction
      rcases haction with haction | haction | haction
      all_goals
        rw [Request.op, haction] at hverb
        exact absurd hverb (by decide)
  · intro h reviewer hcheck
    have hversion : r.op.action ≠ .version := by
      intro hversion
      have hpath := path_of_stores hcall (usesStores_of_repo hrepo)
      exact (classify_version hversion).elim hpath.1 hpath.2.1
    obtain ⟨token, verdict, ns, htoken, hreview, hns, haccess⟩ :=
      passes_of_check hversion hpeer hcheck
    have hpassable : Passable cfg r :=
      ⟨Option.isSome_iff_exists.mpr ⟨token, htoken⟩, Option.isSome_iff_exists.mpr ⟨ns, hns⟩⟩
    have hgranted : ∀ op ∈ storageCalls storage s r call, ∀ name ∈ op.repo,
        Granted cfg reviewer r r.op.action.verb name.toList := by
      intro op hop name hname
      obtain ⟨prog, hprog, hiscall⟩ := accepted_of_mem hop
      obtain ⟨hcut, hsource⟩ := h (accepted_of_mem hop) hpassable
      have hagree := (namespaces_agree_iff cfg hcall hrepo
        (program_validates hprog hrepo hiscall)).mpr hcut
      rcases (repo_of_storageCalls hrepo hsource hop).1 with hsame | rfl
      · obtain rfl := Option.some.inj (hname.symm.trans hsame)
        rw [String.toList_ofList]
        exact ⟨token, verdict, ns, htoken, hreview, hagree.symm.trans hns, haccess⟩
      · cases hname
    refine ⟨hgranted, ?_⟩
    rintro name rfl source d hop
    obtain rfl := Option.some.inj hrepo
    have hsource := (h (accepted_of_mem hop) hpassable).2
    exact ((repo_of_storageCalls hrepo hsource hop).2 rfl).elim

end Covered

section

-- No session of the examples is named by a client.
abbrev noUuid : UuidCrate := ⟨fun _ => none⟩

attribute [local instance] Sample.sha2 Sample.serdeJson bearerOnly noUuid

-- The repositories of `secret` are on a volume of their own.
def twoVolumes : Handler StorageOp StorageOp.Ans (Tree × Tree) := fun op s =>
  if op.repo.any fun repo => "secret/".toList.isPrefixOf repo.toList then
    ((fsStorage op s.2).1, s.1, (fsStorage op s.2).2)
  else ((fsStorage op s.1).1, (fsStorage op s.1).2, s.2)

def secretBlob : Digest := hashContent .sha256 Sample.x

def secretStored : Tree × Tree := (twoVolumes (.blobWrite "secret/app" secretBlob Sample.x) (new, new)).2

-- An upload to `team/web` by one who may do no more than push to `team`.
def pushRequest (query : Query) : Request where
  now := 0
  reviewer := onlyReviewer "team".toList "update".toList
  method := .post
  path := "/v2/team/web/blobs/uploads/".toList
  authorization := some "Bearer x".toList
  peer := none
  query := query
  contentType := none
  body := []
  drawn := "1"

theorem push_dispatched (query : Query) : dispatch fullState (pushRequest query).method
    (pushRequest query).path = .call (.uploadStart "team/web".toList) := by
  have h : dispatch fullState .post "/v2/team/web/blobs/uploads/".toList =
      .call (.uploadStart "team/web".toList) := by decide
  exact h

theorem plain_push_covered : Covered strictConfig twoVolumes secretStored (pushRequest [])
    (.uploadStart "team/web".toList) := by
  refine (covered_iff rfl (push_dispatched []) rfl).mpr ?_
  intro _ _
  refine ⟨fun _ hshort => absurd hshort (by decide), fun _ source d hreads => ?_⟩
  cases hreads.1

def mountRequest : Request :=
  pushRequest [("mount", secretBlob.toString), ("from", "secret/app")]

-- The blob of the other namespace is copied.
theorem mount_copies : storageCalls twoVolumes secretStored mountRequest
    (.uploadStart "team/web".toList) =
      [.blobExists "team/web" secretBlob, .blobRead "secret/app" secretBlob,
        .blobWrite "team/web" secretBlob Sample.x] := by decide +kernel

-- One who may only push to `team` gets what is in `secret`.
theorem mount_uncovered : ¬∀ (s : Tree × Tree) (r : Request) (call : Call),
    dispatch fullState r.method r.path = .call call → exempt strictConfig r.peer = false →
      Covered strictConfig twoVolumes s r call := by
  intro h
  have hns : namespaceFor strictConfig mountRequest.op = some "team".toList := by decide +kernel
  have hcheck := @check_only _ strictConfig mountRequest _ rfl (by decide +kernel) hns
  have hcovered := h secretStored mountRequest _ (push_dispatched _) rfl
  have hauth := covered_iff_uncached.mp hcovered _ hcheck
  have hread : .blobRead "secret/app" secretBlob ∈
      storageCalls twoVolumes secretStored mountRequest (.uploadStart "team/web".toList) := by
    rw [mount_copies]
    exact List.mem_cons_of_mem _ List.mem_cons_self
  have hverb := (hauth.2 _ rfl _ _ hread).only.2
  exact absurd hverb (by decide)

end

end RspaceRegistry.Http
