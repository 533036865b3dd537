import RspaceRegistry.Http.Cached
import RspaceRegistry.Http.Namespaces

namespace RspaceRegistry.Http

open Cuts

-- A request as the middleware sees it, with the API server at its moment.
structure Arrival where
  now : Nat
  reviewer : Reviewer
  method : Method
  path : Text
  authorization : Option Text
  peer : Option IpAddr

section

variable [Sha2] [Base64] (cfg : K8sAuthConfig)

-- The middleware under k8s auth.
def requireAuth (a : Arrival) (caches : Caches) : Except AuthReject Unit × Caches :=
  if a.method = .get ∧ (a.path = "/v2/".toList ∨ a.path = "/v2".toList) then (.ok (), caches)
  else if a.path = "/token".toList then (.ok (), caches)
  else check cfg a.reviewer a.now (classify a.method a.path) a.authorization a.peer caches

-- The token is handed back if it authenticates.
def tokenEndpoint (a : Arrival) (caches : Caches) : Except AuthReject Text × Caches :=
  match extractToken a.authorization with
  | none => (.error (.unauthorized "no credentials presented to token endpoint".toList), caches)
  | some token =>
      match tokenReviewCached cfg a.reviewer a.now token caches with
      | (.error err, caches) => (.error err, caches)
      | (.ok verdict, caches) =>
          (if verdict.authenticated then .ok token
            else .error (.unauthorized (verdict.error.getD "token failed authentication".toList)),
            caches)

-- Of the handlers only the token endpoint uses the caches.
def handOver (a : Arrival) (caches : Caches) (outcome : Outcome) :
    Except AuthReject Outcome × Caches :=
  (.ok outcome, if outcome = .call .tokenEndpoint then (tokenEndpoint cfg a caches).2 else caches)

-- A request up to its handler.
def admission (state : AppState) (a : Arrival) (caches : Caches) : Except AuthReject Outcome × Caches :=
  match requireAuth cfg a caches with
  | (.error reject, caches) => (.error reject, caches)
  | (.ok (), caches) => handOver cfg a caches (dispatch state a.method a.path)

def cachesAt (state : AppState) (arrivals : List Arrival) : Caches :=
  arrivals.foldl (fun caches a => (admission cfg state a caches).2) .empty

-- The use that a request makes of the authenticator.
def Arrival.visit (state : AppState) (a : Arrival) : Option Visit :=
  if a.method = .get ∧ (a.path = "/v2/".toList ∨ a.path = "/v2".toList) then none
  else if a.path = "/token".toList then
    if dispatch state a.method a.path = .call .tokenEndpoint then
      some ⟨a.now, a.reviewer, none, a.authorization, a.peer⟩
    else none
  else some ⟨a.now, a.reviewer, some (classify a.method a.path), a.authorization, a.peer⟩

theorem tokenEndpoint_caches (a : Arrival) (caches : Caches) : (tokenEndpoint cfg a caches).2 =
    (⟨a.now, a.reviewer, none, a.authorization, a.peer⟩ : Visit).serve cfg caches := by
  rw [tokenEndpoint, Visit.serve, Visit.token]
  cases extractToken a.authorization with
  | none => rfl
  | some token =>
      simp only
      rcases tokenReviewCached cfg a.reviewer a.now token caches with ⟨result, caches'⟩
      cases result <;> rfl

theorem admission_caches (state : AppState) (a : Arrival) (caches : Caches) :
    (admission cfg state a caches).2 = ((a.visit state).map fun v => v.serve cfg caches).getD caches := by
  have hother : a.path ≠ "/token".toList → dispatch state a.method a.path ≠ .call .tokenEndpoint :=
    fun hpath h => hpath (dispatch_tokenEndpoint h)
  rw [admission, requireAuth, Arrival.visit]
  by_cases hroot : a.method = .get ∧ (a.path = "/v2/".toList ∨ a.path = "/v2".toList)
  · have htoken : a.path ≠ "/token".toList := by
      rcases hroot with ⟨-, hpath | hpath⟩ <;> rw [hpath] <;> decide
    simp only [if_pos hroot, handOver, if_neg (hother htoken), Option.map_none, Option.getD_none]
  · rw [if_neg hroot, if_neg hroot]
    by_cases htoken : a.path = "/token".toList
    · simp only [if_pos htoken, handOver]
      split
      · rw [tokenEndpoint_caches]
        rfl
      · rfl
    · rw [if_neg htoken, if_neg htoken, Option.map_some, Option.getD_some, Visit.serve]
      simp only
      rcases check cfg a.reviewer a.now (classify a.method a.path) a.authorization a.peer caches with
        ⟨result, caches'⟩
      cases result with
      | error reject => rfl
      | ok _ => simp only [handOver, if_neg (hother htoken)]

-- The caches are those of the uses that the requests make.
theorem cachesAt_eq (state : AppState) (arrivals : List Arrival) :
    cachesAt cfg state arrivals = cachesAfter cfg (arrivals.filterMap (Arrival.visit state)) := by
  induction arrivals using List.reverseRecOn with
  | nil => rfl
  | append_singleton before a ih =>
      have hlast : cachesAt cfg state (before ++ [a]) =
          (admission cfg state a (cachesAt cfg state before)).2 := by
        rw [cachesAt, List.foldl_append]
        rfl
      rw [hlast, admission_caches, ih, List.filterMap_append]
      cases hvisit : a.visit state with
      | none => simp [hvisit]
      | some v => simp [hvisit, cachesAfter_snoc]

end

-- The handlers that call no storage, router, partitions, quota or jobs.
def Call.usesStores : Call → Bool
  | .tokenEndpoint | .versionCheck => false
  | _ => true

-- The handlers that can change what is stored or where.
def Call.changes : Call → Bool
  | .gcRun | .replicateRun | .repoRootUpsert | .repoMigrate | .uploadStart _ | .uploadChunk _ _
  | .uploadFinish _ _ | .uploadCancel _ _ | .manifestPut _ _ | .manifestDelete _ _
  | .blobDelete _ _ => true
  | _ => false

def Call.deletes : Call → Bool
  | .manifestDelete _ _ | .blobDelete _ _ => true
  | _ => false

theorem Call.isAdmin_of_deletes {call : Call} (h : call.deletes = true) : call.isAdmin = false := by
  cases call <;> first | rfl | cases h

section

variable {state : AppState} {method : Method} {path : Text} {call : Call}

theorem classify_version (h : (classify method path).action = .version) :
    path = "/v2".toList ∨ path = "/v2/".toList := by
  rw [classify] at h
  split at h
  · assumption
  · exfalso
    split at h
    · cases h
    · split at h
      · cases h
      · simp only at h
        split at h
        · cases h
        · cases method <;> cases h

-- A handler that uses the stores is not at one of the open paths.
theorem path_of_stores (h : dispatch state method path = .call call)
    (hstores : call.usesStores = true) :
    path ≠ "/v2".toList ∧ path ≠ "/v2/".toList ∧ path ≠ "/token".toList := by
  rcases dispatch_eq_call h with ⟨rfl, -⟩ | ⟨rfl, -⟩ | ⟨-, hpath⟩ | ⟨-, -, rfl⟩ |
    ⟨rest, e, rfl, hne, -, -, -⟩
  · cases hstores
  · cases hstores
  · refine ⟨?_, ?_, ?_⟩ <;>
    · rintro rfl
      exact absurd hpath (by decide)
  · decide
  · refine ⟨fun heq => ?_, fun heq => ?_, fun heq => ?_⟩
    · exact absurd (congrArg List.length heq) (by simp)
    · exact hne (List.append_cancel_left (heq.trans (List.append_nil _).symm))
    · exact absurd (List.cons.inj (List.cons.inj heq).2).1 (by decide)

theorem classify_admin (h : "/admin/".toList <+: path) : (classify method path).action = .admin := by
  have hversion : ¬(path = "/v2".toList ∨ path = "/v2/".toList) := by
    rintro (rfl | rfl)
    · exact absurd h (by decide)
    · exact absurd h (by decide)
  rw [classify, if_neg hversion, if_pos h]

-- Below a repository the action is that of the method, except for a list of tags.
theorem classify_endpoint {rest : Text} {e : Endpoint} (hne : rest ≠ [])
    (hcatalog : rest ≠ "_catalog".toList) (hend : endpoint rest = some e) :
    (∃ repo, e = .tags repo) ∨
      (classify method ("/v2/".toList ++ rest)).action = method.action := by
  rw [classify_below hne hcatalog]
  rcases endpoint_eq_some hend with ⟨-, htags⟩ | ⟨hnotags, -⟩
  · exact .inl ⟨_, htags⟩
  · right
    cases hsuffix : rest.dropSuffix? "/tags/list".toList with
    | none => rfl
    | some front =>
        exfalso
        rw [stripSuffix, hsuffix, Option.bind_some, nonEmpty] at hnotags
        split at hnotags
        · rename_i hnil
          have hnone : endpoint "/tags/list".toList = none := by decide
          rw [dropSuffix_eq_some.mp hsuffix, hnil, List.nil_append, hnone] at hend
          cases hend
        · cases hnotags

-- What the action of a request is when a handler is reached that changes
-- something, deletes something, or is an admin one.
theorem action_of_call (h : dispatch state method path = .call call) :
    (call.changes = true → (classify method path).action ∈ [Action.push, .delete, .admin]) ∧
    (call.deletes = true → (classify method path).action = .delete) ∧
    (call.isAdmin = true → (classify method path).action = .admin) := by
  rcases dispatch_eq_call h with ⟨rfl, -⟩ | ⟨rfl, -⟩ | ⟨hadmin, hpath⟩ | ⟨rfl, -⟩ |
    ⟨rest, e, rfl, hne, hcatalog, hend, hhandler⟩
  · exact ⟨nofun, nofun, nofun⟩
  · exact ⟨nofun, nofun, nofun⟩
  · rw [classify_admin hpath]
    refine ⟨fun _ => by decide, fun hdeletes => ?_, fun _ => rfl⟩
    rw [Call.isAdmin_of_deletes hdeletes] at hadmin
    cases hadmin
  · exact ⟨nofun, nofun, nofun⟩
  · rcases classify_endpoint hne hcatalog hend with ⟨repo, rfl⟩ | haction
    · cases method <;> cases hhandler <;> exact ⟨nofun, nofun, nofun⟩
    · rw [haction]
      cases e <;> cases method <;> cases hhandler <;>
        simp [Call.changes, Call.deletes, Call.isAdmin, Method.action]

end

-- No handler that uses the stores is reached without a token that the API server
-- authenticated, within the time to live; and the action that was authorized is
-- that of the handler.
theorem no_backdoor [Sha2] [Base64] (cfg : K8sAuthConfig) (state : AppState) (before : List Arrival)
    (a : Arrival) (hexempt : exempt cfg a.peer = false)
    (hhash : HashApart ((before ++ [a]).filterMap (Arrival.visit state))) :
    (∀ call, (admission cfg state a (cachesAt cfg state before)).1 = .ok (.call call) →
      call.usesStores = true → ∃ v verdict, a.visit state = some v ∧
        Identified cfg (before.filterMap (Arrival.visit state)) v verdict ∧
          verdict.authenticated = true) ∧
    ∀ call, dispatch state a.method a.path = .call call →
      (call.changes = true → (classify a.method a.path).action ∈ [Action.push, .delete, .admin]) ∧
      (call.deletes = true → (classify a.method a.path).action = .delete) ∧
      (call.isAdmin = true → (classify a.method a.path).action = .admin) := by
  refine ⟨?_, fun call hcall => action_of_call hcall⟩
  intro call hadmit hstores
  have hwhere : ¬(a.method = .get ∧ (a.path = "/v2/".toList ∨ a.path = "/v2".toList)) ∧
      a.path ≠ "/token".toList ∧ (classify a.method a.path).action ≠ .version := by
    have hcall : dispatch state a.method a.path = .call call := by
      rw [admission] at hadmit
      split at hadmit
      · cases hadmit
      · exact Except.ok.inj hadmit
    obtain ⟨hv2, hslash, htoken⟩ := path_of_stores hcall hstores
    refine ⟨?_, htoken, fun hversion => (classify_version hversion).elim hv2 hslash⟩
    rintro ⟨-, hpath | hpath⟩
    · exact hslash hpath
    · exact hv2 hpath
  obtain ⟨hroot, htoken, hversion⟩ := hwhere
  have hvisit : a.visit state = some ⟨a.now, a.reviewer, some (classify a.method a.path),
      a.authorization, a.peer⟩ := by
    rw [Arrival.visit, if_neg hroot, if_neg htoken]
  rw [List.filterMap_append, List.filterMap_cons_some hvisit] at hhash
  have hsourced : Sourced cfg _ (cachesAfter cfg _) := cachesAfter_sourced hhash.init
  have hpassed : (check cfg a.reviewer a.now (classify a.method a.path) a.authorization a.peer
      (cachesAt cfg state before)).1 = .ok () := by
    rw [admission, requireAuth, if_neg hroot, if_neg htoken] at hadmit
    rcases hcheck : check cfg a.reviewer a.now (classify a.method a.path) a.authorization a.peer
      (cachesAt cfg state before) with ⟨result, caches⟩
    rw [hcheck] at hadmit
    cases result with
    | error reject => cases hadmit
    | ok _ => rfl
  rw [cachesAt_eq] at hpassed
  rcases (check_cases rfl hhash hsourced).2 hpassed with hprobe | hloopback | ⟨verdict, ns, hidentity,
    hauth, -⟩
  · exact absurd hprobe hversion
  · rw [hexempt] at hloopback
    cases hloopback
  · exact ⟨_, verdict, hvisit, hidentity, hauth⟩

section

attribute [local instance] Sample.sha2 bearerOnly

def pushAt (now : Nat) : Arrival :=
  ⟨now, groupReviewer, .put, "/v2/team/web/manifests/v1".toList, some "Bearer x".toList, none⟩

-- The same push twice.
theorem second_push_identified : ∃ v verdict, (pushAt 1).visit fullState = some v ∧
    Identified sampleConfig ([pushAt 0].filterMap (Arrival.visit fullState)) v verdict ∧
      verdict.authenticated = true := by
  have hhash : HashApart (([pushAt 0] ++ [pushAt 1]).filterMap (Arrival.visit fullState)) := by
    have hvisits : ([pushAt 0] ++ [pushAt 1]).filterMap (Arrival.visit fullState) =
        [⟨0, groupReviewer, some ⟨.push, some "team/web".toList⟩, some "Bearer x".toList, none⟩,
          ⟨1, groupReviewer, some ⟨.push, some "team/web".toList⟩, some "Bearer x".toList, none⟩] := rfl
    rw [hvisits]
    exact hashApart_of_keys (by decide)
  exact (no_backdoor sampleConfig fullState [pushAt 0] (pushAt 1) rfl hhash).1
    (.manifestPut "team/web".toList "v1".toList) (by decide +kernel) rfl

end

end RspaceRegistry.Http
