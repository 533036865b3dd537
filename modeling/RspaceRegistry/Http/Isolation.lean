import RspaceRegistry.Disk.Apart
import RspaceRegistry.Http.Mount
import RspaceRegistry.Http.Serve

namespace RspaceRegistry.Http

open Calls Cuts Disk Files

-- What one who may only pull from one namespace sees of the others.

-- The handlers that read from a repository.
def Call.reads : Call → Bool
  | .uploadStatus _ _ | .manifestGet _ _ _ | .blobGet _ _ _ | .referrers _ _ => true
  | _ => false

section Reached

variable {state : AppState} {method : Method} {path : Text} {call : Call}

-- With the verb `get` only these are reached.
theorem reads_of_get (hcall : dispatch state method path = .call call)
    (hstores : call.usesStores = true)
    (hverb : (classify method path).action.verb = "get".toList) : call.reads = true := by
  have hlist : (classify method path).action ≠ .list := by
    intro haction
    rw [haction] at hverb
    exact absurd hverb (by decide)
  rcases dispatch_eq_call hcall with ⟨rfl, -⟩ | ⟨rfl, -⟩ | ⟨-, hpath⟩ | ⟨rfl, -, rfl⟩ |
    ⟨rest, e, rfl, hne, hcatalog, hend, hhandler⟩
  · cases hstores
  · cases hstores
  · rw [classify_admin hpath] at hverb
    exact absurd hverb (by decide)
  · refine absurd ?_ hlist
    rw [classify, if_neg (by decide), if_neg (by decide), if_pos rfl]
  · have htags : ∀ repo, e ≠ .tags repo := by
      rintro repo rfl
      rcases endpoint_eq_some hend with ⟨hrest, -⟩ | ⟨hnone, -⟩
      · have hsuffix : rest.dropSuffix? "/tags/list".toList = some repo :=
          dropSuffix_eq_some.mpr hrest
        rw [classify_below hne hcatalog, hsuffix] at hlist
        exact hlist rfl
      · simp only [endpoint, hnone, Option.map_none, Option.orElse_eq_some, Option.map_eq_some_iff,
          reduceCtorEq, and_false, exists_false, or_false] at hend
    have haction : (classify method ("/v2/".toList ++ rest)).action = method.action :=
      by
        refine (classify_endpoint hne hcatalog hend).resolve_left ?_
        rintro ⟨repo, he⟩
        exact htags repo he
    rw [haction] at hverb
    cases e <;> cases method <;> cases hhandler <;> first
      | rfl
      | exact absurd hverb (by decide)
      | exact absurd rfl (htags _)

theorem inside_of_namespaceFor {cfg : K8sAuthConfig} {repo ns : Text}
    (hcall : dispatch state method path = .call call) (hrepo : call.repo = some repo)
    (hvalid : validateRepoName (String.ofList repo) = .ok ()) (hdefault : cfg.defaultNamespace = none)
    (hns : namespaceFor cfg (classify method path) = some ns) :
    Inside (String.ofList ns) (String.ofList repo) := by
  rw [namespaceFor_call cfg hcall hrepo hvalid, hdefault] at hns
  split at hns
  · rw [Inside, components, List.head?_map, String.toList_ofList, head_splitOn, Option.map_some,
      Option.some.inj hns]
  · cases hns

end Reached

section Answers

variable [UuidCrate]

-- The blob or the session that a handler looks at is the same in both trees; of a
-- session only the length is told.
def SharedFile (tree tree' : Tree) : Call → Prop
  | .blobGet _ digest _ => ∀ d, parseDigest (String.ofList digest) = .ok d →
      tree'.fileAt (blobPath d) = tree.fileAt (blobPath d)
  | .uploadStatus _ uuid => ∀ id, parseUuid (String.ofList uuid) = .ok id →
      (tree'.fileAt (uploadPath id)).map List.length = (tree.fileAt (uploadPath id)).map List.length
  | _ => True

variable [Sha2] [SerdeJson] {ns : String} {tree tree' : Tree}

theorem handle_alike (admin : Request → Call → Tree → Response × Tree) {r : Request} {call : Call}
    (h : DifferOutside ns tree tree') (hreads : call.reads = true)
    (hinside : ∀ repo, call.repo = some repo → validateRepoName (String.ofList repo) = .ok () →
      Inside ns (String.ofList repo))
    (hshared : SharedFile tree tree' call) :
    ∃ response, handle admin fsStorage r call tree = (response, tree) ∧
      handle admin fsStorage r call tree' = (response, tree') := by
  have halike : ∀ prog, program r call = some prog → prog.Uses (Alike tree tree') →
      ∃ response, handle admin fsStorage r call tree = (response, tree) ∧
        handle admin fsStorage r call tree' = (response, tree') := by
    intro prog hprog huses
    obtain ⟨result, hleft, hright⟩ := Prog.run_alike huses
    have hrun : prog.run fsStorage tree = (result, tree) := hleft
    have hrun' : prog.run fsStorage tree' = (result, tree') := hright
    exact ⟨intoResponse result, by simp only [handle, hprog, hrun], by simp only [handle, hprog, hrun']⟩
  cases call with
  | manifestGet repo reference headOnly =>
      exact halike _ rfl (uses_manifestGet _ _ fun hvalid => alike_manifestGet h (hinside _ rfl hvalid) _)
  | blobGet repo digest headOnly =>
      exact halike _ rfl (uses_blobGet _ _ fun _ d hd => alike_blobRead h (hshared d hd))
  | uploadStatus repo uuid =>
      exact halike _ rfl (uses_uploadStatus _ fun _ id hid => alike_uploadStatus h (hshared id hid))
  | referrers repo digest =>
      exact halike _ rfl (uses_referrers _ _ _ fun hvalid =>
        ⟨alike_listManifestDigests h (hinside _ rfl hvalid),
          fun d => alike_manifestGet h (hinside _ rfl hvalid) (.digest d)⟩)
  | _ => cases hreads

end Answers

section Runs

variable [Sha2] [SerdeJson] [UuidCrate] [Base64]

-- A request of one whom the reviewer allows nothing but pulling from the namespace.
structure Restricted (cfg : K8sAuthConfig) (ns : Text) (reviewer : Reviewer) (r : Request) : Prop where
  asked : r.reviewer = reviewer
  peer : exempt cfg r.peer = false
  only : ∀ token verdict ns' verb, extractToken r.authorization = some token →
    reviewer.reviewToken token = .ok verdict →
      reviewer.reviewAccess ⟨verdict.username, verdict.uid, verdict.groups, ns', verb,
        cfg.resourceGroup, cfg.resource⟩ = .ok true → ns' = ns ∧ verb = "get".toList

-- A request that would read a blob or a session finds the same one in both trees, if
-- it passes.
def Shared (cfg : K8sAuthConfig) (state : AppState) (tree tree' : Tree) (r : Request) : Prop :=
  ∀ call, dispatch state r.method r.path = .call call →
    checkUncached cfg r.reviewer r.op r.authorization r.peer = .ok () → SharedFile tree tree' call

variable {cfg : K8sAuthConfig} {state : AppState} {ns : Text} {reviewer : Reviewer}
variable {tree tree' : Tree} (admin : Request → Call → Tree → Response × Tree)

theorem serve_stores {storage : Handler StorageOp StorageOp.Ans Tree} {r : Request} {call : Call}
    {caches caches' : Caches} (hauth : requireAuth cfg r.toArrival caches = (.ok (), caches'))
    (hcall : dispatch state r.method r.path = .call call) (hstores : call.usesStores = true)
    (tree : Tree) : serve cfg state admin storage r caches tree =
      (.ok (handle admin storage r call tree).1, caches', (handle admin storage r call tree).2) := by
  rw [serve, hauth]
  simp only [hcall]
  cases call <;> first | rfl | cases hstores

omit [SerdeJson] [UuidCrate] in
theorem check_of_requireAuth {r : Request} {call : Call} {caches caches' : Caches}
    (hauth : requireAuth cfg r.toArrival caches = (.ok (), caches'))
    (hcall : dispatch state r.method r.path = .call call) (hstores : call.usesStores = true) :
    (check cfg r.reviewer r.now r.op r.authorization r.peer caches).1 = .ok () := by
  obtain ⟨hroot, hslash, htoken⟩ := path_of_stores hcall hstores
  rw [requireAuth, if_neg fun h => h.2.elim hslash hroot, if_neg htoken] at hauth
  exact congrArg Prod.fst hauth

theorem serve_alike {before : List Visit} {r : Request} (hdefault : cfg.defaultNamespace = none)
    (hcaller : Restricted cfg ns reviewer r) (hbefore : ∀ u ∈ before, u.reviewer = reviewer)
    (hhash : HashApart (before ++ [r.visit reviewer]))
    (hkeys : KeysApart cfg before (r.visit reviewer))
    (h : DifferOutside (String.ofList ns) tree tree') (hshared : Shared cfg state tree tree' r) :
    ∃ reply caches,
      serve cfg state admin fsStorage r (cachesAfter cfg before) tree = (reply, caches, tree) ∧
        serve cfg state admin fsStorage r (cachesAfter cfg before) tree' = (reply, caches, tree') := by
  rcases hauth : requireAuth cfg r.toArrival (cachesAfter cfg before) with ⟨result, caches⟩
  cases result with
  | error reject => exact ⟨.error reject, caches, by simp only [serve, hauth], by simp only [serve, hauth]⟩
  | ok _ =>
      cases hcall : dispatch state r.method r.path with
      | notFound =>
          exact ⟨.ok notFound, caches, by simp only [serve, hauth, hcall],
            by simp only [serve, hauth, hcall]⟩
      | methodNotAllowed =>
          exact ⟨.ok methodNotAllowed, caches, by simp only [serve, hauth, hcall],
            by simp only [serve, hauth, hcall]⟩
      | call call =>
          by_cases hstores : call.usesStores = true
          · rw [serve_stores admin hauth hcall hstores, serve_stores admin hauth hcall hstores]
            obtain ⟨rfl, hpeer, honly⟩ := hcaller
            have hcheck := check_of_requireAuth hauth hcall hstores
            have hop : (r.visit r.reviewer).op = some r.op := rfl
            have huncached := (cached_check_sound hop hhash hkeys).2 hbefore
            have hpassed := huncached.symm.trans hcheck
            have hversion : r.op.action ≠ .version := by
              intro hversion
              have hpath := path_of_stores hcall hstores
              exact (classify_version hversion).elim hpath.1 hpath.2.1
            obtain ⟨token, verdict, ns', htoken, hreview, hns, haccess⟩ :=
              passes_of_check hversion hpeer hpassed
            obtain ⟨rfl, hverb⟩ := honly token verdict ns' _ htoken hreview haccess
            obtain ⟨response, hleft, hright⟩ := handle_alike admin h (reads_of_get hcall hstores hverb)
              (fun repo hrepo hvalid => inside_of_namespaceFor hcall hrepo hvalid hdefault hns)
              (hshared call hcall hpassed)
            rw [hleft, hright]
            exact ⟨_, _, rfl, rfl⟩
          · simp only [serve, hauth, hcall]
            cases call <;> first | exact ⟨_, _, rfl, rfl⟩ | exact absurd rfl hstores

-- The uses that the requests make of the authenticator.
def visitsOf (state : AppState) (requests : List Request) : List Visit :=
  requests.filterMap fun r => r.toArrival.visit state

-- At each request the keys of the caches tell its review from the recent ones.
def KeysTell (cfg : K8sAuthConfig) (state : AppState) (reviewer : Reviewer) (before : List Visit)
    (requests : List Request) : Prop :=
  ∀ first r last, requests = first ++ r :: last →
    KeysApart cfg (before ++ visitsOf state first) (r.visit reviewer)

omit [SerdeJson] [UuidCrate] in
theorem HashApart.of_tokens {visits visits' : List Visit} (h : HashApart visits)
    (htokens : ∀ u ∈ visits', ∃ v ∈ visits, v.token = u.token) : HashApart visits' := by
  intro u hu v hv token token' htoken htoken' hkey
  obtain ⟨u', hu', hsame⟩ := htokens u hu
  obtain ⟨v', hv', hsame'⟩ := htokens v hv
  exact h u' hu' v' hv' token token' (hsame.trans htoken) (hsame'.trans htoken') hkey

omit [Sha2] [SerdeJson] [UuidCrate] in
theorem visit_of_arrival {a : Arrival} {v : Visit} (h : a.visit state = some v) :
    v.reviewer = a.reviewer ∧ v.token = extractToken a.authorization := by
  rw [Arrival.visit] at h
  split at h
  · cases h
  · split at h
    · split at h <;> cases h
      exact ⟨rfl, rfl⟩
    · cases h
      exact ⟨rfl, rfl⟩

omit [SerdeJson] [UuidCrate] in
theorem admission_cachesAfter (before : List Visit) (r : Request) :
    (admission cfg state r.toArrival (cachesAfter cfg before)).2 =
      cachesAfter cfg (before ++ visitsOf state [r]) := by
  rw [admission_caches, visitsOf]
  cases hvisit : r.toArrival.visit state with
  | none => simp [hvisit]
  | some v => simp [hvisit, cachesAfter_snoc]

-- In states that differ outside the namespace, all that the caller is answered is the
-- same, as long as no blob or session is asked for that differs.
theorem replies_alike {before : List Visit} {requests : List Request}
    (hdefault : cfg.defaultNamespace = none)
    (hcaller : ∀ r ∈ requests, Restricted cfg ns reviewer r)
    (hbefore : ∀ u ∈ before, u.reviewer = reviewer)
    (hhash : HashApart (before ++ requests.map fun r => r.visit reviewer))
    (hkeys : KeysTell cfg state reviewer before requests)
    (h : DifferOutside (String.ofList ns) tree tree')
    (hshared : ∀ r ∈ requests, Shared cfg state tree tree' r) :
    ∃ replies,
      serveAll cfg state admin fsStorage requests (cachesAfter cfg before) tree = (replies, tree) ∧
      serveAll cfg state admin fsStorage requests (cachesAfter cfg before) tree' =
        (replies, tree') := by
  induction requests generalizing before with
  | nil => exact ⟨[], rfl, rfl⟩
  | cons r rest ih =>
      have hhash' : HashApart (before ++ [r.visit reviewer]) :=
        hhash.of_tokens fun u hu => ⟨u, (List.mem_append.mp hu).elim (List.mem_append_left _)
          fun hu => List.mem_append_right _ (List.mem_singleton.mp hu ▸ List.mem_cons_self), rfl⟩
      have hkeys' : KeysApart cfg before (r.visit reviewer) := by
        simpa [visitsOf] using hkeys [] r rest rfl
      obtain ⟨reply, caches, hleft, hright⟩ := serve_alike admin hdefault
        (hcaller r List.mem_cons_self) hbefore hhash' hkeys' h (hshared r List.mem_cons_self)
      have hcaches : cachesAfter cfg (before ++ visitsOf state [r]) = caches := by
        rw [← admission_cachesAfter, ← serve_caches cfg state admin fsStorage r _ tree, hleft]
      have hvisit : ∀ u ∈ visitsOf state [r], r.toArrival.visit state = some u := by
        intro u hu
        obtain ⟨r', hr', hu⟩ := List.mem_filterMap.mp hu
        rwa [List.mem_singleton.mp hr'] at hu
      have hbefore' : ∀ u ∈ before ++ visitsOf state [r], u.reviewer = reviewer := by
        intro u hu
        rcases List.mem_append.mp hu with hu | hu
        · exact hbefore u hu
        · exact (visit_of_arrival (hvisit u hu)).1.trans (hcaller r List.mem_cons_self).asked
      have hhashes : HashApart (before ++ visitsOf state [r] ++
          rest.map fun r => r.visit reviewer) := by
        refine hhash.of_tokens fun u hu => ?_
        rcases List.mem_append.mp hu with hu | hu
        · rcases List.mem_append.mp hu with hu | hu
          · exact ⟨u, List.mem_append_left _ hu, rfl⟩
          · exact ⟨r.visit reviewer, by simp, (visit_of_arrival (hvisit u hu)).2.symm⟩
        · exact ⟨u, List.mem_append_right _ (List.mem_cons_of_mem _ hu), rfl⟩
      have hrests : KeysTell cfg state reviewer (before ++ visitsOf state [r]) rest := by
        intro first other last heq
        have hother := hkeys (r :: first) other last (heq ▸ rfl)
        rwa [show r :: first = [r] ++ first from rfl, visitsOf, List.filterMap_append,
          ← List.append_assoc] at hother
      obtain ⟨replies, hrest, hrest'⟩ := ih
        (fun other hother => hcaller other (List.mem_cons_of_mem r hother)) hbefore' hhashes hrests
        fun other hother => hshared other (List.mem_cons_of_mem r hother)
      rw [hcaches] at hrest hrest'
      exact ⟨reply :: replies, by simp only [serveAll, hleft, hrest],
        by simp only [serveAll, hright, hrest']⟩

end Runs

section

attribute [local instance] Sample.sha2 Sample.serdeJson bearerOnly noUuid

def sharedBlob : Digest := hashContent .sha256 Sample.x

-- A registry with one image in `n`, and the same after a push to `m`.
def imageStored : Tree := afterCalls [.manifestPut "n/x" (.tag "v1") Sample.braces] new

def pushed : List StorageOp :=
  [.blobWrite "m/y" sharedBlob Sample.x, .manifestPut "m/y" (.tag "v1") Sample.brackets]

theorem pushed_outside : ∀ op ∈ pushed, PushesOutside "n" op := by
  rintro op (_ | ⟨_, _ | ⟨_, h⟩⟩)
  · exact (by decide : ¬Inside "n" "m/y")
  · exact (by decide : ¬Inside "n" "m/y" ∧ IsFileName "v1")
  · cases h

def puller : Reviewer := onlyReviewer "n".toList "get".toList

def getRequest (path : String) : Request where
  now := 0
  reviewer := puller
  method := .get
  path := path.toList
  authorization := some "Bearer x".toList
  peer := none
  query := []
  contentType := none
  body := []
  drawn := "1"

theorem restricted_get (path : String) :
    Restricted strictConfig "n".toList puller (getRequest path) :=
  ⟨rfl, rfl, fun _ _ _ _ _ _ haccess => of_decide_eq_true (Except.ok.inj haccess)⟩

theorem keysTell_get (path : String) :
    KeysTell strictConfig fullState puller [] [getRequest path] := by
  intro first r last heq
  cases first with
  | nil => exact keysApart_nil _
  | cons head tail => exact absurd (congrArg List.length heq) (by simp)

-- No admin request is made in the examples.
def noAdmin (_ : Request) (_ : Call) (tree : Tree) : Response × Tree := (notFound, tree)

theorem own_image_alike : ∃ replies,
    serveAll strictConfig fullState noAdmin fsStorage [getRequest "/v2/n/x/manifests/v1"]
      (cachesAfter strictConfig []) (afterCalls [] imageStored) =
        (replies, afterCalls [] imageStored) ∧
    serveAll strictConfig fullState noAdmin fsStorage [getRequest "/v2/n/x/manifests/v1"]
      (cachesAfter strictConfig []) (afterCalls pushed imageStored) =
        (replies, afterCalls pushed imageStored) := by
  have hcall : dispatch fullState .get "/v2/n/x/manifests/v1".toList =
      .call (.manifestGet "n/x".toList "v1".toList false) := by decide +kernel
  have hdiffer : DifferOutside "n" (afterCalls [] imageStored) (afterCalls pushed imageStored) :=
    differOutside_of_pushes (by simp) pushed_outside
  have hcaller : ∀ r ∈ [getRequest "/v2/n/x/manifests/v1"],
      Restricted strictConfig "n".toList puller r :=
    fun r hr => List.mem_singleton.mp hr ▸ restricted_get _
  refine replies_alike noAdmin rfl hcaller (by simp) (hashApart_visit _) (keysTell_get _) hdiffer ?_
  intro r hr call hr'
  rw [List.mem_singleton.mp hr] at hr'
  cases hcall.symm.trans hr'
  exact fun _ => trivial

def Reply.status : Reply → Option Nat
  | .ok response => some response.status
  | .error _ => none

-- The blob that was pushed to `m` is handed out under a name in `n`.
theorem blob_visible : ¬∀ (ops ops' : List StorageOp) (reviewer : Reviewer) (requests : List Request),
    (∀ op ∈ ops, PushesOutside "n" op) → (∀ op ∈ ops', PushesOutside "n" op) →
      (∀ r ∈ requests, Restricted strictConfig "n".toList reviewer r) →
        HashApart ([] ++ requests.map fun r => r.visit reviewer) →
          KeysTell strictConfig fullState reviewer [] requests →
            (serveAll strictConfig fullState noAdmin fsStorage requests .empty
              (afterCalls ops imageStored)).1 =
            (serveAll strictConfig fullState noAdmin fsStorage requests .empty
              (afterCalls ops' imageStored)).1 := by
  intro h
  have hsame := h [] pushed puller [getRequest ("/v2/n/x/blobs/" ++ sharedBlob.toString)] (by simp)
    pushed_outside (fun r hr => List.mem_singleton.mp hr ▸ restricted_get _) (hashApart_visit _)
    (keysTell_get _)
  have hstatus := congrArg (List.map Reply.status) hsame
  exact absurd hstatus (by decide +kernel)

end

end RspaceRegistry.Http
