import RspaceRegistry.Http.Htpasswd
import RspaceRegistry.Http.Mount
import RspaceRegistry.Http.Reviews
import RspaceRegistry.Http.Serve

namespace RspaceRegistry.Http

open Calls Cuts Disk

-- How clients log in, and what becomes of the requests of those who do not.

section Runs

variable {State Event Reply : Type} (step : Event → State → Reply × State)

-- The replies of a run, and the state that it leads to.
def replies : List Event → State → List Reply × State
  | [], s => ([], s)
  | e :: rest, s => ((step e s).1 :: (replies rest (step e s).2).1, (replies rest (step e s).2).2)

variable {step} {keep : Event → Bool}

theorem replies_congr {step' : Event → State → Reply × State} {events : List Event}
    (h : ∀ e ∈ events, ∀ s, step e s = step' e s) (s : State) :
    replies step events s = replies step' events s := by
  induction events generalizing s with
  | nil => rfl
  | cons e rest ih =>
      have hrest := fun s => ih (fun e he => h e (List.mem_cons_of_mem _ he)) s
      rw [replies, replies, h e List.mem_cons_self, hrest]

-- The events that change nothing can be left out.
theorem replies_filter (hquiet : ∀ e s, keep e = false → (step e s).2 = s) (events : List Event)
    (s : State) : replies step (events.filter keep) s =
      (((events.zip (replies step events s).1).filter fun sent => keep sent.1).map Prod.snd,
        (replies step events s).2) := by
  induction events generalizing s with
  | nil => rfl
  | cons e rest ih =>
      cases hkeep : keep e with
      | true => simp [replies, hkeep, ih]
      | false => simp [replies, hkeep, ih, hquiet e s hkeep]

theorem forall_zip_replies {P : Event → Reply → Prop} (h : ∀ e s, P e (step e s).1)
    (events : List Event) (s : State) :
    ∀ sent ∈ events.zip (replies step events s).1, P sent.1 sent.2 := by
  induction events generalizing s with
  | nil =>
      intro sent hsent
      cases hsent
  | cons e rest ih =>
      intro sent hsent
      rcases List.mem_cons.mp hsent with rfl | hmem
      · exact h e s
      · exact ih _ sent hmem

end Runs

-- `{:?}` of a `str`.
class DebugStr where
  fmt : Text → String

inductive Auth
  | htpasswd (file : Htpasswd)
  | k8s (cfg : K8sAuthConfig)

def isK8s : Option Auth → Bool
  | some (.k8s _) => true
  | _ => false

-- What the challenges name.
structure Site where
  realm : String
  tokenRealm : String
  service : String

section Middleware

variable [Base64] [Bcrypt] [DebugStr]

-- The user and the password in the value of the `Authorization` header.
def parseBasic (authorization : Option Text) : Option (String × String) :=
  authorization.bind fun raw =>
    (raw.dropPrefix? "Basic ".toList <|> raw.dropPrefix? "basic ".toList).bind fun token =>
      (Base64.decode (Http.trim token)).bind fun decoded =>
        (fromUtf8 decoded).bind fun s =>
          (cutOnce ':' s.toList).map fun parts => (String.ofList parts.1, String.ofList parts.2)

def challengeHeaders (challenge : String) : List (String × String) :=
  (headerValue challenge).toList.map fun value => ("www-authenticate", value)

def basicChallenge (site : Site) : Response :=
  { OciError.response (.new .unauthorized "authentication required") with
    status := 401, headers := challengeHeaders ("Basic realm=\"" ++ site.realm ++ "\"") }

def bearerChallenge (site : Site) : String :=
  "Bearer realm=\"" ++ site.tokenRealm ++ "\",service=\"" ++ site.service ++ "\""

def ReviewError.text : ReviewError → String
  | .unreachable message => "api server unreachable: " ++ String.ofList message
  | .apiError message => "api server rejected review: " ++ String.ofList message

def deniedText (review : AccessReview) : String :=
  "user " ++ DebugStr.fmt review.user ++ " may not " ++ String.ofList review.verb ++ " " ++
    String.ofList review.group ++ "/" ++ String.ofList review.resource ++ " in namespace " ++
    DebugStr.fmt review.ns

-- `AuthReject::into_response`
def AuthReject.response (site : Site) : AuthReject → Response
  | .unauthorized message =>
      { OciError.response (.new .unauthorized (String.ofList message)) with
        headers := challengeHeaders (bearerChallenge site) }
  | .noNamespace => OciError.response
      (.new .denied "repository has no namespace and no --auth-k8s-default-ns is set")
  | .denied review => OciError.response (.new .denied (deniedText review))
  | .unavailable err => OciError.response
      ((OciError.new .unsupported ("auth backend unavailable: " ++ err.text)).withStatus 503)

def Reply.response (site : Site) : Reply → Response
  | .ok response => response
  | .error reject => reject.response site

-- The middleware in all its modes.
def requireAuthMode [Sha2] (auth : Option Auth) (site : Site) (a : Arrival) (caches : Caches) :
    Except Response Unit × Caches :=
  match auth with
  | none => (.ok (), caches)
  | some auth =>
      if a.method = .get ∧ (a.path = "/v2/".toList ∨ a.path = "/v2".toList) then (.ok (), caches)
      else if a.path = "/token".toList then (.ok (), caches)
      else
        match auth with
        | .htpasswd file =>
            if (parseBasic a.authorization).any fun (user, password) =>
                file.verify user password then (.ok (), caches)
            else (.error (basicChallenge site), caches)
        | .k8s cfg =>
            let (result, caches) :=
              check cfg a.reviewer a.now (classify a.method a.path) a.authorization a.peer caches
            (result.mapError (AuthReject.response site), caches)

variable [Sha2] [SerdeJson] [UuidCrate] (auth : Option Auth) (site : Site) (state : AppState)
  {σ : Type} (admin : Request → Call → σ → Response × σ)
  (storage : Handler StorageOp StorageOp.Ans σ)

def afterAuth (r : Request) (caches : Caches) (s : σ) : Response × Caches × σ :=
  match dispatch { state with k8sAuth := isK8s auth } r.method r.path with
  | .notFound => (notFound, caches, s)
  | .methodNotAllowed => (methodNotAllowed, caches, s)
  | .call .tokenEndpoint =>
      match auth with
      | some (.k8s cfg) =>
          let (result, caches) := tokenEndpoint cfg r.toArrival caches
          (Reply.response site (result.map (tokenResponse cfg)), caches, s)
      | _ => (notFound, caches, s)
  | .call .versionCheck => (versionCheck, caches, s)
  | .call call =>
      let (response, s) := handle admin storage r call s
      (response, caches, s)

def respond (r : Request) (caches : Caches) (s : σ) : Response × Caches × σ :=
  match requireAuthMode auth site r.toArrival caches with
  | (.error response, caches) => (response, caches, s)
  | (.ok (), caches) => afterAuth auth site state admin storage r caches s

def respondAll (requests : List Request) (caches : Caches) (s : σ) :
    List Response × Caches × σ :=
  replies (fun r (caches, s) => respond auth site state admin storage r caches s) requests
    (caches, s)

omit [SerdeJson] [UuidCrate] in
theorem requireAuthMode_k8s (cfg : K8sAuthConfig) (a : Arrival) (caches : Caches) :
    requireAuthMode (some (.k8s cfg)) site a caches =
      ((requireAuth cfg a caches).1.mapError (AuthReject.response site),
        (requireAuth cfg a caches).2) := by
  rw [requireAuthMode, requireAuth]
  by_cases hroot : a.method = .get ∧ (a.path = "/v2/".toList ∨ a.path = "/v2".toList)
  · simp only [if_pos hroot]
    rfl
  · by_cases htoken : a.path = "/token".toList
    · simp only [if_neg hroot, if_pos htoken]
      rfl
    · simp only [if_neg hroot, if_neg htoken]

-- In the one mode it is what was said of it before, with the rejections written out.
theorem respond_k8s (cfg : K8sAuthConfig) (hk8s : state.k8sAuth = true) (r : Request)
    (caches : Caches) (s : σ) :
    respond (some (.k8s cfg)) site state admin storage r caches s =
      (Reply.response site (serve cfg state admin storage r caches s).1,
        (serve cfg state admin storage r caches s).2) := by
  have hstate : ({ state with k8sAuth := isK8s (some (.k8s cfg)) } : AppState) = state := by
    cases state
    cases hk8s
    rfl
  rw [respond, requireAuthMode_k8s, serve]
  rcases requireAuth cfg r.toArrival caches with ⟨result, caches'⟩
  cases result with
  | error reject => rfl
  | ok _ =>
      simp only [Except.mapError, afterAuth, hstate]
      cases dispatch state r.method r.path with
      | notFound => rfl
      | methodNotAllowed => rfl
      | call call => cases call <;> rfl

end Middleware

section Htpasswd

variable [Sha2] [SerdeJson] [UuidCrate] [Base64] [Bcrypt] [DebugStr] {text : String}
  {file : Htpasswd} {site : Site} {state : AppState} {σ : Type}
  {admin : Request → Call → σ → Response × σ} {storage : Handler StorageOp StorageOp.Ans σ}

-- The request names a user of the file, with a password that the file has for that user.
def credible (text : String) (r : Request) : Bool :=
  (parseBasic r.authorization).any fun (user, password) =>
    (lastUsable text user).any fun stored => stored.verify password

-- What is said to the others.
def Refusal (site : Site) (response : Response) : Prop :=
  response = versionCheck ∨ response = notFound ∨ response = methodNotAllowed ∨
    response = basicChallenge site

omit [Sha2] [SerdeJson] [UuidCrate] [Base64] [Bcrypt] [DebugStr] in
theorem cutOnce_credentials {user password : String} (huser : ':' ∉ user.toList) :
    cutOnce ':' (user ++ ":" ++ password).toList = some (user.toList, password.toList) := by
  have htext : (user ++ ":" ++ password).toList = user.toList ++ ':' :: password.toList := by simp
  exact cutOnce_eq_some.mpr ⟨htext, huser⟩

omit [Sha2] [SerdeJson] [UuidCrate] [Bcrypt] [DebugStr] in
theorem parseBasic_sent {sent : Text} {user password : String}
    (hdecode : Base64.decode (Http.trim sent) = some (utf8 (user ++ ":" ++ password)))
    (huser : ':' ∉ user.toList) :
    parseBasic (some ("Basic ".toList ++ sent)) = some (user, password) := by
  have hfront : (("Basic ".toList ++ sent).dropPrefix? "Basic ".toList <|>
      ("Basic ".toList ++ sent).dropPrefix? "basic ".toList) = some sent := by
    rw [dropPrefix_eq_some.mpr rfl]
    rfl
  rw [parseBasic, Option.bind_some, hfront, Option.bind_some, hdecode, Option.bind_some,
    fromUtf8_utf8, Option.bind_some, cutOnce_credentials huser, Option.map_some]
  simp

omit [Sha2] [SerdeJson] [UuidCrate] [DebugStr] in
theorem verify_credible (hload : Htpasswd.load text = .ok file) (r : Request) :
    ((parseBasic r.authorization).any fun (user, password) => file.verify user password) =
      credible text r := by
  rw [credible]
  congr 1
  funext credentials
  rw [Bool.eq_iff_iff, verify_of_load hload, Option.any_eq_true]

theorem respond_incredible (hload : Htpasswd.load text = .ok file) {r : Request}
    (h : credible text r = false) (caches : Caches) (s : σ) :
    Refusal site (respond (some (.htpasswd file)) site state admin storage r caches s).1 ∧
      (respond (some (.htpasswd file)) site state admin storage r caches s).2 = (caches, s) := by
  rw [respond, requireAuthMode, verify_credible hload, h]
  by_cases hroot : r.method = .get ∧ (r.path = "/v2/".toList ∨ r.path = "/v2".toList)
  · have hdispatch : dispatch { state with k8sAuth := isK8s (some (.htpasswd file)) } r.method
        r.path = .call .versionCheck := by
      rw [hroot.1]
      rcases hroot.2 with hpath | hpath <;> rw [hpath] <;> rfl
    simp only [if_pos hroot, afterAuth, hdispatch]
    exact ⟨.inl rfl, trivial⟩
  · by_cases htoken : r.path = "/token".toList
    · simp only [if_neg hroot, if_pos htoken, afterAuth]
      by_cases hget : r.method = .get
      · have hdispatch : dispatch { state with k8sAuth := isK8s (some (.htpasswd file)) } r.method
            r.path = .notFound := by
          rw [htoken, hget]
          rfl
        rw [hdispatch]
        exact ⟨.inr (.inl rfl), rfl⟩
      · have hdispatch : dispatch { state with k8sAuth := isK8s (some (.htpasswd file)) } r.method
            r.path = .methodNotAllowed := by
          rw [htoken, dispatch, if_pos rfl, if_neg hget]
        rw [hdispatch]
        exact ⟨.inr (.inr (.inl rfl)), rfl⟩
    · simp only [if_neg hroot, if_neg htoken]
      exact ⟨.inr (.inr (.inr rfl)), rfl⟩

-- The others get to the handlers as if nobody were asked for a password.
theorem respond_credible (hload : Htpasswd.load text = .ok file) {r : Request}
    (h : credible text r = true) (caches : Caches) (s : σ) :
    respond (some (.htpasswd file)) site state admin storage r caches s =
      respond none site state admin storage r caches s := by
  have hpassed : requireAuthMode (some (.htpasswd file)) site r.toArrival caches =
      (.ok (), caches) := by
    rw [requireAuthMode, verify_credible hload, h]
    simp only [if_true, ite_self]
  have hhandled : afterAuth (some (.htpasswd file)) site state admin storage r caches s =
      afterAuth none site state admin storage r caches s := rfl
  rw [respond, respond, hpassed]
  exact hhandled

omit [Sha2] [SerdeJson] [UuidCrate] [DebugStr] in
theorem credible_iff {r : Request} {sent : Text} {user password : String}
    (hsent : r.authorization = some ("Basic ".toList ++ sent))
    (hdecode : Base64.decode (Http.trim sent) = some (utf8 (user ++ ":" ++ password)))
    (huser : ':' ∉ user.toList) : credible text r = true ↔
      ∃ stored, lastUsable text user = some stored ∧ stored.verify password = true := by
  rw [credible, hsent, parseBasic_sent hdecode huser]
  show (lastUsable text user).any (fun stored => stored.verify password) = true ↔ _
  exact Option.any_eq_true _ _

-- The requests that do not come from a user of the file are as if they had not been sent:
-- the others find the same and leave the same, and are answered as by a registry that asks
-- for no password. And whoever sends a user of the file with the password of that user is
-- one of the others.
theorem incredible_unseen (hload : Htpasswd.load text = .ok file) (requests : List Request)
    (caches : Caches) (s : σ) :
    let run := respondAll (some (.htpasswd file)) site state admin storage requests caches s
    let others := respondAll (some (.htpasswd file)) site state admin storage
      (requests.filter (credible text)) caches s
    others.2 = run.2 ∧
    others.1 = ((requests.zip run.1).filter fun sent => credible text sent.1).map Prod.snd ∧
    others = respondAll none site state admin storage (requests.filter (credible text)) caches s ∧
    (∀ sent ∈ requests.zip run.1, credible text sent.1 = false → Refusal site sent.2) ∧
    ∀ r ∈ requests, ∀ sent user password, r.authorization = some ("Basic ".toList ++ sent) →
      Base64.decode (Http.trim sent) = some (utf8 (user ++ ":" ++ password)) →
      ':' ∉ user.toList → (credible text r = true ↔
        ∃ stored, lastUsable text user = some stored ∧ stored.verify password = true) := by
  intro run others
  have hquiet : ∀ (r : Request) (s : Caches × σ), credible text r = false →
      (respond (some (.htpasswd file)) site state admin storage r s.1 s.2).2 = s :=
    fun r s h => (respond_incredible hload h s.1 s.2).2
  have hrefusal : ∀ (r : Request) (s : Caches × σ), credible text r = false →
      Refusal site (respond (some (.htpasswd file)) site state admin storage r s.1 s.2).1 :=
    fun r s h => (respond_incredible hload h s.1 s.2).1
  have hothers : others =
      (((requests.zip run.1).filter fun sent => credible text sent.1).map Prod.snd, run.2) :=
    replies_filter hquiet requests (caches, s)
  have hlet : others =
      respondAll none site state admin storage (requests.filter (credible text)) caches s :=
    replies_congr (fun r hr s => respond_credible hload (List.mem_filter.mp hr).2 s.1 s.2) (caches, s)
  refine ⟨by rw [hothers], by rw [hothers], hlet, ?_, ?_⟩
  · exact forall_zip_replies (P := fun r response => credible text r = false →
      Refusal site response) hrefusal requests (caches, s)
  · exact fun r _ sent user password => credible_iff

end Htpasswd

section Tokens

variable [Sha2] [Base64] {cfg : K8sAuthConfig} {state : AppState} {a last : Arrival}
  {caches : Caches} {verdict : TokenVerdict} {expires now : Nat} {reviewer : Reviewer}

omit [Sha2] [Base64] in
theorem stripCi_append (front rest : Text) : stripCi (front ++ rest) front = some rest := by
  rw [stripCi, List.take_left, if_pos rfl, List.drop_left]

omit [Sha2] in
theorem extractToken_basic {sent : Text} {user token : String}
    (hdecode : Base64.decode (Http.trim sent) = some (utf8 (user ++ ":" ++ token)))
    (huser : ':' ∉ user.toList) (htoken : token.toList ≠ []) :
    extractToken (some ("Basic ".toList ++ sent)) = some token.toList := by
  have hother : stripCi ("Basic ".toList ++ sent) "Bearer ".toList = none := by
    rw [stripCi, if_neg]
    intro heq
    exact absurd (congrArg (fun s => s[1]?) heq) (by simp)
  have hutf8 : String.fromUTF8? ⟨(utf8 (user ++ ":" ++ token)).toArray⟩ =
      some (user ++ ":" ++ token) := fromUtf8_utf8 _
  rw [extractToken, Option.bind_some, hother]
  simp only [stripCi_append, Option.bind_some, hdecode, hutf8, cutOnce_credentials huser,
    if_neg htoken]

omit [Sha2] in
theorem extractToken_bearer {token : Text} (htoken : token ≠ [])
    (hplain : Http.trim token = token) :
    extractToken (some ("Bearer ".toList ++ token)) = some token := by
  rw [extractToken, Option.bind_some, stripCi_append]
  simp only [hplain, if_neg htoken]

omit [Base64] in
-- A verdict that is given is kept.
theorem tokenReviewCached_kept {token : Text} (httl : 0 < cfg.cacheTtl)
    (h : (tokenReviewCached cfg reviewer now token caches).1 = .ok verdict) : ∃ expires,
      (tokenReviewCached cfg reviewer now token caches).2.token.lookup (cacheKey token) =
        some ⟨verdict, expires⟩ ∧ now < expires ∧
      (caches.token.lookup (cacheKey token) = none → expires = now + cfg.cacheTtl) := by
  rw [tokenReviewCached] at h ⊢
  rcases hget : getCached caches.token (cacheKey token) now with ⟨found, cache⟩
  rw [hget] at h
  cases found with
  | some value =>
      obtain rfl := Except.ok.inj h
      obtain ⟨expires, hlookup, hnow⟩ := getCached_eq_some (congrArg Prod.fst hget)
      have hkept := (getCached_live hlookup hnow (cacheKey token)).1
      rw [hget] at hkept
      refine ⟨expires, hkept, hnow, fun hnone => ?_⟩
      rw [hnone] at hlookup
      cases hlookup
  | none =>
      cases hreview : reviewer.reviewToken token with
      | error err =>
          rw [hreview] at h
          cases h
      | ok given =>
          rw [hreview] at h
          obtain rfl := Except.ok.inj h
          exact ⟨now + cfg.cacheTtl, AList.lookup_insert _, by omega, fun _ => rfl⟩

omit [Base64] in
theorem tokenReviewCached_live {token : Text}
    (h : caches.token.lookup (cacheKey token) = some ⟨verdict, expires⟩) (hnow : now < expires) :
    tokenReviewCached cfg reviewer now token caches = (.ok verdict, caches) := by
  have hget : getCached caches.token (cacheKey token) now = (some verdict, caches.token) := by
    rw [getCached, h]
    simp [hnow]
  rw [tokenReviewCached, hget]

-- It is kept through whatever other requests there are.
theorem entry_lasts {key : String} {c : Cached TokenVerdict} {later : List Arrival}
    (h : caches.token.lookup key = some c) (hbefore : ∀ b ∈ later, b.now < c.expires) :
    (later.foldl (admitted cfg state) caches).token.lookup key = some c := by
  induction later generalizing caches with
  | nil => exact h
  | cons b rest ih =>
      refine ih ?_ fun b' hb' => hbefore b' (List.mem_cons_of_mem _ hb')
      have hb := hbefore b List.mem_cons_self
      rw [admitted_uses]
      show (((tokenUse cfg state b).map fun l => l.serve cfg.cacheTtl caches.token).getD
        caches.token).lookup key = some c
      cases huse : tokenUse cfg state b with
      | none => exact h
      | some l =>
          have hl : l.now < c.expires := by
            rw [tokenUse_now cfg state huse]
            exact hb
          exact (l.serve_live cfg.cacheTtl h hl).1

-- What is decided of a request whose client is known.
def decided (cfg : K8sAuthConfig) (a : Arrival) (verdict : TokenVerdict) (caches : Caches) :
    Except AuthReject Unit × Caches :=
  match namespaceFor cfg (classify a.method a.path) with
  | none => (.error .noNamespace, caches)
  | some ns =>
      let review := accessReview cfg (classify a.method a.path) verdict ns
      let (answer, caches) := sarCached cfg a.reviewer a.now review caches
      (answer.bind fun allowed => if allowed then .ok () else .error (.denied review), caches)

omit [Sha2] [Base64] in
theorem decided_ne (cfg : K8sAuthConfig) (a : Arrival) (verdict : TokenVerdict) (caches : Caches)
    (message : Text) : (decided cfg a verdict caches).1 ≠ .error (.unauthorized message) := by
  rw [decided]
  cases namespaceFor cfg (classify a.method a.path) with
  | none =>
      intro heq
      cases heq
  | some ns =>
      simp only
      cases hsar : (sarCached cfg a.reviewer a.now
        (accessReview cfg (classify a.method a.path) verdict ns) caches).1 with
      | error err =>
          obtain ⟨e, -, rfl⟩ := sarCached_error hsar
          intro heq
          cases heq
      | ok allowed =>
          intro heq
          cases allowed <;> cases heq

-- What is let through without a look at the client.
def spared (cfg : K8sAuthConfig) (a : Arrival) : Prop :=
  (a.method = .get ∧ (a.path = "/v2/".toList ∨ a.path = "/v2".toList)) ∨ a.path = "/token".toList ∨
    (classify a.method a.path).action = .version ∨ exempt cfg a.peer = true

theorem requireAuth_live {token : Text} (htoken : extractToken a.authorization = some token)
    (h : caches.token.lookup (cacheKey token) = some ⟨verdict, expires⟩) (hnow : a.now < expires)
    (hverdict : verdict.authenticated = true) :
    (spared cfg a → requireAuth cfg a caches = (.ok (), caches)) ∧
      (¬spared cfg a → requireAuth cfg a caches = decided cfg a verdict caches) := by
  rw [requireAuth]
  by_cases hroot : a.method = .get ∧ (a.path = "/v2/".toList ∨ a.path = "/v2".toList)
  · rw [if_pos hroot]
    exact ⟨fun _ => rfl, fun hnot => absurd (.inl hroot) hnot⟩
  · rw [if_neg hroot]
    by_cases hpath : a.path = "/token".toList
    · rw [if_pos hpath]
      exact ⟨fun _ => rfl, fun hnot => absurd (.inr (.inl hpath)) hnot⟩
    · rw [if_neg hpath, check]
      by_cases hversion : (classify a.method a.path).action = .version
      · rw [if_pos hversion]
        exact ⟨fun _ => rfl, fun hnot => absurd (.inr (.inr (.inl hversion))) hnot⟩
      · rw [if_neg hversion]
        by_cases hexempt : exempt cfg a.peer = true
        · rw [if_pos hexempt]
          exact ⟨fun _ => rfl, fun hnot => absurd (.inr (.inr (.inr hexempt))) hnot⟩
        · rw [if_neg hexempt]
          refine ⟨fun hspared => ?_, fun _ => ?_⟩
          · rcases hspared with hspared | hspared | hspared | hspared
            · exact absurd hspared hroot
            · exact absurd hspared hpath
            · exact absurd hspared hversion
            · exact absurd hspared hexempt
          · simp only [htoken, tokenReviewCached_live h hnow, hverdict, decided]
            cases namespaceFor cfg (classify a.method a.path) with
            | none => rfl
            | some ns =>
                simp only
                rcases sarCached cfg a.reviewer a.now
                  (accessReview cfg (classify a.method a.path) verdict ns) caches with
                  ⟨answer, caches'⟩
                cases answer <;> rfl

theorem tokenEndpoint_given {token given : Text}
    (htoken : extractToken a.authorization = some token)
    (h : (tokenEndpoint cfg a caches).1 = .ok given) :
    given = token ∧ ∃ verdict, verdict.authenticated = true ∧
      (tokenReviewCached cfg a.reviewer a.now token caches).1 = .ok verdict ∧
      (tokenEndpoint cfg a caches).2 = (tokenReviewCached cfg a.reviewer a.now token caches).2 := by
  rw [tokenEndpoint, htoken] at h ⊢
  simp only at h ⊢
  rcases hreview : tokenReviewCached cfg a.reviewer a.now token caches with ⟨result, caches'⟩
  rw [hreview] at h
  cases result with
  | error err => cases h
  | ok verdict =>
      simp only at h
      cases hverdict : verdict.authenticated with
      | false =>
          rw [hverdict] at h
          cases h
      | true =>
          rw [hverdict] at h
          exact ⟨(Except.ok.inj h).symm, verdict, hverdict, rfl, rfl⟩

-- The token endpoint gives a client its own token, and until the verdict expires the token
-- is good for every request: whatever the API server would say of it by then, it is not
-- asked, and nothing is refused for want of a login.
theorem login_lasts {sent : Text} {user token : String} {given : Text}
    (hsent : a.authorization = some ("Basic ".toList ++ sent))
    (hdecode : Base64.decode (Http.trim sent) = some (utf8 (user ++ ":" ++ token)))
    (huser : ':' ∉ user.toList) (htoken : token.toList ≠ [])
    (hplain : Http.trim token.toList = token.toList) (httl : 0 < cfg.cacheTtl)
    (hgiven : (tokenEndpoint cfg a caches).1 = .ok given) :
    given = token.toList ∧ ∃ expires, a.now < expires ∧
      (caches.token.lookup (cacheKey given) = none → expires = a.now + cfg.cacheTtl) ∧
      ∀ (later : List Arrival) (last : Arrival), (∀ b ∈ later, b.now < expires) →
        last.now < expires → last.authorization = some ("Bearer ".toList ++ given) →
        let found := later.foldl (admitted cfg state) (tokenEndpoint cfg a caches).2
        (∀ review, requireAuth cfg { last with reviewer := ⟨review, last.reviewer.reviewAccess⟩ }
          found = requireAuth cfg last found) ∧
        ∀ message, (requireAuth cfg last found).1 ≠ .error (.unauthorized message) := by
  have hextract := extractToken_basic hdecode huser htoken
  rw [← hsent] at hextract
  obtain ⟨rfl, verdict, hverdict, hreview, hcaches⟩ := tokenEndpoint_given hextract hgiven
  obtain ⟨expires, hlookup, hnow, hfresh⟩ := tokenReviewCached_kept httl hreview
  rw [← hcaches] at hlookup
  refine ⟨rfl, expires, hnow, hfresh, ?_⟩
  intro later last hbefore hlast hbearer found
  have hfound : found.token.lookup (cacheKey token.toList) = some ⟨verdict, expires⟩ :=
    entry_lasts hlookup hbefore
  have hclient : extractToken last.authorization = some token.toList := by
    rw [hbearer]
    exact extractToken_bearer htoken hplain
  have hdecided : ∀ review,
      let last' := { last with reviewer := ⟨review, last.reviewer.reviewAccess⟩ }
      (spared cfg last → requireAuth cfg last' found = (.ok (), found)) ∧
        (¬spared cfg last → requireAuth cfg last' found = decided cfg last verdict found) :=
    fun review => requireAuth_live
      (a := { last with reviewer := ⟨review, last.reviewer.reviewAccess⟩ }) hclient hfound
      hlast hverdict
  have hnow := hdecided last.reviewer.reviewToken
  by_cases hspared : spared cfg last
  · refine ⟨fun review => ?_, fun message => ?_⟩
    · rw [(hdecided review).1 hspared]
      exact (hnow.1 hspared).symm
    · rw [show requireAuth cfg last found = _ from hnow.1 hspared]
      intro heq
      cases heq
  · refine ⟨fun review => ?_, fun message => ?_⟩
    · rw [(hdecided review).2 hspared]
      exact (hnow.2 hspared).symm
    · rw [show requireAuth cfg last found = _ from hnow.2 hspared]
      exact decided_ne cfg last verdict found message

end Tokens

section

-- The credentials `u:x`, and no others.
abbrev oneLogin : Base64 :=
  ⟨fun text => if text = "dTp4".toList then some (utf8 "u:x") else none⟩

abbrev quoted : DebugStr := ⟨fun s => (String.ofList s).quote⟩

attribute [local instance] Sample.sha2 Sample.serdeJson Sample.bcrypt oneLogin quoted noUuid

def askFor (path : String) (authorization : Option String) (now : Nat) : Request where
  now := now
  reviewer := groupReviewer
  method := .get
  path := path.toList
  authorization := authorization.map String.toList
  peer := none
  query := []
  contentType := none
  body := []
  drawn := ""

def site : Site := ⟨"registry", "https://registry/token", "rspace-registry"⟩

def nothingStored : Handler StorageOp StorageOp.Ans Unit := fun _ s => (.error .notFound, s)

def noAdminCalls : Request → Call → Unit → Response × Unit := fun _ _ s => (notFound, s)

-- One who has not logged in, and one who has.
def twoReads : List Request :=
  [askFor "/v2/a/tags/list" none 0, askFor "/v2/a/tags/list" (some "Basic dTp4") 0]

theorem stranger_unseen : ∃ file, Htpasswd.load "u:x" = .ok file ∧
    (respondAll (some (.htpasswd file)) site fullState noAdminCalls nothingStored
        (twoReads.filter (credible "u:x")) .empty ()).2 =
      (respondAll (some (.htpasswd file)) site fullState noAdminCalls nothingStored twoReads .empty
        ()).2 ∧
    respondAll (some (.htpasswd file)) site fullState noAdminCalls nothingStored
        (twoReads.filter (credible "u:x")) .empty () =
      respondAll none site fullState noAdminCalls nothingStored (twoReads.filter (credible "u:x"))
        .empty () := by
  obtain ⟨hstate, -, hlet, -⟩ := @incredible_unseen _ _ _ _ _ _ "u:x"
    ⟨(lines "u:x").foldl loadLine ∅⟩ site fullState Unit noAdminCalls nothingStored rfl twoReads
    .empty ()
  exact ⟨⟨(lines "u:x").foldl loadLine ∅⟩, rfl, hstate, hlet⟩

def fetchToken : Arrival := (askFor "/token" (some "Basic dTp4") 0).toArrival

def pullLater : Arrival := (askFor "/v2/team/web/manifests/v1" (some "Bearer x") 60).toArrival

theorem pullLater_let_in : (requireAuth sampleConfig pullLater
    (tokenEndpoint sampleConfig fetchToken .empty).2).1 ≠ .error (.unauthorized []) := by
  obtain ⟨-, expires, -, hfresh, hlasts⟩ :=
    @login_lasts _ _ sampleConfig fullState fetchToken .empty "dTp4".toList "u" "x" "x".toList rfl
      (by decide) (by decide) (by decide) (by decide) (by decide) (by decide)
  have hexpires := hfresh rfl
  have hnow : pullLater.now < expires := by
    rw [hexpires]
    decide
  exact (hlasts [] pullLater (fun b hb => by cases hb) hnow rfl).2 []

end

end RspaceRegistry.Http
