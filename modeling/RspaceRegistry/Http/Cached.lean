import Mathlib.Data.List.Induction
import RspaceRegistry.Http.K8s
import RspaceRegistry.Sample

namespace RspaceRegistry.Http

-- One use of the authenticator: the check of an operation, or, at the token
-- endpoint, of the token alone. The API server may answer each differently.
structure Visit where
  now : Nat
  reviewer : Reviewer
  op : Option Operation
  authorization : Option Text
  peer : Option IpAddr

section

variable (cfg : K8sAuthConfig)

def Visit.token [Base64] (v : Visit) : Option Text := extractToken v.authorization

def Visit.serve [Sha2] [Base64] (v : Visit) (caches : Caches) : Caches :=
  match v.op with
  | some op => (check cfg v.reviewer v.now op v.authorization v.peer caches).2
  | none =>
      match v.token with
      | some token => (tokenReviewCached cfg v.reviewer v.now token caches).2
      | none => caches

-- The caches after a sequence of visits.
def cachesAfter [Sha2] [Base64] (visits : List Visit) : Caches :=
  visits.foldl (fun caches v => v.serve cfg caches) .empty

theorem cachesAfter_snoc [Sha2] [Base64] (visits : List Visit) (v : Visit) :
    cachesAfter cfg (visits ++ [v]) = v.serve cfg (cachesAfter cfg visits) := by
  rw [cachesAfter, List.foldl_append]
  rfl

-- A verdict from the one visit may still be used at the other.
def Recent (u v : Visit) : Prop := v.now < u.now + cfg.cacheTtl

-- The moments that count at a visit: itself, and those before that are recent.
def Counts (before : List Visit) (v u : Visit) : Prop := u = v ∨ u ∈ before ∧ Recent cfg u v

-- The API server gave this verdict on the token of the visit.
def Identified [Base64] (before : List Visit) (v : Visit) (verdict : TokenVerdict) : Prop :=
  ∃ token, v.token = some token ∧
    ∃ u, Counts cfg before v u ∧ u.reviewer.reviewToken token = .ok verdict

def Allowed (before : List Visit) (v : Visit) (review : AccessReview) : Prop :=
  ∃ u, Counts cfg before v u ∧ u.reviewer.reviewAccess review = .ok true

-- A review that a visit can lead to.
def Reviewable [Base64] (before : List Visit) (v : Visit) (review : AccessReview) : Prop :=
  ∃ verdict op ns, Identified cfg before v verdict ∧ verdict.authenticated = true ∧
    v.op = some op ∧ namespaceFor cfg op = some ns ∧ review = accessReview cfg op verdict ns

-- The key tells the reviews of a visit from the recent ones before it.
def KeysApart [Base64] (before : List Visit) (v : Visit) : Prop :=
  ∀ first u last, before = first ++ u :: last → Recent cfg u v →
    ∀ review review', Reviewable cfg before v review → Reviewable cfg first u review' →
      sarKey review = sarKey review' → review = review'

-- The hash tells the tokens of the visits apart.
def HashApart [Sha2] [Base64] (visits : List Visit) : Prop :=
  ∀ u ∈ visits, ∀ v ∈ visits, ∀ token token', u.token = some token → v.token = some token' →
    cacheKey token = cacheKey token' → token = token'

-- What stands in the caches was answered at some visit.
def TokenEntry [Sha2] [Base64] (before : List Visit) (key : String) (c : Cached TokenVerdict) : Prop :=
  ∃ u ∈ before, ∃ token, u.token = some token ∧ cacheKey token = key ∧
    u.reviewer.reviewToken token = .ok c.value ∧ c.expires = u.now + cfg.cacheTtl

def SarEntry [Base64] (before : List Visit) (key : Text) (c : Cached Bool) : Prop :=
  ∃ first u last, before = first ++ u :: last ∧ ∃ review, Reviewable cfg first u review ∧
    sarKey review = key ∧ u.reviewer.reviewAccess review = .ok c.value ∧
      c.expires = u.now + cfg.cacheTtl

structure Sourced [Sha2] [Base64] (before : List Visit) (caches : Caches) : Prop where
  token : ∀ key c, caches.token.lookup key = some c → TokenEntry cfg before key c
  sar : ∀ key c, caches.sar.lookup key = some c → SarEntry cfg before key c

variable [Sha2] [Base64] {cfg} {before : List Visit} {v : Visit} {caches : Caches}

theorem TokenEntry.snoc {key : String} {c : Cached TokenVerdict} (h : TokenEntry cfg before key c) :
    TokenEntry cfg (before ++ [v]) key c := by
  obtain ⟨u, hu, rest⟩ := h
  exact ⟨u, List.mem_append_left _ hu, rest⟩

omit [Sha2] in
theorem SarEntry.snoc {key : Text} {c : Cached Bool} (h : SarEntry cfg before key c) :
    SarEntry cfg (before ++ [v]) key c := by
  obtain ⟨first, u, last, rfl, rest⟩ := h
  exact ⟨first, u, last ++ [v], by simp, rest⟩

-- Asking for a token's verdict keeps the caches sourced, and the verdict was
-- given on this token.
theorem tokenReviewCached_sourced {token : Text} (htoken : v.token = some token)
    (hhash : HashApart (before ++ [v])) (h : Sourced cfg before caches) :
    (∀ key c, (tokenReviewCached cfg v.reviewer v.now token caches).2.token.lookup key = some c →
      TokenEntry cfg (before ++ [v]) key c) ∧
    (tokenReviewCached cfg v.reviewer v.now token caches).2.sar = caches.sar ∧
    ∀ verdict, (tokenReviewCached cfg v.reviewer v.now token caches).1 = .ok verdict →
      Identified cfg before v verdict := by
  have hold : ∀ key c, (getCached caches.token (cacheKey token) v.now).2.lookup key = some c →
      TokenEntry cfg (before ++ [v]) key c :=
    fun key c hc => (h.token key c (lookup_getCached hc)).snoc
  rw [tokenReviewCached]
  rcases hget : getCached caches.token (cacheKey token) v.now with ⟨found, cache⟩
  rw [hget] at hold
  cases found with
  | some verdict =>
      refine ⟨hold, rfl, ?_⟩
      intro verdict' hverdict
      obtain rfl := Except.ok.inj hverdict
      obtain ⟨expires, hlookup, hlive⟩ := getCached_eq_some (congrArg Prod.fst hget)
      obtain ⟨u, hu, token', htoken', hkey, hreview, hexpires⟩ := h.token _ _ hlookup
      have hsame := hhash u (List.mem_append_left _ hu) v (by simp) token' token htoken' htoken hkey
      refine ⟨token, htoken, u, .inr ⟨hu, ?_⟩, hsame ▸ hreview⟩
      rw [Recent, ← hexpires]
      exact hlive
  | none =>
      simp only
      cases hreview : v.reviewer.reviewToken token with
      | error err => exact ⟨hold, rfl, nofun⟩
      | ok verdict =>
          refine ⟨?_, rfl, ?_⟩
          · intro key c hc
            rcases lookup_putCached hc with ⟨rfl, rfl⟩ | hc
            · exact ⟨v, by simp, token, htoken, rfl, hreview, rfl⟩
            · exact hold key c hc
          · intro verdict' hverdict
            obtain rfl := Except.ok.inj hverdict
            exact ⟨token, htoken, v, .inl rfl, hreview⟩

omit [Sha2] in
-- Asking for access keeps the caches sourced, and what is granted was granted
-- to a review with the same key.
theorem sarCached_sourced {review : AccessReview} (hreview : Reviewable cfg before v review)
    (h : ∀ key c, caches.sar.lookup key = some c → SarEntry cfg before key c) :
    (∀ key c, (sarCached cfg v.reviewer v.now review caches).2.sar.lookup key = some c →
      SarEntry cfg (before ++ [v]) key c) ∧
    (sarCached cfg v.reviewer v.now review caches).2.token = caches.token ∧
    ∀ allowed, (sarCached cfg v.reviewer v.now review caches).1 = .ok allowed →
      v.reviewer.reviewAccess review = .ok allowed ∨
        ∃ first u last review', before = first ++ u :: last ∧ Recent cfg u v ∧
          Reviewable cfg first u review' ∧ sarKey review' = sarKey review ∧
            u.reviewer.reviewAccess review' = .ok allowed := by
  have hold : ∀ key c, (getCached caches.sar (sarKey review) v.now).2.lookup key = some c →
      SarEntry cfg (before ++ [v]) key c :=
    fun key c hc => (h key c (lookup_getCached hc)).snoc
  rw [sarCached]
  rcases hget : getCached caches.sar (sarKey review) v.now with ⟨found, cache⟩
  rw [hget] at hold
  cases found with
  | some allowed =>
      refine ⟨hold, rfl, ?_⟩
      intro allowed' hallowed
      obtain rfl := Except.ok.inj hallowed
      obtain ⟨expires, hlookup, hlive⟩ := getCached_eq_some (congrArg Prod.fst hget)
      obtain ⟨first, u, last, hbefore, review', hreview', hkey, hanswer, hexpires⟩ := h _ _ hlookup
      refine .inr ⟨first, u, last, review', hbefore, ?_, hreview', hkey, hanswer⟩
      rw [Recent, ← hexpires]
      exact hlive
  | none =>
      simp only
      cases hanswer : v.reviewer.reviewAccess review with
      | error err => exact ⟨hold, rfl, nofun⟩
      | ok allowed =>
          refine ⟨?_, rfl, fun allowed' hallowed => .inl (congrArg Except.ok (Except.ok.inj hallowed))⟩
          intro key c hc
          rcases lookup_putCached hc with ⟨rfl, rfl⟩ | hc
          · exact ⟨before, v, [], rfl, review, hreview, rfl, hanswer, rfl⟩
          · exact hold key c hc

theorem Sourced.snoc (h : Sourced cfg before caches) : Sourced cfg (before ++ [v]) caches :=
  ⟨fun key c hc => (h.token key c hc).snoc, fun key c hc => (h.sar key c hc).snoc⟩

theorem Sourced.tokenReview {token : Text} (htoken : v.token = some token)
    (hhash : HashApart (before ++ [v])) (h : Sourced cfg before caches) :
    Sourced cfg (before ++ [v]) (tokenReviewCached cfg v.reviewer v.now token caches).2 := by
  obtain ⟨htokens, hsar, -⟩ := tokenReviewCached_sourced htoken hhash h
  refine ⟨htokens, fun key c hc => ?_⟩
  rw [hsar] at hc
  exact (h.sar key c hc).snoc

-- The check up to the question of access.
theorem check_cases {op : Operation} (hop : v.op = some op) (hhash : HashApart (before ++ [v]))
    (h : Sourced cfg before caches) :
    Sourced cfg (before ++ [v]) (check cfg v.reviewer v.now op v.authorization v.peer caches).2 ∧
    ((check cfg v.reviewer v.now op v.authorization v.peer caches).1 = .ok () →
      op.action = .version ∨ exempt cfg v.peer = true ∨
      ∃ verdict ns, Identified cfg before v verdict ∧ verdict.authenticated = true ∧
        namespaceFor cfg op = some ns ∧
        (v.reviewer.reviewAccess (accessReview cfg op verdict ns) = .ok true ∨
          ∃ first u last review', before = first ++ u :: last ∧ Recent cfg u v ∧
            Reviewable cfg first u review' ∧
              sarKey review' = sarKey (accessReview cfg op verdict ns) ∧
                u.reviewer.reviewAccess review' = .ok true)) := by
  rw [check]
  split
  · rename_i hversion
    exact ⟨h.snoc, fun _ => .inl hversion⟩
  · split
    · rename_i hexempt
      exact ⟨h.snoc, fun _ => .inr (.inl hexempt)⟩
    · cases htoken : extractToken v.authorization with
      | none => exact ⟨h.snoc, nofun⟩
      | some token =>
          have hsourced := h.tokenReview htoken hhash
          obtain ⟨htokens, hsar, hidentified⟩ := tokenReviewCached_sourced htoken hhash h
          simp only
          rcases hverdict : tokenReviewCached cfg v.reviewer v.now token caches with ⟨result, caches'⟩
          rw [hverdict] at hsourced htokens hsar hidentified
          cases result with
          | error err => exact ⟨hsourced, nofun⟩
          | ok verdict =>
              have hidentity := hidentified verdict rfl
              simp only
              split
              · exact ⟨hsourced, nofun⟩
              · rename_i hauth
                have hauthenticated : verdict.authenticated = true := by simpa using hauth
                cases hns : namespaceFor cfg op with
                | none => exact ⟨hsourced, nofun⟩
                | some ns =>
                    have hreviewable : Reviewable cfg before v (accessReview cfg op verdict ns) :=
                      ⟨verdict, op, ns, hidentity, hauthenticated, hop, hns, rfl⟩
                    have hentries : ∀ key c, caches'.sar.lookup key = some c →
                        SarEntry cfg before key c := by
                      intro key c hc
                      rw [hsar] at hc
                      exact h.sar key c hc
                    obtain ⟨hsars, hkept, hgranted⟩ := sarCached_sourced hreviewable hentries
                    simp only
                    rcases hallowed : sarCached cfg v.reviewer v.now (accessReview cfg op verdict ns)
                      caches' with ⟨answer, caches''⟩
                    rw [hallowed] at hsars hkept hgranted
                    have hlast : Sourced cfg (before ++ [v]) caches'' := by
                      refine ⟨fun key c hc => ?_, hsars⟩
                      rw [hkept] at hc
                      exact htokens key c hc
                    cases answer with
                    | error err => exact ⟨hlast, nofun⟩
                    | ok allowed =>
                        refine ⟨hlast, fun hok => .inr (.inr ⟨verdict, ns, hidentity, hauthenticated,
                          rfl, ?_⟩)⟩
                        cases allowed with
                        | false => cases hok
                        | true => exact hgranted true rfl

theorem serve_sourced (hhash : HashApart (before ++ [v])) (h : Sourced cfg before caches) :
    Sourced cfg (before ++ [v]) (v.serve cfg caches) := by
  rw [Visit.serve]
  cases hop : v.op with
  | some op => exact (check_cases hop hhash h).1
  | none =>
      cases htoken : v.token with
      | none => exact h.snoc
      | some token => exact h.tokenReview htoken hhash

theorem HashApart.init (h : HashApart (before ++ [v])) : HashApart before :=
  fun u hu u' hu' => h u (List.mem_append_left _ hu) u' (List.mem_append_left _ hu')

-- In every run, what the caches hold was answered.
theorem cachesAfter_sourced {visits : List Visit} (h : HashApart visits) :
    Sourced cfg visits (cachesAfter cfg visits) := by
  induction visits using List.reverseRecOn with
  | nil =>
      constructor
      · intro key c hc
        cases hc
      · intro key c hc
        cases hc
  | append_singleton before v ih =>
      rw [cachesAfter_snoc]
      exact serve_sourced h (ih h.init)

-- Errors are not kept: they are those of the moment.
omit [Base64] in
theorem tokenReviewCached_error {reviewer : Reviewer} {now : Nat} {token : Text} {err : AuthReject}
    (h : (tokenReviewCached cfg reviewer now token caches).1 = .error err) :
    ∃ e, reviewer.reviewToken token = .error e ∧ err = .unavailable e := by
  rw [tokenReviewCached] at h
  split at h
  · cases h
  · split at h
    · rename_i e he
      exact ⟨e, he, (Except.error.inj h).symm⟩
    · cases h

omit [Sha2] [Base64] in
theorem sarCached_error {reviewer : Reviewer} {now : Nat} {review : AccessReview} {err : AuthReject}
    (h : (sarCached cfg reviewer now review caches).1 = .error err) :
    ∃ e, reviewer.reviewAccess review = .error e ∧ err = .unavailable e := by
  rw [sarCached] at h
  split at h
  · cases h
  · split at h
    · rename_i e he
      exact ⟨e, he, (Except.error.inj h).symm⟩
    · cases h

-- With a reviewer that does not change, the caches make no difference.
theorem check_eq_uncached {op : Operation} (hop : v.op = some op)
    (hhash : HashApart (before ++ [v])) (hkeys : KeysApart cfg before v)
    (hconstant : ∀ u ∈ before, u.reviewer = v.reviewer) (h : Sourced cfg before caches) :
    (check cfg v.reviewer v.now op v.authorization v.peer caches).1 =
      checkUncached cfg v.reviewer op v.authorization v.peer := by
  rw [check, checkUncached]
  split
  · rfl
  · split
    · rfl
    · cases htoken : extractToken v.authorization with
      | none => rfl
      | some token =>
          obtain ⟨htokens, hsar, hidentified⟩ := tokenReviewCached_sourced htoken hhash h
          simp only
          rcases hverdict : tokenReviewCached cfg v.reviewer v.now token caches with ⟨result, caches'⟩
          rw [hverdict] at hsar hidentified
          cases result with
          | error err =>
              obtain ⟨e, he, rfl⟩ := tokenReviewCached_error (congrArg Prod.fst hverdict)
              rw [he]
          | ok verdict =>
              have hidentity := hidentified verdict rfl
              obtain ⟨token', htoken', u, hu, hreview⟩ := hidentified verdict rfl
              have hsame : u.reviewer = v.reviewer := by
                rcases hu with rfl | ⟨hu, -⟩
                · rfl
                · exact hconstant u hu
              obtain rfl := Option.some.inj (htoken.symm.trans htoken')
              rw [hsame] at hreview
              rw [hreview]
              simp only
              split
              · rfl
              · rename_i hauth
                have hauthenticated : verdict.authenticated = true := by simpa using hauth
                cases hns : namespaceFor cfg op with
                | none => rfl
                | some ns =>
                    have hreviewable : Reviewable cfg before v (accessReview cfg op verdict ns) :=
                      ⟨verdict, op, ns, hidentity, hauthenticated, hop, hns, rfl⟩
                    have hentries : ∀ key c, caches'.sar.lookup key = some c →
                        SarEntry cfg before key c := by
                      intro key c hc
                      rw [hsar] at hc
                      exact h.sar key c hc
                    obtain ⟨-, -, hgranted⟩ := sarCached_sourced hreviewable hentries
                    simp only
                    rcases hallowed : sarCached cfg v.reviewer v.now (accessReview cfg op verdict ns)
                      caches' with ⟨answer, caches''⟩
                    rw [hallowed] at hgranted
                    cases answer with
                    | error err =>
                        obtain ⟨e, he, rfl⟩ := sarCached_error (congrArg Prod.fst hallowed)
                        rw [he]
                    | ok allowed =>
                        have hanswer : v.reviewer.reviewAccess (accessReview cfg op verdict ns) =
                            .ok allowed := by
                          rcases hgranted allowed rfl with hnow | ⟨first, w, last, review', hbefore,
                            hrecent, hreview', hkey, hthen⟩
                          · exact hnow
                          · have heq := hkeys first w last hbefore hrecent _ _ hreviewable hreview'
                              hkey.symm
                            have hw : w.reviewer = v.reviewer := hconstant w (hbefore ▸ by simp)
                            rw [← hw, heq]
                            exact hthen
                        rw [hanswer]

-- At every check of a run at which the key tells the review from the recent ones,
-- what is let through was authenticated and allowed within the time to live, and
-- a reviewer that never changed decides as without the caches.
theorem cached_check_sound {op : Operation} (hop : v.op = some op)
    (hhash : HashApart (before ++ [v])) (hkeys : KeysApart cfg before v) :
    ((check cfg v.reviewer v.now op v.authorization v.peer (cachesAfter cfg before)).1 = .ok () →
      op.action ≠ .version → exempt cfg v.peer = false →
        ∃ verdict ns, Identified cfg before v verdict ∧ verdict.authenticated = true ∧
          namespaceFor cfg op = some ns ∧ Allowed cfg before v (accessReview cfg op verdict ns)) ∧
    ((∀ u ∈ before, u.reviewer = v.reviewer) →
      (check cfg v.reviewer v.now op v.authorization v.peer (cachesAfter cfg before)).1 =
        checkUncached cfg v.reviewer op v.authorization v.peer) := by
  have hsourced : Sourced cfg before (cachesAfter cfg before) := cachesAfter_sourced hhash.init
  refine ⟨?_, fun hconstant => check_eq_uncached hop hhash hkeys hconstant hsourced⟩
  intro hok hversion hexempt
  rcases (check_cases hop hhash hsourced).2 hok with hprobe | hloopback | ⟨verdict, ns, hidentity,
    hauth, hns, hgranted⟩
  · exact absurd hprobe hversion
  · rw [hexempt] at hloopback
    cases hloopback
  · refine ⟨verdict, ns, hidentity, hauth, hns, ?_⟩
    rcases hgranted with hnow | ⟨first, u, last, review', hbefore, hrecent, hreview', hkey, hthen⟩
    · exact ⟨v, .inl rfl, hnow⟩
    · have heq := hkeys first u last hbefore hrecent _ _
        ⟨verdict, op, ns, hidentity, hauth, hop, hns, rfl⟩ hreview' hkey.symm
      exact ⟨u, .inr ⟨hbefore ▸ by simp, hrecent⟩, heq ▸ hthen⟩

end

section

-- No header of the examples is in the `Basic` scheme.
abbrev bearerOnly : Base64 := ⟨fun _ => none⟩

attribute [local instance] Sample.sha2 bearerOnly

def sampleConfig : K8sAuthConfig := ⟨"rspace.io".toList, "repositories".toList, none, 120, false⟩

def alice (groups : List Text) : TokenVerdict := ⟨true, "alice".toList, "7".toList, groups, none⟩

-- Two tokens of one user, of which only the first is in the group that may pull.
def groupReviewer : Reviewer where
  reviewToken token :=
    if token = "x".toList then .ok (alice ["pullers".toList])
    else if token = "[]".toList then .ok (alice [])
    else .ok ⟨false, [], [], [], none⟩
  reviewAccess review := .ok (decide ("pullers".toList ∈ review.groups))

def pull : Operation := ⟨.pull, some "team/web".toList⟩

def pullAt (now : Nat) (header : String) : Visit :=
  ⟨now, groupReviewer, some pull, some header.toList, none⟩

def member : Visit := pullAt 0 "Bearer x"

def namesake : Visit := pullAt 1 "Bearer []"

theorem hashApart_of_keys {visits : List Visit} (h : ∀ u ∈ visits, ∀ v ∈ visits,
    u.token.map cacheKey = v.token.map cacheKey → u.token = v.token) : HashApart visits := by
  intro u hu v hv token token' htoken htoken' hkey
  have hsame := h u hu v hv (by rw [htoken, htoken', Option.map_some, Option.map_some, hkey])
  rw [htoken, htoken'] at hsame
  exact Option.some.inj hsame

theorem identified_eq {before : List Visit} {v : Visit} {verdict verdict' : TokenVerdict}
    (hsame : ∀ u ∈ before, u.reviewer = v.reviewer)
    (hreview : (v.token.map v.reviewer.reviewToken) = some (.ok verdict'))
    (h : Identified sampleConfig before v verdict) : verdict = verdict' := by
  obtain ⟨token, htoken, u, hu, hverdict⟩ := h
  have hreviewer : u.reviewer = v.reviewer := by
    rcases hu with rfl | ⟨hu, -⟩
    · rfl
    · exact hsame u hu
  rw [htoken, Option.map_some, ← hreviewer, hverdict] at hreview
  exact Except.ok.inj (Option.some.inj hreview)

-- The one who may pull, twice.
theorem member_cached_sound :
    ((check sampleConfig groupReviewer 1 pull (some "Bearer x".toList) none
      (cachesAfter sampleConfig [member])).1 = .ok () →
        pull.action ≠ .version → exempt sampleConfig none = false →
          ∃ verdict ns, Identified sampleConfig [member] (pullAt 1 "Bearer x") verdict ∧
            verdict.authenticated = true ∧ namespaceFor sampleConfig pull = some ns ∧
              Allowed sampleConfig [member] (pullAt 1 "Bearer x")
                (accessReview sampleConfig pull verdict ns)) ∧
    ((∀ u ∈ [member], u.reviewer = groupReviewer) →
      (check sampleConfig groupReviewer 1 pull (some "Bearer x".toList) none
        (cachesAfter sampleConfig [member])).1 =
          checkUncached sampleConfig groupReviewer pull (some "Bearer x".toList) none) := by
  have hhash : HashApart ([member] ++ [pullAt 1 "Bearer x"]) := hashApart_of_keys (by decide)
  have hkeys : KeysApart sampleConfig [member] (pullAt 1 "Bearer x") := by
    rintro first u last hbefore - review review' ⟨verdict, op, ns, hidentity, -, hop, hns, rfl⟩
      ⟨verdict', op', ns', hidentity', -, hop', hns', rfl⟩ -
    obtain ⟨rfl, rfl⟩ : first = [] ∧ u = member := by
      cases first with
      | nil => exact ⟨rfl, (List.cons.inj hbefore).1.symm⟩
      | cons head tail => exact absurd (congrArg List.length hbefore) (by simp)
    have hfirst : verdict = alice ["pullers".toList] :=
      identified_eq (by simp [member, pullAt]) rfl hidentity
    have hlast : verdict' = alice ["pullers".toList] := identified_eq (by simp) rfl hidentity'
    obtain rfl := Option.some.inj hop
    obtain rfl := Option.some.inj hop'
    obtain rfl := Option.some.inj (hns.symm.trans hns')
    rw [hfirst, hlast]
  exact cached_check_sound rfl hhash hkeys

-- The namesake is let through by the grant to the other's group.
theorem cached_check_unsound :
    ¬(∀ (cfg : K8sAuthConfig) (before : List Visit) (v : Visit) (op : Operation),
      v.op = some op → HashApart (before ++ [v]) →
        (check cfg v.reviewer v.now op v.authorization v.peer (cachesAfter cfg before)).1 = .ok () →
          op.action ≠ .version → exempt cfg v.peer = false →
            ∃ verdict ns, Identified cfg before v verdict ∧ verdict.authenticated = true ∧
              namespaceFor cfg op = some ns ∧ Allowed cfg before v (accessReview cfg op verdict ns)) ∧
    ¬(∀ (cfg : K8sAuthConfig) (before : List Visit) (v : Visit) (op : Operation),
      v.op = some op → HashApart (before ++ [v]) → (∀ u ∈ before, u.reviewer = v.reviewer) →
        (check cfg v.reviewer v.now op v.authorization v.peer (cachesAfter cfg before)).1 =
          checkUncached cfg v.reviewer op v.authorization v.peer) := by
  have hhash : HashApart ([member] ++ [namesake]) := hashApart_of_keys (by decide +kernel)
  have hsame : ∀ u ∈ [member], u.reviewer = namesake.reviewer := by simp [member, namesake, pullAt]
  have hpassed : (check sampleConfig namesake.reviewer namesake.now pull namesake.authorization
      namesake.peer (cachesAfter sampleConfig [member])).1 = .ok () := by decide
  constructor
  · intro h
    obtain ⟨verdict, ns, hidentity, -, -, u, hu, hallowed⟩ :=
      h sampleConfig [member] namesake pull rfl hhash hpassed (by decide) (by decide)
    have hverdict : verdict = alice [] := identified_eq hsame (by decide) hidentity
    have hreviewer : u.reviewer = groupReviewer := by
      rcases hu with rfl | ⟨hu, -⟩
      · rfl
      · exact hsame u hu
    rw [hreviewer, hverdict] at hallowed
    exact absurd (of_decide_eq_true (Except.ok.inj hallowed)) List.not_mem_nil
  · intro h
    have hequal := h sampleConfig [member] namesake pull rfl hhash hsame
    rw [hpassed] at hequal
    exact absurd hequal (by decide)

end

end RspaceRegistry.Http
