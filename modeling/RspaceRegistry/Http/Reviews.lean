import RspaceRegistry.Http.Gate

namespace RspaceRegistry.Http

-- How often the API server is asked the same.

section Lookups

variable {κ α : Type} [DecidableEq κ]

-- A use of a cache: when, for which key, and the answer that is there for the asking.
structure Lookup (κ α : Type) where
  now : Nat
  key : κ
  answer : Option α

-- The question has to be asked, and is answered.
def Lookup.asks (l : Lookup κ α) (cache : Cache κ α) : Bool :=
  (getCached cache l.key l.now).1.isNone && l.answer.isSome

def Lookup.serve (ttl : Nat) (l : Lookup κ α) (cache : Cache κ α) : Cache κ α :=
  match getCached cache l.key l.now with
  | (some _, cache) => cache
  | (none, cache) =>
      match l.answer with
      | some value => putCached cache l.key value l.now ttl
      | none => cache

variable {cache : Cache κ α} {key : κ} {l : Lookup κ α} {c : Cached α}

theorem getCached_live (h : cache.lookup key = some c) {now : Nat} (hnow : now < c.expires)
    (other : κ) : (getCached cache other now).2.lookup key = some c ∧
      (other = key → (getCached cache other now).1 = some c.value) := by
  rw [getCached]
  by_cases hkey : other = key
  · subst hkey
    simp [h, hnow]
  · refine ⟨?_, fun heq => absurd heq hkey⟩
    cases hother : cache.lookup other with
    | none => exact h
    | some entry =>
        simp only
        split
        · exact h
        · rw [AList.lookup_erase_ne fun heq => hkey heq.symm]
          exact h

-- A key that is kept is not asked for until it expires, and it stays as it is.
theorem Lookup.serve_live (ttl : Nat) (h : cache.lookup key = some c) (hnow : l.now < c.expires) :
    (l.serve ttl cache).lookup key = some c ∧ (l.key = key → l.asks cache = false) := by
  obtain ⟨hkept, hfound⟩ := getCached_live h hnow l.key
  rw [serve, asks]
  rcases hget : getCached cache l.key l.now with ⟨found, cache'⟩
  rw [hget] at hkept hfound
  cases found with
  | some value => exact ⟨hkept, fun _ => rfl⟩
  | none =>
      have hne : l.key ≠ key := fun heq => by cases hfound heq
      refine ⟨?_, fun heq => absurd heq hne⟩
      cases l.answer with
      | none => exact hkept
      | some value =>
          show (putCached cache' l.key value l.now ttl).lookup key = some c
          rw [putCached, AList.lookup_insert_ne fun heq => hne heq.symm]
          exact hkept

theorem Lookup.kept_of_asks (ttl : Nat) (hasks : l.asks cache = true) :
    ∃ value, (l.serve ttl cache).lookup l.key = some ⟨value, l.now + ttl⟩ := by
  rw [asks, Bool.and_eq_true] at hasks
  rw [serve]
  rcases hget : getCached cache l.key l.now with ⟨found, cache'⟩
  rw [hget] at hasks
  cases found with
  | some value => cases hasks.1
  | none =>
      obtain ⟨value, hanswer⟩ := Option.isSome_iff_exists.mp hasks.2
      rw [hanswer]
      exact ⟨value, AList.lookup_insert _⟩

end Lookups

section Runs

variable {κ α State Event : Type} [DecidableEq κ] (view : State → Cache κ α)
  (use : State → Event → Option (Lookup κ α)) (step : State → Event → State)

-- The moments of a run at which the question of a key is asked and answered.
def askedAt (key : κ) : State → List Event → List Nat
  | _, [] => []
  | s, e :: rest =>
      (((use s e).filter fun l => l.key = key && l.asks (view s)).map Lookup.now).toList ++
        askedAt key (step s e) rest

variable {view use step} {ttl : Nat} {time : Event → Nat} {key : κ} {s : State}

theorem mem_asked_head {e : Event} {t : Nat}
    (h : t ∈ (((use s e).filter fun l => l.key = key && l.asks (view s)).map Lookup.now).toList) :
    ∃ l, use s e = some l ∧ l.key = key ∧ l.asks (view s) = true ∧ t = l.now := by
  obtain ⟨l, hl, rfl⟩ := Option.map_eq_some_iff.mp (Option.mem_toList.mp h)
  rw [Option.filter_eq_some_iff, Bool.and_eq_true, decide_eq_true_iff] at hl
  exact ⟨l, hl.1, hl.2.1, hl.2.2, rfl⟩

variable (htime : ∀ s e l, use s e = some l → l.now = time e)

include htime

theorem asked_times {events : List Event} {t : Nat} (h : t ∈ askedAt view use step key s events) :
    ∃ e ∈ events, t = time e := by
  induction events generalizing s with
  | nil => cases h
  | cons e rest ih =>
      rcases List.mem_append.mp h with hhead | hrest
      · obtain ⟨l, huse, -, -, rfl⟩ := mem_asked_head hhead
        exact ⟨e, List.mem_cons_self, htime s e l huse⟩
      · obtain ⟨e', he', rfl⟩ := ih hrest
        exact ⟨e', List.mem_cons_of_mem _ he', rfl⟩

variable (hstep : ∀ s e,
  view (step s e) = ((use s e).map fun l => l.serve ttl (view s)).getD (view s))

include hstep

theorem asked_after {events : List Event} (hsorted : events.Pairwise fun e e' => time e ≤ time e')
    {c : Cached α} (hkept : (view s).lookup key = some c) :
    ∀ t ∈ askedAt view use step key s events, c.expires ≤ t := by
  induction events generalizing s with
  | nil =>
      intro t ht
      cases ht
  | cons e rest ih =>
      intro t ht
      obtain ⟨hlater, hrest⟩ := List.pairwise_cons.mp hsorted
      by_cases hnow : time e < c.expires
      · cases huse : use s e with
        | none =>
            have hsame : view (step s e) = view s := by
              rw [hstep, huse]
              rfl
            rw [askedAt, huse] at ht
            exact ih hrest (hsame ▸ hkept) t ht
        | some l =>
            have hl : l.now < c.expires := by
              rw [htime s e l huse]
              exact hnow
            obtain ⟨hserved, hquiet⟩ := l.serve_live ttl hkept hl
            have hview : view (step s e) = l.serve ttl (view s) := by
              rw [hstep, huse]
              rfl
            rcases List.mem_append.mp ht with hhead | htail
            · obtain ⟨l', huse', hkey, hasks, -⟩ := mem_asked_head hhead
              obtain rfl := Option.some.inj (huse.symm.trans huse')
              rw [hquiet hkey] at hasks
              cases hasks
            · exact ih hrest (hview ▸ hserved) t htail
      · obtain ⟨e', he', rfl⟩ := asked_times htime ht
        have hfirst : time e ≤ time e' := by
          rcases List.mem_cons.mp he' with rfl | hmem
          · exact Nat.le_refl _
          · exact hlater e' hmem
        omega

-- From one answer to the next, the time to live goes by.
theorem asked_apart {events : List Event} (hsorted : events.Pairwise fun e e' => time e ≤ time e')
    (s : State) :
    (askedAt view use step key s events).Pairwise fun t t' => t + ttl ≤ t' := by
  induction events generalizing s with
  | nil => exact List.Pairwise.nil
  | cons e rest ih =>
      obtain ⟨hlater, hrest⟩ := List.pairwise_cons.mp hsorted
      refine List.pairwise_append.mpr ⟨?_, ih hrest (step s e), ?_⟩
      · cases (use s e).filter fun l => l.key = key && l.asks (view s) with
        | none => exact List.Pairwise.nil
        | some l => exact List.pairwise_singleton _ _
      · intro t hhead t' htail
        obtain ⟨l, huse, hkey, hasks, rfl⟩ := mem_asked_head hhead
        have hview : view (step s e) = l.serve ttl (view s) := by
          rw [hstep, huse]
          rfl
        obtain ⟨value, hkept⟩ := l.kept_of_asks ttl hasks
        rw [hkey, ← hview] at hkept
        exact asked_after htime hstep hrest hkept t' htail

end Runs

-- Moments that are this far apart are few.
theorem length_apart {ttl first last : Nat} {times : List Nat}
    (hapart : times.Pairwise fun t t' => t + ttl ≤ t')
    (hwithin : ∀ t ∈ times, first ≤ t ∧ t ≤ last) :
    (times.length - 1) * ttl ≤ last - first := by
  have hbound : ∀ (t : Nat) (rest : List Nat), (t :: rest).Pairwise (fun t t' => t + ttl ≤ t') →
      (∀ t' ∈ t :: rest, t' ≤ last) → t + rest.length * ttl ≤ last := by
    intro t rest hrest hlast
    induction rest generalizing t with
    | nil => simpa using hlast t List.mem_cons_self
    | cons t' rest ih =>
        obtain ⟨hfirst, hothers⟩ := List.pairwise_cons.mp hrest
        have hstep := hfirst t' List.mem_cons_self
        have hlater := ih t' hothers fun t'' ht => hlast t'' (List.mem_cons_of_mem _ ht)
        rw [List.length_cons, Nat.succ_mul]
        omega
  cases times with
  | nil => simp
  | cons t rest =>
      have hlast := hbound t rest hapart fun t' ht => (hwithin t' ht).2
      have hfirst := (hwithin t List.mem_cons_self).1
      rw [List.length_cons, Nat.add_sub_cancel]
      omega

section Requests

variable [Sha2] [Base64] (cfg : K8sAuthConfig) (state : AppState)

-- The token that a use of the authenticator is about.
def Visit.reviewable (v : Visit) : Option Text :=
  match v.op with
  | none => v.token
  | some op => if op.action = .version ∨ exempt cfg v.peer then none else v.token

def Visit.tokenUse (v : Visit) : Option (Lookup String TokenVerdict) :=
  (v.reviewable cfg).map fun token =>
    ⟨v.now, cacheKey token, (v.reviewer.reviewToken token).toOption⟩

-- The access that is reviewed, once the token is.
def Visit.accessUse (caches : Caches) (v : Visit) : Option (Lookup Text Bool) := do
  let op ← v.op
  let token ← v.reviewable cfg
  let verdict ← (tokenReviewCached cfg v.reviewer v.now token caches).1.toOption
  if verdict.authenticated then
    let ns ← namespaceFor cfg op
    let review := accessReview cfg op verdict ns
    some ⟨v.now, sarKey review, (v.reviewer.reviewAccess review).toOption⟩
  else none

omit [Base64] in
theorem tokenReviewCached_serve (reviewer : Reviewer) (now : Nat) (token : Text) (caches : Caches) :
    (tokenReviewCached cfg reviewer now token caches).2 = { caches with
      token := (⟨now, cacheKey token, (reviewer.reviewToken token).toOption⟩ :
        Lookup String TokenVerdict).serve cfg.cacheTtl caches.token } := by
  rw [tokenReviewCached, Lookup.serve]
  rcases getCached caches.token (cacheKey token) now with ⟨found, cache⟩
  cases found with
  | some verdict => rfl
  | none => cases reviewer.reviewToken token <;> rfl

omit [Sha2] [Base64] in
theorem sarCached_serve (reviewer : Reviewer) (now : Nat) (review : AccessReview)
    (caches : Caches) :
    (sarCached cfg reviewer now review caches).2 = { caches with
      sar := (⟨now, sarKey review, (reviewer.reviewAccess review).toOption⟩ :
        Lookup Text Bool).serve cfg.cacheTtl caches.sar } := by
  rw [sarCached, Lookup.serve]
  rcases getCached caches.sar (sarKey review) now with ⟨found, cache⟩
  cases found with
  | some allowed => rfl
  | none => cases reviewer.reviewAccess review <;> rfl

-- A visit uses each of the caches once, or not at all.
theorem Visit.serve_uses (v : Visit) (caches : Caches) : v.serve cfg caches =
    ⟨((v.tokenUse cfg).map fun l => l.serve cfg.cacheTtl caches.token).getD caches.token,
      ((v.accessUse cfg caches).map fun l => l.serve cfg.cacheTtl caches.sar).getD caches.sar⟩ := by
  have htoken := fun token => tokenReviewCached_serve cfg v.reviewer v.now token caches
  rw [serve, tokenUse, accessUse, reviewable]
  cases hop : v.op with
  | none =>
      cases v.token with
      | none => rfl
      | some token => exact htoken token
  | some op =>
      simp only [check]
      by_cases hversion : op.action = .version
      · simp only [hversion, if_true, true_or]
        rfl
      · by_cases hexempt : exempt cfg v.peer = true
        · simp only [hversion, hexempt, if_true, if_false, or_true]
          rfl
        · simp only [hversion, hexempt, if_false, Bool.false_eq_true, or_self, token]
          cases extractToken v.authorization with
          | none => rfl
          | some token =>
              have hserved := htoken token
              simp only [Option.bind_some, Option.map_some, Option.getD_some, Option.bind_eq_bind]
              rcases hreview : tokenReviewCached cfg v.reviewer v.now token caches with
                ⟨result, caches'⟩
              rw [hreview] at hserved
              have hcaches : caches' = _ := hserved
              cases result with
              | error err => exact hcaches
              | ok verdict =>
                  have hverdict : (Except.ok verdict : Except AuthReject TokenVerdict).toOption =
                      some verdict := rfl
                  simp only [hverdict, Option.bind_some]
                  cases verdict.authenticated with
                  | false => exact hcaches
                  | true =>
                      simp only [Bool.not_true, Bool.false_eq_true, if_false, if_true]
                      cases namespaceFor cfg op with
                      | none => exact hcaches
                      | some ns =>
                          have haccess := sarCached_serve cfg v.reviewer v.now
                            (accessReview cfg op verdict ns) caches'
                          simp only [Option.bind_some, Option.map_some, Option.getD_some]
                          rcases hsar : sarCached cfg v.reviewer v.now
                            (accessReview cfg op verdict ns) caches' with ⟨answer, caches''⟩
                          rw [hsar] at haccess
                          have hlast : caches'' = _ := haccess
                          rw [hcaches] at hlast
                          cases answer <;> exact hlast

def tokenUse (a : Arrival) : Option (Lookup String TokenVerdict) :=
  (a.visit state).bind (Visit.tokenUse cfg)

def accessUse (caches : Caches) (a : Arrival) : Option (Lookup Text Bool) :=
  (a.visit state).bind (Visit.accessUse cfg caches)

def admitted (caches : Caches) (a : Arrival) : Caches := (admission cfg state a caches).2

-- The moments at which the API server reviews a token of the key, or an access of the key.
def tokenReviews (key : String) (arrivals : List Arrival) : List Nat :=
  askedAt Caches.token (fun _ a => tokenUse cfg state a) (admitted cfg state) key .empty arrivals

def accessReviews (key : Text) (arrivals : List Arrival) : List Nat :=
  askedAt Caches.sar (accessUse cfg state) (admitted cfg state) key .empty arrivals

theorem admitted_uses (caches : Caches) (a : Arrival) : admitted cfg state caches a =
    ⟨((tokenUse cfg state a).map fun l => l.serve cfg.cacheTtl caches.token).getD caches.token,
      ((accessUse cfg state caches a).map fun l => l.serve cfg.cacheTtl caches.sar).getD
        caches.sar⟩ := by
  rw [admitted, admission_caches, tokenUse, accessUse]
  cases a.visit state with
  | none => rfl
  | some v => exact v.serve_uses cfg caches

omit [Sha2] [Base64] in
theorem visit_now {a : Arrival} {v : Visit} (h : a.visit state = some v) : v.now = a.now := by
  rw [Arrival.visit] at h
  split at h
  · cases h
  · split at h
    · split at h
      · rw [← Option.some.inj h]
      · cases h
    · rw [← Option.some.inj h]

theorem tokenUse_now {a : Arrival} {l : Lookup String TokenVerdict}
    (h : tokenUse cfg state a = some l) : l.now = a.now := by
  obtain ⟨v, hvisit, huse⟩ := Option.bind_eq_some_iff.mp h
  obtain ⟨token, -, rfl⟩ := Option.map_eq_some_iff.mp huse
  exact visit_now state hvisit

theorem accessUse_now {caches : Caches} {a : Arrival} {l : Lookup Text Bool}
    (h : accessUse cfg state caches a = some l) : l.now = a.now := by
  obtain ⟨v, hvisit, huse⟩ := Option.bind_eq_some_iff.mp h
  obtain ⟨op, -, huse⟩ := Option.bind_eq_some_iff.mp huse
  obtain ⟨token, -, huse⟩ := Option.bind_eq_some_iff.mp huse
  obtain ⟨verdict, -, huse⟩ := Option.bind_eq_some_iff.mp huse
  split at huse
  · obtain ⟨ns, -, huse⟩ := Option.bind_eq_some_iff.mp huse
    rw [← Option.some.inj huse]
    exact visit_now state hvisit
  · cases huse

-- A flood of requests does not become a flood of reviews: for one key of either cache the
-- API server answers one review in a time to live.
theorem one_review_per_ttl {arrivals : List Arrival}
    (hsorted : arrivals.Pairwise fun a a' => a.now ≤ a'.now) (token : String) (access : Text) :
    ((tokenReviews cfg state token arrivals).Pairwise fun t t' => t + cfg.cacheTtl ≤ t') ∧
    ((accessReviews cfg state access arrivals).Pairwise fun t t' => t + cfg.cacheTtl ≤ t') ∧
    ∀ first last, (∀ a ∈ arrivals, first ≤ a.now ∧ a.now ≤ last) →
      ((tokenReviews cfg state token arrivals).length - 1) * cfg.cacheTtl ≤ last - first ∧
        ((accessReviews cfg state access arrivals).length - 1) * cfg.cacheTtl ≤ last - first := by
  have htokens : ∀ (s : Caches) (a : Arrival) l, tokenUse cfg state a = some l → l.now = a.now :=
    fun _ _ _ => tokenUse_now cfg state
  have haccesses : ∀ (s : Caches) (a : Arrival) l, accessUse cfg state s a = some l →
      l.now = a.now :=
    fun _ _ _ => accessUse_now cfg state
  have hapart : (tokenReviews cfg state token arrivals).Pairwise fun t t' => t + cfg.cacheTtl ≤ t' :=
    asked_apart htokens (fun s a => congrArg Caches.token (admitted_uses cfg state s a)) hsorted _
  have hapart' : (accessReviews cfg state access arrivals).Pairwise
      fun t t' => t + cfg.cacheTtl ≤ t' :=
    asked_apart haccesses (fun s a => congrArg Caches.sar (admitted_uses cfg state s a)) hsorted _
  refine ⟨hapart, hapart', fun first last hwithin => ⟨?_, ?_⟩⟩
  · refine length_apart hapart fun t ht => ?_
    obtain ⟨a, ha, rfl⟩ := asked_times htokens ht
    exact hwithin a ha
  · refine length_apart hapart' fun t ht => ?_
    obtain ⟨a, ha, rfl⟩ := asked_times haccesses ht
    exact hwithin a ha

end Requests

section

attribute [local instance] Sample.sha2 bearerOnly

-- A push that is sent twice, the second time with what is known.
theorem push_reviewed_once :
    (tokenReviews sampleConfig fullState (cacheKey "x".toList) [pushAt 0, pushAt 1]).Pairwise
      fun t t' => t + 120 ≤ t' :=
  (one_review_per_ttl sampleConfig fullState (by simp [pushAt]) _ []).1

end

end RspaceRegistry.Http
