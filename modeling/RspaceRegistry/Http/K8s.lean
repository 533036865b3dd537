import Mathlib.Data.List.AList
import RspaceRegistry.Digest
import RspaceRegistry.Http.Classify

namespace RspaceRegistry.Http

structure TokenVerdict where
  authenticated : Bool
  username : Text
  uid : Text
  groups : List Text
  error : Option Text
deriving DecidableEq

structure AccessReview where
  user : Text
  uid : Text
  groups : List Text
  ns : Text
  verb : Text
  group : Text
  resource : Text
deriving DecidableEq

inductive ReviewError
  | unreachable (message : Text)
  | apiError (message : Text)
deriving DecidableEq

-- The API server as it answers at one moment.
structure Reviewer where
  reviewToken : Text → Except ReviewError TokenVerdict
  reviewAccess : AccessReview → Except ReviewError Bool

-- Why a request was refused. The text of a denial is made of the review that
-- was denied, if there was one.
inductive AuthReject
  | unauthorized (message : Text)
  | noNamespace
  | denied (review : AccessReview)
  | unavailable (err : ReviewError)
deriving DecidableEq

-- The `base64` crate: `STANDARD.decode`.
class Base64 where
  decode : Text → Option Bytes

inductive IpAddr
  | v4 (bits : BitVec 32)
  | v6 (bits : BitVec 128)
deriving DecidableEq

def isLoopbackV4 (bits : BitVec 32) : Bool := bits >>> 24 = 127

def isLoopback : IpAddr → Bool
  | .v4 bits => isLoopbackV4 bits
  | .v6 bits => bits = 1 || (bits >>> 32 = 0xffff && isLoopbackV4 (bits.setWidth 32))

def isAsciiSpace (c : Char) : Bool := c.toNat = 0x20 || (0x09 ≤ c.toNat && c.toNat ≤ 0x0d)

-- `str::trim`; the value of a header has only ASCII characters.
def trim (s : Text) : Text :=
  ((s.dropWhile isAsciiSpace).reverse.dropWhile isAsciiSpace).reverse

def stripCi (s front : Text) : Option Text :=
  if (s.take front.length).map Char.toLower = front.map Char.toLower then some (s.drop front.length)
  else none

-- The token in the value of the `Authorization` header.
def extractToken [Base64] (authorization : Option Text) : Option Text :=
  authorization.bind fun raw =>
    match stripCi raw "Bearer ".toList with
    | some rest => if trim rest = [] then none else some (trim rest)
    | none =>
        (stripCi raw "Basic ".toList).bind fun rest =>
          (Base64.decode (trim rest)).bind fun decoded =>
            (String.fromUTF8? ⟨decoded.toArray⟩).bind fun s =>
              (Cuts.cutOnce ':' s.toList).bind fun parts =>
                if parts.2 = [] then none else some parts.2

-- A verdict that is kept for a while.
structure Cached (α : Type) where
  value : α
  expires : Nat

abbrev Cache (κ α : Type) [DecidableEq κ] : Type := AList fun _ : κ => Cached α

section Cache

variable {κ α : Type} [DecidableEq κ]

-- An entry that has expired is taken out.
def getCached (cache : Cache κ α) (key : κ) (now : Nat) : Option α × Cache κ α :=
  match cache.lookup key with
  | some c => if c.expires > now then (some c.value, cache) else (none, cache.erase key)
  | none => (none, cache)

theorem getCached_eq_some {cache : Cache κ α} {key : κ} {now : Nat} {value : α}
    (h : (getCached cache key now).1 = some value) :
    ∃ expires, cache.lookup key = some ⟨value, expires⟩ ∧ now < expires := by
  rw [getCached] at h
  cases hlookup : cache.lookup key with
  | none =>
      rw [hlookup] at h
      cases h
  | some c =>
      rw [hlookup] at h
      simp only at h
      split at h
      · rename_i hlive
        obtain rfl := Option.some.inj h
        exact ⟨c.expires, rfl, hlive⟩
      · cases h

theorem lookup_getCached {cache : Cache κ α} {key : κ} {now : Nat} {other : κ} {c : Cached α}
    (h : (getCached cache key now).2.lookup other = some c) : cache.lookup other = some c := by
  rw [getCached] at h
  cases hlookup : cache.lookup key with
  | none =>
      rw [hlookup] at h
      exact h
  | some entry =>
      rw [hlookup] at h
      simp only at h
      split at h
      · exact h
      · by_cases hkey : other = key
        · rw [hkey, AList.lookup_erase] at h
          cases h
        · rwa [AList.lookup_erase_ne hkey] at h

def putCached (cache : Cache κ α) (key : κ) (value : α) (now ttl : Nat) : Cache κ α :=
  cache.insert key ⟨value, now + ttl⟩

theorem lookup_putCached {cache : Cache κ α} {key : κ} {value : α} {now ttl : Nat} {other : κ}
    {c : Cached α} (h : (putCached cache key value now ttl).lookup other = some c) :
    other = key ∧ c = ⟨value, now + ttl⟩ ∨ cache.lookup other = some c := by
  rw [putCached] at h
  by_cases hkey : other = key
  · rw [hkey, AList.lookup_insert] at h
    exact .inl ⟨hkey, (Option.some.inj h).symm⟩
  · rw [AList.lookup_insert_ne hkey] at h
    exact .inr h

end Cache

structure Caches where
  token : Cache String TokenVerdict
  sar : Cache Text Bool

def Caches.empty : Caches := ⟨∅, ∅⟩

def cacheKey [Sha2] (token : Text) : String :=
  (sha256Digest (String.ofList token).toUTF8.data.toList).hex

-- `"{}\u{1f}{}\u{1f}{}\u{1f}{}\u{1f}{}"`
def sarKey (review : AccessReview) : Text :=
  review.user ++ '\x1f' :: (review.ns ++ '\x1f' :: (review.verb ++ '\x1f' :: (review.group ++
    '\x1f' :: review.resource)))

section Check

variable [Sha2] (cfg : K8sAuthConfig) (reviewer : Reviewer) (now : Nat)

def tokenReviewCached (token : Text) (caches : Caches) :
    Except AuthReject TokenVerdict × Caches :=
  match getCached caches.token (cacheKey token) now with
  | (some verdict, cache) => (.ok verdict, { caches with token := cache })
  | (none, cache) =>
      match reviewer.reviewToken token with
      | .error err => (.error (.unavailable err), { caches with token := cache })
      | .ok verdict =>
          (.ok verdict,
            { caches with token := putCached cache (cacheKey token) verdict now cfg.cacheTtl })

omit [Sha2] in
def sarCached (review : AccessReview) (caches : Caches) : Except AuthReject Bool × Caches :=
  match getCached caches.sar (sarKey review) now with
  | (some allowed, cache) => (.ok allowed, { caches with sar := cache })
  | (none, cache) =>
      match reviewer.reviewAccess review with
      | .error err => (.error (.unavailable err), { caches with sar := cache })
      | .ok allowed =>
          (.ok allowed,
            { caches with sar := putCached cache (sarKey review) allowed now cfg.cacheTtl })

-- The review of an operation for an identity.
def accessReview (op : Operation) (verdict : TokenVerdict) (ns : Text) : AccessReview where
  user := verdict.username
  uid := verdict.uid
  groups := verdict.groups
  ns := ns
  verb := op.action.verb
  group := cfg.resourceGroup
  resource := cfg.resource

-- What loopback clients are spared.
def exempt (peer : Option IpAddr) : Bool := cfg.allowLoopback && peer.any isLoopback

def check [Base64] (op : Operation) (authorization : Option Text) (peer : Option IpAddr)
    (caches : Caches) : Except AuthReject Unit × Caches :=
  if op.action = .version then (.ok (), caches)
  else if exempt cfg peer then (.ok (), caches)
  else
    match extractToken authorization with
    | none => (.error (.unauthorized "no bearer token presented".toList), caches)
    | some token =>
        match tokenReviewCached cfg reviewer now token caches with
        | (.error err, caches) => (.error err, caches)
        | (.ok verdict, caches) =>
            if !verdict.authenticated then
              (.error (.unauthorized (verdict.error.getD "token failed authentication".toList)),
                caches)
            else
              match namespaceFor cfg op with
              | none => (.error .noNamespace, caches)
              | some ns =>
                  match sarCached cfg reviewer now (accessReview cfg op verdict ns) caches with
                  | (.error err, caches) => (.error err, caches)
                  | (.ok allowed, caches) =>
                      (if allowed then .ok () else .error (.denied (accessReview cfg op verdict ns)),
                        caches)

-- The same decision with every question asked anew.
def checkUncached [Base64] (op : Operation) (authorization : Option Text) (peer : Option IpAddr) :
    Except AuthReject Unit :=
  if op.action = .version then .ok ()
  else if exempt cfg peer then .ok ()
  else
    match extractToken authorization with
    | none => .error (.unauthorized "no bearer token presented".toList)
    | some token =>
        match reviewer.reviewToken token with
        | .error err => .error (.unavailable err)
        | .ok verdict =>
            if !verdict.authenticated then
              .error (.unauthorized (verdict.error.getD "token failed authentication".toList))
            else
              match namespaceFor cfg op with
              | none => .error .noNamespace
              | some ns =>
                  match reviewer.reviewAccess (accessReview cfg op verdict ns) with
                  | .error err => .error (.unavailable err)
                  | .ok allowed =>
                      if allowed then .ok () else .error (.denied (accessReview cfg op verdict ns))

end Check

end RspaceRegistry.Http
