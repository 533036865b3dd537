import RspaceRegistry.Stores.Method
import Mathlib.Logic.Function.Basic

namespace RspaceRegistry.Stores

open Calls Disk Ordered

-- Quotas in front of a router.

structure Quota where
  pattern : String
  maxBytes : UInt64
deriving DecidableEq

-- `Iterator::max_by_key`, which of several greatest values takes the last.
def maxByKey {α : Type} (key : α → Nat) : List α → Option α
  | [] => none
  | first :: rest => some (rest.foldl (fun best next => if key best ≤ key next then next else best) first)

def matchingQuota (quotas : List Quota) (repo : String) : Option Quota :=
  maxByKey (fun quota => quota.pattern.utf8ByteSize)
    (quotas.filter fun quota => globMatch quota.pattern repo)

structure Cached where
  value : Nat
  expires : Nat
deriving DecidableEq

-- The usage of each backend, as it was last measured or counted up, and what lies
-- below.
structure QuotaState (σ : Type) where
  usage : Backend → Option Cached
  store : σ

-- What `Instant::now()` reads before a usage is looked up, and after one is measured.
structure Clock where
  now : Nat
  later : Nat

-- `u64::saturating_add`
def saturatingAdd (a b : Nat) : Nat := min (a + b) (2 ^ 64 - 1)

section Used

variable {σ : Type}

-- The sum of the sizes in a `u64`; a blob without a size counts nothing.
def addSizes (store : Store σ) : List Digest → Nat → Method σ Nat
  | [], total, s => (.ok total, s)
  | d :: rest, total, s =>
      match store (.blobSize "" d) s with
      | (.ok size, s) => addSizes store rest ((total + size) % 2 ^ 64) s
      | (.error _, s) => addSizes store rest total s

def usedBytes (store : Store σ) : Method σ Nat := fun s =>
  match store .listAllBlobs s with
  | (.error err, s) => (.error err, s)
  | (.ok blobs, s) => addSizes store blobs.toList 0 s

end Used

-- `QuotaStorage`, with its router and what its children are made of.
structure QuotaStorage (σ : Type) where
  disk : RootId → Store σ
  router : RepoRouter
  quotas : List Quota
  ttl : Nat

namespace QuotaStorage

variable {σ : Type} (qs : QuotaStorage σ)

def usageOf (clock : Clock) (backend : Backend) : Method (QuotaState σ) Nat := fun s =>
  match (s.usage backend).filter fun cached => clock.now < cached.expires with
  | some cached => (.ok cached.value, s)
  | none =>
      match usedBytes (backend.serve qs.disk) s.store with
      | (.error err, store) => (.error err, { s with store })
      | (.ok used, store) =>
          (.ok used, ⟨Function.update s.usage backend (some ⟨used, clock.later + qs.ttl⟩), store⟩)

-- An entry is counted up whether it is still fresh or not.
def bump (backend : Backend) (delta : Nat) (s : QuotaState σ) : QuotaState σ :=
  let counted := (s.usage backend).map fun cached =>
    { cached with value := saturatingAdd cached.value delta }
  { s with usage := Function.update s.usage backend counted }

def exceeded (quota : Quota) (used incoming : Nat) : StorageError :=
  .quotaExceeded ("class " ++ quota.pattern.quote ++ ": " ++ toString used ++ " B used + " ++
    toString incoming ++ " B incoming exceeds limit " ++ toString quota.maxBytes.toNat ++ " B")

def enforce (clock : Clock) (repo : String) (incoming : Nat) : Method (QuotaState σ) Unit := fun s =>
  match matchingQuota qs.quotas repo with
  | none => (.ok (), s)
  | some quota =>
      match qs.usageOf clock (qs.router.resolve repo) s with
      | (.error err, s) => (.error err, s)
      | (.ok used, s) =>
          if saturatingAdd used incoming > quota.maxBytes.toNat then
            (.error (exceeded quota used incoming), s)
          else (.ok (), s)

-- A call of the router below.
def below (op : StoreOp) : Method (QuotaState σ) op.Value := fun s =>
  let (answer, store) := qs.router.serve qs.disk op s.store
  (answer, { s with store })

-- A write is counted once it is done.
def counted (backend : Backend) (incoming : Nat) :
    Except StorageError Unit × QuotaState σ → Except StorageError Unit × QuotaState σ
  | (.error err, s) => (.error err, s)
  | (.ok _, s) => (.ok (), bump backend incoming s)

-- The check is made with the size that comes in.
def guarded (clock : Clock) (repo : String) (incoming : Nat) (write : Method (QuotaState σ) Unit) :
    Method (QuotaState σ) Unit := fun s =>
  match qs.enforce clock repo incoming s with
  | (.error err, s) => (.error err, s)
  | (.ok _, s) => counted (qs.router.resolve repo) incoming (write s)

-- A blob that is not new adds no bytes.
def blobWrite (clock : Clock) (repo : String) (expected : Digest) (content : Bytes) :
    Method (QuotaState σ) Unit := fun s =>
  match qs.below (.request (.blobExists repo expected)) s with
  | (.error err, s) => (.error err, s)
  | (.ok true, s) => qs.below (.request (.blobWrite repo expected content)) s
  | (.ok false, s) =>
      qs.guarded clock repo content.length (qs.below (.request (.blobWrite repo expected content))) s

-- The size comes from the session, and is 0 where there is none.
def uploadFinalize (clock : Clock) (repo id : String) (expected : Digest) :
    Method (QuotaState σ) Unit := fun s =>
  match qs.below (.request (.blobExists repo expected)) s with
  | (.error err, s) => (.error err, s)
  | (.ok true, s) => qs.below (.request (.uploadFinalize repo id expected)) s
  | (.ok false, s) =>
      let (status, s) := qs.below (.request (.uploadStatus repo id)) s
      let size := match status with
        | .ok status => status.offset
        | .error _ => 0
      qs.guarded clock repo size (qs.below (.request (.uploadFinalize repo id expected))) s

def serve (clock : Clock) : Store (QuotaState σ)
  | .request (.blobWrite repo expected content) => qs.blobWrite clock repo expected content
  | .request (.uploadFinalize repo id expected) => qs.uploadFinalize clock repo id expected
  | op => qs.below op

end QuotaStorage

end RspaceRegistry.Stores
