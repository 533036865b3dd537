import RspaceRegistry.Http.Handlers
import RspaceRegistry.Stores.Guard

namespace RspaceRegistry.Stores

open Calls Disk Files Ordered Places

-- What the handlers are given: the files of one directory, a router over directories,
-- or quotas in front of such a router.
inductive Layer
  | fs (root : RootId)
  | routed (router : RepoRouter)
  | quota (router : RepoRouter) (quotas : List Quota) (ttl : Nat)

-- What a call finds around it: the time, and the directories that keep their sessions
-- on another file system.
structure Moment where
  clock : Clock
  apart : RootId → Option IoError

-- The same blobs in every directory.
def SameBlobs (trees trees' : Trees) : Prop :=
  ∀ root, (shelf (trees' root)).blobs = (shelf (trees root)).blobs

namespace SameBlobs

variable {trees trees' : Trees}

theorem blobIn_eq (h : SameBlobs trees trees') (roots : List RootId) (d : Digest) :
    blobIn trees' roots d = blobIn trees roots d := by
  apply first_congr
  intro root _
  rw [blobSlot, blobSlot, h root]

theorem sizes_eq (h : SameBlobs trees trees') (b : Backend) : sizes trees' b = sizes trees b :=
  sizes_congr fun root _ => h root

end SameBlobs

section Alike

variable [Sha2] (router : RepoRouter) (quotas : List Quota) (ttl : Nat)
variable (apart : RootId → Option IoError) (clock : Clock) {s s' : QuotaState Trees}

-- An entry that has not expired.
def fresh (b : Backend) (s : QuotaState Trees) : Option Cached :=
  (s.usage b).filter fun cached => clock.now < cached.expires

def measured (b : Backend) (trees : Trees) : Nat :=
  match (usedBytes (b.serve (onTrees apart)) trees).1 with
  | .ok used => used
  | .error _ => 0

-- The usage that a check goes by, and the entries after it.
def usedNow (b : Backend) (s : QuotaState Trees) : Nat :=
  match fresh clock b s with
  | some cached => cached.value
  | none => measured apart b s.store

def usageAfter (b : Backend) (s : QuotaState Trees) : Backend → Option Cached :=
  match fresh clock b s with
  | some _ => s.usage
  | none => Function.update s.usage b (some ⟨measured apart b s.store, clock.later + ttl⟩)

theorem usageOf_eq (h : Sound s.store) (b : Backend) :
    (quotaOn router quotas ttl apart).usageOf clock b s =
      (.ok (usedNow apart clock b s), { s with usage := usageAfter ttl apart clock b s }) := by
  rw [QuotaStorage.usageOf, usageAfter, usedNow, ← fresh]
  cases fresh clock b s with
  | some cached => rfl
  | none =>
      obtain ⟨total, -, hused⟩ := usedBytes_eq apart b h
      have hmeasured : usedBytes (b.serve (quotaOn router quotas ttl apart).disk) s.store =
          (.ok (total % 2 ^ 64), s.store) := hused
      simp only [hmeasured, measured, hused]
      rfl

theorem measured_alike (h : Sound s.store) (h' : Sound s'.store)
    (hblobs : SameBlobs s.store s'.store) (b : Backend) :
    measured apart b s'.store = measured apart b s.store := by
  obtain ⟨total, hweighs, hused⟩ := usedBytes_eq apart b h
  obtain ⟨total', hweighs', hused'⟩ := usedBytes_eq apart b h'
  rw [hblobs.sizes_eq] at hweighs'
  rw [measured, measured, hused, hused', hweighs.unique hweighs']

-- The blobs and the entries decide what a check goes by.
theorem usedNow_alike (h : Sound s.store) (h' : Sound s'.store)
    (hblobs : SameBlobs s.store s'.store) (husage : s'.usage = s.usage) (b : Backend) :
    usedNow apart clock b s' = usedNow apart clock b s ∧
      usageAfter ttl apart clock b s' = usageAfter ttl apart clock b s := by
  unfold usedNow usageAfter fresh
  rw [husage, measured_alike apart h h' hblobs]
  exact ⟨rfl, rfl⟩

-- What the check has against the bytes.
def refusal (repo : String) (incoming : Nat) (s : QuotaState Trees) : Option StorageError :=
  (matchingQuota quotas repo).bind fun quota =>
    if saturatingAdd (usedNow apart clock (router.resolve repo) s) incoming > quota.maxBytes.toNat then
      some (QuotaStorage.exceeded quota (usedNow apart clock (router.resolve repo) s) incoming)
    else none

def entriesAfter (repo : String) (s : QuotaState Trees) : Backend → Option Cached :=
  match matchingQuota quotas repo with
  | none => s.usage
  | some _ => usageAfter ttl apart clock (router.resolve repo) s

theorem enforce_eq (h : Sound s.store) (repo : String) (incoming : Nat) :
    (quotaOn router quotas ttl apart).enforce clock repo incoming s =
      ((refusal router quotas apart clock repo incoming s).elim (.ok ()) .error,
        { s with usage := entriesAfter router quotas ttl apart clock repo s }) := by
  rw [QuotaStorage.enforce, refusal, entriesAfter]
  show (match matchingQuota quotas repo with
    | none => (Except.ok (), s)
    | some quota => _) = _
  cases matchingQuota quotas repo with
  | none => rfl
  | some quota =>
      have hused : (quotaOn router quotas ttl apart).usageOf clock
          ((quotaOn router quotas ttl apart).router.resolve repo) s = _ :=
        usageOf_eq router quotas ttl apart clock h (router.resolve repo)
      simp only [hused, Option.bind_some]
      split <;> rfl

-- The check and the write, once the entries are known.
theorem checked_eq (h : Sound s.store) (repo : String) (d : Digest) (incoming : Nat)
    (write : Method Trees Unit) : checked router quotas ttl apart clock repo d incoming write s =
      if (blobIn s.store (router.resolve repo).readOrder d).isSome then passOn write s
      else
        let usage := entriesAfter router quotas ttl apart clock repo s
        match refusal router quotas apart clock repo incoming s with
        | some err => (.error err, { s with usage })
        | none => QuotaStorage.counted (router.resolve repo) incoming
            ((write s.store).1, ⟨usage, (write s.store).2⟩) := by
  rw [checked, QuotaStorage.guarded, enforce_eq router quotas ttl apart clock h]
  split
  · rfl
  · cases refusal router quotas apart clock repo incoming s <;> rfl

theorem refusal_alike (h : Sound s.store) (h' : Sound s'.store)
    (hblobs : SameBlobs s.store s'.store) (husage : s'.usage = s.usage) (repo : String)
    (incoming : Nat) :
    refusal router quotas apart clock repo incoming s' =
        refusal router quotas apart clock repo incoming s ∧
      entriesAfter router quotas ttl apart clock repo s' =
        entriesAfter router quotas ttl apart clock repo s := by
  obtain ⟨hused, hafter⟩ :=
    usedNow_alike ttl apart clock h h' hblobs husage (router.resolve repo)
  unfold refusal entriesAfter
  rw [hused, hafter, husage]
  exact ⟨rfl, rfl⟩

omit [Sha2] in
theorem counted_fst (b : Backend) (incoming : Nat)
    (result : Except StorageError Unit × QuotaState Trees) :
    (QuotaStorage.counted b incoming result).1 = result.1 ∧
      (QuotaStorage.counted b incoming result).2.store = result.2.store := by
  obtain ⟨answer, s⟩ := result
  cases answer <;> exact ⟨rfl, rfl⟩

omit [Sha2] in
theorem counted_usage (b : Backend) (incoming : Nat) (answer : Except StorageError Unit)
    (usage : Backend → Option Cached) (trees trees' : Trees) :
    (QuotaStorage.counted b incoming (answer, ⟨usage, trees⟩)).2.usage =
      (QuotaStorage.counted b incoming (answer, ⟨usage, trees'⟩)).2.usage := by
  cases answer <;> rfl

end Alike

namespace Layer

variable [Sha2]

-- The backend that works for a repository.
def home (repo : String) : Layer → Backend
  | .fs root => .fs 0 root
  | .routed router => router.resolve repo
  | .quota router _ _ => router.resolve repo

def serve (m : Moment) : Layer → Store (QuotaState Trees)
  | .fs root => fun op => passOn (onTrees m.apart root op)
  | .routed router => fun op => passOn (router.serve (onTrees m.apart) op)
  | .quota router quotas ttl => (quotaOn router quotas ttl m.apart).serve m.clock

-- As the handlers see it.
def storage (layer : Layer) (m : Moment) : Handler StorageOp StorageOp.Ans (QuotaState Trees) :=
  fun op => layer.serve m (.request op)

-- Both writes of a blob.
def guarded (m : Moment) (repo : String) (d : Digest) (incoming : Nat)
    (write : Method Trees Unit) : Layer → Method (QuotaState Trees) Unit
  | .fs _ => passOn write
  | .routed _ => passOn write
  | .quota router quotas ttl => checked router quotas ttl m.apart m.clock repo d incoming write

-- The blob is there already, or what comes in is within the quota.
def Room (m : Moment) (repo : String) (d : Digest) (incoming : Nat) (s : QuotaState Trees) :
    Layer → Prop
  | .fs _ => True
  | .routed _ => True
  | .quota router quotas _ => (blobIn s.store (router.resolve repo).readOrder d).isSome ∨
      ∀ quota, matchingQuota quotas repo = some quota →
        saturatingAdd (usedNow m.apart m.clock (router.resolve repo) s) incoming ≤
          quota.maxBytes.toNat

variable (layer : Layer) (m : Moment) {s s' : QuotaState Trees} (h : Sound s.store)

include h

theorem storage_blobWrite (repo : String) (d : Digest) (content : Bytes) :
    layer.storage m (.blobWrite repo d content) s =
      layer.guarded m repo d content.length ((layer.home repo).serve (onTrees m.apart)
        (.request (.blobWrite repo d content))) s := by
  cases layer with
  | fs root => rfl
  | routed router => rfl
  | quota router quotas ttl =>
      exact serve_blobWrite router quotas ttl m.apart m.clock h repo d content

theorem storage_uploadFinalize (repo id : String) (d : Digest) :
    layer.storage m (.uploadFinalize repo id d) s =
      layer.guarded m repo d
        (((shelf (s.store (layer.home repo).head)).sessions id).elim 0 List.length)
        ((layer.home repo).serve (onTrees m.apart) (.request (.uploadFinalize repo id d))) s := by
  cases layer with
  | fs root => rfl
  | routed router => rfl
  | quota router quotas ttl =>
      exact serve_uploadFinalize router quotas ttl m.apart m.clock h repo id d

variable (repo : String) (d : Digest) (incoming : Nat) {write write' : Method Trees Unit}

-- Where there is room it is the write that answers.
theorem guarded_cases :
    (layer.Room m repo d incoming s ∧
      (layer.guarded m repo d incoming write s).1 = (write s.store).1 ∧
      (layer.guarded m repo d incoming write s).2.store = (write s.store).2) ∨
    (¬layer.Room m repo d incoming s ∧
      (∃ message, (layer.guarded m repo d incoming write s).1 = .error (.quotaExceeded message)) ∧
      (layer.guarded m repo d incoming write s).2.store = s.store) := by
  cases layer with
  | fs root => exact .inl ⟨trivial, rfl, rfl⟩
  | routed router => exact .inl ⟨trivial, rfl, rfl⟩
  | quota router quotas ttl =>
      simp only [guarded, Room, checked_eq router quotas ttl m.apart m.clock h]
      cases hheld : (blobIn s.store (router.resolve repo).readOrder d).isSome with
      | true => exact .inl ⟨.inl rfl, rfl, rfl⟩
      | false =>
          simp only [Bool.false_eq_true, if_false, false_or]
          rw [refusal]
          cases matchingQuota quotas repo with
          | none =>
              exact .inl ⟨nofun, (counted_fst _ _ _).1, (counted_fst _ _ _).2⟩
          | some quota =>
              simp only [Option.bind_some, Option.some.injEq, forall_eq']
              by_cases hover : saturatingAdd
                  (usedNow m.apart m.clock (router.resolve repo) s) incoming > quota.maxBytes.toNat
              · rw [if_pos hover]
                exact .inr ⟨Nat.not_le.mpr hover, ⟨_, rfl⟩, rfl⟩
              · rw [if_neg hover]
                exact .inl ⟨Nat.not_lt.mp hover, (counted_fst _ _ _).1, (counted_fst _ _ _).2⟩

-- Two writes of the same blob, from states with the same blobs and usages.
theorem guarded_alike (h' : Sound s'.store) (hblobs : SameBlobs s.store s'.store)
    (husage : s'.usage = s.usage) (hanswer : (write' s'.store).1 = (write s.store).1)
    (hwritten : SameBlobs (write s.store).2 (write' s'.store).2) :
    (layer.guarded m repo d incoming write' s').1 = (layer.guarded m repo d incoming write s).1 ∧
      (layer.guarded m repo d incoming write' s').2.usage =
        (layer.guarded m repo d incoming write s).2.usage ∧
      SameBlobs (layer.guarded m repo d incoming write s).2.store
        (layer.guarded m repo d incoming write' s').2.store := by
  cases layer with
  | fs root => exact ⟨hanswer, husage, hwritten⟩
  | routed router => exact ⟨hanswer, husage, hwritten⟩
  | quota router quotas ttl =>
      obtain ⟨hrefusal, hentries⟩ := refusal_alike router quotas ttl m.apart m.clock h h' hblobs
        husage repo incoming
      simp only [guarded, checked_eq router quotas ttl m.apart m.clock h,
        checked_eq router quotas ttl m.apart m.clock h', hblobs.blobIn_eq, hrefusal, hentries,
        hanswer]
      split
      · exact ⟨hanswer, husage, hwritten⟩
      · split
        · exact ⟨rfl, rfl, hblobs⟩
        · refine ⟨?_, counted_usage _ _ _ _ _ _, ?_⟩
          · rw [(counted_fst _ _ _).1, (counted_fst _ _ _).1]
          · rw [(counted_fst _ _ _).2, (counted_fst _ _ _).2]
            exact hwritten

end Layer

end RspaceRegistry.Stores
