import RspaceRegistry.Stores.Guard
import RspaceRegistry.Stores.Selection
import RspaceRegistry.Sample

namespace RspaceRegistry.Stores

open Disk Files Ordered Places

-- The report of the quotas against what is enforced.

structure QuotaStatus where
  pattern : String
  maxBytes : UInt64
  usedBytes : Option Nat
deriving DecidableEq

namespace QuotaStorage

variable {σ : Type} (qs : QuotaStorage σ)

def reportUsed (quota : Quota) (store : σ) : Option Nat × σ :=
  match qs.router.backendForPattern quota.pattern with
  | some b =>
      match usedBytes (b.serve qs.disk) store with
      | (.ok used, store) => (some used, store)
      | (.error _, store) => (none, store)
  | none => (none, store)

def reportQuotas : List Quota → σ → List QuotaStatus × σ
  | [], store => ([], store)
  | quota :: rest, store =>
      let (used, store) := qs.reportUsed quota store
      let (out, store) := reportQuotas rest store
      (⟨quota.pattern, quota.maxBytes, used⟩ :: out, store)

-- The report measures each volume anew and leaves the cache alone.
def report (s : QuotaState σ) : List QuotaStatus × QuotaState σ :=
  let (out, store) := qs.reportQuotas qs.quotas s.store
  (out, { s with store })

end QuotaStorage

section

variable [Sha2] (router : RepoRouter) (quotas : List Quota) (ttl : Nat)
variable (apart : RootId → Option IoError) {trees : Trees}

theorem reportUsed_eq (h : Sound trees) (quota : Quota) : ∃ used,
    (quotaOn router quotas ttl apart).reportUsed quota trees = (used, trees) ∧
      ∀ u, used = some u ↔ ∃ b total, router.backendForPattern quota.pattern = some b ∧
        Weighs (sizes trees b) total ∧ u = total % 2 ^ 64 := by
  unfold QuotaStorage.reportUsed
  show ∃ used, (match router.backendForPattern quota.pattern with
    | some b => _
    | none => (none, trees)) = (used, trees) ∧ _
  cases router.backendForPattern quota.pattern with
  | none => exact ⟨none, rfl, fun u => by simp⟩
  | some b =>
      obtain ⟨total, hweighs, hused⟩ := usedBytes_eq apart b h
      have hmeasured : usedBytes (b.serve (quotaOn router quotas ttl apart).disk) trees =
          (.ok (total % 2 ^ 64), trees) := hused
      simp only [hmeasured]
      refine ⟨some (total % 2 ^ 64), rfl, fun u => ?_⟩
      constructor
      · intro hu
        exact ⟨b, total, rfl, hweighs, (Option.some.inj hu).symm⟩
      · rintro ⟨_, total', hb, hweighs', rfl⟩
        obtain rfl := Option.some.inj hb
        rw [hweighs.unique hweighs']

-- One entry for each quota, in their order.
theorem reportQuotas_eq (h : Sound trees) (list : List Quota) :
    (quotaOn router quotas ttl apart).reportQuotas list trees = (list.map fun quota =>
      ⟨quota.pattern, quota.maxBytes,
        ((quotaOn router quotas ttl apart).reportUsed quota trees).1⟩, trees) := by
  induction list with
  | nil => rfl
  | cons quota rest ih =>
      obtain ⟨used, hused, -⟩ := reportUsed_eq router quotas ttl apart h quota
      simp only [QuotaStorage.reportQuotas, hused, ih, List.map_cons]

-- What the report gives for the quota of a repository is the usage that a check of
-- a write to it measures.
def ReportsEnforced (trees : Trees) (repo : String) (i : Nat) (usage : Backend → Option Cached)
    (clock : Clock) : Prop :=
  ∃ quota u, matchingQuota quotas repo = some quota ∧
    ((quotaOn router quotas ttl apart).report ⟨usage, trees⟩).1[i]? =
      some ⟨quota.pattern, quota.maxBytes, some u⟩ ∧
    ((quotaOn router quotas ttl apart).usageOf clock (router.resolve repo)
      ⟨fun _ => none, trees⟩).1 = .ok u

theorem usageOf_unmeasured (h : Sound trees) (clock : Clock) (b : Backend) : ∃ total,
    Weighs (sizes trees b) total ∧ ((quotaOn router quotas ttl apart).usageOf clock b
      ⟨fun _ => none, trees⟩).1 = .ok (total % 2 ^ 64) := by
  obtain ⟨total, hweighs, hused⟩ := usedBytes_eq apart b h
  refine ⟨total, hweighs, ?_⟩
  have hmeasured : usedBytes (b.serve (quotaOn router quotas ttl apart).disk) trees =
      (.ok (total % 2 ^ 64), trees) := hused
  simp only [QuotaStorage.usageOf, Option.filter_none, hmeasured]

-- The report goes by the rule of the quota's very pattern, and the check by the
-- rule that the repository is routed by.
theorem reports_enforced_iff (h : Sound trees) {repo : String} {i : Nat}
    (hgoverned : matchingIndex quotas repo = some i) (usage : Backend → Option Cached)
    (clock : Clock) : ReportsEnforced router quotas ttl apart trees repo i usage clock ↔
      ∃ quota b total total', matchingQuota quotas repo = some quota ∧
        router.backendForPattern quota.pattern = some b ∧ Weighs (sizes trees b) total ∧
        Weighs (sizes trees (router.resolve repo)) total' ∧ total % 2 ^ 64 = total' % 2 ^ 64 := by
  rcases matchingIndex_spec quotas repo with ⟨hnone, -, -⟩ | ⟨quota, j, hindex, hquota, hget, -, -⟩
  · rw [hnone] at hgoverned
    cases hgoverned
  · obtain rfl : i = j := Option.some.inj (hgoverned.symm.trans hindex)
    obtain ⟨used, hused, hiff⟩ := reportUsed_eq router quotas ttl apart h quota
    obtain ⟨total', hweighs', henforced⟩ :=
      usageOf_unmeasured router quotas ttl apart h clock (router.resolve repo)
    have hentry : ((quotaOn router quotas ttl apart).report ⟨usage, trees⟩).1[i]? =
        some ⟨quota.pattern, quota.maxBytes, used⟩ := by
      have hreport : ((quotaOn router quotas ttl apart).report ⟨usage, trees⟩).1 =
          ((quotaOn router quotas ttl apart).reportQuotas quotas trees).1 := rfl
      rw [hreport, reportQuotas_eq router quotas ttl apart h, List.getElem?_map, hget,
        Option.map_some, hused]
    unfold ReportsEnforced
    rw [hentry, henforced, hquota]
    constructor
    · rintro ⟨_, u, hq, hshown, hu⟩
      obtain rfl := Option.some.inj hq
      obtain ⟨b, total, hb, hweighs, htotal⟩ :=
        (hiff u).mp (congrArg QuotaStatus.usedBytes (Option.some.inj hshown))
      refine ⟨_, b, total, total', rfl, hb, hweighs, hweighs', ?_⟩
      rw [← htotal, Except.ok.inj hu]
    · rintro ⟨_, b, total, total'', hq, hb, hweighs, hweighs'', hsame⟩
      obtain rfl := Option.some.inj hq
      rw [hweighs''.unique hweighs'] at hsame
      refine ⟨_, total % 2 ^ 64, rfl, ?_, by rw [hsame]⟩
      rw [(hiff _).mpr ⟨b, total, hb, hweighs, rfl⟩]

end

section

attribute [local instance] Sample.sha2

def everything : RepoRouter := .single (.fs 0 0)

def noBlobs : Trees := fun _ => new

theorem noBlobs_sound : Sound noBlobs := fun _ => sound_new

theorem noBlobs_sizes (b : Backend) (d : Digest) : sizes noBlobs b d = none := by
  rw [sizes, Option.map_eq_none_iff]
  exact first_eq_none.mpr fun _ _ => no_file_new (blobPath d)

theorem noBlobs_weighs (b : Backend) : Weighs (sizes noBlobs b) 0 :=
  ⟨∅, fun d => by simp [noBlobs_sizes], rfl⟩

-- One blob of one byte in the directory of the rule.
def oneBlob : Trees := ((Backend.fs 0 0).serve (onTrees fun _ => none)
  (.request (.blobWrite "data/x" (hashContent .sha256 Sample.x) Sample.x)) noBlobs).2

theorem oneBlob_sound : Sound oneBlob := serve_sound (fun _ => none) noBlobs_sound (.fs 0 0) _

theorem oneBlob_eq : oneBlob = Function.update noBlobs 0
    (fsStorageOn none (.blobWrite "data/x" (hashContent .sha256 Sample.x) Sample.x) new).2 := rfl

theorem oneBlob_weighs : Weighs (sizes oneBlob (.fs 0 0)) 1 := by
  have hblobs : ∀ root, (shelf (oneBlob root)).blobs = if root = (Backend.fs 0 0).head then
      ((shelf (noBlobs (Backend.fs 0 0).head)).put (hashContent .sha256 Sample.x) Sample.x).blobs
      else (shelf (noBlobs root)).blobs := by
    intro root
    split
    · rename_i hroot
      rw [oneBlob_eq, show root = 0 from hroot, Function.update_self,
        (serves_blobWrite none sound_new.toLaid "data/x" (hashContent .sha256 Sample.x) Sample.x).1]
      have hhash : hashContent (hashContent .sha256 Sample.x).algorithm Sample.x =
        hashContent .sha256 Sample.x := rfl
      have hserve : (shelf new).serve (.blobWrite "data/x" (hashContent .sha256 Sample.x) Sample.x) =
          (some (.ok ()), (shelf new).put (hashContent .sha256 Sample.x) Sample.x) := by
        simp only [Shelf.serve, hhash, if_true]
      rw [hserve]
      rfl
    · rename_i hroot
      have hother : root ≠ 0 := hroot
      rw [oneBlob_eq, Function.update_of_ne hother]
  have hsizes : sizes oneBlob (.fs 0 0) =
      Function.update (sizes noBlobs (.fs 0 0)) (hashContent .sha256 Sample.x) (some 1) := by
    funext d
    rw [sizes, blobIn_written hblobs, Function.update_apply]
    split <;> rfl
  rw [hsizes]
  exact (noBlobs_weighs _).insert (noBlobs_sizes _ _) 1

theorem everything_reported : ReportsEnforced everything [⟨"*", 1⟩] 30 (fun _ => none) oneBlob
    "data/x" 0 (fun _ => none) ⟨0, 0⟩ :=
  (reports_enforced_iff everything [⟨"*", 1⟩] 30 (fun _ => none) oneBlob_sound
    (by decide) (fun _ => none) ⟨0, 0⟩).mpr
      ⟨⟨"*", 1⟩, .fs 0 0, 1, 1, by decide, by decide, oneBlob_weighs, oneBlob_weighs, rfl⟩

-- A quota finer than the rules is enforced, and the report has nothing to show.
theorem finer_quota_unreported :
    ¬∀ (router : RepoRouter) (quotas : List Quota) (ttl : Nat) (apart : RootId → Option IoError)
      (trees : Trees), Sound trees → ∀ repo i, matchingIndex quotas repo = some i →
        ∀ usage clock, ReportsEnforced router quotas ttl apart trees repo i usage clock := by
  intro hall
  obtain ⟨quota, u, hquota, hentry, -⟩ := hall everything [⟨"data/*", 1⟩] 30 (fun _ => none) noBlobs
    noBlobs_sound "data/x" 0 (by decide) (fun _ => none) ⟨0, 0⟩
  have hreport : ((quotaOn everything [⟨"data/*", 1⟩] 30 fun _ => none).report
      ⟨fun _ => none, noBlobs⟩).1 = [⟨"data/*", 1, none⟩] := rfl
  rw [hreport] at hentry
  have hused : (none : Option Nat) = some u :=
    congrArg QuotaStatus.usedBytes (Option.some.inj hentry)
  cases hused

end

end RspaceRegistry.Stores
