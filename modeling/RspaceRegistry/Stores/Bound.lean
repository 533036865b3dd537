import RspaceRegistry.Sample
import RspaceRegistry.Stores.Guard
import RspaceRegistry.Volumes

namespace RspaceRegistry.Stores

open Calls Disk Files Ordered Places

-- What a backend holds stays within its quotas.

section Within

variable [Sha2]

-- The bytes of the backend, and what is remembered of them.
structure Within (b : Backend) (bound : Nat) (s : QuotaState Trees) : Prop where
  sound : Sound s.store
  used : ∃ total, Weighs (sizes s.store b) total ∧ total ≤ bound ∧
    ∀ cached, s.usage b = some cached → total ≤ cached.value

variable {b : Backend} {bound : Nat} {s s' : QuotaState Trees}

-- Writing a blob that is there already replaces it by itself.
theorem sizes_rewritten {d : Digest} {content : Bytes} {trees trees' : Trees}
    (hsound : Sound trees) (htells : Volumes.TellsApart fun content => Holds trees content ∨
      Holds trees' content)
    (hheld : (blobIn trees b.readOrder d).isSome) (hhash : hashContent d.algorithm content = d)
    (hblobs : ∀ root, (shelf (trees' root)).blobs =
      if root = b.head then ((shelf (trees b.head)).put d content).blobs
      else (shelf (trees root)).blobs) : sizes trees' b = sizes trees b := by
  obtain ⟨bytes, hbytes⟩ := Option.isSome_iff_exists.mp hheld
  obtain ⟨root, -, hroot⟩ := exists_of_first hbytes
  have hstored : (shelf (trees' b.head)).blobs d = some content := by
    rw [hblobs, if_pos rfl, Shelf.put_blobs, if_pos rfl]
  have hsame : bytes = content := by
    apply htells d.algorithm bytes content
    · exact .inl ⟨root, d, hroot⟩
    · exact .inr ⟨b.head, d, hstored⟩
    · rw [hhash, (hsound root).blobs_hash d bytes hroot]
  funext d'
  rw [sizes, blobIn_written hblobs, sizes]
  split
  · rename_i heq
    rw [heq, hbytes, hsame]
  · rfl

omit [Sha2] in
theorem sizes_added {d : Digest} {content : Bytes} {trees trees' : Trees}
    (hblobs : ∀ root, (shelf (trees' root)).blobs =
      if root = b.head then ((shelf (trees b.head)).put d content).blobs
      else (shelf (trees root)).blobs) :
    sizes trees' b = Function.update (sizes trees b) d (some content.length) := by
  funext d'
  rw [sizes, blobIn_written hblobs, Function.update_apply]
  split <;> rfl

end Within

section Step

variable [Sha2] (router : RepoRouter) (quotas : List Quota) (ttl : Nat)
variable (apart : RootId → Option IoError)

-- Distinct backends hold distinct stores.
def Distinct : Prop :=
  ∀ rule ∈ router.rules, ∀ rule' ∈ router.rules, rule.backend ≠ rule'.backend →
    List.Disjoint rule.backend.leaves rule'.backend.leaves

-- The repository and the blob of a write.
def written : StoreOp → Option (String × Digest)
  | .request (.blobWrite repo d _) => some (repo, d)
  | .request (.uploadFinalize repo _ d) => some (repo, d)
  | _ => none

variable {b : Backend} {bound : Nat} {s s' : QuotaState Trees}

omit [Sha2] in
theorem Distinct.disjoint (hdistinct : Distinct router) {rule : RouteRule}
    (hrule : rule ∈ router.rules) (hb : rule.backend = b) {repo : String}
    (hne : router.resolve repo ≠ b) : List.Disjoint (router.resolve repo).leaves b.leaves := by
  obtain ⟨other, hother, hresolve⟩ := router.mem_of_resolve repo
  rw [← hresolve, ← hb]
  exact hdistinct other hother rule hrule (by rwa [hresolve, hb])

theorem Within.looked (h : Within b bound s) (hbound : bound < 2 ^ 64) {other : Backend}
    (hlooked : Looked other s s') : Within b bound s' := by
  obtain ⟨total, hweighs, hle, hcached⟩ := h.used
  have hstore := hlooked.store
  refine ⟨hstore ▸ h.sound, total, hstore ▸ hweighs, hle, fun cached hentry => ?_⟩
  by_cases hb : b = other
  · subst hb
    rcases hlooked.entry with hsame | ⟨fresh, total', hfresh, hweighs', hvalue⟩
    · exact hcached cached (hsame ▸ hentry)
    · obtain rfl : fresh = cached := Option.some.inj (hfresh.symm.trans hentry)
      rw [hvalue, hweighs'.unique hweighs, Nat.mod_eq_of_lt (hle.trans_lt hbound)]
  · rw [hlooked.others b hb] at hentry
    exact hcached cached hentry

theorem Within.smaller (h : Within b bound s) (hsound : Sound s'.store)
    (husage : s'.usage b = s.usage b)
    (hsizes : ∀ total, Weighs (sizes s.store b) total →
      ∃ rest, Weighs (sizes s'.store b) rest ∧ rest ≤ total) : Within b bound s' := by
  obtain ⟨total, hweighs, hle, hcached⟩ := h.used
  obtain ⟨rest, hrest, hsmaller⟩ := hsizes total hweighs
  refine ⟨hsound, rest, hrest, hsmaller.trans hle, fun cached hentry => ?_⟩
  rw [husage] at hentry
  exact hsmaller.trans (hcached cached hentry)

theorem Within.unchanged (h : Within b bound s) (hsound : Sound s'.store)
    (husage : s'.usage b = s.usage b) (hsizes : sizes s'.store b = sizes s.store b) :
    Within b bound s' :=
  h.smaller hsound husage fun total hweighs => ⟨total, hsizes ▸ hweighs, Nat.le_refl total⟩

theorem sizes_elsewhere {trees : Trees} {other : Backend}
    (hdisjoint : List.Disjoint other.leaves b.leaves) (op : StoreOp) :
    sizes (other.serve (onTrees apart) op trees).2 b = sizes trees b := by
  apply sizes_congr
  intro root hroot
  rw [serve_others apart other op fun hother => hdisjoint hother hroot]

-- The calls that leave the blobs as they are.
def KeepsBlobs (op : StoreOp) : Prop := ∀ s : Shelf, (serveShelf op s).blobs = s.blobs

theorem router_keepsBlobs {op : StoreOp} (hop : KeepsBlobs op) {trees : Trees} (h : Sound trees) :
    sizes (router.serve (onTrees apart) op trees).2 b = sizes trees b := by
  have hsteps : Steps Sound (fun trees trees' : Trees => ∀ root,
      (shelf (trees' root)).blobs = (shelf (trees root)).blobs) (router.serve (onTrees apart) op) := by
    refine router.steps_serve (fun _ _ => rfl)
      (fun _ _ _ h h' root => Eq.trans (h' root) (h root)) fun leaf trees h => ⟨h.onTrees leaf op, ?_⟩
    intro root
    rw [shelf_onTrees h]
    split
    · rename_i heq
      rw [heq, hop]
    · rfl
  exact sizes_congr fun root _ => (hsteps trees h).2 root

theorem keepsBlobs_of_not_written {op : StoreOp} (hop : written op = none)
    (hdelete : ∀ repo d, op ≠ .request (.blobDelete repo d)) : KeepsBlobs op := by
  intro s
  cases op with
  | blobSize _ _ | listAllBlobs => rfl
  | request op =>
      cases op with
      | blobWrite _ _ _ | uploadFinalize _ _ _ => cases hop
      | blobDelete repo d => exact absurd rfl (hdelete repo d)
      | uploadAppend repo id chunk =>
          simp only [serveShelf, Shelf.serve]
          split <;> rfl
      | uploadCancel repo id =>
          simp only [serveShelf, Shelf.serve]
          split <;> rfl
      | blobExists _ _ | blobRead _ _ | uploadCreate _ _ | uploadStatus _ _ | manifestGet _ _
      | manifestPut _ _ _ | manifestDelete _ _ | listRepos | listTags _ | listManifestDigests _ => rfl

theorem router_sound {trees : Trees} (h : Sound trees) (op : StoreOp) :
    Sound (router.serve (onTrees apart) op trees).2 :=
  (router.steps_serve (fun _ => trivial) (fun _ _ _ _ _ => trivial)
    (fun root => steps_sound op root) trees h).1

-- Of the calls that are only passed on, deletes make the blobs fewer.
theorem Within.below (h : Within b bound s) (hdistinct : Distinct router) {rule : RouteRule}
    (hrule : rule ∈ router.rules) (hb : rule.backend = b) {op : StoreOp} (hop : written op = none) :
    Within b bound ((quotaOn router quotas ttl apart).below op s).2 := by
  have hsound : Sound ((quotaOn router quotas ttl apart).below op s).2.store :=
    router_sound router apart h.sound op
  by_cases hdelete : ∃ repo d, op = .request (.blobDelete repo d)
  · obtain ⟨repo, d, rfl⟩ := hdelete
    have hafter : ((quotaOn router quotas ttl apart).below (.request (.blobDelete repo d)) s).2.store =
        ((router.resolve repo).serve (onTrees apart) (.request (.blobDelete repo d)) s.store).2 := rfl
    by_cases hresolve : router.resolve repo = b
    · refine h.smaller hsound rfl fun total hweighs => ?_
      obtain ⟨rest, hrest, hle⟩ := hweighs.erase d
      refine ⟨rest, ?_, hle⟩
      rw [hafter, hresolve, sizes_deleted fun root => ?_]
      · exact hrest
      · rw [serve_delete apart h.sound]
        split <;> rfl
    · refine h.unchanged hsound rfl ?_
      rw [hafter, sizes_elsewhere apart (hdistinct.disjoint router hrule hb hresolve)]
  · refine h.unchanged hsound rfl (router_keepsBlobs router apart ?_ h.sound)
    exact keepsBlobs_of_not_written hop fun repo d heq => hdelete ⟨repo, d, heq⟩

end Step

section Bound

variable [Sha2] (router : RepoRouter) (quotas : List Quota) (ttl : Nat)
variable (apart : RootId → Option IoError) (clock : Clock)
variable {b : Backend} {bound : Nat} {s : QuotaState Trees} {limit : UInt64}

-- Whoever writes to the backend has a quota, of at most the limit.
def Governed (b : Backend) (limit : UInt64) (repo : String) : Prop :=
  router.resolve repo = b → ∃ quota, matchingQuota quotas repo = some quota ∧ quota.maxBytes ≤ limit

omit [Sha2] in
theorem fits_of_saturating {used incoming most : Nat} (h : saturatingAdd used incoming ≤ most)
    (hmost : most < 2 ^ 64 - 1) : used + incoming ≤ most := by
  unfold saturatingAdd at h
  omega

variable {repo : String} {d : Digest} {incoming : Nat} {write : Method Trees Unit}
  {texts : Bytes → Prop}

theorem Within.checked (h : Within b bound s) (hbound : bound < 2 ^ 64)
    (hlimit : limit.toNat ≤ bound) (hsmall : limit.toNat < 2 ^ 64 - 1)
    (hdistinct : Distinct router) {rule : RouteRule} (hrule : rule ∈ router.rules)
    (hb : rule.backend = b) (hgoverned : Governed router quotas b limit repo)
    (hwrite : Writes (router.resolve repo) d incoming s.store (write s.store))
    (hsound : Sound (write s.store).2) (htells : Volumes.TellsApart texts)
    (hbefore : ∀ content, Holds s.store content → texts content)
    (hafter : ∀ content,
      Holds (checked router quotas ttl apart clock repo d incoming write s).2.store content →
        texts content) :
    Within b bound (checked router quotas ttl apart clock repo d incoming write s).2 := by
  have helsewhere : router.resolve repo ≠ b → sizes (write s.store).2 b = sizes s.store b := by
    intro hne
    have hdisjoint := hdistinct.disjoint router hrule hb hne
    apply sizes_congr
    intro root hroot
    rcases hwrite with ⟨-, -, -, hsame⟩ | ⟨content, -, -, -, hblobs⟩
    · rw [hsame root]
    · rw [hblobs, if_neg]
      rintro rfl
      exact hdisjoint (router.resolve repo).head_mem_leaves hroot
  rcases checked_cases router quotas ttl apart clock h.sound hwrite with
    ⟨s', message, hlooked, hrun, -⟩ | ⟨s', err, hlooked, -, hrun, hsame⟩ | ⟨hrun, hheld⟩ |
    ⟨s', hlooked, hfits, hrun, hnew, hok⟩
  · rw [hrun]
    exact h.looked hbound hlooked
  · rw [hrun]
    refine (h.looked hbound hlooked).unchanged hsound rfl ?_
    rw [hlooked.store]
    exact sizes_congr fun root _ => by rw [hsame root]
  · rw [hrun] at hafter ⊢
    refine h.unchanged hsound rfl ?_
    by_cases hresolve : router.resolve repo = b
    · rcases hwrite with ⟨-, -, -, hsame⟩ | ⟨content, -, -, hhash, hblobs⟩
      · exact sizes_congr fun root _ => by rw [hsame root]
      · rw [hresolve] at hheld hblobs
        refine sizes_rewritten h.sound ?_ hheld hhash hblobs
        exact fun algorithm first second hfirst hsecond =>
          htells algorithm first second (hfirst.elim (hbefore first) (hafter first))
            (hsecond.elim (hbefore second) (hafter second))
    · exact helsewhere hresolve
  · rw [hrun]
    have hwithin := h.looked hbound hlooked
    by_cases hresolve : router.resolve repo = b
    · obtain ⟨quota, hquota, hle⟩ := hgoverned hresolve
      obtain ⟨cached, hentry, hsat⟩ := hfits quota hquota
      obtain ⟨total, hweighs, -, hcached⟩ := hwithin.used
      rw [hresolve] at hentry hnew
      have hmost : quota.maxBytes.toNat ≤ limit.toNat := UInt64.le_iff_toNat_le.mp hle
      have hroom := fits_of_saturating hsat (by omega)
      have htotal := hcached cached hentry
      rw [hlooked.store] at hweighs
      rcases hwrite with ⟨err, hanswer, -⟩ | ⟨content, -, hlen, hhash, hblobs⟩
      · rw [hok] at hanswer
        cases hanswer
      · rw [hresolve] at hblobs
        have hnone : sizes s.store b d = none := by
          rw [sizes, Option.map_eq_none_iff]
          simpa using hnew
        refine ⟨hsound, total + incoming, ?_, by omega, fun counted hcounted => ?_⟩
        · rw [← hlen]
          show Weighs (sizes (write s.store).2 b) _
          rw [sizes_added hblobs]
          exact hweighs.insert hnone content.length
        · have hvalue : counted.value = saturatingAdd cached.value incoming := by
            have hupdated : (QuotaStorage.bump (router.resolve repo) incoming
                { s' with store := (write s.store).2 }).usage b =
                  some { cached with value := saturatingAdd cached.value incoming } := by
              rw [hresolve]
              show Function.update s'.usage b _ b = _
              rw [Function.update_self, hentry]
              rfl
            rw [hupdated] at hcounted
            rw [← Option.some.inj hcounted]
          rw [hvalue]
          unfold saturatingAdd
          omega
    · refine hwithin.unchanged hsound ?_ ?_
      · exact Function.update_of_ne (Ne.symm hresolve) _ _
      · rw [hlooked.store]
        exact helsewhere hresolve

end Bound

section Runs

variable [Sha2] (router : RepoRouter) (quotas : List Quota) (ttl : Nat)

-- A call, with the clock and the file systems at its time.
structure QuotaCall where
  op : StoreOp
  clock : Clock
  apart : RootId → Option IoError

def runQuota (calls : List QuotaCall) (s : QuotaState Trees) : QuotaState Trees :=
  calls.foldl (fun s call =>
    ((quotaOn router quotas ttl call.apart).serve call.clock call.op s).2) s

-- `QuotaStorage::new` over the directories.
def freshQuota (trees : Trees) : QuotaState Trees := ⟨fun _ => none, trees⟩

-- What the blobs hold at any moment of a run.
def HeldInRun (calls : List QuotaCall) (trees : Trees) (content : Bytes) : Prop :=
  ∃ before, before <+: calls ∧ Holds (runQuota router quotas ttl before (freshQuota trees)).store content

theorem serve_passes {apart : RootId → Option IoError} {clock : Clock} {op : StoreOp}
    (hop : written op = none) (s : QuotaState Trees) :
    (quotaOn router quotas ttl apart).serve clock op s =
      (quotaOn router quotas ttl apart).below op s := by
  cases op with
  | blobSize _ _ | listAllBlobs => rfl
  | request op =>
      cases op with
      | blobWrite _ _ _ | uploadFinalize _ _ _ => cases hop
      | _ => rfl

-- The error of an answer, if it is one.
def errorOf {α : Type} : Except StorageError α → Option StorageError
  | .ok _ => none
  | .error err => some err

variable {s : QuotaState Trees} {repo : String} {d : Digest}

theorem serve_written (h : Sound s.store) (call : QuotaCall)
    (hop : written call.op = some (repo, d)) : ∃ incoming write,
      Writes (router.resolve repo) d incoming s.store (write s.store) ∧ Sound (write s.store).2 ∧
      ((quotaOn router quotas ttl call.apart).serve call.clock call.op s).2 =
        (checked router quotas ttl call.apart call.clock repo d incoming write s).2 ∧
      errorOf ((quotaOn router quotas ttl call.apart).serve call.clock call.op s).1 =
        errorOf (checked router quotas ttl call.apart call.clock repo d incoming write s).1 := by
  obtain ⟨op, clock, apart⟩ := call
  cases op with
  | blobSize _ _ | listAllBlobs => cases hop
  | request op =>
      cases op with
      | blobWrite repo' d' content =>
          cases hop
          refine ⟨_, _, writes_blobWrite apart h _ repo d content,
            serve_sound apart h _ (.request (.blobWrite repo d content)), ?_⟩
          rw [serve_blobWrite router quotas ttl apart clock h]
          exact ⟨rfl, rfl⟩
      | uploadFinalize repo' id d' =>
          cases hop
          refine ⟨_, _, writes_uploadFinalize apart h _ repo id d,
            serve_sound apart h _ (.request (.uploadFinalize repo id d)), ?_⟩
          rw [serve_uploadFinalize router quotas ttl apart clock h]
          exact ⟨rfl, rfl⟩
      | _ => cases hop

theorem quota_sound (h : Sound s.store) (call : QuotaCall) :
    Sound ((quotaOn router quotas ttl call.apart).serve call.clock call.op s).2.store := by
  cases hop : written call.op with
  | none =>
      rw [serve_passes router quotas ttl hop]
      exact router_sound router call.apart h call.op
  | some target =>
      obtain ⟨incoming, write, hwrite, hsound, hafter, -⟩ :=
        serve_written router quotas ttl h call hop
      rw [hafter]
      rcases checked_store router quotas ttl call.apart call.clock h hwrite with hstore | hstore
      · rw [hstore]
        exact h
      · rw [hstore]
        exact hsound

theorem runQuota_snoc (calls : List QuotaCall) (call : QuotaCall) (s : QuotaState Trees) :
    runQuota router quotas ttl (calls ++ [call]) s =
      ((quotaOn router quotas ttl call.apart).serve call.clock call.op
        (runQuota router quotas ttl calls s)).2 := by
  simp only [runQuota, List.foldl_append, List.foldl_cons, List.foldl_nil]

theorem runQuota_sound {trees : Trees} (h : Sound trees) (calls : List QuotaCall) :
    Sound (runQuota router quotas ttl calls (freshQuota trees)).store := by
  induction calls using List.reverseRecOn with
  | nil => exact h
  | append_singleton before call ih =>
      rw [runQuota_snoc]
      exact quota_sound router quotas ttl ih call

-- One call after another: no write gets the backend beyond its limit.
theorem runQuota_within {trees : Trees} {calls : List QuotaCall}
    (htells : Volumes.TellsApart (HeldInRun router quotas ttl calls trees))
    (hdistinct : Distinct router) {rule : RouteRule} (hrule : rule ∈ router.rules)
    {limit : UInt64} (hsmall : limit.toNat < 2 ^ 64 - 1)
    (hgoverned : ∀ call ∈ calls, ∀ repo d, written call.op = some (repo, d) →
      Governed router quotas rule.backend limit repo)
    {bound : Nat} (hbound : bound < 2 ^ 64) (hlimit : limit.toNat ≤ bound)
    (hstart : Within rule.backend bound (freshQuota trees)) {before : List QuotaCall}
    (hbefore : before <+: calls) :
    Within rule.backend bound (runQuota router quotas ttl before (freshQuota trees)) := by
  induction before using List.reverseRecOn with
  | nil => exact hstart
  | append_singleton before call ih =>
      have hprefix : before <+: calls := (List.prefix_append before [call]).trans hbefore
      have hwithin := ih hprefix
      have hcall : call ∈ calls := hbefore.subset (by simp)
      rw [runQuota_snoc]
      cases hop : written call.op with
      | none =>
          rw [serve_passes router quotas ttl hop]
          exact hwithin.below router quotas ttl call.apart hdistinct hrule rfl hop
      | some target =>
          obtain ⟨incoming, write, hwrite, hsound, hafter, -⟩ :=
            serve_written router quotas ttl hwithin.sound call hop
          rw [hafter]
          refine hwithin.checked router quotas ttl call.apart call.clock hbound hlimit hsmall
            hdistinct hrule rfl (hgoverned call hcall _ _ hop) hwrite hsound htells
            (fun content hheld => ⟨before, hprefix, hheld⟩)
            (fun content hheld => ⟨before ++ [call], hbefore, ?_⟩)
          rw [runQuota_snoc, hafter]
          exact hheld

-- No volume holds more bytes than a `u64` counts.
def Countable (trees : Trees) (b : Backend) : Prop :=
  ∀ total, Weighs (sizes trees b) total → total < 2 ^ 64

theorem quota_bound (hdistinct : Distinct router) {trees : Trees} (h : Sound trees)
    (calls : List QuotaCall)
    (htells : Volumes.TellsApart (HeldInRun router quotas ttl calls trees)) :
    let s := runQuota router quotas ttl calls (freshQuota trees)
    (∀ rule ∈ router.rules, Countable trees rule.backend → ∀ limit : UInt64,
      (∀ call ∈ calls, ∀ repo d, written call.op = some (repo, d) →
        Governed router quotas rule.backend limit repo) →
      ∀ apart, ∃ initial used,
        usedBytes (rule.backend.serve (onTrees apart)) trees = (.ok initial, trees) ∧
        usedBytes (rule.backend.serve (onTrees apart)) s.store = (.ok used, s.store) ∧
        used ≤ max initial limit.toNat) ∧
    (∀ (call : QuotaCall) repo d, written call.op = some (repo, d) →
      let result := (quotaOn router quotas ttl call.apart).serve call.clock call.op s
      ((∃ message, errorOf result.1 = some (.quotaExceeded message)) ∨
        (∃ expected got, errorOf result.1 = some (.digestMismatch expected got)) →
          SameShelves s.store result.2.store) ∧
      ((∃ root ∈ (router.resolve repo).leaves, ((shelf (s.store root)).blobs d).isSome) →
        ∀ message, errorOf result.1 ≠ some (.quotaExceeded message))) := by
  intro s
  have hsound : Sound s.store := runQuota_sound router quotas ttl h calls
  refine ⟨fun rule hrule hcountable limit hgoverned apart => ?_, fun call repo d hop => ?_⟩
  · obtain ⟨total, hweighs, hinitial⟩ := usedBytes_eq apart rule.backend h
    obtain ⟨total', hweighs', hused⟩ := usedBytes_eq apart rule.backend hsound
    refine ⟨_, _, hinitial, hused, ?_⟩
    have hfits := hcountable total hweighs
    by_cases hsmall : limit.toNat < 2 ^ 64 - 1
    · have hstart : Within rule.backend (max total limit.toNat) (freshQuota trees) :=
        ⟨h, total, hweighs, by omega, nofun⟩
      obtain ⟨last, hlast, hle, -⟩ := (runQuota_within router quotas ttl htells hdistinct hrule
        hsmall hgoverned (by omega) (by omega) hstart (List.prefix_refl calls)).used
      rw [hweighs'.unique hlast, Nat.mod_eq_of_lt hfits, Nat.mod_eq_of_lt (by omega)]
      exact hle
    · have hmod := Nat.mod_lt total' (show 0 < 2 ^ 64 by decide)
      omega
  · intro result
    obtain ⟨incoming, write, hwrite, -, hafter, herror⟩ :=
      serve_written router quotas ttl hsound call hop
    have hresult : result.2 = _ := hafter
    have hanswer : errorOf result.1 = _ := herror
    rw [hresult, hanswer]
    rcases checked_cases router quotas ttl call.apart call.clock hsound hwrite with
      ⟨s', message, hlooked, hrun, hnew⟩ | ⟨s', err, hlooked, hquota, hrun, hsame⟩ |
      ⟨hrun, -⟩ | ⟨s', -, -, hrun, -⟩
    · rw [hrun]
      refine ⟨fun _ root => by rw [hlooked.store], fun hheld => ?_⟩
      have hfound := (blobIn_readOrder _ d).mpr ((blobIn_isSome _ d).mpr hheld)
      rw [hnew] at hfound
      cases hfound
    · rw [hrun]
      refine ⟨fun _ => hsame, fun _ message heq => ?_⟩
      exact hquota message (Option.some.inj heq)
    · rw [hrun]
      refine ⟨?_, fun _ _ => nofun⟩
      rintro (⟨message, heq⟩ | ⟨expected, got, heq⟩) <;> cases heq
    · rw [hrun]
      refine ⟨?_, fun _ _ => nofun⟩
      rintro (⟨message, heq⟩ | ⟨expected, got, heq⟩) <;> cases heq

end Runs

section Example

attribute [local instance] Sample.sha2

def oneByte : RepoRouter := .single (.fs 0 0)

def pushX : QuotaCall :=
  ⟨.request (.blobWrite "data/x" (sha256Digest Sample.x) Sample.x), ⟨0, 0⟩, fun _ => none⟩

def emptyTrees : Trees := fun _ => new

theorem emptyTrees_sound : Sound emptyTrees := fun _ => sound_new

def afterPushX : Tree := (fsStore none pushX.op new).2

theorem held_afterPushX {path : Path} {content : Bytes}
    (h : afterPushX.fileAt path = some content) : content = Sample.x := by
  obtain ⟨inode, hnode, rfl⟩ := Tree.fileAt_eq_some.mp h
  have hnext : afterPushX.next = 1 := by decide +kernel
  have hinode := afterPushX.allocated path inode hnode
  obtain rfl : inode = 0 := by omega
  decide +kernel

theorem pushX_store {root : RootId} : ∀ path content,
    ((runQuota oneByte [⟨"*", 1⟩] 30 [pushX] (freshQuota emptyTrees)).store root).fileAt path =
      some content → content = Sample.x := by
  intro path content hfile
  have hempty : (emptyTrees root).fileAt path = none := no_file_new path
  have hwrite : Writes (oneByte.resolve "data/x") (sha256Digest Sample.x) Sample.x.length emptyTrees
      (onTrees pushX.apart 0 pushX.op emptyTrees) :=
    writes_blobWrite pushX.apart emptyTrees_sound (.fs 0 0) "data/x" (sha256Digest Sample.x) Sample.x
  have hstore : (runQuota oneByte [⟨"*", 1⟩] 30 [pushX] (freshQuota emptyTrees)).store = emptyTrees ∨
      (runQuota oneByte [⟨"*", 1⟩] 30 [pushX] (freshQuota emptyTrees)).store =
        (onTrees pushX.apart 0 pushX.op emptyTrees).2 := by
    have hserve := serve_blobWrite oneByte [⟨"*", 1⟩] 30 pushX.apart pushX.clock
      (s := freshQuota emptyTrees) emptyTrees_sound "data/x" (sha256Digest Sample.x) Sample.x
    have hchecked := checked_store oneByte [⟨"*", 1⟩] 30 pushX.apart pushX.clock
      (s := freshQuota emptyTrees) emptyTrees_sound hwrite
    have hrun : (runQuota oneByte [⟨"*", 1⟩] 30 [pushX] (freshQuota emptyTrees)).store =
        (checked oneByte [⟨"*", 1⟩] 30 pushX.apart pushX.clock "data/x" (sha256Digest Sample.x)
          Sample.x.length (onTrees pushX.apart 0 pushX.op) (freshQuota emptyTrees)).2.store :=
      congrArg (fun result => result.2.store) hserve
    rw [hrun]
    exact hchecked
  rcases hstore with hstore | hstore
  · rw [hstore, hempty] at hfile
    cases hfile
  · rw [hstore] at hfile
    by_cases hroot : root = 0
    · subst hroot
      exact held_afterPushX hfile
    · rw [onTrees_other hroot, hempty] at hfile
      cases hfile

theorem held_pushX {content : Bytes}
    (h : HeldInRun oneByte [⟨"*", 1⟩] 30 [pushX] emptyTrees content) : content = Sample.x := by
  obtain ⟨before, hbefore, root, d, hblob⟩ := h
  rcases List.prefix_cons_iff.mp hbefore with rfl | ⟨rest, rfl, hrest⟩
  · have hfile : (emptyTrees root).fileAt (blobPath d) = some content := hblob
    rw [show (emptyTrees root).fileAt (blobPath d) = none from no_file_new (blobPath d)] at hfile
    cases hfile
  · obtain rfl := List.prefix_nil.mp hrest
    exact pushX_store (blobPath d) content hblob

theorem oneByte_distinct : Distinct oneByte := by
  intro rule hrule rule' hrule' hne
  rw [List.mem_singleton.mp hrule, List.mem_singleton.mp hrule'] at hne
  exact absurd rfl hne

theorem emptyTrees_countable (b : Backend) : Countable emptyTrees b := by
  intro total hweighs
  have hnone : ∀ d, sizes emptyTrees b d = none := by
    intro d
    rw [sizes, Option.map_eq_none_iff]
    exact first_eq_none.mpr fun _ _ => no_file_new (blobPath d)
  have hzero : Weighs (sizes emptyTrees b) 0 := ⟨∅, fun d => by simp [hnone], rfl⟩
  rw [hweighs.unique hzero]
  decide

theorem pushX_governed (repo : String) (d : Digest) (h : written pushX.op = some (repo, d)) :
    Governed oneByte [⟨"*", 1⟩] (.fs 0 0) 1 repo := by
  obtain ⟨rfl, rfl⟩ := Prod.mk.inj (Option.some.inj h)
  exact fun _ => ⟨⟨"*", 1⟩, by decide, by decide⟩

theorem one_byte_kept : ∃ initial used,
    usedBytes ((Backend.fs 0 0).serve (onTrees fun _ => none)) emptyTrees =
      (.ok initial, emptyTrees) ∧
    usedBytes ((Backend.fs 0 0).serve (onTrees fun _ => none))
      (runQuota oneByte [⟨"*", 1⟩] 30 [pushX] (freshQuota emptyTrees)).store =
        (.ok used, (runQuota oneByte [⟨"*", 1⟩] 30 [pushX] (freshQuota emptyTrees)).store) ∧
    used ≤ max initial 1 := by
  have hbound := quota_bound oneByte [⟨"*", 1⟩] 30 oneByte_distinct emptyTrees_sound [pushX]
    fun algorithm first second hfirst hsecond _ => by rw [held_pushX hfirst, held_pushX hsecond]
  refine hbound.1 ⟨"*", .fs 0 0⟩ List.mem_cons_self (emptyTrees_countable _) 1 ?_ fun _ => none
  intro call hcall
  rw [List.mem_singleton.mp hcall]
  exact pushX_governed

end Example

end RspaceRegistry.Stores
