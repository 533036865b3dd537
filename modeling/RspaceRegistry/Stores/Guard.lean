import RspaceRegistry.Places.Weights
import RspaceRegistry.RepoRouter.Theorems
import RspaceRegistry.Stores.Quota
import RspaceRegistry.Stores.Trees

namespace RspaceRegistry.Stores

open Calls Disk Files Ordered Places

-- Quotas over directories: what is measured, and what comes of a write.

section Usage

variable [Sha2]

def sizes (trees : Trees) (b : Backend) (d : Digest) : Option Nat :=
  (blobIn trees b.readOrder d).map List.length

variable {trees : Trees} {b : Backend}

theorem addSizes_eq (apart : RootId → Option IoError) (h : Sound trees) {list : List Digest}
    {total : Nat} (htotal : total < 2 ^ 64) :
    addSizes (b.serve (onTrees apart)) list total trees =
      (.ok ((total + (list.map fun d => (sizes trees b d).getD 0).sum) % 2 ^ 64), trees) := by
  induction list generalizing total with
  | nil =>
      rw [addSizes, List.map_nil, List.sum_nil, Nat.add_zero, Nat.mod_eq_of_lt htotal]
  | cons d rest ih =>
      rw [addSizes, serve_size apart h, List.map_cons, List.sum_cons, ← Nat.add_assoc, sizes]
      cases blobIn trees b.readOrder d with
      | none => exact ih htotal
      | some bytes =>
          show addSizes _ rest ((total + bytes.length) % 2 ^ 64) trees = _
          rw [ih (Nat.mod_lt _ (by decide)), Nat.mod_add_mod]
          rfl

-- The measured usage is the sum of the sizes, as far as that fits.
theorem usedBytes_eq (apart : RootId → Option IoError) (b : Backend) (h : Sound trees) :
    ∃ total, Weighs (sizes trees b) total ∧
    usedBytes (b.serve (onTrees apart)) trees = (.ok (total % 2 ^ 64), trees) := by
  obtain ⟨listing, hrun, hmem⟩ := serve_list apart h b
  refine ⟨_, Weighs.of_list listing.nodup fun d => ?_, ?_⟩
  · rw [sizes, Option.isSome_map]
    exact hmem d
  · rw [usedBytes, hrun]
    show addSizes _ listing.toList 0 trees = _
    rw [addSizes_eq apart h (by decide), Nat.zero_add]

end Usage

section Shelves

variable {trees trees' : Trees} {b : Backend}

-- The content is that of some blob.
def Holds (trees : Trees) (content : Bytes) : Prop :=
  ∃ root d, (shelf (trees root)).blobs d = some content

-- A blob written at the head is found there first.
theorem blobIn_written {d : Digest} {content : Bytes}
    (hblobs : ∀ root, (shelf (trees' root)).blobs =
      if root = b.head then ((shelf (trees b.head)).put d content).blobs
      else (shelf (trees root)).blobs) (d' : Digest) :
    blobIn trees' b.readOrder d' =
      if d' = d then some content else blobIn trees b.readOrder d' := by
  split
  · rename_i heq
    obtain ⟨rest, horder⟩ := b.readOrder_eq_cons
    rw [blobIn, horder]
    apply first_cons_of_some
    rw [blobSlot, hblobs, if_pos rfl, Shelf.put_blobs, if_pos heq]
  · rename_i hne
    apply first_congr
    intro root _
    rw [blobSlot, blobSlot, hblobs]
    split
    · rename_i heq
      rw [Shelf.put_blobs, if_neg hne, heq]
    · rfl

theorem sizes_congr (h : ∀ root ∈ b.leaves, (shelf (trees' root)).blobs = (shelf (trees root)).blobs) :
    sizes trees' b = sizes trees b := by
  funext d
  have hsame : blobIn trees' b.readOrder d = blobIn trees b.readOrder d := by
    apply first_congr
    intro root hroot
    rw [blobSlot, blobSlot, h root ((b.mem_readOrder root).mp hroot)]
  rw [sizes, sizes, hsame]

theorem sizes_deleted {d : Digest} (h : ∀ root, (shelf (trees' root)).blobs =
      if root ∈ b.leaves then ((shelf (trees root)).drop d).blobs else (shelf (trees root)).blobs) :
    sizes trees' b = Function.update (sizes trees b) d none := by
  funext d'
  have hroots : ∀ root ∈ b.readOrder, blobSlot trees' d' root =
      if d' = d then none else blobSlot trees d' root := by
    intro root hroot
    rw [blobSlot, h, if_pos ((b.mem_readOrder root).mp hroot), Shelf.drop_blobs]
    rfl
  rw [Function.update_apply, sizes]
  split
  · rename_i heq
    have hnone : blobIn trees' b.readOrder d' = none := by
      apply first_eq_none.mpr
      intro root hroot
      rw [hroots root hroot, if_pos heq]
    rw [hnone]
    rfl
  · rename_i hne
    have hsame : blobIn trees' b.readOrder d' = blobIn trees b.readOrder d' := by
      apply first_congr
      intro root hroot
      rw [hroots root hroot, if_neg hne]
    rw [hsame, sizes]

end Shelves

section Primary

variable [Sha2] (apart : RootId → Option IoError) {trees trees' : Trees} (h : Sound trees)
variable (b : Backend)

-- A blob is written whole, or nothing happens to the shelves.
def Writes (b : Backend) (d : Digest) (incoming : Nat) (trees : Trees)
    (result : Except StorageError Unit × Trees) : Prop :=
  (∃ err, result.1 = .error err ∧ (∀ message, err ≠ .quotaExceeded message) ∧
    SameShelves trees result.2) ∨
  ∃ content, result.1 = .ok () ∧ content.length = incoming ∧
    hashContent d.algorithm content = d ∧ ∀ root, (shelf (result.2 root)).blobs =
      if root = b.head then ((shelf (trees b.head)).put d content).blobs
      else (shelf (trees root)).blobs

omit [Sha2] in
theorem sameShelves_of_head (hshelf : ∀ root, shelf (trees' root) =
    if root = b.head then shelf (trees b.head) else shelf (trees root)) :
    SameShelves trees trees' := by
  intro root
  rw [hshelf]
  split
  · rename_i heq
    rw [heq]
  · rfl

include h

theorem writes_blobWrite (repo : String) (d : Digest) (content : Bytes) :
    Writes b d content.length trees
      (b.serve (onTrees apart) (.request (.blobWrite repo d content)) trees) := by
  have hop : ForPrimary (.request (.blobWrite repo d content)) := fun _ _ _ _ => rfl
  by_cases hhash : hashContent d.algorithm content = d
  · have hserve : (shelf (trees b.head)).serve (.blobWrite repo d content) =
        (some (.ok ()), (shelf (trees b.head)).put d content) := if_pos hhash
    obtain ⟨hanswer, hshelf⟩ := serve_answer apart h b hop hserve
    refine .inr ⟨content, hanswer, rfl, hhash, fun root => ?_⟩
    rw [hshelf]
    split <;> rfl
  · have hserve : (shelf (trees b.head)).serve (.blobWrite repo d content) =
        (some (.error (.digestMismatch d (hashContent d.algorithm content))),
          shelf (trees b.head)) := if_neg hhash
    obtain ⟨hanswer, hshelf⟩ := serve_answer apart h b hop hserve
    exact .inl ⟨_, hanswer, nofun, sameShelves_of_head b hshelf⟩

-- The size that a session reports, if there is one.
theorem serve_status (repo id : String) :
    b.serve (onTrees apart) (.request (.uploadStatus repo id)) trees =
      ((orNotFound ((shelf (trees b.head)).sessions id)).map fun bytes => ⟨id, bytes.length⟩,
        trees) := by
  have hop : ForPrimary (.request (.uploadStatus repo id)) := fun _ _ _ _ => rfl
  rw [b.serve_head (onTrees apart) hop]
  exact onTrees_same (run_uploadStatus_laid (h b.head).toLaid id)

theorem writes_uploadFinalize (repo id : String) (d : Digest) :
    Writes b d (((shelf (trees b.head)).sessions id).elim 0 List.length) trees
      (b.serve (onTrees apart) (.request (.uploadFinalize repo id d)) trees) := by
  have hop : ForPrimary (.request (.uploadFinalize repo id d)) := fun _ _ _ _ => rfl
  cases hsession : (shelf (trees b.head)).sessions id with
  | none =>
      have hserve : (shelf (trees b.head)).serve (.uploadFinalize repo id d) =
          (some (.error .notFound), shelf (trees b.head)) := by
        simp only [Shelf.serve, hsession]
      obtain ⟨hanswer, hshelf⟩ := serve_answer apart h b hop hserve
      exact .inl ⟨_, hanswer, (fun _ h => by cases h), sameShelves_of_head b hshelf⟩
  | some bytes =>
      by_cases hhash : hashContent d.algorithm bytes = d
      · have hserve : (shelf (trees b.head)).serve (.uploadFinalize repo id d) =
            (some (.ok ()), ((shelf (trees b.head)).put d bytes).close id) := by
          simp only [Shelf.serve, hsession, if_pos hhash]
        obtain ⟨hanswer, hshelf⟩ := serve_answer apart h b hop hserve
        refine .inr ⟨bytes, hanswer, rfl, hhash, fun root => ?_⟩
        rw [hshelf]
        split <;> rfl
      · have hserve : (shelf (trees b.head)).serve (.uploadFinalize repo id d) =
            (some (.error (.digestMismatch d (hashContent d.algorithm bytes))),
              shelf (trees b.head)) := by
          simp only [Shelf.serve, hsession, if_neg hhash]
        obtain ⟨hanswer, hshelf⟩ := serve_answer apart h b hop hserve
        exact .inl ⟨_, hanswer, (fun _ h => by cases h), sameShelves_of_head b hshelf⟩

end Primary

section Guard

variable [Sha2] (router : RepoRouter) (quotas : List Quota) (ttl : Nat)
variable (apart : RootId → Option IoError)

def quotaOn : QuotaStorage Trees := ⟨onTrees apart, router, quotas, ttl⟩

-- Looking up the usage of a backend may renew its entry, and does nothing else.
structure Looked (b : Backend) (s s' : QuotaState Trees) : Prop where
  store : s'.store = s.store
  others : ∀ other, other ≠ b → s'.usage other = s.usage other
  entry : s'.usage b = s.usage b ∨ ∃ cached total, s'.usage b = some cached ∧
    Weighs (sizes s.store b) total ∧ cached.value = total % 2 ^ 64

omit [Sha2] in
theorem Looked.refl (b : Backend) (s : QuotaState Trees) : Looked b s s :=
  ⟨rfl, fun _ _ => rfl, .inl rfl⟩

variable {s : QuotaState Trees} (h : Sound s.store) (clock : Clock)

include h

theorem usageOf_cases (b : Backend) : ∃ cached s',
    (quotaOn router quotas ttl apart).usageOf clock b s = (.ok cached.value, s') ∧
      Looked b s s' ∧ s'.usage b = some cached := by
  rw [QuotaStorage.usageOf]
  split
  · rename_i cached hfresh
    obtain ⟨hentry, -⟩ := Option.filter_eq_some_iff.mp hfresh
    exact ⟨cached, s, rfl, .refl b s, hentry⟩
  · obtain ⟨total, hweighs, hused⟩ := usedBytes_eq apart b h
    have hmeasured : usedBytes (b.serve (quotaOn router quotas ttl apart).disk) s.store =
        (.ok (total % 2 ^ 64), s.store) := hused
    rw [hmeasured]
    refine ⟨⟨total % 2 ^ 64, clock.later + ttl⟩, _, rfl, ⟨rfl, fun other hother => ?_, ?_⟩, ?_⟩
    · exact Function.update_of_ne hother _ _
    · exact .inr ⟨_, total, Function.update_self _ _ _, hweighs, rfl⟩
    · exact Function.update_self _ _ _

-- The bytes that come in fit.
def Fits (b : Backend) (repo : String) (incoming : Nat) (s : QuotaState Trees) : Prop :=
  ∀ quota, matchingQuota quotas repo = some quota → ∃ cached, s.usage b = some cached ∧
    saturatingAdd cached.value incoming ≤ quota.maxBytes.toNat

theorem enforce_cases (repo : String) (incoming : Nat) : ∃ s', Looked (router.resolve repo) s s' ∧
    ((quotaOn router quotas ttl apart).enforce clock repo incoming s = (.ok (), s') ∧
        Fits quotas (router.resolve repo) repo incoming s' ∨
      ∃ message, (quotaOn router quotas ttl apart).enforce clock repo incoming s =
        (.error (.quotaExceeded message), s')) := by
  rw [QuotaStorage.enforce]
  split
  · rename_i hnone
    refine ⟨s, .refl _ s, .inl ⟨rfl, fun quota hquota => ?_⟩⟩
    rw [show matchingQuota quotas repo = none from hnone] at hquota
    cases hquota
  · rename_i quota hquota
    obtain ⟨cached, s', hrun, hlooked, hentry⟩ :=
      usageOf_cases router quotas ttl apart h clock (router.resolve repo)
    refine ⟨s', hlooked, ?_⟩
    have hrun : (quotaOn router quotas ttl apart).usageOf clock
        ((quotaOn router quotas ttl apart).router.resolve repo) s = (.ok cached.value, s') := hrun
    rw [hrun]
    simp only
    split
    · exact .inr ⟨_, rfl⟩
    · rename_i hle
      refine .inl ⟨rfl, fun quota' hquota' => ⟨cached, hentry, ?_⟩⟩
      rw [show matchingQuota quotas repo = some quota from hquota] at hquota'
      rw [← Option.some.inj hquota']
      exact Nat.not_lt.mp hle

theorem guarded_cases (repo : String) (incoming : Nat) (write : Method (QuotaState Trees) Unit) :
    ∃ s', Looked (router.resolve repo) s s' ∧
      ((∃ message, (quotaOn router quotas ttl apart).guarded clock repo incoming write s =
          (.error (.quotaExceeded message), s')) ∨
        Fits quotas (router.resolve repo) repo incoming s' ∧
          (quotaOn router quotas ttl apart).guarded clock repo incoming write s =
            QuotaStorage.counted (router.resolve repo) incoming (write s')) := by
  obtain ⟨s', hlooked, ⟨henforce, hfits⟩ | ⟨message, henforce⟩⟩ :=
    enforce_cases router quotas ttl apart h clock repo incoming
  · refine ⟨s', hlooked, .inr ⟨hfits, ?_⟩⟩
    rw [QuotaStorage.guarded, henforce]
    rfl
  · refine ⟨s', hlooked, .inl ⟨message, ?_⟩⟩
    rw [QuotaStorage.guarded, henforce]

end Guard

section Checked

variable [Sha2] (router : RepoRouter) (quotas : List Quota) (ttl : Nat)
variable (apart : RootId → Option IoError) (clock : Clock)

-- What happens below, with the usages as they are.
def passOn {α : Type} (method : Method Trees α) : Method (QuotaState Trees) α := fun s =>
  ((method s.store).1, { s with store := (method s.store).2 })

-- Both writes of a blob: unchecked if the backend has it.
def checked (repo : String) (d : Digest) (incoming : Nat) (write : Method Trees Unit) :
    Method (QuotaState Trees) Unit := fun s =>
  if (blobIn s.store (router.resolve repo).readOrder d).isSome then passOn write s
  else (quotaOn router quotas ttl apart).guarded clock repo incoming (passOn write) s

variable {b : Backend} {bound : Nat} {s : QuotaState Trees}

theorem below_look {op : StoreOp} {answer : op.Ans}
    (hrun : router.serve (onTrees apart) op s.store = (answer, s.store)) :
    (quotaOn router quotas ttl apart).below op s = (answer, s) := by
  have hrun' : (quotaOn router quotas ttl apart).router.serve
      (quotaOn router quotas ttl apart).disk op s.store = (answer, s.store) := hrun
  rw [QuotaStorage.below, hrun']

theorem below_exists (h : Sound s.store) (repo : String) (d : Digest) :
    (quotaOn router quotas ttl apart).below (.request (.blobExists repo d)) s =
      (.ok (blobIn s.store (router.resolve repo).readOrder d).isSome, s) :=
  below_look router quotas ttl apart (serve_exists apart h (router.resolve repo) repo d)

theorem below_status (h : Sound s.store) (repo id : String) :
    (quotaOn router quotas ttl apart).below (.request (.uploadStatus repo id)) s =
      ((orNotFound ((shelf (s.store (router.resolve repo).head)).sessions id)).map fun bytes =>
        ⟨id, bytes.length⟩, s) :=
  below_look router quotas ttl apart (serve_status apart h (router.resolve repo) repo id)

theorem serve_blobWrite (h : Sound s.store) (repo : String) (d : Digest) (content : Bytes) :
    (quotaOn router quotas ttl apart).serve clock (.request (.blobWrite repo d content)) s =
      checked router quotas ttl apart clock repo d content.length
        ((router.resolve repo).serve (onTrees apart) (.request (.blobWrite repo d content))) s := by
  rw [QuotaStorage.serve, QuotaStorage.blobWrite, below_exists router quotas ttl apart h, checked]
  cases (blobIn s.store (router.resolve repo).readOrder d).isSome <;> rfl

theorem serve_uploadFinalize (h : Sound s.store) (repo id : String) (d : Digest) :
    (quotaOn router quotas ttl apart).serve clock (.request (.uploadFinalize repo id d)) s =
      checked router quotas ttl apart clock repo d
        (((shelf (s.store (router.resolve repo).head)).sessions id).elim 0 List.length)
        ((router.resolve repo).serve (onTrees apart) (.request (.uploadFinalize repo id d))) s := by
  rw [QuotaStorage.serve, QuotaStorage.uploadFinalize, below_exists router quotas ttl apart h,
    checked]
  cases (blobIn s.store (router.resolve repo).readOrder d).isSome with
  | true => rfl
  | false =>
      simp only [below_status router quotas ttl apart h]
      cases (shelf (s.store (router.resolve repo).head)).sessions id <;> rfl

variable {repo : String} {d : Digest} {incoming : Nat} {write : Method Trees Unit}

-- What comes of a write of a blob.
theorem checked_cases (h : Sound s.store)
    (hwrite : Writes (router.resolve repo) d incoming s.store (write s.store)) :
    let result := checked router quotas ttl apart clock repo d incoming write s
    (∃ s' message, Looked (router.resolve repo) s s' ∧
      result = (.error (.quotaExceeded message), s') ∧
        (blobIn s.store (router.resolve repo).readOrder d).isSome = false) ∨
    (∃ s' err, Looked (router.resolve repo) s s' ∧ (∀ message, err ≠ .quotaExceeded message) ∧
      result = (.error err, { s' with store := (write s.store).2 }) ∧
        SameShelves s.store (write s.store).2) ∨
    (result = (.ok (), { s with store := (write s.store).2 }) ∧
      (blobIn s.store (router.resolve repo).readOrder d).isSome) ∨
    ∃ s', Looked (router.resolve repo) s s' ∧ Fits quotas (router.resolve repo) repo incoming s' ∧
      result = (.ok (), QuotaStorage.bump (router.resolve repo) incoming
        { s' with store := (write s.store).2 }) ∧
      (blobIn s.store (router.resolve repo).readOrder d).isSome = false ∧
        (write s.store).1 = .ok () := by
  intro result
  have hresult : result = checked router quotas ttl apart clock repo d incoming write s := rfl
  rw [checked] at hresult
  split at hresult
  · rename_i hheld
    rcases hwrite with ⟨err, hanswer, hquota, hsame⟩ | ⟨content, hanswer, -⟩
    · refine .inr (.inl ⟨s, err, .refl _ s, hquota, ?_, hsame⟩)
      rw [hresult, passOn, hanswer]
    · refine .inr (.inr (.inl ⟨?_, hheld⟩))
      rw [hresult, passOn, hanswer]
  · rename_i hnew
    have hnew : (blobIn s.store (router.resolve repo).readOrder d).isSome = false := by
      simpa using hnew
    obtain ⟨s', hlooked, ⟨message, hrun⟩ | ⟨hfits, hrun⟩⟩ :=
      guarded_cases router quotas ttl apart h clock repo incoming (passOn write)
    · exact .inl ⟨s', message, hlooked, hresult.trans hrun, hnew⟩
    · rw [hrun, passOn, hlooked.store] at hresult
      rcases hwrite with ⟨err, hanswer, hquota, hsame⟩ | ⟨content, hanswer, -⟩
      · refine .inr (.inl ⟨s', err, hlooked, hquota, ?_, hsame⟩)
        rw [hresult, hanswer]
        rfl
      · refine .inr (.inr (.inr ⟨s', hlooked, hfits, ?_, hnew, hanswer⟩))
        rw [hresult, hanswer]
        rfl

theorem checked_store (h : Sound s.store)
    (hwrite : Writes (router.resolve repo) d incoming s.store (write s.store)) :
    (checked router quotas ttl apart clock repo d incoming write s).2.store = s.store ∨
      (checked router quotas ttl apart clock repo d incoming write s).2.store =
        (write s.store).2 := by
  rcases checked_cases router quotas ttl apart clock h hwrite with
    ⟨s', message, hlooked, hrun, -⟩ | ⟨s', err, -, -, hrun, -⟩ | ⟨hrun, -⟩ | ⟨s', -, -, hrun, -⟩
  · rw [hrun]
    exact .inl hlooked.store
  · exact .inr (by rw [hrun])
  · exact .inr (by rw [hrun])
  · exact .inr (by rw [hrun]; rfl)

end Checked

end RspaceRegistry.Stores
