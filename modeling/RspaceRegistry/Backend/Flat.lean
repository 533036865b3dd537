import RspaceRegistry.Multi

namespace RspaceRegistry

open Calls Fallible Ordered

-- A tree of stores does the calls of a flat list of directories, one by one: reads in
-- `readOrder`, everything else in the order of `leaves`.

namespace MultiStore

variable {α β : Type}

theorem fallThrough_fail (first : StoreM α) : fallThrough first (fail .notFound) = first := by
  apply attempt_bind_self
  · intro value
    rfl
  · intro err
    cases err <;> rfl

theorem fallThrough_assoc (first second third : StoreM α) :
    fallThrough (fallThrough first second) third =
      fallThrough first (fallThrough second third) := by
  unfold fallThrough
  rw [attempt_attempt_bind, bind_assoc]
  refine congrArg (attempt first >>= ·) ?_
  funext result
  rcases result with err | value
  · cases err <;> rfl
  · rfl

theorem readSecondaries_append (f : β → StoreM α) (xs ys : List β) :
    readSecondaries f (xs ++ ys) = fallThrough (readSecondaries f xs) (readSecondaries f ys) := by
  induction xs with
  | nil => rfl
  | cons s rest ih =>
      rw [List.cons_append, readSecondaries, ih, readSecondaries, fallThrough_assoc]

theorem existsInAny_append (f : β → StoreM Bool) (xs ys : List β) :
    existsInAny f (xs ++ ys) = existsInAny f xs >>= orAlso (existsInAny f ys) := by
  induction xs with
  | nil => rfl
  | cons s rest ih =>
      simp only [List.cons_append, existsInAny, ih, bind_assoc]
      refine congrArg (f s >>= ·) ?_
      funext found
      cases found <;> rfl

theorem existsInAny_singleton (f : β → StoreM Bool) (s : β) : existsInAny f [s] = f s := by
  have hr : orAlso (existsInAny f []) = (pure : Bool → StoreM Bool) := by
    funext found
    cases found <;> rfl
  rw [existsInAny, hr]
  exact bind_pure (f s)

-- Once something was deleted, the last error no longer matters.
theorem deleteFromAll_deleted (f : β → StoreM Unit) (xs : List β) (e e' : Option StorageError) :
    deleteFromAll f xs true e = deleteFromAll f xs true e' := by
  induction xs generalizing e e' with
  | nil => rfl
  | cons s rest ih =>
      refine congrArg (attempt (f s) >>= ·) ?_
      funext result
      rcases result with err | value
      · cases err <;> exact ih _ _
      · exact ih _ _

-- A delete on a nested store, as its parent counts it.
theorem deleteFromAll_append (f : β → StoreM Unit) (xs ys : List β) (inner deletedAny : Bool)
    (innerErr lastErr : Option StorageError) (hne : innerErr ≠ some .notFound) :
    deleteFromAll f (xs ++ ys) (inner || deletedAny) (innerErr <|> lastErr) =
      attempt (deleteFromAll f xs inner innerErr) >>=
        tally (deleteFromAll f ys) deletedAny lastErr := by
  induction xs generalizing inner innerErr with
  | nil =>
      cases inner with
      | true => exact deleteFromAll_deleted f ys _ _
      | false =>
          cases innerErr with
          | none => rfl
          | some err => cases err <;> first | rfl | exact absurd rfl hne
  | cons s rest ih =>
      rw [List.cons_append, deleteFromAll, deleteFromAll, attempt_attempt_bind, bind_assoc]
      refine congrArg (attempt (f s) >>= ·) ?_
      funext result
      rcases result with err | value
      · cases err with
        | notFound => exact ih inner innerErr hne
        | _ => exact ih inner (some _) (by simp)
      · exact ih true innerErr hne

theorem unionInto_append [LinearOrder α] (f : β → StoreM (BTreeSet α)) (xs ys : List β)
    (set : BTreeSet α) :
    unionInto f (xs ++ ys) set = unionInto f xs set >>= unionInto f ys := by
  induction xs generalizing set with
  | nil => exact (pure_bind _ _).symm
  | cons s rest ih => simp only [List.cons_append, unionInto, ih, bind_assoc]

-- Collecting into an empty set first and adding the result is collecting into
-- the set.
theorem unionInto_nested [LinearOrder α] (f : β → StoreM (BTreeSet α)) (xs : List β)
    (set inner : BTreeSet α) :
    (unionInto f xs inner >>= fun found => pure (set.extend found.toList)) =
      unionInto f xs (set.extend inner.toList) := by
  induction xs generalizing inner with
  | nil => rfl
  | cons s rest ih =>
      simp only [unionInto, bind_assoc, ih]
      refine congrArg (f s >>= ·) ?_
      funext values
      refine congrArg (unionInto f rest) ?_
      apply BTreeSet.ext
      intro value
      simp only [BTreeSet.mem_extend, BTreeSet.mem_toList]
      tauto

theorem listUnion_singleton [LinearOrder α] (f : β → StoreM (BTreeSet α)) (s : β) :
    listUnion f [s] = f s := by
  have hr : (fun values : BTreeSet α => unionInto f [] (BTreeSet.empty.extend values.toList)) =
      (pure : BTreeSet α → StoreM (BTreeSet α)) := by
    funext values
    exact congrArg pure values.empty_extend
  rw [listUnion, unionInto, hr]
  exact bind_pure (f s)

-- The union of a store's own listing with that of the rest.
theorem unionInto_cons [LinearOrder α] {m : β → StoreM (BTreeSet α)}
    {g : RootId → StoreM (BTreeSet α)} {s : β} {rs : List RootId}
    (hs : m s = listUnion g rs) (ps : List β) (set : BTreeSet α) :
    unionInto m (s :: ps) set = unionInto g rs set >>= unionInto m ps := by
  have hn := unionInto_nested g rs set .empty
  have he : set.extend (BTreeSet.empty : BTreeSet α).toList = set := rfl
  rw [he] at hn
  rw [unionInto, hs, listUnion, ← hn, bind_assoc]
  rfl

end MultiStore

open MultiStore

-- The methods that fall through, and what they do on one directory.
structure ReadMethod {α : Type} (m : Storage → StoreM α) (g : RootId → StoreM α) : Prop where
  fs : ∀ root, m (FsStorage.storage root) = g root
  multi : ∀ ms : MultiStore, m ms.storage = ms.readFallthrough m

mutual

theorem Backend.read_flat {α : Type} {m : Storage → StoreM α} {g : RootId → StoreM α}
    (h : ReadMethod m g) : (b : Backend) → m b.storage = readSecondaries g b.readOrder
  | .fs _ root => by
      rw [Backend.storage, h.fs, Backend.readOrder, readSecondaries]
      exact (fallThrough_fail (g root)).symm
  | .multi _ before _ primary after => by
      rw [Backend.storage, h.multi, readFallthrough, Backend.readOrder]
      simp only [secondaries, readSecondaries_append]
      rw [primary.read_flat h, before.read_flat h, after.read_flat h]

theorem Partitions.read_flat {α : Type} {m : Storage → StoreM α} {g : RootId → StoreM α}
    (h : ReadMethod m g) :
    (ps : Partitions) → readSecondaries m ps.storages = readSecondaries g ps.readOrder
  | .nil => rfl
  | .cons _ storage rest => by
      rw [Partitions.storages, readSecondaries, Partitions.readOrder, readSecondaries_append,
        storage.read_flat h, rest.read_flat h]

end

structure ExistsMethod (m : Storage → StoreM Bool) (g : RootId → StoreM Bool) : Prop where
  fs : ∀ root, m (FsStorage.storage root) = g root
  multi : ∀ ms : MultiStore, m ms.storage = existsInAny m ms.partitions

mutual

theorem Backend.exists_flat {m : Storage → StoreM Bool} {g : RootId → StoreM Bool}
    (h : ExistsMethod m g) : (b : Backend) → m b.storage = existsInAny g b.leaves
  | .fs _ root => by rw [Backend.storage, h.fs, Backend.leaves, existsInAny_singleton]
  | .multi _ before _ primary after => by
      rw [Backend.storage, h.multi, Backend.leaves]
      simp only [partitions, existsInAny_append, existsInAny, List.append_assoc]
      rw [primary.exists_flat h, before.exists_flat h, after.exists_flat h]

theorem Partitions.exists_flat {m : Storage → StoreM Bool} {g : RootId → StoreM Bool}
    (h : ExistsMethod m g) :
    (ps : Partitions) → existsInAny m ps.storages = existsInAny g ps.leaves
  | .nil => rfl
  | .cons _ storage rest => by
      rw [Partitions.storages, existsInAny, Partitions.leaves, existsInAny_append,
        storage.exists_flat h, rest.exists_flat h]

end

structure DeleteMethod (m : Storage → StoreM Unit) (g : RootId → StoreM Unit) : Prop where
  fs : ∀ root, m (FsStorage.storage root) = g root
  multi : ∀ ms : MultiStore, m ms.storage = deleteFromAll m ms.partitions false none

namespace MultiStore

theorem deleteFromAll_flat_append {m : Storage → StoreM Unit} {g : RootId → StoreM Unit}
    {xs ys : List Storage} {rs ss : List RootId}
    (hx : deleteFromAll m xs false none = deleteFromAll g rs false none)
    (hy : ∀ deletedAny lastErr,
      deleteFromAll m ys deletedAny lastErr = deleteFromAll g ss deletedAny lastErr)
    (deletedAny : Bool) (lastErr : Option StorageError) :
    deleteFromAll m (xs ++ ys) deletedAny lastErr =
      deleteFromAll g (rs ++ ss) deletedAny lastErr := by
  have hn : (none : Option StorageError) ≠ some .notFound := by simp
  have hm := deleteFromAll_append m xs ys false deletedAny none lastErr hn
  have hg := deleteFromAll_append g rs ss false deletedAny none lastErr hn
  have ht : tally (deleteFromAll m ys) = tally (deleteFromAll g ss) :=
    congrArg tally (funext fun deletedAny => funext (hy deletedAny))
  rw [hx, ht, ← hg] at hm
  exact hm

theorem deleteFromAll_singleton {β : Type} (f : β → StoreM Unit) (s : β) :
    deleteFromAll f [s] false none = f s := by
  refine attempt_bind_self (f s) _ ?_ ?_
  · intro value
    rfl
  · intro err
    cases err <;> rfl

end MultiStore

mutual

theorem Backend.delete_flat {m : Storage → StoreM Unit} {g : RootId → StoreM Unit}
    (h : DeleteMethod m g) : (b : Backend) → m b.storage = deleteFromAll g b.leaves false none
  | .fs _ root => by
      rw [Backend.storage, h.fs, Backend.leaves, deleteFromAll_singleton]
  | .multi _ before _ primary after => by
      have hp := (deleteFromAll_singleton m primary.storage).trans (primary.delete_flat h)
      have ha := deleteFromAll_flat_append hp (after.delete_flat h)
      have hb := deleteFromAll_flat_append (before.delete_flat h false none) ha false none
      rw [Backend.storage, h.multi, Backend.leaves, List.append_assoc]
      exact hb

theorem Partitions.delete_flat {m : Storage → StoreM Unit} {g : RootId → StoreM Unit}
    (h : DeleteMethod m g) : (ps : Partitions) → ∀ deletedAny lastErr,
      deleteFromAll m ps.storages deletedAny lastErr = deleteFromAll g ps.leaves deletedAny lastErr
  | .nil => by
      intro deletedAny lastErr
      rw [Partitions.storages, Partitions.leaves]
      cases deletedAny <;> cases lastErr <;> rfl
  | .cons _ storage rest => by
      have hs := (deleteFromAll_singleton m storage.storage).trans (storage.delete_flat h)
      exact deleteFromAll_flat_append hs (rest.delete_flat h)

end

structure ListMethod {α : Type} [LinearOrder α] (m : Storage → StoreM (BTreeSet α))
    (g : RootId → StoreM (BTreeSet α)) : Prop where
  fs : ∀ root, m (FsStorage.storage root) = g root
  multi : ∀ ms : MultiStore, m ms.storage = listUnion m ms.partitions

mutual

theorem Backend.list_flat {α : Type} [LinearOrder α] {m : Storage → StoreM (BTreeSet α)}
    {g : RootId → StoreM (BTreeSet α)} (h : ListMethod m g) :
    (b : Backend) → m b.storage = listUnion g b.leaves
  | .fs _ root => by rw [Backend.storage, h.fs, Backend.leaves, listUnion_singleton]
  | .multi _ before _ primary after => by
      rw [Backend.storage, h.multi, Backend.leaves, listUnion, listUnion, partitions]
      simp only [unionInto_append, bind_assoc]
      rw [before.list_flat h]
      refine congrArg (unionInto g before.leaves .empty >>= ·) ?_
      funext set
      rw [unionInto_cons (primary.list_flat h)]
      refine congrArg (unionInto g primary.leaves set >>= ·) ?_
      funext set'
      exact after.list_flat h set'

theorem Partitions.list_flat {α : Type} [LinearOrder α] {m : Storage → StoreM (BTreeSet α)}
    {g : RootId → StoreM (BTreeSet α)} (h : ListMethod m g) :
    (ps : Partitions) → ∀ set, unionInto m ps.storages set = unionInto g ps.leaves set
  | .nil => fun _ => rfl
  | .cons _ storage rest => by
      intro set
      rw [Partitions.storages, unionInto_cons (storage.list_flat h), Partitions.leaves,
        unionInto_append]
      refine congrArg (unionInto g storage.leaves set >>= ·) ?_
      funext set'
      exact rest.list_flat h set'

end

namespace Backend

-- The methods of a handle, as calls on directories.

theorem blobWrite_flat (repo : String) (d : Digest) (content : Bytes) : (b : Backend) →
    b.storage.blobWrite repo d content = StoreM.fs b.head (.blobWrite d content)
  | .fs _ _ => rfl
  | .multi _ _ _ primary _ => blobWrite_flat repo d content primary

theorem manifestPut_flat (repo : RepoName) (reference : Reference) (content : Bytes) :
    (b : Backend) → b.storage.manifestPut repo reference content =
      StoreM.fs b.head (.manifestPut repo reference content)
  | .fs _ _ => rfl
  | .multi _ _ _ primary _ => manifestPut_flat repo reference content primary

variable (b : Backend)

theorem blobExists_flat (repo : String) (d : Digest) : b.storage.blobExists repo d =
    existsInAny (fun root => StoreM.fs root (.blobExists d)) b.leaves :=
  b.exists_flat (m := fun s => s.blobExists repo d) ⟨fun _ => rfl, fun _ => rfl⟩

theorem blobSize_flat (repo : String) (d : Digest) : b.storage.blobSize repo d =
    readSecondaries (fun root => StoreM.fs root (.blobSize d)) b.readOrder :=
  b.read_flat (m := fun s => s.blobSize repo d) ⟨fun _ => rfl, fun _ => rfl⟩

theorem blobRead_flat (repo : String) (d : Digest) : b.storage.blobRead repo d =
    readSecondaries (fun root => StoreM.fs root (.blobRead d)) b.readOrder :=
  b.read_flat (m := fun s => s.blobRead repo d) ⟨fun _ => rfl, fun _ => rfl⟩

theorem blobDelete_flat (repo : String) (d : Digest) : b.storage.blobDelete repo d =
    deleteFromAll (fun root => StoreM.fs root (.blobDelete d)) b.leaves false none :=
  b.delete_flat (m := fun s => s.blobDelete repo d) ⟨fun _ => rfl, fun _ => rfl⟩

theorem manifestGet_flat (repo : RepoName) (reference : Reference) :
    b.storage.manifestGet repo reference =
      readSecondaries (fun root => StoreM.fs root (.manifestGet repo reference)) b.readOrder :=
  b.read_flat (m := fun s => s.manifestGet repo reference) ⟨fun _ => rfl, fun _ => rfl⟩

theorem manifestDelete_flat (repo : RepoName) (reference : Reference) :
    b.storage.manifestDelete repo reference =
      deleteFromAll (fun root => StoreM.fs root (.manifestDelete repo reference)) b.leaves
        false none :=
  b.delete_flat (m := fun s => s.manifestDelete repo reference) ⟨fun _ => rfl, fun _ => rfl⟩

theorem listRepos_flat : b.storage.listRepos =
    listUnion (fun root => StoreM.fs root .listRepos) b.leaves :=
  b.list_flat (m := fun s => s.listRepos) ⟨fun _ => rfl, fun _ => rfl⟩

theorem listTags_flat (repo : RepoName) : b.storage.listTags repo =
    listUnion (fun root => StoreM.fs root (.listTags repo)) b.leaves :=
  b.list_flat (m := fun s => s.listTags repo) ⟨fun _ => rfl, fun _ => rfl⟩

theorem listManifestDigests_flat (repo : RepoName) : b.storage.listManifestDigests repo =
    listUnion (fun root => StoreM.fs root (.listManifestDigests repo)) b.leaves :=
  b.list_flat (m := fun s => s.listManifestDigests repo) ⟨fun _ => rfl, fun _ => rfl⟩

-- A listing of several handles.
theorem unionInto_flat {α : Type} [LinearOrder α] {m : Storage → StoreM (BTreeSet α)}
    {g : RootId → StoreM (BTreeSet α)} (h : ListMethod m g) (bs : List Backend)
    (set : BTreeSet α) :
    unionInto (fun b : Backend => m b.storage) bs set = unionInto g (bs.flatMap leaves) set := by
  induction bs generalizing set with
  | nil => rfl
  | cons b rest ih =>
      have hrest : unionInto (fun b : Backend => m b.storage) rest =
          unionInto g (rest.flatMap leaves) := funext ih
      rw [unionInto_cons (m := fun b : Backend => m b.storage) (b.list_flat h), List.flatMap_cons,
        unionInto_append, hrest]

theorem listAllBlobs_flat : b.storage.listAllBlobs =
    listUnion (fun root => StoreM.fs root .listAllBlobs) b.leaves :=
  b.list_flat (m := fun s => s.listAllBlobs) ⟨fun _ => rfl, fun _ => rfl⟩

end Backend

end RspaceRegistry
