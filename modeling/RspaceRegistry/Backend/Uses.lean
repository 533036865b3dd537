import RspaceRegistry.Backend.Flat

namespace RspaceRegistry

open Calls Fallible Ordered MultiStore

namespace Op

-- The calls on directories that write at most below the first roots and delete
-- at most below the second ones.
def Confined (writes deletes : List RootId) : Op → Prop
  | .fs root (.blobWrite _ _) => root ∈ writes
  | .fs root (.manifestPut _ _ _) => root ∈ writes
  | .fs root (.blobDelete _) => root ∈ deletes
  | .fs root (.manifestDelete _ _) => root ∈ deletes
  | .fs _ _ => True
  | _ => False

theorem Confined.mono {writes deletes writes' deletes' : List RootId} (hw : writes ⊆ writes')
    (hd : deletes ⊆ deletes') (op : Op) (h : op.Confined writes deletes) :
    op.Confined writes' deletes' := by
  cases op with
  | fs root call =>
      cases call with
      | blobWrite expected content => exact hw h
      | manifestPut repo reference content => exact hw h
      | blobDelete digest => exact hd h
      | manifestDelete repo reference => exact hd h
      | _ => trivial
  | _ => exact h

end Op

-- A program that only reads.
def ReadOnly {α : Type} (prog : StoreM α) : Prop := prog.Uses (Op.Confined [] [])

theorem ReadOnly.uses {α : Type} {prog : StoreM α} (h : ReadOnly prog)
    (writes deletes : List RootId) : prog.Uses (Op.Confined writes deletes) :=
  h.mono (Op.Confined.mono (List.nil_subset _) (List.nil_subset _))

namespace MultiStore

variable {α β : Type} {allowed : Op → Prop}

theorem uses_readSecondaries {f : β → StoreM α} (list : List β)
    (hf : ∀ s ∈ list, (f s).Uses allowed) : (readSecondaries f list).Uses allowed := by
  induction list with
  | nil => exact uses_fail _ _
  | cons s rest ih =>
      refine (hf s List.mem_cons_self).attempt.bind ?_
      intro result
      have hrest := ih fun s hs => hf s (List.mem_cons_of_mem _ hs)
      rcases result with err | value
      · cases err with
        | notFound => exact hrest
        | _ => exact uses_fail _ _
      · exact uses_pure _ _

theorem uses_existsInAny {f : β → StoreM Bool} (list : List β)
    (hf : ∀ s ∈ list, (f s).Uses allowed) : (existsInAny f list).Uses allowed := by
  induction list with
  | nil => exact uses_pure _ _
  | cons s rest ih =>
      refine (hf s List.mem_cons_self).bind ?_
      intro found
      have hrest := ih fun s hs => hf s (List.mem_cons_of_mem _ hs)
      cases found with
      | false => exact hrest
      | true => exact uses_pure _ _

theorem uses_deleteFromAll {f : β → StoreM Unit} (list : List β)
    (hf : ∀ s ∈ list, (f s).Uses allowed) (deletedAny : Bool) (lastErr : Option StorageError) :
    (deleteFromAll f list deletedAny lastErr).Uses allowed := by
  induction list generalizing deletedAny lastErr with
  | nil =>
      cases deletedAny <;> cases lastErr <;> trivial
  | cons s rest ih =>
      refine (hf s List.mem_cons_self).attempt.bind ?_
      intro result
      have hrest := ih fun s hs => hf s (List.mem_cons_of_mem _ hs)
      rcases result with err | value
      · cases err <;> exact hrest _ _
      · exact hrest _ _

theorem uses_listUnion [LinearOrder α] {f : β → StoreM (BTreeSet α)} (list : List β)
    (hf : ∀ s ∈ list, (f s).Uses allowed) : (listUnion f list).Uses allowed := by
  have hinto : ∀ set, (unionInto f list set).Uses allowed := by
    induction list with
    | nil => exact fun set => uses_pure _ _
    | cons s rest ih =>
        intro set
        refine (hf s List.mem_cons_self).bind ?_
        intro values
        exact ih (fun s hs => hf s (List.mem_cons_of_mem _ hs)) _
  exact hinto .empty

end MultiStore

namespace StoreM

theorem uses_fs {allowed : Op → Prop} {root : RootId} {call : FsCall}
    (h : allowed (.fs root call)) : (StoreM.fs root call).Uses allowed := ⟨h, fun _ => trivial⟩

end StoreM

namespace Backend

open StoreM

variable (b : Backend)

theorem readOnly_blobExists (repo : String) (d : Digest) :
    ReadOnly (b.storage.blobExists repo d) := by
  rw [b.blobExists_flat]
  exact uses_existsInAny _ fun _ _ => uses_fs trivial

theorem readOnly_blobSize (repo : String) (d : Digest) : ReadOnly (b.storage.blobSize repo d) := by
  rw [b.blobSize_flat]
  exact uses_readSecondaries _ fun _ _ => uses_fs trivial

theorem readOnly_blobRead (repo : String) (d : Digest) : ReadOnly (b.storage.blobRead repo d) := by
  rw [b.blobRead_flat]
  exact uses_readSecondaries _ fun _ _ => uses_fs trivial

theorem readOnly_manifestGet (repo : RepoName) (reference : Reference) :
    ReadOnly (b.storage.manifestGet repo reference) := by
  rw [b.manifestGet_flat]
  exact uses_readSecondaries _ fun _ _ => uses_fs trivial

theorem readOnly_listRepos : ReadOnly b.storage.listRepos := by
  rw [b.listRepos_flat]
  exact uses_listUnion _ fun _ _ => uses_fs trivial

theorem readOnly_listTags (repo : RepoName) : ReadOnly (b.storage.listTags repo) := by
  rw [b.listTags_flat]
  exact uses_listUnion _ fun _ _ => uses_fs trivial

theorem readOnly_listManifestDigests (repo : RepoName) :
    ReadOnly (b.storage.listManifestDigests repo) := by
  rw [b.listManifestDigests_flat]
  exact uses_listUnion _ fun _ _ => uses_fs trivial

theorem readOnly_listAllBlobs : ReadOnly b.storage.listAllBlobs := by
  rw [b.listAllBlobs_flat]
  exact uses_listUnion _ fun _ _ => uses_fs trivial

theorem uses_blobWrite (repo : String) (d : Digest) (content : Bytes) :
    (b.storage.blobWrite repo d content).Uses (Op.Confined [b.head] []) := by
  rw [blobWrite_flat]
  exact uses_fs (List.mem_singleton_self b.head)

theorem uses_manifestPut (repo : RepoName) (reference : Reference) (content : Bytes) :
    (b.storage.manifestPut repo reference content).Uses (Op.Confined [b.head] []) := by
  rw [manifestPut_flat]
  exact uses_fs (List.mem_singleton_self b.head)

theorem uses_blobDelete (repo : String) (d : Digest) :
    (b.storage.blobDelete repo d).Uses (Op.Confined [] b.leaves) := by
  rw [b.blobDelete_flat]
  exact uses_deleteFromAll _ (fun _ hroot => uses_fs hroot) _ _

theorem uses_manifestDelete (repo : RepoName) (reference : Reference) :
    (b.storage.manifestDelete repo reference).Uses (Op.Confined [] b.leaves) := by
  rw [b.manifestDelete_flat]
  exact uses_deleteFromAll _ (fun _ hroot => uses_fs hroot) _ _

end Backend

end RspaceRegistry
