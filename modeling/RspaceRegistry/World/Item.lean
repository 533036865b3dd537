import RspaceRegistry.Backend.Reads
import RspaceRegistry.World.Effect

namespace RspaceRegistry

open Calls Fallible MultiStore

-- What a client can read, put and delete under one name. The repository of a blob
-- takes part in the route only.
inductive Item
  | blob (repo : RepoName) (digest : Digest)
  | manifest (repo : RepoName) (digest : Digest)
  | tag (repo : RepoName) (tag : TagName)

namespace Item

def readCall : Item → FsCall
  | .blob _ d => .blobRead d
  | .manifest repo d => .manifestGet repo (.digest d)
  | .tag repo t => .manifestGet repo (.tag t)

def deleteCall : Item → FsCall
  | .blob _ d => .blobDelete d
  | .manifest repo d => .manifestDelete repo (.digest d)
  | .tag repo t => .manifestDelete repo (.tag t)

def deleteAt (root : RootId) : Item → StoreM Unit
  | .blob _ d => StoreM.fs root (.blobDelete d)
  | .manifest repo d => StoreM.fs root (.manifestDelete repo (.digest d))
  | .tag repo t => StoreM.fs root (.manifestDelete repo (.tag t))

-- The delete and the read of a client.

def delete (b : Backend) : Item → StoreM Unit
  | .blob repo d => b.storage.blobDelete repo.text d
  | .manifest repo d => b.storage.manifestDelete repo (.digest d)
  | .tag repo t => b.storage.manifestDelete repo (.tag t)

theorem delete_flat (b : Backend) (item : Item) :
    item.delete b = deleteFromAll (fun root => item.deleteAt root) b.leaves false none := by
  cases item with
  | blob repo d => exact b.blobDelete_flat repo.text d
  | manifest repo d => exact b.manifestDelete_flat repo (.digest d)
  | tag repo t => exact b.manifestDelete_flat repo (.tag t)

def Held (c : Contents) : Item → Prop
  | .blob _ d => (c.blob d).isSome
  | .manifest repo d => (c.manifest repo d).isSome
  | .tag repo t => (c.tag repo t).isSome

variable [Sha2]

def read (b : Backend) (w : World) : Item → Except StorageError Bytes
  | .blob repo d => b.blobRead w repo d
  | .manifest repo d => b.manifestGet w repo (.digest d)
  | .tag repo t => b.manifestGet w repo (.tag t)

-- The calls that write the item. A put by tag writes the manifest as well.
def Writes (item : Item) : FsCall → Prop
  | .blobWrite d _ => ∃ repo, item = .blob repo d
  | .manifestPut repo reference content => item = .manifest repo (sha256Digest content) ∨
      ∃ t, reference = .tag t ∧ item = .tag repo t
  | _ => False

theorem held_of_effect {item : Item} {call : FsCall} {c c' : Contents} (h : Effect call c c')
    (hheld : item.Held c') : item.Held c ∨ item.Writes call := by
  cases item with
  | blob repo d =>
      obtain ⟨content, hd⟩ := Option.isSome_iff_exists.mp hheld
      rcases h.blob_new hd with hold | rfl
      · exact .inl (Option.isSome_iff_exists.mpr ⟨content, hold⟩)
      · exact .inr ⟨repo, rfl⟩
  | manifest repo d =>
      obtain ⟨content, hd⟩ := Option.isSome_iff_exists.mp hheld
      rcases h.manifest_new hd with hold | ⟨reference, rfl, rfl⟩
      · exact .inl (Option.isSome_iff_exists.mpr ⟨content, hold⟩)
      · exact .inr (.inl rfl)
  | tag repo t =>
      obtain ⟨d, hd⟩ := Option.isSome_iff_exists.mp hheld
      rcases h.tag_new hd with hold | ⟨content, rfl⟩
      · exact .inl (Option.isSome_iff_exists.mpr ⟨d, hold⟩)
      · exact .inr (.inr ⟨t, rfl, rfl⟩)

variable {item : Item} {root : RootId} {w w' : World}

theorem held_of_read {value : item.readCall.Value}
    (h : World.Faulty (.fs root item.readCall) w (.ok value) w') : item.Held (w.volumes root) := by
  have hread := congrArg Prod.fst (World.handle_of_answer h nofun)
  cases item with
  | blob repo d =>
      change Bytes at value
      have hread : (w.roots root).blobRead d = .ok value := hread
      rw [FsStorage.blobRead_eq, orNotFound_eq_ok] at hread
      exact Option.isSome_iff_exists.mpr ⟨value, hread⟩
  | manifest repo d =>
      change Bytes at value
      have hread : (w.roots root).manifestGet repo (.digest d) = .ok value := hread
      rw [FsStorage.manifestGet_eq, orNotFound_eq_ok] at hread
      exact Option.isSome_iff_exists.mpr ⟨value, hread⟩
  | tag repo t =>
      change Bytes at value
      have hread : (w.roots root).manifestGet repo (.tag t) = .ok value := hread
      rw [FsStorage.manifestGet_eq, orNotFound_eq_ok, Contents.read_eq_some] at hread
      obtain ⟨d, htag, _⟩ := hread
      exact Option.isSome_iff_exists.mpr ⟨d, htag⟩

-- A delete that is carried out leaves nothing.
theorem not_held_of_delete {answer : Except StorageError item.deleteCall.Value}
    (h : World.Faulty (.fs root item.deleteCall) w answer w')
    (hanswer : ∀ err, answer = .error err → err = .notFound) : ¬item.Held (w'.volumes root) := by
  cases item with
  | blob repo d =>
      have hworld : (World.handle (.fs root (.blobDelete d)) w).2 = w' :=
        congrArg Prod.snd (World.handle_of_answer h hanswer)
      have hcontents : w'.volumes = w.volumes.onRoots [root] fun c => c.setBlob d none := by
        rw [← hworld]
        exact w.setRoot_volumes root _ _ ((w.roots root).blobDelete_eq d).2
      rw [hcontents, Volumes.onRoots_of_mem List.mem_cons_self]
      simp [Held, Contents.setBlob]
  | manifest repo d =>
      rw [World.volumes_of_delete h hanswer, Volumes.onRoots_of_mem List.mem_cons_self]
      simp [Held, Contents.delete, Contents.setManifest]
  | tag repo t =>
      rw [World.volumes_of_delete h hanswer, Volumes.onRoots_of_mem List.mem_cons_self]
      simp [Held, Contents.delete, Contents.setTag]

theorem read_of_not_held {b : Backend} (h : ∀ root ∈ b.leaves, ¬item.Held (w.volumes root)) :
    item.read b w = .error .notFound := by
  cases item with
  | blob repo d =>
      have hnone : b.blob w.volumes d = none := by
        rw [← Option.not_isSome_iff_eq_none, b.blob_isSome]
        rintro ⟨root, hroot, hd⟩
        exact h root hroot hd
      exact (b.blobRead_eq w repo d).trans (by rw [hnone]; rfl)
  | manifest repo d =>
      have hnone : b.read w.volumes repo (.digest d) = none := by
        rw [← Option.not_isSome_iff_eq_none, b.read_isSome]
        rintro ⟨root, hroot, hd⟩
        exact h root hroot hd
      exact (b.manifestGet_eq w repo (.digest d)).trans (by rw [hnone]; rfl)
  | tag repo t =>
      have hnone : b.read w.volumes repo (.tag t) = none := by
        rw [← Option.not_isSome_iff_eq_none, b.read_isSome]
        rintro ⟨root, hroot, hd⟩
        refine h root hroot ?_
        obtain ⟨content, hread⟩ := Option.isSome_iff_exists.mp hd
        obtain ⟨d, htag, _⟩ := (Contents.read_eq_some ..).mp hread
        exact Option.isSome_iff_exists.mpr ⟨d, htag⟩
      exact (b.manifestGet_eq w repo (.tag t)).trans (by rw [hnone]; rfl)

end Item

end RspaceRegistry
