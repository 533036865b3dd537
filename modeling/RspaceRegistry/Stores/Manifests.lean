import RspaceRegistry.Disk.Answers
import RspaceRegistry.Stores.Trees

namespace RspaceRegistry.Stores

open Calls Disk Files Ordered Places

-- The manifests of a repository in the directories of a backend.

def manifestSlot (trees : Trees) (repo : String) (d : Digest) : Slot RootId Bytes :=
  fun root => (trees root).fileAt (manifestDigestPath repo d)

-- The manifest as a read through the directories finds it.
def manifestIn (trees : Trees) (roots : List RootId) (repo : String) (d : Digest) : Option Bytes :=
  first roots (manifestSlot trees repo d)

-- In no directory a file is in the way of the manifests of the repository.
def Clear (trees : Trees) (b : Backend) (repo : String) : Prop :=
  ∀ root ∈ b.leaves, ¬InTheWay (trees root) ("digests" :: repoPath repo)

section Held

variable [Sha2]

-- Directories as calls leave them whose repositories have allowed names.
structure Grown (trees : Trees) : Prop where
  sound : Sound trees
  grown : ∀ root, Disk.Grown (trees root)

variable {apart : RootId → Option IoError} {trees : Trees} {repo : String}

theorem Grown.onTrees (h : Grown trees) (root : RootId) {op : StoreOp} (hnamed : op.Named) :
    Grown (onTrees apart root op trees).2 where
  sound := h.sound.onTrees root op
  grown other := by
    by_cases heq : other = root
    · rw [heq, onTrees_self]
      exact (h.grown root).call (h.sound root) ⟨op, apart root⟩ hnamed
    · rw [onTrees_other heq]
      exact h.grown other

theorem Grown.serve (h : Grown trees) (b : Backend) {op : StoreOp} (hnamed : op.Named) :
    Grown (b.serve (Stores.onTrees apart) op trees).2 :=
  (b.steps_serve (fun _ => trivial) (fun _ _ _ _ _ => trivial)
    (fun root _ _ hs => ⟨hs.onTrees root hnamed, trivial⟩) trees h).1

theorem grown_empty : Grown fun _ => new := ⟨fun _ => sound_new, fun _ => grown_new⟩

variable (apart)

-- Where nothing is in the way, a manifest is read or not found.
theorem run_manifest (h : Grown trees) (d : Digest) {roots : List RootId}
    (hclear : ∀ root ∈ roots, ¬InTheWay (trees root) ("digests" :: repoPath repo)) :
    readFallthrough (roots.map fun root =>
      onTrees apart root (.request (.manifestGet repo (.digest d)))) trees =
        (orNotFound (manifestIn trees roots repo d), trees) := by
  induction roots with
  | nil => rfl
  | cons root rest ih =>
      have hfree : ¬(trees root).Blocked (manifestDigestPath repo d) := by
        rintro ⟨above, inode, habove, hne, hfile⟩
        exact hclear root List.mem_cons_self
          ⟨above, inode, (List.suffix_cons_iff.mp habove).resolve_left hne, hfile⟩
      have hread : (trees root).read (manifestDigestPath repo d) =
          ((trees root).fileAt (manifestDigestPath repo d)).elim (.error .notFound) .ok :=
        Tree.read_clear ((h.grown root).dirs.digest_not_dir repo d).1 hfree
      have hfirst : onTrees apart root (.request (.manifestGet repo (.digest d))) trees =
          (orNotFound ((trees root).fileAt (manifestDigestPath repo d)), trees) := by
        apply onTrees_same
        have hrun : fsStore (apart root) (.request (.manifestGet repo (.digest d))) (trees root) =
            (manifestGet repo (.digest d)).run Tree.handle (trees root) := rfl
        rw [hrun, run_manifestGet_digest, hread]
        cases (trees root).fileAt (manifestDigestPath repo d) <;> rfl
      rw [List.map_cons, readFallthrough, hfirst, manifestIn, first, List.findSome?_cons,
        manifestSlot]
      cases (trees root).fileAt (manifestDigestPath repo d) with
      | none => exact ih fun other hother => hclear other (List.mem_cons_of_mem _ hother)
      | some bytes => rfl

theorem serve_manifest (h : Grown trees) (b : Backend) (hclear : Clear trees b repo) (d : Digest) :
    b.serve (onTrees apart) (.request (.manifestGet repo (.digest d))) trees =
      (orNotFound (manifestIn trees b.readOrder repo d), trees) := by
  rw [b.serve_manifestGet, run_manifest apart h]
  exact fun root hroot => hclear root ((b.mem_readOrder root).mp hroot)

theorem listDigests_kept (root : RootId) :
    (onTrees apart root (.request (.listManifestDigests repo)) trees).2 = trees := by
  have hkept : (fsStore (apart root) (.request (.listManifestDigests repo)) (trees root)).2 =
      trees root := congrArg Prod.snd (run_listManifestDigests repo (trees root))
  show Function.update trees root _ = trees
  rw [hkept, Function.update_eq_self]

theorem listDigests_eq (root : RootId) :
    (onTrees apart root (.request (.listManifestDigests repo)) trees).1.toOption =
      (StorageOp.listManifestDigests repo).answer (trees root) := rfl

omit [Sha2] in
theorem manifestIn_isSome (b : Backend) (d : Digest) :
    (manifestIn trees b.readOrder repo d).isSome ↔
      ∃ root ∈ b.leaves, ((trees root).fileAt (manifestDigestPath repo d)).isSome := by
  rw [manifestIn, first_isSome]
  simp only [b.mem_readOrder, manifestSlot]

-- The listing has what can be read.
theorem serve_digests (b : Backend) (hclear : Clear trees b repo) : ∃ listing,
    b.serve (onTrees apart) (.request (.listManifestDigests repo)) trees = (.ok listing, trees) ∧
      ∀ d, d ∈ listing ↔ (manifestIn trees b.readOrder repo d).isSome := by
  have hlists : ∀ root ∈ b.leaves, ∃ values : BTreeSet Digest,
      onTrees apart root (.request (.listManifestDigests repo)) trees = (.ok values, trees) ∧
        ∀ d, d ∈ values ↔ ((trees root).fileAt (manifestDigestPath repo d)).isSome := by
    intro root hroot
    obtain ⟨values, hanswer, hmem⟩ := answer_digests (hclear root hroot)
    refine ⟨values, Prod.ext ?_ (listDigests_kept apart root), hmem⟩
    rw [← listDigests_eq apart root] at hanswer
    revert hanswer
    cases (onTrees apart root (.request (.listManifestDigests repo)) trees).1 with
    | error err => exact nofun
    | ok found => exact fun hanswer => congrArg Except.ok (Option.some.inj hanswer)
  obtain ⟨listing, hrun, hmem⟩ := unionInto_lists hlists .empty
  refine ⟨listing, by rw [b.serve_listManifestDigests]; exact hrun, fun d => ?_⟩
  rw [hmem, manifestIn_isSome]
  simp

-- One directory that cannot be listed is enough.
theorem serve_digests_blocked (b : Backend) (h : ¬Clear trees b repo) : ∃ err,
    b.serve (onTrees apart) (.request (.listManifestDigests repo)) trees = (.error err, trees) := by
  simp only [Clear, not_forall, not_not] at h
  obtain ⟨root, hroot, hway⟩ := h
  rw [b.serve_listManifestDigests]
  refine unionInto_fails (fun other _ => listDigests_kept apart other) ⟨root, hroot, ?_⟩ .empty
  have hblocked := answer_digests_blocked hway
  rw [← listDigests_eq apart root] at hblocked
  cases hanswer : (onTrees apart root (.request (.listManifestDigests repo)) trees).1 with
  | error err => exact ⟨err, rfl⟩
  | ok found =>
      rw [hanswer] at hblocked
      cases hblocked

omit apart in
theorem manifestIn_hash (h : Sound trees) {roots : List RootId} {d : Digest} {bytes : Bytes}
    (hbytes : manifestIn trees roots repo d = some bytes) : hashContent .sha256 bytes = d := by
  obtain ⟨root, -, hfile⟩ := exists_of_first hbytes
  exact (h root).manifests_hash repo d bytes hfile

end Held

end RspaceRegistry.Stores
