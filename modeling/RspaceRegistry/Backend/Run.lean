import RspaceRegistry.Volumes

namespace RspaceRegistry

open Calls Fallible Ordered MultiStore Places

variable [Sha2]

namespace StoreM

-- A call that leaves its directory alone leaves everything alone.
theorem run_read {root : RootId} {call : FsCall} {w : World}
    (h : (call.exec (w.roots root)).2 = w.roots root) :
    (StoreM.fs root call).run World.handle w = ((call.exec (w.roots root)).1, w) := by
  have hw : (World.handle (.fs root call) w).2 = w := by
    simp only [World.handle]
    rw [h, w.setRoot_self]
  exact Prod.ext rfl hw

theorem run_fs (root : RootId) (call : FsCall) (w : World) :
    (StoreM.fs root call).run World.handle w =
      ((call.exec (w.roots root)).1, w.setRoot root (call.exec (w.roots root)).2) := rfl

end StoreM

namespace MultiStore

variable {α : Type} {w : World}

theorem run_readSecondaries {g : RootId → StoreM α} {found : RootId → Option α}
    (hg : ∀ root, (g root).run World.handle w = (orNotFound (found root), w)) (roots : List RootId) :
    (readSecondaries g roots).run World.handle w = (orNotFound (roots.findSome? found), w) := by
  induction roots with
  | nil => rfl
  | cons root rest ih =>
      rw [readSecondaries, fallThrough, run_attempt_bind (hg root), List.findSome?_cons]
      cases found root with
      | none => exact ih
      | some value => rfl

theorem run_existsInAny {g : RootId → StoreM Bool} {found : RootId → Bool}
    (hg : ∀ root, (g root).run World.handle w = (.ok (found root), w)) (roots : List RootId) :
    (existsInAny g roots).run World.handle w = (.ok (roots.any found), w) := by
  induction roots with
  | nil => rfl
  | cons root rest ih =>
      rw [existsInAny, run_bind_of_ok (hg root), List.any_cons]
      cases found root with
      | true => rfl
      | false => exact ih

theorem run_unionInto [LinearOrder α] {g : RootId → StoreM (BTreeSet α)}
    {found : RootId → BTreeSet α} (hg : ∀ root, (g root).run World.handle w = (.ok (found root), w))
    (roots : List RootId) (set : BTreeSet α) :
    ∃ union, (unionInto g roots set).run World.handle w = (.ok union, w) ∧
      ∀ value, value ∈ union ↔ value ∈ set ∨ ∃ root ∈ roots, value ∈ found root := by
  induction roots generalizing set with
  | nil =>
      refine ⟨set, rfl, ?_⟩
      intro value
      simp
  | cons root rest ih =>
      obtain ⟨union, hrun, hmem⟩ := ih (set.extend (found root).toList)
      refine ⟨union, ?_, ?_⟩
      · rw [unionInto, run_bind_of_ok (hg root)]
        exact hrun
      · intro value
        rw [hmem, BTreeSet.mem_extend, BTreeSet.mem_toList]
        simp only [List.mem_cons, exists_eq_or_imp]
        tauto

theorem run_listUnion [LinearOrder α] {g : RootId → StoreM (BTreeSet α)}
    {found : RootId → BTreeSet α} (hg : ∀ root, (g root).run World.handle w = (.ok (found root), w))
    (roots : List RootId) :
    ∃ union, (listUnion g roots).run World.handle w = (.ok union, w) ∧
      ∀ value, value ∈ union ↔ ∃ root ∈ roots, value ∈ found root := by
  obtain ⟨union, hrun, hmem⟩ := run_unionInto hg roots .empty
  refine ⟨union, hrun, ?_⟩
  intro value
  rw [hmem]
  constructor
  · rintro (h | h)
    · exact absurd h (BTreeSet.not_mem_empty value)
    · exact h
  · exact .inr

-- A delete goes on through all directories whatever they answer, and succeeds
-- when one of them had what is deleted.
theorem run_deleteFromAll (g : RootId → StoreM Unit) (present : Contents → Option Unit)
    (change : Contents → Contents) (hidem : ∀ c, change (change c) = change c)
    (hgone : ∀ c, present (change c) = none)
    (hg : ∀ root w, ∃ w', (g root).run World.handle w = (orNotFound (present (w.volumes root)), w') ∧
      World.SameRules w w' ∧ w'.volumes = w.volumes.onRoots [root] change)
    (roots : List RootId) (deletedAny : Bool) (w : World) :
    ∃ o w', (deleteFromAll g roots deletedAny none).run World.handle w = (orNotFound o, w') ∧
      (o.isSome ↔ deletedAny ∨ ∃ root ∈ roots, (present (w.volumes root)).isSome) ∧
      World.SameRules w w' ∧ w'.volumes = w.volumes.onRoots roots change := by
  induction roots generalizing deletedAny w with
  | nil =>
      cases deletedAny with
      | true => exact ⟨some (), w, rfl, by simp, .refl w, rfl⟩
      | false => exact ⟨none, w, rfl, by simp, .refl w, rfl⟩
  | cons root rest ih =>
      obtain ⟨w₁, hrun, hsame, hvol⟩ := hg root w
      have hrest : ∀ next : Bool, (next = true ↔ deletedAny ∨ (present (w.volumes root)).isSome) →
          ∃ o' w', (deleteFromAll g rest next none).run World.handle w₁ = (orNotFound o', w') ∧
            (o'.isSome ↔ deletedAny ∨ ∃ r ∈ root :: rest, (present (w.volumes r)).isSome) ∧
            World.SameRules w w' ∧ w'.volumes = w.volumes.onRoots (root :: rest) change := by
        intro next hnext
        obtain ⟨o', w', hrun', hsome, hsame', hvol'⟩ := ih next w₁
        refine ⟨o', w', hrun', ?_, hsame.trans hsame', ?_⟩
        · rw [hsome, hnext, or_assoc, hvol, Volumes.exists_cons_of_onRoots present hgone]
        · rw [hvol', hvol, Volumes.onRoots_cons _ _ _ _ hidem]
      rw [deleteFromAll, run_attempt_bind hrun]
      cases hp : present (w.volumes root) with
      | none => exact hrest deletedAny (by simp [hp])
      | some value => exact hrest true (by simp [hp])

end MultiStore

namespace Backend

variable (b : Backend) (w : World)

theorem run_manifestGet (repo : RepoName) (reference : Reference) :
    (b.storage.manifestGet repo reference).run World.handle w =
      (orNotFound (b.read w.volumes repo reference), w) := by
  rw [b.manifestGet_flat]
  apply run_readSecondaries
  intro root
  rw [StoreM.run_read rfl]
  exact congrArg (·, w) ((w.roots root).manifestGet_eq repo reference)

theorem run_blobRead (repo : String) (d : Digest) :
    (b.storage.blobRead repo d).run World.handle w = (orNotFound (b.blob w.volumes d), w) := by
  rw [b.blobRead_flat]
  apply run_readSecondaries
  intro root
  rw [StoreM.run_read rfl]
  exact congrArg (·, w) ((w.roots root).blobRead_eq d)

theorem run_blobSize (repo : String) (d : Digest) :
    (b.storage.blobSize repo d).run World.handle w =
      (orNotFound ((b.blob w.volumes d).map List.length), w) := by
  have hmap : (b.blob w.volumes d).map List.length =
      b.readOrder.findSome? fun root => ((w.volumes root).blob d).map List.length :=
    List.map_findSome?
  rw [b.blobSize_flat, hmap]
  apply run_readSecondaries
  intro root
  rw [StoreM.run_read rfl]
  exact congrArg (·, w) ((w.roots root).blobSize_eq d)

theorem run_blobExists (repo : String) (d : Digest) :
    (b.storage.blobExists repo d).run World.handle w = (.ok (b.blob w.volumes d).isSome, w) := by
  have hf : (b.leaves.any fun root => ((w.volumes root).blob d).isSome) =
      (b.blob w.volumes d).isSome := by
    rw [Bool.eq_iff_iff, b.blob_isSome, List.any_eq_true]
  rw [b.blobExists_flat, ← hf]
  apply run_existsInAny
  intro root
  rw [StoreM.run_read rfl]
  exact congrArg (fun found => (Except.ok found, w)) ((w.roots root).blobExists_eq d)

theorem run_listRepos : ∃ repos, b.storage.listRepos.run World.handle w = (.ok repos, w) ∧
    ∀ repo, repo ∈ repos ↔ b.HasRepo w.volumes repo := by
  rw [b.listRepos_flat]
  have hg : ∀ root, (StoreM.fs root .listRepos).run World.handle w = (.ok (w.roots root).listRepos, w) :=
    fun root => StoreM.run_read rfl
  exact run_listUnion hg b.leaves

theorem run_listTags (repo : RepoName) : ∃ tags,
    (b.storage.listTags repo).run World.handle w = (.ok tags, w) ∧
      ∀ tag, tag ∈ tags ↔ b.HasTag w.volumes repo tag := by
  have hg : ∀ root, (StoreM.fs root (.listTags repo)).run World.handle w =
      (.ok ((w.roots root).listTags repo), w) := fun root => StoreM.run_read rfl
  obtain ⟨tags, hrun, hmem⟩ := run_listUnion hg b.leaves
  refine ⟨tags, ?_, ?_⟩
  · rw [b.listTags_flat]
    exact hrun
  · intro tag
    simp only [hmem, FsStorage.mem_listTags]
    rfl

theorem run_listManifestDigests (repo : RepoName) : ∃ digests,
    (b.storage.listManifestDigests repo).run World.handle w = (.ok digests, w) ∧
      ∀ d, d ∈ digests ↔ (b.read w.volumes repo (.digest d)).isSome := by
  have hg : ∀ root, (StoreM.fs root (.listManifestDigests repo)).run World.handle w =
      (.ok ((w.roots root).listManifestDigests repo), w) := fun root => StoreM.run_read rfl
  obtain ⟨digests, hrun, hmem⟩ := run_listUnion hg b.leaves
  refine ⟨digests, ?_, ?_⟩
  · rw [b.listManifestDigests_flat]
    exact hrun
  · intro d
    simp only [hmem, FsStorage.mem_listManifestDigests, b.read_isSome, Contents.read_digest]
    rfl

theorem run_listAllBlobs : ∃ blobs, b.storage.listAllBlobs.run World.handle w = (.ok blobs, w) ∧
    ∀ d, d ∈ blobs ↔ (b.blob w.volumes d).isSome := by
  have hg : ∀ root, (StoreM.fs root .listAllBlobs).run World.handle w =
      (.ok (w.roots root).listAllBlobs, w) := fun root => StoreM.run_read rfl
  obtain ⟨blobs, hrun, hmem⟩ := run_listUnion hg b.leaves
  refine ⟨blobs, ?_, ?_⟩
  · rw [b.listAllBlobs_flat]
    exact hrun
  · intro d
    simp only [hmem, FsStorage.mem_listAllBlobs, b.blob_isSome]
    rfl

theorem run_blobWrite (repo : String) (d : Digest) (content : Bytes)
    (h : hashContent d.algorithm content = d) : ∃ w',
    (b.storage.blobWrite repo d content).run World.handle w = (.ok (), w') ∧ World.SameRules w w' ∧
      w'.volumes = w.volumes.onRoots [b.head] fun c => c.setBlob d (some content) := by
  obtain ⟨hanswer, hcontents⟩ := (w.roots b.head).blobWrite_addressed d content h
  refine ⟨w.setRoot b.head ((w.roots b.head).blobWrite d content).2, ?_, w.setRoot_sameRules _ _,
    w.setRoot_volumes _ _ _ hcontents⟩
  rw [blobWrite_flat, StoreM.run_fs]
  exact congrArg (·, _) hanswer

-- A text under a digest that is not its own is refused.
theorem run_blobWrite_mismatch (repo : String) (d : Digest) (content : Bytes)
    (h : hashContent d.algorithm content ≠ d) :
    (b.storage.blobWrite repo d content).run World.handle w =
      (.error (.digestMismatch d (hashContent d.algorithm content)), w) := by
  have hrefused := (w.roots b.head).blobWrite_mismatch d content h
  rw [blobWrite_flat, StoreM.run_read (congrArg (·.2) hrefused)]
  exact congrArg (fun result => (result.1, w)) hrefused

theorem run_manifestPut (repo : RepoName) (reference : Reference) (content : Bytes) : ∃ w',
    (b.storage.manifestPut repo reference content).run World.handle w = (.ok (sha256Digest content), w') ∧
      World.SameRules w w' ∧
      w'.volumes = w.volumes.onRoots [b.head] fun c => c.put repo reference content := by
  refine ⟨w.setRoot b.head ((w.roots b.head).manifestPut repo reference content).2, ?_,
    w.setRoot_sameRules _ _,
    w.setRoot_volumes _ _ _ ((w.roots b.head).manifestPut_contents repo reference content)⟩
  rw [manifestPut_flat, StoreM.run_fs]
  exact congrArg (·, _) ((w.roots b.head).manifestPut_answer repo reference content)

theorem run_blobDelete (repo : String) (d : Digest) : ∃ o w',
    (b.storage.blobDelete repo d).run World.handle w = (orNotFound o, w') ∧
      (o.isSome ↔ (b.blob w.volumes d).isSome) ∧ World.SameRules w w' ∧
      w'.volumes = w.volumes.onRoots b.leaves fun c => c.setBlob d none := by
  have hdelete := run_deleteFromAll (fun root => StoreM.fs root (.blobDelete d))
    (fun c => (c.blob d).map fun _ => ()) (fun c => c.setBlob d none)
    (fun c => Contents.setBlob_setBlob c d none none) (fun c => by simp [Contents.setBlob]) ?_
    b.leaves false w
  · obtain ⟨o, w', hrun, hsome, hsame, hvol⟩ := hdelete
    refine ⟨o, w', ?_, ?_, hsame, hvol⟩
    · rw [b.blobDelete_flat]
      exact hrun
    · rw [hsome, b.blob_isSome]
      simp
  · intro root w
    obtain ⟨hanswer, hcontents⟩ := (w.roots root).blobDelete_eq d
    refine ⟨w.setRoot root ((w.roots root).blobDelete d).2, ?_, w.setRoot_sameRules _ _,
      w.setRoot_volumes _ _ _ hcontents⟩
    rw [StoreM.run_fs]
    exact congrArg (·, _) hanswer

theorem run_manifestDelete (repo : RepoName) (reference : Reference) : ∃ o w',
    (b.storage.manifestDelete repo reference).run World.handle w = (orNotFound o, w') ∧
      (o.isSome ↔ ∃ root ∈ b.leaves, ((w.volumes root).present repo reference).isSome) ∧
      World.SameRules w w' ∧
      w'.volumes = w.volumes.onRoots b.leaves fun c => c.delete repo reference := by
  have hdelete := run_deleteFromAll (fun root => StoreM.fs root (.manifestDelete repo reference))
    (fun c => c.present repo reference) (fun c => c.delete repo reference)
    (fun c => Contents.delete_delete c repo reference)
    (fun c => Contents.present_delete c repo reference) ?_ b.leaves false w
  · obtain ⟨o, w', hrun, hsome, hsame, hvol⟩ := hdelete
    refine ⟨o, w', ?_, ?_, hsame, hvol⟩
    · rw [b.manifestDelete_flat]
      exact hrun
    · rw [hsome]
      simp
  · intro root w
    refine ⟨w.setRoot root ((w.roots root).manifestDelete repo reference).2, ?_,
      w.setRoot_sameRules _ _,
      w.setRoot_volumes _ _ _ ((w.roots root).manifestDelete_contents repo reference)⟩
    rw [StoreM.run_fs]
    exact congrArg (·, _) ((w.roots root).manifestDelete_answer repo reference)

end Backend

end RspaceRegistry
