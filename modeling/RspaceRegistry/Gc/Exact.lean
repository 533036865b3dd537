import RspaceRegistry.Gc.Theorems
import RspaceRegistry.Sample

namespace RspaceRegistry.Gc

open Calls Fallible Ordered

section

variable [Sha2] [SerdeJson]

-- A manifest in some directory of the backend is stored under the digest, or
-- names it.
def Named (b : Backend) (v : Volumes) (d : Digest) : Prop :=
  ∃ root ∈ b.leaves, ∃ repo digest content, (v root).manifest repo digest = some content ∧
    (d = digest ∨ ∃ m, parseManifestRefs content = some m ∧ d ∈ m.referencedDigests)

omit [Sha2] in
theorem mem_references (content : Bytes) (d : Digest) :
    d ∈ references content ↔ ∃ m, parseManifestRefs content = some m ∧ d ∈ m.referencedDigests := by
  unfold references
  cases hparse : parseManifestRefs content with
  | none => simp
  | some m => simp

omit [Sha2] in
-- The collector reads one copy of each manifest, and one is enough: the copies
-- are the same.
theorem marked_iff_named (b : Backend) {v : Volumes} (hcoh : ∀ repo, v.Coherent repo) (d : Digest) :
    Marked b v d ↔ Named b v d := by
  constructor
  · rintro ⟨repo, digest, content, hread, hd⟩
    obtain ⟨root, hroot, hmanifest⟩ := Backend.exists_of_read hread
    exact ⟨root, hroot, repo, digest, content, hmanifest, hd.imp_right (mem_references content d).mp⟩
  · rintro ⟨root, hroot, repo, digest, content, hmanifest, hd⟩
    have hread : b.read v repo (.digest digest) = some content :=
      (hcoh repo digest).first_eq ((b.mem_readOrder root).mpr hroot) hmanifest
    exact ⟨repo, digest, content, hread, hd.imp_right (mem_references content d).mpr⟩

-- What one collection does to the directories, and what it reports of it.
structure Collected (b : Backend) (v v' : Volumes) (report : GcReport) : Prop where
  removed : ∀ root ∈ b.leaves, ∀ d, ¬Named b v d → (v' root).blob d = none
  kept : ∀ root d, root ∉ b.leaves ∨ Named b v d → (v' root).blob d = (v root).blob d
  manifest : ∀ root, (v' root).manifest = (v root).manifest
  tag : ∀ root, (v' root).tag = (v root).tag
  repo : ∀ root, (v' root).repo = (v root).repo
  counted : ∃ (swept : List Digest) (size : Digest → Nat), swept.Nodup ∧
    (∀ d, d ∈ swept ↔ (∃ root ∈ b.leaves, ((v root).blob d).isSome) ∧ ¬Named b v d) ∧
    (∀ root ∈ b.leaves, ∀ d content, (v root).blob d = some content → size d = content.length) ∧
    report.deletedBlobs = swept.length ∧ report.deletedBytes = (swept.map size).sum

variable {b : Backend} {v v' : Volumes} {report : GcReport}

omit [Sha2] in
theorem Collected.named_iff (h : Collected b v v' report) (d : Digest) :
    Named b v' d ↔ Named b v d := by
  unfold Named
  simp only [h.manifest]

-- Nothing is left to sweep after a sweep.
omit [Sha2] in
theorem Collected.again {v'' : Volumes} {report' : GcReport} (h : Collected b v v' report)
    (h' : Collected b v' v'' report') :
    v'' = v' ∧ report'.deletedBlobs = 0 ∧ report'.deletedBytes = 0 := by
  obtain ⟨swept, size, _, hmem, _, hblobs, hbytes⟩ := h'.counted
  have hnone : swept = [] := by
    apply List.eq_nil_iff_forall_not_mem.mpr
    intro d hd
    obtain ⟨⟨root, hroot, hheld⟩, hnamed⟩ := (hmem d).mp hd
    rw [h.removed root hroot d fun hn => hnamed ((h.named_iff d).mpr hn)] at hheld
    cases hheld
  subst hnone
  refine ⟨?_, hblobs, hbytes⟩
  funext root
  apply Contents.ext
  · funext d
    by_cases hkept : root ∉ b.leaves ∨ Named b v' d
    · exact h'.kept root d hkept
    · obtain ⟨hroot, hnamed⟩ := not_or.mp hkept
      have hroot := not_not.mp hroot
      rw [h'.removed root hroot d hnamed]
      exact (h.removed root hroot d fun hn => hnamed ((h.named_iff d).mpr hn)).symm
  · exact h'.manifest root
  · exact h'.tag root
  · exact h'.repo root

theorem run_collected (b : Backend) (w : World) (hfree : w.volumes.CollisionFree) :
    ∃ report w', (run b.storage).run World.handle w = (.ok report, w') ∧
      World.SameRules w w' ∧ Collected b w.volumes w'.volumes report := by
  obtain ⟨report, w', hrun, hsame, hvol, swept, hnodup, hmem, hblobs, hbytes⟩ := run_gc b w
  have hmarked : ∀ d, Marked b w.volumes d ↔ Named b w.volumes d :=
    marked_iff_named b fun repo => hfree.coherent w.volumes_wellFormed repo
  have hroot : ∀ root, w'.volumes root = if root ∈ b.leaves then
      (w.volumes root).keepBlobs (Marked b w.volumes) else w.volumes root :=
    fun root => congrFun hvol root
  refine ⟨report, w', hrun, hsame, ?_, ?_, ?_, ?_, ?_, swept, sizeOf b w.volumes, hnodup, ?_, ?_,
    hblobs, hbytes⟩
  · intro root hr d hnamed
    rw [hroot, if_pos hr]
    exact if_neg fun hm => hnamed ((hmarked d).mp hm)
  · intro root d hkept
    rw [hroot]
    by_cases hr : root ∈ b.leaves
    · have hnamed := hkept.resolve_left (not_not.mpr hr)
      rw [if_pos hr]
      exact if_pos ((hmarked d).mpr hnamed)
    · rw [if_neg hr]
  · intro root
    rw [hroot]
    split <;> rfl
  · intro root
    rw [hroot]
    split <;> rfl
  · intro root
    rw [hroot]
    split <;> rfl
  · intro d
    rw [hmem, b.blob_isSome, hmarked]
  · intro root hr d content hheld
    have hread : b.blob w.volumes d = some content :=
      (hfree.blobAt w.volumes_wellFormed d).first_eq ((b.mem_readOrder root).mpr hr) hheld
    unfold sizeOf
    rw [hread]
    rfl

-- The collector removes exactly the blobs that no stored manifest needs, from
-- every directory of the store, and a second run finds nothing to do.
theorem run_exact (b : Backend) (w : World) (hfree : w.volumes.CollisionFree) :
    ∃ report w', (run b.storage).run World.handle w = (.ok report, w') ∧
      Collected b w.volumes w'.volumes report ∧
      ∃ report' w'', (run b.storage).run World.handle w' = (.ok report', w'') ∧
        w''.volumes = w'.volumes ∧ report'.deletedBlobs = 0 ∧ report'.deletedBytes = 0 := by
  obtain ⟨report, w', hrun, _, hcollected⟩ := run_collected b w hfree
  have hstores : ∀ content, w'.volumes.Stores content → w.volumes.Stores content := by
    rintro content ⟨root, ⟨d, hd⟩ | ⟨repo, d, hd⟩⟩
    · by_cases hkept : root ∉ b.leaves ∨ Named b w.volumes d
      · exact ⟨root, .inl ⟨d, (hcollected.kept root d hkept).symm.trans hd⟩⟩
      · obtain ⟨hroot, hnamed⟩ := not_or.mp hkept
        rw [hcollected.removed root (not_not.mp hroot) d hnamed] at hd
        cases hd
    · rw [hcollected.manifest root] at hd
      exact ⟨root, .inr ⟨repo, d, hd⟩⟩
  have hfree' : w'.volumes.CollisionFree := fun algorithm content content' hc hc' =>
    hfree algorithm content content' (hstores content hc) (hstores content' hc')
  obtain ⟨report', w'', hrun', _, hcollected'⟩ := run_collected b w' hfree'
  exact ⟨report, w', hrun, hcollected, report', w'', hrun', hcollected.again hcollected'⟩

end

section

attribute [local instance] Sample.sha2 Sample.serdeJson

-- Garbage on both partitions of a store, beside the image on its primary.
def littered : World where
  roots := Sample.roots
    ((FsStorage.new.manifestPut Sample.dataX (.tag Sample.v1) Sample.braces).2.blobWrite
      (hashContent .sha256 Sample.x) Sample.x).2
    (FsStorage.new.blobWrite (hashContent .sha256 Sample.x) Sample.x).2
  router := .single (.fs 0 0)
  nextArc := 1
  arcs_allocated := Sample.arcs_one

def partitioned : Backend := .multi 0 .nil "a" (.fs 1 0) (.cons "b" (.fs 2 1) .nil)

theorem littered_collisionFree : littered.volumes.CollisionFree :=
  Sample.collisionFree_roots [Sample.x, Sample.braces] rfl (by decide +kernel)

theorem littered_exact : ∃ report w',
    (run partitioned.storage).run World.handle littered = (.ok report, w') ∧
      Collected partitioned littered.volumes w'.volumes report ∧
      ∃ report' w'', (run partitioned.storage).run World.handle w' = (.ok report', w'') ∧
        w''.volumes = w'.volumes ∧ report'.deletedBlobs = 0 ∧ report'.deletedBytes = 0 :=
  run_exact partitioned littered littered_collisionFree

end

end RspaceRegistry.Gc
