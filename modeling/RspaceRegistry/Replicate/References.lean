import RspaceRegistry.Replicate.Tolerate

namespace RspaceRegistry

open Calls Fallible Ordered Places
open Migrate (Referenced TagsResolve blobReferences copyRepo fillSlot)

section

variable [Sha2] [SerdeJson]

-- What a collection of the source keeps for the manifests of a repository, the
-- destination of a copy has as well.
def Carried (src dst : Backend) (repo : RepoName) (w w' : World) : Prop :=
  ∀ d bytes m, src.manifestGet w repo (.digest d) = .ok bytes → parseManifestRefs bytes = some m →
    ∀ b ∈ m.referencedDigests, ∀ content, src.blobRead w repo b = .ok content →
      dst.blobRead w' repo b = .ok content

-- A manifest of the repository has the digest as an index entry.
def Listed (src : Backend) (repo : RepoName) (w : World) (b : Digest) : Prop :=
  ∃ d bytes m, src.manifestGet w repo (.digest d) = .ok bytes ∧
    parseManifestRefs bytes = some m ∧ b ∈ m.childDigests

-- A manifest of the repository has the digest as its config, a layer or its subject.
def Named (src : Backend) (repo : RepoName) (w : World) (b : Digest) : Prop :=
  ∃ d bytes m, src.manifestGet w repo (.digest d) = .ok bytes ∧
    parseManifestRefs bytes = some m ∧ b ∈ m.blobDigests

-- No index entry that the source holds as a blob is left to its listing alone:
-- it is named as well, or at the destination already.
def EntriesCovered (src dst : Backend) (named : Digest → Prop) (repo : RepoName) (w : World) : Prop :=
  ∀ b, Listed src repo w b → ∀ content, src.blobRead w repo b = .ok content →
    named b ∨ dst.blobRead w repo b = .ok content

omit [Sha2] [SerdeJson] in
theorem Manifest.mem_referencedDigests (m : Manifest) (b : Digest) :
    b ∈ m.referencedDigests ↔ b ∈ m.blobDigests ∨ b ∈ m.childDigests := by
  simp only [Manifest.referencedDigests, Manifest.blobDigests, List.mem_append]
  tauto

theorem referenced_iff_named (src : Backend) (repo : RepoName) (w : World) (b : Digest) :
    Referenced src w.volumes repo b ↔ Named src repo w b := by
  constructor
  · rintro ⟨d, bytes, hread, hb⟩
    cases hm : parseManifestRefs bytes with
    | none => simp [blobReferences, hm] at hb
    | some m =>
        have hb : b ∈ m.blobDigests := by simpa [blobReferences, hm] using hb
        exact ⟨d, bytes, m, (src.manifestGet_eq_ok w repo (.digest d) bytes).mpr hread, hm, hb⟩
  · rintro ⟨d, bytes, m, hread, hm, hb⟩
    refine ⟨d, bytes, (src.manifestGet_eq_ok w repo (.digest d) bytes).mp hread, ?_⟩
    rw [blobReferences, hm]
    exact hb

-- A copy that brings the named blobs, keeps what is there and brings nothing
-- else misses just the index entries that are not covered.
theorem carried_iff {src dst : Backend} {repo : RepoName} {w w' : World} {named : Digest → Prop}
    (hhere : ∀ b, Named src repo w b → named b)
    (hbrought : ∀ b content, named b → src.blob w.volumes b = some content →
      dst.blob w'.volumes b = some content)
    (hkept : ∀ b content, dst.blob w.volumes b = some content → dst.blob w'.volumes b = some content)
    (hother : ∀ b, ¬named b → dst.blob w'.volumes b = dst.blob w.volumes b) :
    Carried src dst repo w w' ↔ EntriesCovered src dst named repo w := by
  simp only [Carried, EntriesCovered, Backend.blobRead_eq_ok]
  constructor
  · rintro h b ⟨d, bytes, m, hread, hm, hb⟩ content hcontent
    by_cases hnamed : named b
    · exact .inl hnamed
    · right
      rw [← hother b hnamed]
      exact h d bytes m hread hm b ((m.mem_referencedDigests b).mpr (.inr hb)) content hcontent
  · intro h d bytes m hread hm b hb content hcontent
    rcases (m.mem_referencedDigests b).mp hb with hb | hb
    · exact hbrought b content (hhere b ⟨d, bytes, m, hread, hm, hb⟩) hcontent
    · rcases h b ⟨d, bytes, m, hread, hm, hb⟩ content hcontent with hnamed | hdst
      · exact hbrought b content hnamed hcontent
      · exact hkept b content hdst

variable {w : World} (hfree : w.volumes.CollisionFree)

include hfree

theorem copyRepo_carried_iff {src dst : Backend} {repo : RepoName}
    {report report' : Migrate.MigrateReport} {w' : World}
    (hrun : (copyRepo src.storage dst.storage repo report).run World.handle w = (.ok report', w')) :
    Carried src dst repo w w' ↔ EntriesCovered src dst (Named src repo w) repo w := by
  have hresolve := (Migrate.copyRepo_ok_iff hfree src dst repo report).mp ⟨report', w', hrun⟩
  obtain ⟨_, w₁, hrun₁, _, h⟩ :=
    Migrate.run_copyRepo src dst w report (hfree.coherent w.volumes_wellFormed repo) hresolve
  obtain ⟨_, rfl⟩ := Prod.mk.inj (hrun.symm.trans hrun₁)
  obtain ⟨rest, horder⟩ := dst.readOrder_eq_cons
  have hfilled : ∀ b, Named src repo w b → dst.blob w'.volumes b =
      (dst.blob w.volumes b).or (src.blob w.volumes b) := by
    intro b hb
    rw [Backend.blob, h.blob b ((referenced_iff_named src repo w b).mpr hb)]
    exact first_dst_fill horder
  have hother : ∀ b, ¬Named src repo w b → dst.blob w'.volumes b = dst.blob w.volumes b := by
    intro b hb
    have hb := mt (referenced_iff_named src repo w b).mp hb
    exact congrArg (first dst.readOrder) (h.otherBlob b hb)
  apply carried_iff (fun _ => id)
  · intro b content hb hsrc
    rw [hfilled b hb, hsrc]
    cases hdst : dst.blob w.volumes b with
    | none => rfl
    | some other =>
        have hcoh := hfree.blobAt w.volumes_wellFormed b
        rw [Option.some_or, hcoh.first_unique hdst hsrc]
  · intro b content hdst
    by_cases hb : Named src repo w b
    · rw [hfilled b hb, hdst, Option.some_or]
    · rw [hother b hb, hdst]
  · exact hother

theorem Replicate.run_carried_iff {before after : Partitions} {primary : Backend}
    {report : ReplicateReport} {w' : World}
    (hrun : (run (multi before primary after) ⟨none⟩).run World.handle w = (.ok report, w'))
    {dst : Backend} (hdst : dst ∈ secondaries before after) (repo : RepoName) :
    Carried primary dst repo w w' ↔
      EntriesCovered primary dst (fun b => ∃ r, Named primary r w b) repo w := by
  obtain ⟨_, h, hheld⟩ := synced_of_run hfree hrun
  have hcoh := hfree.blobAt w.volumes_wellFormed
  -- Without a glob every manifest is wanted, and so is every blob that one names.
  have hwants : ∀ b, (∃ r, Named primary r w b) ↔
      ∃ r, WantsBlob ⟨none⟩ primary w.volumes r b := by
    intro b
    refine exists_congr fun r => (referenced_iff_named primary r w b).symm.trans ?_
    constructor
    · rintro ⟨d, bytes, hread, hb⟩
      exact ⟨d, bytes, .start (.inl rfl) hread, hread, hb⟩
    · rintro ⟨d, bytes, _, hread, hb⟩
      exact ⟨d, bytes, hread, hb⟩
  apply carried_iff
  · intro b hb
    exact ⟨repo, hb⟩
  · intro b content hb hsrc
    exact (hheld dst hdst).held.blob b ((hwants b).mp hb) content hsrc
  · intro b content hb
    exact h.advanced.kept_blob (hcoh b) hb
  · intro b hb
    apply first_congr
    intro root _
    apply Option.ext
    intro content
    refine ⟨fun hu => ?_, h.advanced.blobKept b root content⟩
    refine (h.advanced.blobNew b root content hu).resolve_right ?_
    rintro ⟨_, hwanted, _⟩
    exact hb ((hwants b).mpr hwanted)

-- The copiers bring what a collection would keep exactly when every index entry
-- that the source holds as a blob is named as a blob too, or was there before.
theorem carries_references_iff :
    (∀ (src dst : Backend) repo report report' w',
      (copyRepo src.storage dst.storage repo report).run World.handle w = (.ok report', w') →
        (Carried src dst repo w w' ↔ EntriesCovered src dst (Named src repo w) repo w)) ∧
    ∀ before after (primary : Backend) report w',
      (Replicate.run (Replicate.multi before primary after) ⟨none⟩).run World.handle w =
        (.ok report, w') → ∀ dst ∈ Replicate.secondaries before after, ∀ repo,
          (Carried primary dst repo w w' ↔
            EntriesCovered primary dst (fun b => ∃ r, Named primary r w b) repo w) :=
  ⟨fun _ _ _ _ _ _ hrun => copyRepo_carried_iff hfree hrun,
    fun _ _ _ _ _ hrun _ hdst repo => Replicate.run_carried_iff hfree hrun hdst repo⟩

end

-- An index whose only entry is the text "x".
def index : Bytes := Sample.text
  "\x7b\"manifests\":[\x7b\"mediaType\":\"m\",\"digest\":\"sha256:2d711642b726b04401627ca9fbac32f5c8530fb1903cc4db02258717921a4881\",\"size\":1\x7d]\x7d"

def indexHex : Algorithm → String
  | .sha256 => "12151e50fafb7f414346a40a5c3e6b8402788a5a6dbb9bf01a2e0ec2d11c5352"
  | .sha512 => "17eead7efd3b4ef86608a54713dfbee3be73a1e6377dc5366288f7f40ff99e15af96d799d18ba335dc3371354ea752f1299888166d3fd27790ee46a9fc86a452"

theorem indexHex_valid (algorithm : Algorithm) : ValidHex algorithm (indexHex algorithm) := by
  cases algorithm <;> decide +kernel

abbrev indexSha2 : Sha2 where
  hexHash algorithm content :=
    if content = index then indexHex algorithm else Sample.hexOf algorithm content
  hexHash_valid algorithm content := by
    split
    · exact indexHex_valid algorithm
    · exact Sample.hexOf_valid algorithm content

def indexJson : Json := .obj [("manifests", .arr [.obj [("mediaType", .str "m"), ("digest",
  .str "sha256:2d711642b726b04401627ca9fbac32f5c8530fb1903cc4db02258717921a4881"),
  ("size", .posInt 1)]])]

abbrev indexSerdeJson : SerdeJson where
  fromSlice content := if content = index then some indexJson else Sample.serdeJson.fromSlice content

section

attribute [local instance] indexSha2 indexSerdeJson

-- An index with its entry, which is stored as a blob, and an empty volume.
def indexed : World where
  roots := Sample.roots
    ((FsStorage.new.blobWrite (hashContent .sha256 Sample.x) Sample.x).2.manifestPut Sample.dataX
      (.tag Sample.v1) index).2 .new
  router := .single (.fs 0 0)
  nextArc := 2
  arcs_allocated := Sample.arcs_two

def copiedIndex : World :=
  ((copyRepo (Backend.fs 0 0).storage (Backend.fs 1 1).storage Sample.dataX .empty).run
    World.handle indexed).2

def mirroredIndex : World :=
  ((Replicate.run (Replicate.multi .nil (.fs 0 0) (.cons "mirror" (.fs 1 1) .nil)) ⟨none⟩).run
    World.handle indexed).2

-- The source has the index and its entry, and both copies leave the entry behind.
theorem index_outcome :
    (((indexed.roots 0).texts ⊆ [Sample.x, index] ∧ (indexed.roots 1).texts ⊆ [Sample.x, index]) ∧
      ∀ algorithm ∈ [Algorithm.sha256, .sha512], ∀ a ∈ [Sample.x, index],
        ∀ b ∈ [Sample.x, index], hashContent algorithm a = hashContent algorithm b → a = b) ∧
    ((Backend.fs 0 0).manifestGet indexed Sample.dataX (.digest (sha256Digest index)) = .ok index ∧
      (Backend.fs 0 0).blobRead indexed Sample.dataX (hashContent .sha256 Sample.x) =
        .ok Sample.x ∧
      (parseManifestRefs index).map (fun m =>
        decide (hashContent .sha256 Sample.x ∈ m.referencedDigests)) = some true) ∧
    (((copyRepo (Backend.fs 0 0).storage (Backend.fs 1 1).storage Sample.dataX .empty).run
        World.handle indexed).1 = .ok ⟨0, 0, 0, 1, 0, 0, false⟩ ∧
      (Backend.fs 1 1).blobRead copiedIndex Sample.dataX (hashContent .sha256 Sample.x) =
        .error .notFound) ∧
    ((Replicate.run (Replicate.multi .nil (.fs 0 0) (.cons "mirror" (.fs 1 1) .nil)) ⟨none⟩).run
        World.handle indexed).1 = .ok ⟨1, 0, 0, 1⟩ ∧
      (Backend.fs 1 1).blobRead mirroredIndex Sample.dataX (hashContent .sha256 Sample.x) =
        .error .notFound := by decide +kernel

theorem indexed_collisionFree : indexed.volumes.CollisionFree :=
  Sample.collisionFree_roots [Sample.x, index] rfl index_outcome.1

theorem index_runs :
    (copyRepo (Backend.fs 0 0).storage (Backend.fs 1 1).storage Sample.dataX .empty).run
        World.handle indexed = (.ok ⟨0, 0, 0, 1, 0, 0, false⟩, copiedIndex) ∧
      (Replicate.run (Replicate.multi .nil (.fs 0 0) (.cons "mirror" (.fs 1 1) .nil)) ⟨none⟩).run
        World.handle indexed = (.ok ⟨1, 0, 0, 1⟩, mirroredIndex) :=
  ⟨run_eq_mk index_outcome.2.2.1.1 rfl, run_eq_mk index_outcome.2.2.2.1 rfl⟩

theorem not_carried {w' : World} (habsent : (Backend.fs 1 1).blobRead w' Sample.dataX
    (hashContent .sha256 Sample.x) = .error .notFound) :
    ¬Carried (.fs 0 0) (.fs 1 1) Sample.dataX indexed w' := by
  intro h
  obtain ⟨-, ⟨hindex, hx, hparse⟩, -⟩ := index_outcome
  obtain ⟨m, hm, hb⟩ := Option.map_eq_some_iff.mp hparse
  have hread := h (sha256Digest index) index m hindex hm _ (of_decide_eq_true hb) Sample.x hx
  rw [habsent] at hread
  cases hread

theorem index_entry_left :
    (copyRepo (Backend.fs 0 0).storage (Backend.fs 1 1).storage Sample.dataX .empty).run
        World.handle indexed = (.ok ⟨0, 0, 0, 1, 0, 0, false⟩, copiedIndex) ∧
      ¬Carried (.fs 0 0) (.fs 1 1) Sample.dataX indexed copiedIndex ∧
    (Replicate.run (Replicate.multi .nil (.fs 0 0) (.cons "mirror" (.fs 1 1) .nil)) ⟨none⟩).run
        World.handle indexed = (.ok ⟨1, 0, 0, 1⟩, mirroredIndex) ∧
      ¬Carried (.fs 0 0) (.fs 1 1) Sample.dataX indexed mirroredIndex :=
  ⟨index_runs.1, not_carried index_outcome.2.2.1.2, index_runs.2,
    not_carried index_outcome.2.2.2.2⟩

theorem indexed_carries_iff :
    (Carried (.fs 0 0) (.fs 1 1) Sample.dataX indexed copiedIndex ↔
      EntriesCovered (.fs 0 0) (.fs 1 1) (Named (.fs 0 0) Sample.dataX indexed) Sample.dataX
        indexed) ∧
    (Carried (.fs 0 0) (.fs 1 1) Sample.dataX indexed mirroredIndex ↔
      EntriesCovered (.fs 0 0) (.fs 1 1) (fun b => ∃ r, Named (.fs 0 0) r indexed b) Sample.dataX
        indexed) := by
  obtain ⟨hcopy, hreplicate⟩ := carries_references_iff indexed_collisionFree
  have hmirror : Backend.fs 1 1 ∈
      Replicate.secondaries .nil (.cons "mirror" (.fs 1 1) .nil) := List.mem_singleton_self _
  exact ⟨hcopy _ _ _ _ _ _ index_runs.1,
    hreplicate _ _ _ _ _ index_runs.2 _ hmirror Sample.dataX⟩

end

end RspaceRegistry
