import RspaceRegistry.Gc.Routed

namespace RspaceRegistry.Gc

open Calls Fallible Ordered

section

variable [Sha2] [SerdeJson]

-- A manifest stored on the backend names the digest, whatever routes lead there.
def ReferencedOn (b : Backend) (v : Volumes) (d : Digest) : Prop :=
  ∃ root ∈ b.leaves, ∃ repo digest content m, (v root).manifest repo digest = some content ∧
    parseManifestRefs content = some m ∧ d ∈ m.referencedDigests

-- A collection through the router deletes from no backend what a manifest on that
-- backend names.
def Respects (w : World) : Prop :=
  ∀ report w', (run RepoRouter.storage).run World.handle w = (.ok report, w') →
    ∀ b ∈ w.router.distinctBackends, ∀ d, ReferencedOn b w.volumes d → ∀ root ∈ b.leaves,
      ∀ content, (w.roots root).blobRead d = .ok content → (w'.roots root).blobRead d = .ok content

-- A collection through the router leaves no backend with a blob that no stored
-- manifest needs.
def Complete (w : World) : Prop :=
  ∀ report w', (run RepoRouter.storage).run World.handle w = (.ok report, w') →
    ∀ b ∈ w.router.distinctBackends, ∀ d,
      (¬∃ b' ∈ w.router.distinctBackends, Named b' w.volumes d) → ∀ root ∈ b.leaves,
        (w'.roots root).blobExists d = false

variable (w : World)

omit [SerdeJson] in
theorem blobRead_eq_ok (root : RootId) (d : Digest) (content : Bytes) :
    (w.roots root).blobRead d = .ok content ↔ (w.volumes root).blob d = some content := by
  rw [FsStorage.blobRead_eq, orNotFound_eq_ok]
  rfl

omit [SerdeJson] in
theorem blobExists_eq_false (root : RootId) (d : Digest) :
    (w.roots root).blobExists d = false ↔ (w.volumes root).blob d = none := by
  rw [FsStorage.blobExists_eq, Option.isSome_eq_false_iff, Option.isNone_iff_eq_none]
  rfl

-- The mark phase reads manifests where their repositories are routed to; what lies
-- beside a manifest that it does not see is safe only where the sweep does not
-- look for it.
theorem referenced_kept_iff : Respects w ↔
    ∀ b ∈ w.router.distinctBackends, ∀ d, ReferencedOn b w.volumes d → ∀ root ∈ b.leaves,
      (w.roots root).blobExists d = true → root ∈ (probed w d).leaves → RoutedMarked w d := by
  obtain ⟨report, w', hrun, _, hafter⟩ := run_gc_routed w
  constructor
  · intro h b hb d href root hr hexists hprobed
    by_contra hmarked
    have hgone := (hafter root d).1.mpr (.inr ⟨hprobed, hmarked⟩)
    rw [FsStorage.blobExists_eq] at hexists
    obtain ⟨content, hheld⟩ := Option.isSome_iff_exists.mp hexists
    have hkept := h report w' hrun b hb d href root hr content ((blobRead_eq_ok w root d content).mpr hheld)
    rw [blobRead_eq_ok, hgone] at hkept
    cases hkept
  · intro h report' w'' hrun' b hb d href root hr content hread
    rw [hrun] at hrun'
    obtain ⟨_, rfl⟩ := Prod.mk.inj hrun'
    rw [blobRead_eq_ok] at hread ⊢
    have hexists : (w.roots root).blobExists d = true := by
      rw [FsStorage.blobExists_eq]
      exact Option.isSome_iff_exists.mpr ⟨content, hread⟩
    cases hleft : (w'.volumes root).blob d with
    | some content' =>
        rw [(hafter root d).2 content' hleft] at hread
        exact hread
    | none =>
        rcases (hafter root d).1.mp hleft with hnone | ⟨hprobed, hmarked⟩
        · rw [hnone] at hread
          cases hread
        · exact absurd (h b hb d href root hr hexists hprobed) hmarked

-- One delete goes out for each swept digest, so all its copies have to lie on the
-- one backend that is probed.
theorem unreferenced_gone_iff : Complete w ↔
    ∀ b ∈ w.router.distinctBackends, ∀ d,
      (¬∃ b' ∈ w.router.distinctBackends, Named b' w.volumes d) → ∀ root ∈ b.leaves,
        (w.roots root).blobExists d = true → root ∈ (probed w d).leaves := by
  obtain ⟨report, w', hrun, _, hafter⟩ := run_gc_routed w
  have hunmarked : ∀ d, (¬∃ b' ∈ w.router.distinctBackends, Named b' w.volumes d) →
      ¬RoutedMarked w d := by
    rintro d hnamed ⟨repo, digest, content, hread, hd⟩
    obtain ⟨root, hroot, hmanifest⟩ := Backend.exists_of_read hread
    exact hnamed ⟨_, w.router.resolve_mem_distinctBackends repo.text, root, hroot, repo, digest,
      content, hmanifest, hd.imp_right (mem_references content d).mp⟩
  constructor
  · intro h b hb d hnamed root hr hexists
    have hgone := (blobExists_eq_false w' root d).mp (h report w' hrun b hb d hnamed root hr)
    rcases (hafter root d).1.mp hgone with hnone | ⟨hprobed, _⟩
    · rw [(blobExists_eq_false w root d).mpr hnone] at hexists
      cases hexists
    · exact hprobed
  · intro h report' w'' hrun' b hb d hnamed root hr
    rw [hrun] at hrun'
    obtain ⟨_, rfl⟩ := Prod.mk.inj hrun'
    rw [blobExists_eq_false, (hafter root d).1]
    by_cases hexists : (w.roots root).blobExists d = true
    · exact .inr ⟨h b hb d hnamed root hr hexists, hunmarked d hnamed⟩
    · exact .inl ((blobExists_eq_false w root d).mp (Bool.eq_false_iff.mpr hexists))

end

section

attribute [local instance] Sample.sha2 Sample.serdeJson

-- The image with its config on the volume of the only rule, and then a rule of its
-- own for the repository, on an empty volume.
def rerouted : World :=
  World.upsert
    { roots := Sample.roots
        ((FsStorage.new.manifestPut Sample.dataX (.tag Sample.v1) Sample.typed).2.blobWrite
          (hashContent .sha256 Sample.x) Sample.x).2 .new
      router := .single (.fs 0 0)
      nextArc := 1
      arcs_allocated := Sample.arcs_one }
    "data/*" (.fs 1 1)

theorem rerouted_config_swept : ¬Respects rerouted := by
  intro h
  have houtcome : hashContent .sha256 Sample.x ∈ references Sample.typed ∧
      (rerouted.volumes 0).manifest Sample.dataX (sha256Digest Sample.typed) = some Sample.typed ∧
      (rerouted.roots 0).blobRead (hashContent .sha256 Sample.x) = .ok Sample.x ∧
      (((run RepoRouter.storage).run World.handle rerouted).2.roots 0).blobRead
        (hashContent .sha256 Sample.x) = .error .notFound := by decide +kernel
  obtain ⟨hnamed, hstored, hbefore, hafter⟩ := houtcome
  have href : ReferencedOn (.fs 0 0) rerouted.volumes (hashContent .sha256 Sample.x) := by
    obtain ⟨m, hm, hd⟩ := (mem_references Sample.typed (hashContent .sha256 Sample.x)).mp hnamed
    exact ⟨0, List.mem_singleton_self 0, Sample.dataX, sha256Digest Sample.typed, Sample.typed, m,
      hstored, hm, hd⟩
  obtain ⟨report, w', hrun, _⟩ := run_gc_routed rerouted
  rw [hrun] at hafter
  have hkept := h report w' hrun (.fs 0 0) (by decide) _ href 0 (List.mem_singleton_self 0)
    Sample.x hbefore
  rw [hkept] at hafter
  cases hafter

-- The same garbage on the volumes of two rules, and no repository.
def scattered : World :=
  World.upsert
    { roots := fun _ => (FsStorage.new.blobWrite (hashContent .sha256 Sample.x) Sample.x).2
      router := .single (.fs 0 0)
      nextArc := 1
      arcs_allocated := Sample.arcs_one }
    "data/*" (.fs 1 1)

theorem scattered_copy_left : ¬Complete scattered := by
  intro h
  obtain ⟨report, w', hrun, _⟩ := run_gc_routed scattered
  have hafter : (((run RepoRouter.storage).run World.handle scattered).2.roots 1).blobExists
      (hashContent .sha256 Sample.x) = true := by decide +kernel
  rw [hrun] at hafter
  have hnamed : ¬∃ b' ∈ scattered.router.distinctBackends,
      Named b' scattered.volumes (hashContent .sha256 Sample.x) := by
    rintro ⟨b', _, root, _, repo, digest, content, hmanifest, _⟩
    have hnone : (scattered.volumes root).manifest repo digest = none := rfl
    rw [hnone] at hmanifest
    cases hmanifest
  have hgone := h report w' hrun (.fs 1 1) (by decide) _ hnamed 1 (List.mem_singleton_self 1)
  rw [hgone] at hafter
  cases hafter

end

end RspaceRegistry.Gc
