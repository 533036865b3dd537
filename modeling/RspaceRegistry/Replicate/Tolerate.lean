import RspaceRegistry.Migrate.Run
import RspaceRegistry.Replicate.Converge

namespace RspaceRegistry

open Calls Fallible
open Migrate (Moved TagsResolve copyRepo)

section

variable [Sha2] [SerdeJson]

-- Whatever the store went through, a pass succeeds and copies every selected tag
-- that resolves and, without a glob, every manifest.
def Replicate.Tolerates (before after : Partitions) (primary : Backend) (cfg : ReplicateConfig)
    (w : World) : Prop :=
  ∃ report w', (run (multi before primary after) cfg).run World.handle w = (.ok report, w') ∧
    ∀ dst ∈ secondaries before after,
      (∀ repo tag bytes, cfg.selects tag = true →
        primary.manifestGet w repo (.tag tag) = .ok bytes →
          dst.manifestGet w' repo (.tag tag) = .ok bytes) ∧
      (cfg.tagGlob = none → ∀ repo d bytes, primary.manifestGet w repo (.digest d) = .ok bytes →
        dst.manifestGet w' repo (.digest d) = .ok bytes)

variable {w : World} (hfree : w.volumes.CollisionFree)

include hfree

theorem Replicate.tolerates_iff (before after : Partitions) (primary : Backend)
    (cfg : ReplicateConfig) : Tolerates before after primary cfg w ↔
      ∀ repo, primary.HasRepo w.volumes repo → SelectedResolve cfg primary w.volumes repo := by
  constructor
  · rintro ⟨report, w', hrun, _⟩
    by_contra hdangling
    rw [run_dangling before after hfree hdangling] at hrun
    cases (Prod.mk.inj hrun).1
  · intro hresolve
    obtain ⟨report, w', hrun, _⟩ := run_synced cfg primary before after w hfree hresolve
    refine ⟨report, w', hrun, ?_⟩
    intro dst hdst
    have hconverged := run_converges hfree hrun dst hdst
    refine ⟨?_, hconverged.manifests⟩
    intro repo tag bytes hselect hread
    have hsome := (primary.manifestGet_eq_ok w repo (.tag tag) bytes).mp hread
    obtain ⟨root, hroot, hat⟩ := Backend.exists_of_read hsome
    obtain ⟨d, hd, _⟩ := (Contents.read_eq_some _ _ _ _).mp hat
    have htag : primary.HasTag w.volumes repo tag :=
      ⟨root, hroot, Option.isSome_iff_exists.mpr ⟨d, hd⟩⟩
    obtain ⟨bytes', hbefore, _, hafter⟩ := hconverged.tags repo tag htag hselect
    rw [hread] at hbefore
    rw [hafter, hbefore]

theorem Migrate.copyRepo_ok_iff (src dst : Backend) (repo : RepoName) (report : MigrateReport) :
    (∃ report' w', (copyRepo src.storage dst.storage repo report).run World.handle w =
      (.ok report', w')) ↔ TagsResolve src w.volumes repo := by
  have hcoh := hfree.coherent w.volumes_wellFormed repo
  constructor
  · rintro ⟨report', w', hrun⟩
    by_contra hdangling
    rw [run_copyRepo_dangling src dst w report hcoh hdangling] at hrun
    cases (Prod.mk.inj hrun).1
  · intro hresolve
    obtain ⟨report', w', hrun, _⟩ := run_copyRepo src dst w report hcoh hresolve
    exact ⟨report', w', hrun⟩

theorem Migrate.run_ok_iff (pattern : String) (newBackend old : Backend) (drain : Bool)
    (hrule : w.router.backendForPattern pattern = some old) :
    (∃ report w', (run pattern newBackend drain).run World.handle w = (.ok report, w')) ↔
      old = newBackend ∨ ∀ repo, Moved w pattern old repo → TagsResolve old w.volumes repo := by
  by_cases hne : old = newBackend
  · subst hne
    exact iff_of_true ⟨_, _, run_noop hrule⟩ (.inl rfl)
  · obtain ⟨repos, _, hmem, hcases⟩ :=
      run_cases drain hrule hne (hfree.coherent w.volumes_wellFormed)
    have hmoved : (∀ repo ∈ repos, TagsResolve old w.volumes repo) ↔
        old = newBackend ∨ ∀ repo, Moved w pattern old repo → TagsResolve old w.volumes repo := by
      simp only [hmem, hne, false_or]
    rw [← hmoved]
    rcases hcases with ⟨hresolve, report, w', _, hrun, _⟩ | ⟨hdangling, _, w', hrun, _⟩
    · exact iff_of_true ⟨report, w', hrun⟩ hresolve
    · refine iff_of_false ?_ hdangling
      rintro ⟨report, w'', hok⟩
      rw [hrun] at hok
      cases (Prod.mk.inj hok).1

-- Replication, the copy of a repository and a migration go through exactly when
-- no tag that they look at is left without its manifest.
theorem tolerates_dangling_iff :
    (∀ before after primary cfg, Replicate.Tolerates before after primary cfg w ↔
      ∀ repo, primary.HasRepo w.volumes repo →
        Replicate.SelectedResolve cfg primary w.volumes repo) ∧
    (∀ (src dst : Backend) repo report,
      (∃ report' w', (copyRepo src.storage dst.storage repo report).run World.handle w =
        (.ok report', w')) ↔ TagsResolve src w.volumes repo) ∧
    ∀ pattern newBackend old drain, w.router.backendForPattern pattern = some old →
      ((∃ report w', (Migrate.run pattern newBackend drain).run World.handle w = (.ok report, w')) ↔
        old = newBackend ∨ ∀ repo, Moved w pattern old repo → TagsResolve old w.volumes repo) :=
  ⟨Replicate.tolerates_iff hfree, Migrate.copyRepo_ok_iff hfree, Migrate.run_ok_iff hfree⟩

end

section

attribute [local instance] Sample.sha2 Sample.serdeJson

-- An image that was deleted by its digest, which leaves its tag.
def untargeted : World where
  roots := Sample.roots
    ((FsStorage.new.manifestPut Sample.dataX (.tag Sample.v1) Sample.braces).2.manifestDelete
      Sample.dataX (.digest (sha256Digest Sample.braces))).2 .new
  router := .single (.fs 0 0)
  nextArc := 1
  arcs_allocated := Sample.arcs_one

theorem untargeted_stops :
    ((Replicate.run (Replicate.multi .nil (.fs 0 0) (.cons "mirror" (.fs 1 1) .nil)) ⟨none⟩).run
        World.handle untargeted).1 = .error .notFound ∧
      ((copyRepo (Backend.fs 0 0).storage (Backend.fs 1 1).storage Sample.dataX .empty).run
        World.handle untargeted).1 = .error .notFound ∧
      untargeted.router.backendForPattern "*" = some (.fs 0 0) ∧
      ((Migrate.run "*" (.fs 1 1) false).run World.handle untargeted).1 = .error .notFound := by
  decide

theorem untargeted_collisionFree : untargeted.volumes.CollisionFree :=
  Sample.collisionFree_roots [] rfl (by decide)

theorem untargeted_tolerates_iff :
    (Replicate.Tolerates .nil (.cons "mirror" (.fs 1 1) .nil) (.fs 0 0) ⟨none⟩ untargeted ↔
      ∀ repo, (Backend.fs 0 0).HasRepo untargeted.volumes repo →
        Replicate.SelectedResolve ⟨none⟩ (.fs 0 0) untargeted.volumes repo) ∧
    ((∃ report w', (copyRepo (Backend.fs 0 0).storage (Backend.fs 1 1).storage Sample.dataX
        .empty).run World.handle untargeted = (.ok report, w')) ↔
      TagsResolve (.fs 0 0) untargeted.volumes Sample.dataX) ∧
    ((∃ report w', (Migrate.run "*" (.fs 1 1) false).run World.handle untargeted =
        (.ok report, w')) ↔
      Backend.fs 0 0 = .fs 1 1 ∨ ∀ repo, Moved untargeted "*" (.fs 0 0) repo →
        TagsResolve (.fs 0 0) untargeted.volumes repo) := by
  obtain ⟨hreplicate, hcopy, hmigrate⟩ := tolerates_dangling_iff untargeted_collisionFree
  exact ⟨hreplicate _ _ _ _, hcopy _ _ _ _, hmigrate "*" (.fs 1 1) (.fs 0 0) false (by decide)⟩

end

end RspaceRegistry
