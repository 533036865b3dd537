import RspaceRegistry.Migrate.Reads
import RspaceRegistry.RepoRouter.Reads
import RspaceRegistry.Sample

namespace RspaceRegistry.Migrate

open Calls Fallible Places

section

variable [Sha2] [SerdeJson]

-- A blob that the first world serves is served by the second one, with the
-- same bytes.
def BlobKept (w w' : World) (repo : RepoName) (d : Digest) : Prop :=
  ∀ content, w.blobRead repo d = .ok content → w'.blobRead repo d = .ok content

variable {pattern : String} {old newBackend : Backend} {drain : Bool} {w w' : World}

-- The backfill takes along what a manifest names that parses. Any other blob is
-- left behind, and served afterwards only if the new volume had it already.
theorem blob_kept_iff {report : MigrateReport} {repo : RepoName} (d : Digest)
    (hrule : w.router.backendForPattern pattern = some old)
    (hapart : ∀ root ∈ old.leaves, root ∉ newBackend.leaves)
    (hfree : w.volumes.CollisionFree)
    (hrun : (run pattern newBackend drain).run World.handle w = (.ok report, w'))
    (hrepo : w.router.RoutedThrough pattern repo.text) :
    BlobKept w w' repo d ↔ w.blobRead repo d = .error .notFound ∨
      (newBackend.blob w.volumes d).isSome ∨
        ∃ moved, Moved w pattern old moved ∧ Referenced old w.volumes moved d := by
  have hcoh := hfree.coherent w.volumes_wellFormed
  have hne : old ≠ newBackend := by
    rintro rfl
    exact hapart old.head old.head_mem_leaves old.head_mem_leaves
  obtain ⟨k, hkey⟩ := w.router.exists_keyIndex hrule
  obtain ⟨repos, v, hmem, _, hfinished⟩ := run_eq_ok hrule hne hcoh hrun
  have hbefore := w.router.resolve_of_routedThrough hrule hrepo
  have hafter : w'.router.resolve repo.text = newBackend := by
    rw [hfinished.router]
    exact RepoRouter.resolve_upsert_through hkey hrepo
  have hdrain : newBackend.blob w'.volumes d = newBackend.blob v d := by
    cases drain with
    | false => rw [hfinished.kept rfl]
    | true => exact (hfinished.drained rfl).blob_apart hapart d
  have hmoved : (∃ moved ∈ repos, Referenced old w.volumes moved d) ↔
      ∃ moved, Moved w pattern old moved ∧ Referenced old w.volumes moved d := by
    simp only [hmem]
  unfold BlobKept
  simp only [World.blobRead_eq, hbefore, hafter, hdrain, orNotFound_eq_ok, ← hmoved]
  cases hold : old.blob w.volumes d with
  | none => simp
  | some content =>
      simp only [Option.some.injEq, forall_eq', orNotFound_some, reduceCtorEq, false_or]
      by_cases href : ∃ moved ∈ repos, Referenced old w.volumes moved d
      · rw [hfinished.copied.blob_dst href, hold]
        cases hnew : newBackend.blob w.volumes d with
        | none => simp [href]
        | some content' =>
            have hsame := (hfree.blobAt w.volumes_wellFormed d).first_unique hold hnew
            simp [hsame]
      · rw [hfinished.copied.blob_other href]
        cases hnew : newBackend.blob w.volumes d with
        | none => simp [href]
        | some content' =>
            have hsame := (hfree.blobAt w.volumes_wellFormed d).first_unique hold hnew
            simp [hsame]

end

section

attribute [local instance] Sample.sha2 Sample.serdeJson

-- A finished blob upload whose manifest has not been pushed yet.
def uploaded : World where
  roots := Sample.roots (FsStorage.new.blobWrite (hashContent .sha256 Sample.x) Sample.x).2 .new
  router := .single (.fs 0 0)
  nextArc := 2
  arcs_allocated := Sample.arcs_two

def uploadedMoved : World := ((run "*" (.fs 1 1) false).run World.handle uploaded).2

theorem uploaded_run : (run "*" (.fs 1 1) false).run World.handle uploaded =
    (.ok { MigrateReport.empty with cutover := true }, uploadedMoved) :=
  run_eq_mk (by decide) rfl

theorem uploaded_routed : uploaded.router.RoutedThrough "*" Sample.dataX.text := by decide

theorem uploaded_blob_lost :
    (run "*" (.fs 1 1) false).run World.handle uploaded =
        (.ok { MigrateReport.empty with cutover := true }, uploadedMoved) ∧
      uploaded.router.RoutedThrough "*" Sample.dataX.text ∧
      ¬BlobKept uploaded uploadedMoved Sample.dataX (hashContent .sha256 Sample.x) := by
  refine ⟨uploaded_run, uploaded_routed, ?_⟩
  intro h
  have hbefore : uploaded.blobRead Sample.dataX (hashContent .sha256 Sample.x) = .ok Sample.x := by
    decide
  have hafter : uploadedMoved.blobRead Sample.dataX (hashContent .sha256 Sample.x) =
      .error .notFound := by decide
  rw [h Sample.x hbefore] at hafter
  cases hafter

theorem uploaded_blob_kept_iff :
    BlobKept uploaded uploadedMoved Sample.dataX (hashContent .sha256 Sample.x) ↔
      uploaded.blobRead Sample.dataX (hashContent .sha256 Sample.x) = .error .notFound ∨
        ((Backend.fs 1 1).blob uploaded.volumes (hashContent .sha256 Sample.x)).isSome ∨
          ∃ moved, Moved uploaded "*" (.fs 0 0) moved ∧
            Referenced (.fs 0 0) uploaded.volumes moved (hashContent .sha256 Sample.x) := by
  have hfree : uploaded.volumes.CollisionFree :=
    Sample.collisionFree_roots [Sample.x] rfl (by decide +kernel)
  exact blob_kept_iff (hashContent .sha256 Sample.x) rfl (by decide) hfree uploaded_run
    uploaded_routed

end

end RspaceRegistry.Migrate
