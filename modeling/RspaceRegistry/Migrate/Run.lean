import RspaceRegistry.Migrate.Drain
import RspaceRegistry.RepoRouter.Theorems

namespace RspaceRegistry.Migrate

open Calls Fallible Ordered Places

-- What a whole migration does when nothing else runs and nothing fails.

variable [Sha2]

-- The repositories that a migration of the pattern moves off the old backend.
def Moved (w : World) (pattern : String) (old : Backend) (repo : RepoName) : Prop :=
  old.HasRepo w.volumes repo ∧ globMatch pattern repo.text = true ∧
    w.router.resolve repo.text = old

def overlay (arc : Nat) (newBackend old : Backend) : Backend :=
  .multi arc .nil "new" newBackend (.cons "old" old .nil)

omit [Sha2] in
theorem overlay_leaves (arc : Nat) (newBackend old : Backend) :
    (overlay arc newBackend old).leaves = newBackend.leaves ++ old.leaves := by
  simp [overlay, Backend.leaves, Partitions.leaves]

omit [Sha2] in
theorem overlay_readOrder (arc : Nat) (newBackend old : Backend) :
    (overlay arc newBackend old).readOrder = newBackend.readOrder ++ old.readOrder := by
  simp [overlay, Backend.readOrder, Partitions.readOrder]

omit [Sha2] in
theorem overlay_ne (arc : Nat) (newBackend old : Backend) : overlay arc newBackend old ≠ newBackend := by
  intro h
  have hsize := congrArg sizeOf h
  simp only [overlay, Backend.multi.sizeOf_spec] at hsize
  omega

omit [Sha2] in
theorem overlay_ne_old (arc : Nat) (newBackend old : Backend) : overlay arc newBackend old ≠ old := by
  intro h
  have hsize := congrArg sizeOf h
  simp only [overlay, Backend.multi.sizeOf_spec, Partitions.cons.sizeOf_spec] at hsize
  omega

omit [Sha2] in
-- Reads of the overlay are new-first.
theorem overlay_read (arc : Nat) (newBackend old : Backend) (v : Volumes) (repo : RepoName)
    (reference : Reference) : (overlay arc newBackend old).read v repo reference =
      (newBackend.read v repo reference).or (old.read v repo reference) := by
  rw [Backend.read, overlay_readOrder, first_append]
  rfl

omit [Sha2] in
theorem overlay_blob (arc : Nat) (newBackend old : Backend) (v : Volumes) (d : Digest) :
    (overlay arc newBackend old).blob v d = (newBackend.blob v d).or (old.blob v d) := by
  rw [Backend.blob, overlay_readOrder, first_append]
  rfl

theorem run_newOverlay (newBackend old : Backend) (w : World) :
    (newOverlay newBackend old).run World.handle w =
      (.ok (overlay w.nextArc newBackend old), w.newArc) := rfl

theorem run_selectRepos (pattern : String) (old : Backend) (listed : List RepoName) (w : World) :
    (selectRepos pattern old listed).run World.handle w = (.ok (listed.filter fun repo =>
      globMatch pattern repo.text && (w.router.resolve repo.text).ptrEq old), w) := by
  induction listed with
  | nil => rfl
  | cons repo rest ih =>
      have hbackend : (StoreM.backendFor repo.text).run World.handle w =
        (.ok (w.router.resolve repo.text), w) := rfl
      rw [selectRepos]
      by_cases hmatch : globMatch pattern repo.text = true
      · rw [if_pos hmatch, run_bind_of_ok hbackend, run_bind_of_ok ih]
        by_cases hold : (w.router.resolve repo.text).ptrEq old = true
        · simp [hmatch, hold]
        · simp [hmatch, hold]
      · rw [if_neg hmatch, ih]
        simp [hmatch]

theorem forthright_selectRepos (pattern : String) (old : Backend) (listed : List RepoName) :
    Forthright (selectRepos pattern old listed) := by
  induction listed with
  | nil => exact .pure []
  | cons repo rest ih =>
      rw [selectRepos]
      split
      · exact (Forthright.backendFor repo.text).bind fun backend => ih.bind fun repos => .pure _
      · exact ih

-- They come in their order.
theorem run_listed_sorted (pattern : String) (old : Backend) (w : World) : ∃ repos,
    (old.storage.listRepos >>= fun listed => selectRepos pattern old listed.toList).run
        World.handle w = (.ok repos, w) ∧
      repos.Pairwise (· < ·) ∧ ∀ repo, repo ∈ repos ↔ Moved w pattern old repo := by
  obtain ⟨listed, hlist, hmem⟩ := old.run_listRepos w
  refine ⟨listed.toList.filter fun repo =>
    globMatch pattern repo.text && (w.router.resolve repo.text).ptrEq old, ?_, ?_, ?_⟩
  · rw [run_bind_of_ok hlist, run_selectRepos]
  · exact listed.sorted.filter _
  · intro repo
    rw [List.mem_filter, BTreeSet.mem_toList, hmem, Bool.and_eq_true, Backend.ptrEq,
      decide_eq_true_eq]
    rfl

theorem run_listed (pattern : String) (old : Backend) (w : World) : ∃ repos,
    (old.storage.listRepos >>= fun listed => selectRepos pattern old listed.toList).run
        World.handle w = (.ok repos, w) ∧
      repos.Nodup ∧ ∀ repo, repo ∈ repos ↔ Moved w pattern old repo := by
  obtain ⟨repos, hrun, hsorted, hmem⟩ := run_listed_sorted pattern old w
  exact ⟨repos, hrun, hsorted.imp ne_of_lt, hmem⟩

theorem run_upsert (pattern : String) (backend : Backend) (w : World) :
    (StoreM.upsert pattern backend).run World.handle w =
      (.ok (w.router.upsert pattern backend).1, w.upsert pattern backend) := rfl

theorem backendForPattern_after {pattern : String} {w : World} {old : Backend}
    (hrule : w.router.backendForPattern pattern = some old) (backend : Backend) :
    (w.upsert pattern backend).router.backendForPattern pattern = some backend := by
  obtain ⟨k, hkey⟩ := w.router.exists_keyIndex hrule
  exact RepoRouter.backendForPattern_upsert hkey

variable [SerdeJson]

omit [SerdeJson] in
theorem arc_of_rule {w : World} {pattern : String} {backend : Backend}
    (hrule : w.router.backendForPattern pattern = some backend) : backend.arc < w.nextArc := by
  obtain ⟨rule, hr, rfl⟩ := w.router.mem_of_backendForPattern hrule
  exact w.arcs_allocated rule hr

omit [SerdeJson] in
-- Where a rule was just given a handle of its own, what resolves to the handle
-- goes through the rule.
theorem through_of_fresh {w : World} {pattern repo : String} {backend : Backend} {k : Nat}
    (hkey : w.router.keyIndex pattern = some k) (hfresh : w.nextArc ≤ backend.arc)
    (hresolve : (w.router.upsert pattern backend).2.resolve repo = backend) :
    w.router.RoutedThrough pattern repo := by
  by_contra hother
  rw [RepoRouter.resolve_upsert_other hkey hother] at hresolve
  obtain ⟨rule, hr, hbackend⟩ := w.router.mem_of_resolve repo
  have harc := w.arcs_allocated rule hr
  rw [hbackend, hresolve] at harc
  omega

-- The outcome of a migration that finishes; `v` is what the backfill leaves,
-- before the drain.
structure Finished (pattern : String) (old newBackend : Backend) (drain : Bool)
    (repos : List RepoName) (w w' : World) (v : Volumes) : Prop where
  router : w'.router = (w.router.upsert pattern newBackend).2
  copied : CopiedRepos old newBackend repos w.volumes v
  kept : drain = false → w'.volumes = v
  drained : drain = true → Drained old repos v w'.volumes

section Move

variable {pattern : String} {old newBackend : Backend} {w : World} (drain : Bool)
  {repos : List RepoName} (hnodup : repos.Nodup) (hcoh : ∀ repo, w.volumes.Coherent repo)

include hnodup hcoh

theorem run_move {k : Nat} (hkey : w.router.keyIndex pattern = some k)
    (hresolve : ∀ repo ∈ repos, TagsResolve old w.volumes repo) : ∃ report w' v,
    (move pattern old newBackend drain repos).run World.handle w = (.ok report, w') ∧
      report.cutover = true ∧ Finished pattern old newBackend drain repos w w' v := by
  have hoverlay := run_newOverlay newBackend old w
  have hcut := run_upsert pattern (overlay w.nextArc newBackend old) w.newArc
  obtain ⟨report, w₁, hcopy, hsame, hcopied⟩ := run_copyRepos old newBackend repos
    { MigrateReport.empty with reposMigrated := repos.length }
    (w.newArc.upsert pattern (overlay w.nextArc newBackend old)) hnodup (fun r _ => hcoh r) hresolve
  have hcollapse := run_upsert pattern newBackend w₁
  have hrouter : (w₁.upsert pattern newBackend).router = (w.router.upsert pattern newBackend).2 := by
    have h : (w₁.router.upsert pattern newBackend).2 = (w.router.upsert pattern newBackend).2 := by
      rw [hsame.router]
      exact RepoRouter.upsert_upsert hkey newBackend
    exact h
  cases drain with
  | false =>
      refine ⟨{ report with cutover := true }, w₁.upsert pattern newBackend, w₁.volumes, ?_, rfl,
        hrouter, hcopied, fun _ => rfl, by simp⟩
      rw [move, run_bind_of_ok hoverlay, run_bind_of_ok hcut, run_bind_of_ok hcopy,
        run_bind_of_ok hcollapse]
      rfl
  | true =>
      obtain ⟨report', w₂, hdrain, hcutover, hsame₂, hdrained⟩ :=
        run_drainOld old repos { report with cutover := true } (w₁.upsert pattern newBackend)
      refine ⟨report', w₂, w₁.volumes, ?_, hcutover, hsame₂.router.trans hrouter, hcopied, by simp,
        fun _ => hdrained⟩
      rw [move, run_bind_of_ok hoverlay, run_bind_of_ok hcut, run_bind_of_ok hcopy,
        run_bind_of_ok hcollapse]
      exact hdrain

-- A dangling tag stops the backfill, and the route stays on the overlay.
structure Halted (pattern : String) (old newBackend : Backend) (done : List RepoName)
    (w w' : World) : Prop where
  router : w'.router = (w.router.upsert pattern (overlay w.nextArc newBackend old)).2
  resolved : ∀ repo ∈ done, TagsResolve old w.volumes repo
  copied : CopiedRepos old newBackend done w.volumes w'.volumes

theorem run_move_dangling (hdangling : ¬∀ repo ∈ repos, TagsResolve old w.volumes repo) :
    ∃ done w', (move pattern old newBackend drain repos).run World.handle w =
      (.error .notFound, w') ∧ Halted pattern old newBackend done w w' := by
  have hoverlay := run_newOverlay newBackend old w
  have hcut := run_upsert pattern (overlay w.nextArc newBackend old) w.newArc
  obtain ⟨done, w₁, hcopy, hsame, hdone, hcopied⟩ := run_copyRepos_dangling old newBackend repos
    { MigrateReport.empty with reposMigrated := repos.length }
    (w.newArc.upsert pattern (overlay w.nextArc newBackend old)) hnodup (fun r _ => hcoh r) hdangling
  refine ⟨done, w₁, ?_, hsame.router, fun repo hr => (hdone repo hr).2, hcopied⟩
  rw [move, run_bind_of_ok hoverlay, run_bind_of_ok hcut, run_bind_of_error hcopy]

end Move

section Run

variable {pattern : String} {newBackend : Backend} {drain : Bool} {w : World}

theorem run_noRule (hrule : w.router.backendForPattern pattern = none) :
    (run pattern newBackend drain).run World.handle w =
      (.error (.invalid ("no route rule with pattern " ++ pattern.quote)), w) := by
  have hlook : (StoreM.backendForPattern pattern).run World.handle w = (.ok none, w) :=
    congrArg (fun b => (Except.ok b, w)) hrule
  rw [run, run_bind_of_ok hlook]
  rfl

theorem run_noop (hrule : w.router.backendForPattern pattern = some newBackend) :
    (run pattern newBackend drain).run World.handle w = (.ok .empty, w) := by
  have hlook : (StoreM.backendForPattern pattern).run World.handle w = (.ok (some newBackend), w) :=
    congrArg (fun b => (Except.ok b, w)) hrule
  have hsame : newBackend.ptrEq newBackend = true := decide_eq_true rfl
  rw [run, run_bind_of_ok hlook]
  simp only [hsame, if_true]
  rfl

variable {old : Backend}

variable (drain) in
theorem run_moved (hrule : w.router.backendForPattern pattern = some old) (hne : old ≠ newBackend) :
    ∃ repos, (run pattern newBackend drain).run World.handle w =
        (move pattern old newBackend drain repos).run World.handle w ∧
      repos.Nodup ∧ ∀ repo, repo ∈ repos ↔ Moved w pattern old repo := by
  have hlook : (StoreM.backendForPattern pattern).run World.handle w = (.ok (some old), w) :=
    congrArg (fun b => (Except.ok b, w)) hrule
  have hdiffer : old.ptrEq newBackend = false := decide_eq_false hne
  obtain ⟨repos, hlisted, hnodup, hmem⟩ := run_listed pattern old w
  refine ⟨repos, ?_, hnodup, hmem⟩
  rw [run, run_bind_of_ok hlook]
  simp only [hdiffer, Bool.false_eq_true, if_false]
  rw [← bind_assoc, run_bind_of_ok hlisted]

variable (drain) in
-- How a migration ends that has something to do.
theorem run_cases (hrule : w.router.backendForPattern pattern = some old) (hne : old ≠ newBackend)
    (hcoh : ∀ repo, w.volumes.Coherent repo) : ∃ repos, repos.Nodup ∧
      (∀ repo, repo ∈ repos ↔ Moved w pattern old repo) ∧
      ((∀ repo ∈ repos, TagsResolve old w.volumes repo) ∧
          (∃ report w' v, (run pattern newBackend drain).run World.handle w = (.ok report, w') ∧
            Finished pattern old newBackend drain repos w w' v) ∨
        (¬∀ repo ∈ repos, TagsResolve old w.volumes repo) ∧
          ∃ done w', (run pattern newBackend drain).run World.handle w = (.error .notFound, w') ∧
            Halted pattern old newBackend done w w') := by
  obtain ⟨repos, hmove, hnodup, hmem⟩ := run_moved drain hrule hne
  obtain ⟨k, hkey⟩ := w.router.exists_keyIndex hrule
  refine ⟨repos, hnodup, hmem, ?_⟩
  rw [hmove]
  by_cases hresolve : ∀ repo ∈ repos, TagsResolve old w.volumes repo
  · obtain ⟨report, w', v, hrun, _, hfinished⟩ := run_move drain hnodup hcoh hkey hresolve
    exact .inl ⟨hresolve, report, w', v, hrun, hfinished⟩
  · exact .inr ⟨hresolve, run_move_dangling drain hnodup hcoh hresolve⟩

theorem run_eq_ok (hrule : w.router.backendForPattern pattern = some old) (hne : old ≠ newBackend)
    (hcoh : ∀ repo, w.volumes.Coherent repo) {report : MigrateReport} {w' : World}
    (hrun : (run pattern newBackend drain).run World.handle w = (.ok report, w')) : ∃ repos v,
    (∀ repo, repo ∈ repos ↔ Moved w pattern old repo) ∧
      (∀ repo ∈ repos, TagsResolve old w.volumes repo) ∧
      Finished pattern old newBackend drain repos w w' v := by
  obtain ⟨repos, _, hmem, hcases⟩ := run_cases drain hrule hne hcoh
  rcases hcases with ⟨hresolve, report', w₁, v, hrun', hfinished⟩ | ⟨_, done, w₁, hrun', _⟩
  · rw [hrun'] at hrun
    obtain ⟨_, rfl⟩ := Prod.mk.inj hrun
    exact ⟨repos, v, hmem, hresolve, hfinished⟩
  · rw [hrun'] at hrun
    cases (Prod.mk.inj hrun).1

theorem Finished.stores {repos : List RepoName} {w' : World} {v : Volumes}
    (h : Finished pattern old newBackend drain repos w w' v) (content : Bytes)
    (hc : w'.volumes.Stores content) : w.volumes.Stores content := by
  apply h.copied.stores
  cases drain with
  | false => rwa [h.kept rfl] at hc
  | true => exact (h.drained rfl).stores old content hc

theorem Finished.collisionFree {repos : List RepoName} {w' : World} {v : Volumes}
    (h : Finished pattern old newBackend drain repos w w' v) (hfree : w.volumes.CollisionFree) :
    w'.volumes.CollisionFree := by
  intro algorithm a b ha hb
  exact hfree algorithm a b (h.stores a ha) (h.stores b hb)

end Run

end RspaceRegistry.Migrate
