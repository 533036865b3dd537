import RspaceRegistry.Handlers
import RspaceRegistry.Migrate.Reads
import RspaceRegistry.RepoRouter.Reads
import RspaceRegistry.Sample

namespace RspaceRegistry.Handlers

open Calls Fallible Places Migrate

section

variable [Sha2] [SerdeJson]

-- Migrating by request is migrating to a handle that nobody else has.
theorem toEnd_eq {body : RepoMigrateRequest} {pattern : String} (hkey : body.key = some pattern) :
    repoMigrateToEnd body = StoreM.newArc >>= fun arc =>
      Migrate.run pattern (.fs arc body.toRoot) body.drain >>= fun report => pure (.ok report) := by
  unfold repoMigrateToEnd repoMigrate
  rw [hkey]
  simp only [bind_assoc]
  refine congrArg (StoreM.newArc >>= ·) ?_
  funext arc
  cases body.background with
  | false => simp only [Bool.false_eq_true, if_false, bind_assoc, pure_bind]
  | true => simp only [if_true, pure_bind]

section

variable {body : RepoMigrateRequest} {pattern : String} (hkey : body.key = some pattern)

include hkey

theorem run_toEnd (w : World) : (repoMigrateToEnd body).run World.handle w =
    (Migrate.run pattern (.fs w.nextArc body.toRoot) body.drain >>= fun report =>
      pure (.ok report)).run World.handle w.newArc := by
  rw [toEnd_eq hkey]
  rfl

theorem toEnd_of_ok {w w' : World} {report : MigrateReport}
    (hrun : (Migrate.run pattern (.fs w.nextArc body.toRoot) body.drain).run World.handle w.newArc =
      (.ok report, w')) :
    (repoMigrateToEnd body).run World.handle w = (.ok (.ok report), w') := by
  rw [run_toEnd hkey, run_bind_of_ok hrun]
  rfl

theorem toEnd_of_error {w w' : World} {err : StorageError}
    (hrun : (Migrate.run pattern (.fs w.nextArc body.toRoot) body.drain).run World.handle w.newArc =
      (.error err, w')) :
    (repoMigrateToEnd body).run World.handle w = (.error err, w') := by
  rw [run_toEnd hkey, run_bind_of_error hrun]

theorem eq_ok_of_toEnd {w w' : World} {report : MigrateReport}
    (hrun : (repoMigrateToEnd body).run World.handle w = (.ok (.ok report), w')) :
    (Migrate.run pattern (.fs w.nextArc body.toRoot) body.drain).run World.handle w.newArc =
      (.ok report, w') := by
  rw [run_toEnd hkey] at hrun
  obtain ⟨report', w₁, hrun', hpure⟩ := run_bind_eq_ok hrun
  rw [run_pure] at hpure
  obtain ⟨hreport, rfl⟩ := Prod.mk.inj hpure
  obtain rfl := Except.ok.inj (Except.ok.inj hreport)
  exact hrun'

-- What a finished request leaves: its rule on the handle that it opened, which
-- no other rule has, and nothing stored that was not stored before.
theorem after_request {w w₁ : World} {report : MigrateReport} (hfree : w.volumes.CollisionFree)
    (hfirst : (repoMigrateToEnd body).run World.handle w = (.ok (.ok report), w₁)) :
    w₁.router.backendForPattern pattern = some (.fs w.nextArc body.toRoot) ∧
      (∀ repo, w₁.router.resolve repo = .fs w.nextArc body.toRoot →
        w₁.router.RoutedThrough pattern repo) ∧
      w₁.volumes.CollisionFree := by
  have hrun := eq_ok_of_toEnd hkey hfirst
  have hfree' : w.newArc.volumes.CollisionFree := hfree
  have hcoh := hfree'.coherent w.newArc.volumes_wellFormed
  cases hrule : w.newArc.router.backendForPattern pattern with
  | none =>
      rw [run_noRule hrule] at hrun
      cases (Prod.mk.inj hrun).1
  | some old =>
      have harc : old.arc < w.nextArc := arc_of_rule (w := w) hrule
      have hne : old ≠ .fs w.nextArc body.toRoot := by
        rintro rfl
        exact lt_irrefl _ harc
      obtain ⟨k, hkey'⟩ := w.router.exists_keyIndex hrule
      obtain ⟨repos, v, _, _, hfinished⟩ := run_eq_ok hrule hne hcoh hrun
      have hrouter : w₁.router = (w.router.upsert pattern (.fs w.nextArc body.toRoot)).2 :=
        hfinished.router
      refine ⟨?_, ?_, hfinished.collisionFree hfree'⟩
      · rw [hrouter]
        exact RepoRouter.backendForPattern_upsert hkey'
      · intro repo hresolve
        rw [hrouter] at hresolve ⊢
        have hfresh : w.nextArc ≤ (Backend.fs w.nextArc body.toRoot).arc := le_refl w.nextArc
        have hthrough := through_of_fresh hkey' hfresh hresolve
        exact (RepoRouter.routedThrough_upsert hkey' repo).mpr hthrough

end

-- The second request moves the class from one handle to another on the same
-- directory. Copying there changes nothing that is read.
section SameRoot

variable {arc arc' : Nat} {root : RootId} {repos : List RepoName} {v v' : Volumes}
  (h : CopiedRepos (.fs arc root) (.fs arc' root) repos v v')

include h

theorem sameRoot_read (hv : ∀ root, (v root).WellFormed) (hcoh : ∀ repo, v.Coherent repo)
    (hresolve : ∀ repo ∈ repos, TagsResolve (.fs arc root) v repo) (repo : RepoName)
    (reference : Reference) : (v' root).read repo reference = (v root).read repo reference := by
  by_cases hr : repo ∈ repos
  · have hread := h.read_src hr hv (hcoh repo) (hresolve repo hr) reference
    rw [Backend.read_fs, Backend.read_fs] at hread
    exact hread
  · exact congrFun (h.readAt_other hr reference) root

theorem sameRoot_blob (d : Digest) : (v' root).blob d = (v root).blob d := by
  have hblob := h.blob_src d
  rw [Backend.blob_fs, Backend.blob_fs] at hblob
  exact hblob

variable (hv : ∀ root, (v root).WellFormed) (hcoh : ∀ repo, v.Coherent repo)
  (hresolve : ∀ repo ∈ repos, TagsResolve (.fs arc root) v repo) {routed : RepoName → Prop}
  (hmem : ∀ repo, repo ∈ repos ↔ (v root).repo repo ∧ routed repo)
  {v'' : Volumes} (hdrained : Drained (.fs arc root) repos v' v'')

include hv hcoh hresolve hmem hdrained

omit hdrained in
theorem sameRoot_marked (hempty : ∀ repo, routed repo → ∀ d, (v root).manifest repo d = none)
    {d : Digest} (hmarked : Gc.Marked (.fs arc root) v d) :
    MarkedByOthers (.fs arc root) repos v' d := by
  obtain ⟨repo, digest, content, hread, hnamed⟩ := hmarked
  rw [Backend.read_fs] at hread
  refine ⟨repo, ?_, digest, content, ?_, hnamed⟩
  · intro hr
    have hnone := hempty repo ((hmem repo).mp hr).2 digest
    rw [Contents.read_digest, hnone] at hread
    cases hread
  · rw [Backend.read_fs, sameRoot_read h hv hcoh hresolve]
    exact hread

-- The drain of the directory takes all manifests of the class away, and the
-- blobs that only they protect or nobody.
theorem sameRoot_drained_iff :
    (∀ repo, routed repo →
      (∀ reference, (v'' root).read repo reference = (v root).read repo reference) ∧
        ∀ d, (v'' root).blob d = (v root).blob d) ↔
      ∀ repo, routed repo → (∀ d, (v root).manifest repo d = none) ∧
        ∀ d, (v root).blob d = none ∨ Gc.Marked (.fs arc root) v d := by
  have hroot : root ∈ (Backend.fs arc root).leaves := List.mem_singleton_self root
  have hpurged : ∀ repo ∈ repos, ∀ reference, (v'' root).read repo reference = none := by
    intro repo hr reference
    exact (congrFun (hdrained.readAt_moved hr reference) root).trans (clear_of_mem hroot)
  have hblob : ∀ d, (v' root).blob d = (v root).blob d := sameRoot_blob h
  constructor
  · intro hsame
    have hempty : ∀ repo, routed repo → ∀ d, (v root).manifest repo d = none := by
      intro repo hrepo d
      cases hread : (v root).manifest repo d with
      | none => rfl
      | some content =>
          have hr := (hmem repo).mpr ⟨(hv root).manifest_listed repo d content hread, hrepo⟩
          have hkept := (hsame repo hrepo).1 (.digest d)
          rw [hpurged repo hr, Contents.read_digest, hread] at hkept
          cases hkept
    intro repo hrepo
    refine ⟨hempty repo hrepo, ?_⟩
    intro d
    cases hb : (v root).blob d with
    | none => exact .inl rfl
    | some content =>
        right
        by_contra hunmarked
        have hothers : ¬MarkedByOthers (.fs arc root) repos v' d := by
          rintro ⟨repo', _, digest, content', hread, hnamed⟩
          rw [Backend.read_fs, sameRoot_read h hv hcoh hresolve] at hread
          refine hunmarked ⟨repo', digest, content', ?_, hnamed⟩
          rw [Backend.read_fs]
          exact hread
        have hswept : (v'' root).blob d = none :=
          (congrFun (hdrained.swept d hothers) root).trans (clear_of_mem hroot)
        have hkept := (hsame repo hrepo).2 d
        rw [hswept, hb] at hkept
        cases hkept
  · intro hlose repo hrepo
    have hempty : ∀ repo, routed repo → ∀ d, (v root).manifest repo d = none :=
      fun repo hrepo => (hlose repo hrepo).1
    have hnone : ∀ reference, (v root).read repo reference = none := by
      intro reference
      rw [Contents.read]
      cases (v root).target repo reference with
      | none => rfl
      | some d => exact hempty repo hrepo d
    constructor
    · intro reference
      rw [hnone reference]
      by_cases hr : repo ∈ repos
      · exact hpurged repo hr reference
      · have hother := congrFun (hdrained.readAt_other hr reference) root
        refine Eq.trans hother ?_
        refine (sameRoot_read h hv hcoh hresolve repo reference).trans ?_
        exact hnone reference
    · intro d
      have hafter : ∀ d, MarkedByOthers (.fs arc root) repos v' d →
          (v'' root).blob d = (v root).blob d :=
        fun d hm => (congrFun (hdrained.marked d hm) root).trans (hblob d)
      rcases (hlose repo hrepo).2 d with hb | hmarked
      · by_cases hm : MarkedByOthers (.fs arc root) repos v' d
        · exact hafter d hm
        · rw [hb]
          exact (congrFun (hdrained.swept d hm) root).trans (clear_of_mem hroot)
      · exact hafter d (sameRoot_marked h hv hcoh hresolve hmem hempty hmarked)

end SameRoot

-- Two worlds serve the same of a repository.
def SameReads (w w' : World) (repo : RepoName) : Prop :=
  (∀ reference, w'.manifestGet repo reference = w.manifestGet repo reference) ∧
    ∀ d, w'.blobRead repo d = w.blobRead repo d

-- The class has nothing that a drain of its directory could take away.
def NothingToLose (pattern : String) (b : Backend) (w : World) : Prop :=
  ∀ repo, w.router.RoutedBy pattern repo.text →
    (∀ d, w.manifestGet repo (.digest d) = .error .notFound) ∧
      ∀ d, w.blobRead repo d = .error .notFound ∨ Gc.Marked b w.volumes d

section Second

variable {pattern : String} {arc root : Nat} {w : World}
  (hrule : w.router.backendForPattern pattern = some (.fs arc root))
  (hthrough : ∀ repo, w.router.resolve repo = .fs arc root → w.router.RoutedThrough pattern repo)

include hrule hthrough

omit [SerdeJson] in
-- What the second request moves is what its rule routes and the directory has.
theorem moved_iff (repo : RepoName) : Moved w pattern (.fs arc root) repo ↔
    (w.volumes root).repo repo ∧ w.router.RoutedBy pattern repo.text := by
  obtain ⟨k, hkey⟩ := w.router.exists_keyIndex hrule
  rw [w.router.routedBy_iff_through hkey]
  constructor
  · rintro ⟨⟨root', hroot, hlisted⟩, hmatch, hresolve⟩
    rw [List.mem_singleton.mp hroot] at hlisted
    exact ⟨hlisted, hmatch, hthrough repo.text hresolve⟩
  · rintro ⟨hlisted, hmatch, hrouted⟩
    exact ⟨⟨root, List.mem_singleton_self root, hlisted⟩, hmatch,
      w.router.resolve_of_routedThrough hrule hrouted⟩

omit hthrough [SerdeJson] in
theorem reads_before {repo : RepoName} (hrepo : w.router.RoutedBy pattern repo.text) :
    (∀ reference, w.manifestGet repo reference = orNotFound ((w.volumes root).read repo reference)) ∧
      ∀ d, w.blobRead repo d = orNotFound ((w.volumes root).blob d) := by
  have hresolve := w.router.resolve_of_routedThrough hrule
    (w.router.routedThrough_of_routedBy hrepo)
  constructor
  · intro reference
    rw [World.manifestGet_eq, hresolve, Backend.read_fs]
  · intro d
    rw [World.blobRead_eq, hresolve, Backend.blob_fs]

end Second

-- The world after the second request serves the class from the same directory.
theorem after_repeat {body : RepoMigrateRequest} {pattern : String} {arc : Nat} {w w₂ : World}
    {result : Except StorageError (Except OciError MigrateReport)}
    (hkey : body.key = some pattern)
    (hrule : w.router.backendForPattern pattern = some (.fs arc body.toRoot))
    (hthrough : ∀ repo, w.router.resolve repo = .fs arc body.toRoot →
      w.router.RoutedThrough pattern repo)
    (hfree : w.volumes.CollisionFree)
    (hagain : (repoMigrateToEnd body).run World.handle w = (result, w₂)) :
    ∃ repos v, (∀ repo, repo ∈ repos ↔
        (w.volumes body.toRoot).repo repo ∧ w.router.RoutedBy pattern repo.text) ∧
      (∀ repo, w.router.RoutedBy pattern repo.text →
        (∀ reference, w₂.manifestGet repo reference =
            orNotFound ((w₂.volumes body.toRoot).read repo reference)) ∧
          ∀ d, w₂.blobRead repo d = orNotFound ((w₂.volumes body.toRoot).blob d)) ∧
      ((¬∀ repo ∈ repos, TagsResolve (.fs arc body.toRoot) w.volumes repo) ∧
          (∃ done, (∀ repo ∈ done, TagsResolve (.fs arc body.toRoot) w.volumes repo) ∧
            CopiedRepos (.fs arc body.toRoot) (.fs w.nextArc body.toRoot) done w.volumes w₂.volumes) ∨
        (∀ repo ∈ repos, TagsResolve (.fs arc body.toRoot) w.volumes repo) ∧
          CopiedRepos (.fs arc body.toRoot) (.fs w.nextArc body.toRoot) repos w.volumes v ∧
          (body.drain = false → w₂.volumes = v) ∧
          (body.drain = true → Drained (.fs arc body.toRoot) repos v w₂.volumes)) := by
  have hcoh := hfree.coherent w.volumes_wellFormed
  have harc : arc < w.nextArc := arc_of_rule hrule
  have hne : Backend.fs arc body.toRoot ≠ .fs w.nextArc body.toRoot := by
    intro h
    have heq := (Backend.fs.inj h).1
    omega
  obtain ⟨k, hkey'⟩ := w.router.exists_keyIndex hrule
  obtain ⟨repos, _, hmem, hcases⟩ := run_cases (w := w.newArc) body.drain hrule hne hcoh
  have hmoved : ∀ repo, repo ∈ repos ↔
      (w.volumes body.toRoot).repo repo ∧ w.router.RoutedBy pattern repo.text :=
    fun repo => (hmem repo).trans (moved_iff hrule hthrough repo)
  rcases hcases with ⟨hresolve, report, w', v, hrun, hfinished⟩ | ⟨hdangling, done, w', hrun, hhalted⟩
  · have hend := toEnd_of_ok hkey hrun
    rw [hagain] at hend
    obtain ⟨_, rfl⟩ := Prod.mk.inj hend
    refine ⟨repos, v, hmoved, ?_, .inr ⟨hresolve, hfinished.copied, hfinished.kept,
      hfinished.drained⟩⟩
    intro repo hrepo
    have hafter : w₂.router.resolve repo.text = .fs w.nextArc body.toRoot := by
      rw [hfinished.router]
      exact RepoRouter.resolve_upsert_through hkey' (w.router.routedThrough_of_routedBy hrepo)
    constructor
    · intro reference
      rw [World.manifestGet_eq, hafter, Backend.read_fs]
    · intro d
      rw [World.blobRead_eq, hafter, Backend.blob_fs]
  · have hend := toEnd_of_error hkey hrun
    rw [hagain] at hend
    obtain ⟨_, rfl⟩ := Prod.mk.inj hend
    refine ⟨repos, w₂.volumes, hmoved, ?_, .inl ⟨hdangling, done, hhalted.resolved, hhalted.copied⟩⟩
    intro repo hrepo
    have hafter : w₂.router.resolve repo.text =
        overlay w.newArc.nextArc (.fs w.nextArc body.toRoot) (.fs arc body.toRoot) := by
      rw [hhalted.router]
      exact RepoRouter.resolve_upsert_through hkey' (w.router.routedThrough_of_routedBy hrepo)
    constructor
    · intro reference
      rw [World.manifestGet_eq, hafter, overlay_read, Backend.read_fs, Backend.read_fs, Option.or_self]
    · intro d
      rw [World.blobRead_eq, hafter, overlay_blob, Backend.blob_fs, Backend.blob_fs, Option.or_self]

-- Repeating a request that succeeded changes what is served of its class
-- exactly when it drains: it then drains the directory that it has moved to.
theorem repeated_reads_iff {body : RepoMigrateRequest} {pattern : String} {w w₁ w₂ : World}
    {report : MigrateReport} {result : Except StorageError (Except OciError MigrateReport)}
    (hkey : body.key = some pattern) (hfree : w.volumes.CollisionFree)
    (hfirst : (repoMigrateToEnd body).run World.handle w = (.ok (.ok report), w₁))
    (hagain : (repoMigrateToEnd body).run World.handle w₁ = (result, w₂)) :
    (∀ repo, w₁.router.RoutedBy pattern repo.text → SameReads w₁ w₂ repo) ↔
      body.drain = false ∨
      (∃ repo, w₁.router.RoutedBy pattern repo.text ∧
        ¬TagsResolve (.fs w.nextArc body.toRoot) w₁.volumes repo) ∨
      NothingToLose pattern (.fs w.nextArc body.toRoot) w₁ := by
  obtain ⟨hrule, hthrough, hfree₁⟩ := after_request hkey hfree hfirst
  have hcoh := hfree₁.coherent w₁.volumes_wellFormed
  have hwf := w₁.volumes_wellFormed
  obtain ⟨repos, v, hmem, hserved, hcases⟩ := after_repeat hkey hrule hthrough hfree₁ hagain
  have hsame : ∀ repo, w₁.router.RoutedBy pattern repo.text → (SameReads w₁ w₂ repo ↔
      (∀ reference, (w₂.volumes body.toRoot).read repo reference =
          (w₁.volumes body.toRoot).read repo reference) ∧
        ∀ d, (w₂.volumes body.toRoot).blob d = (w₁.volumes body.toRoot).blob d) := by
    intro repo hrepo
    obtain ⟨hreads, hblobs⟩ := reads_before hrule hrepo
    obtain ⟨hreads', hblobs'⟩ := hserved repo hrepo
    simp only [SameReads, hreads, hblobs, hreads', hblobs', orNotFound_injective.eq_iff]
  have hlose : NothingToLose pattern (.fs w.nextArc body.toRoot) w₁ ↔
      ∀ repo : RepoName, w₁.router.RoutedBy pattern repo.text →
        (∀ d, (w₁.volumes body.toRoot).manifest repo d = none) ∧
          ∀ d, (w₁.volumes body.toRoot).blob d = none ∨
            Gc.Marked (.fs w.nextArc body.toRoot) w₁.volumes d := by
    refine forall_congr' fun repo => forall_congr' fun hrepo => ?_
    obtain ⟨hreads, hblobs⟩ := reads_before hrule hrepo
    simp only [hreads, hblobs, Contents.read_digest, orNotFound_eq_notFound]
  rw [forall₂_congr hsame, hlose]
  rcases hcases with ⟨hdangling, done, hresolve, hcopied⟩ | ⟨hresolve, hcopied, hkept, hdrained⟩
  · obtain ⟨repo, hr, hd⟩ : ∃ repo ∈ repos,
        ¬TagsResolve (.fs w.nextArc body.toRoot) w₁.volumes repo := by
      simpa only [not_forall, exists_prop] using hdangling
    refine iff_of_true ?_ (.inr (.inl ⟨repo, ((hmem repo).mp hr).2, hd⟩))
    intro repo' _
    exact ⟨sameRoot_read hcopied hwf hcoh hresolve repo', sameRoot_blob hcopied⟩
  · have hnone : ¬∃ repo, w₁.router.RoutedBy pattern repo.text ∧
        ¬TagsResolve (.fs w.nextArc body.toRoot) w₁.volumes repo := by
      rintro ⟨repo, hrepo, hd⟩
      refine hd ?_
      rintro tag ⟨root, hroot, htag⟩
      have heq : root = body.toRoot := List.mem_singleton.mp hroot
      subst heq
      obtain ⟨d, htag'⟩ := Option.isSome_iff_exists.mp htag
      exact hresolve repo ((hmem repo).mpr ⟨(hwf _).tag_listed repo tag d htag', hrepo⟩) tag
        ⟨_, hroot, htag⟩
    cases hdrain : body.drain with
    | false =>
        refine iff_of_true ?_ (.inl rfl)
        intro repo _
        rw [hkept hdrain]
        exact ⟨sameRoot_read hcopied hwf hcoh hresolve repo, sameRoot_blob hcopied⟩
    | true =>
        have hiff := sameRoot_drained_iff hcopied hwf hcoh hresolve hmem (hdrained hdrain)
        rw [hiff]
        simp only [Bool.true_eq_false, hnone, false_or]

end

section

attribute [local instance] Sample.sha2 Sample.serdeJson

def drainTo1 : RepoMigrateRequest where
  pattern := some "*"
  className := none
  toRoot := 1
  drain := true
  background := false

def requested : World := ((repoMigrateToEnd drainTo1).run World.handle Sample.stored).2

def requestedAgain : World := ((repoMigrateToEnd drainTo1).run World.handle requested).2

def movedOne : MigrateReport :=
  { MigrateReport.empty with reposMigrated := 1, manifestsCopied := 1, cutover := true }

theorem requested_outcome :
    (((repoMigrateToEnd drainTo1).run World.handle Sample.stored).1 = .ok (.ok movedOne) ∧
      ((repoMigrateToEnd drainTo1).run World.handle requested).1 =
        .ok (.ok { movedOne with manifestsCopied := 0 })) ∧
    requested.router.RoutedBy "*" Sample.dataX.text ∧
    requested.manifestGet Sample.dataX (.tag Sample.v1) = .ok Sample.braces ∧
    requestedAgain.manifestGet Sample.dataX (.tag Sample.v1) = .error .notFound := by
  decide +kernel

theorem requested_run : (repoMigrateToEnd drainTo1).run World.handle Sample.stored =
    (.ok (.ok movedOne), requested) :=
  run_eq_mk requested_outcome.1.1 rfl

theorem requestedAgain_run : (repoMigrateToEnd drainTo1).run World.handle requested =
    (.ok (.ok { movedOne with manifestsCopied := 0 }), requestedAgain) :=
  run_eq_mk requested_outcome.1.2 rfl

theorem repeated_image_lost :
    (repoMigrateToEnd drainTo1).run World.handle Sample.stored = (.ok (.ok movedOne), requested) ∧
      (repoMigrateToEnd drainTo1).run World.handle requested =
        (.ok (.ok { movedOne with manifestsCopied := 0 }), requestedAgain) ∧
      requested.router.RoutedBy "*" Sample.dataX.text ∧
      ¬SameReads requested requestedAgain Sample.dataX := by
  obtain ⟨-, hrouted, hbefore, hafter⟩ := requested_outcome
  refine ⟨requested_run, requestedAgain_run, hrouted, ?_⟩
  intro h
  have hsame := h.1 (.tag Sample.v1)
  rw [hbefore, hafter] at hsame
  cases hsame

theorem repeated_drain_reads_iff :
    (∀ repo, requested.router.RoutedBy "*" repo.text → SameReads requested requestedAgain repo) ↔
      drainTo1.drain = false ∨
      (∃ repo, requested.router.RoutedBy "*" repo.text ∧
        ¬TagsResolve (.fs Sample.stored.nextArc drainTo1.toRoot) requested.volumes repo) ∨
      NothingToLose "*" (.fs Sample.stored.nextArc drainTo1.toRoot) requested :=
  repeated_reads_iff rfl Sample.stored_collisionFree requested_run requestedAgain_run

end

end RspaceRegistry.Handlers
