import RspaceRegistry.Migrate.Faults
import RspaceRegistry.Migrate.Reads
import RspaceRegistry.Migrate.Uses
import RspaceRegistry.RepoRouter.Reads
import RspaceRegistry.Backend.Reads
import RspaceRegistry.Sample

namespace RspaceRegistry

-- Nothing is taken away, whatever the plan is.
def Plan.anything : Plan := ⟨fun _ => True, fun _ _ => True, fun _ _ _ => True⟩

namespace Migrate

open Calls Fallible Ordered Places

section

variable [Sha2]

-- What the old backend read when the roots were `v`, a backend reads of `u`: manifests
-- with their bytes, and something for every tag.
structure Serves (b old : Backend) (v u : Volumes) (repo : RepoName) : Prop where
  manifest : ∀ d bytes, old.read v repo (.digest d) = some bytes →
    b.read u repo (.digest d) = some bytes
  tag : ∀ tag, (old.read v repo (.tag tag)).isSome → (b.read u repo (.tag tag)).isSome

section Serves

variable {old b : Backend} {heads : List RootId} {v u u' : Volumes} (hv : v.Consistent)
variable {repo : RepoName}

include hv

-- A backend below which the old one hangs.
theorem serves_of_subset (hsub : ∀ root ∈ old.leaves, root ∈ b.leaves)
    (h : Plan.anything.Advanced old heads v v u) : Serves b old v u repo where
  manifest := by
    intro d bytes hread
    obtain ⟨root, hroot, hat⟩ := exists_of_first hread
    have hb := (b.mem_readOrder root).mpr (hsub root ((old.mem_readOrder root).mp hroot))
    exact (h.coherent (hv.manifests repo) d).first_eq hb (h.manifestKept repo d root bytes hat)
  tag := by
    intro tag hread
    obtain ⟨root, hroot, hat⟩ := (old.read_isSome v repo (.tag tag)).mp hread
    exact (b.read_isSome u repo (.tag tag)).mpr ⟨root, hsub root hroot, h.readAt_kept hat⟩

theorem Serves.later (hserves : Serves b old v u repo)
    (h : Plan.anything.Advanced old heads v v u) (h' : Plan.anything.Advanced old heads v u u') :
    Serves b old v u' repo where
  manifest d bytes hread := h.later_read hv h' (hserves.manifest d bytes hread)
  tag := by
    intro tag hread
    obtain ⟨root, hroot, hat⟩ := (b.read_isSome u repo (.tag tag)).mp (hserves.tag tag hread)
    exact (b.read_isSome u' repo (.tag tag)).mpr ⟨root, hroot, h'.readAt_kept hat⟩

end Serves

-- The invariant of a migration that started when the world was `w₀`.
structure Serving (pattern : String) (old newBackend : Backend) (w₀ w : World) : Prop where
  grown : Plan.anything.Advanced old [newBackend.head] w₀.volumes w₀.volumes w.volumes
  routed : ∀ repo : RepoName, w₀.router.RoutedThrough pattern repo.text →
    Serves (w.router.resolve repo.text) old w₀.volumes w.volumes repo

section Steps

variable {pattern : String} {old newBackend : Backend} {w₀ w w' : World}

theorem serving_start (hrule : w₀.router.backendForPattern pattern = some old) :
    Serving pattern old newBackend w₀ w₀ where
  grown := .refl _ _
  routed := by
    intro repo hrepo
    rw [w₀.router.resolve_of_routedThrough hrule hrepo]
    exact ⟨fun d bytes => id, fun tag => id⟩

-- The roots change below the rules.
theorem Serving.advance (hw₀ : w₀.volumes.Consistent) (h : Serving pattern old newBackend w₀ w)
    (hrules : w'.router = w.router)
    (hstep : Plan.anything.Advanced old [newBackend.head] w₀.volumes w.volumes w'.volumes) :
    Serving pattern old newBackend w₀ w' where
  grown := h.grown.trans hstep
  routed := by
    intro repo hrepo
    rw [hrules]
    exact (h.routed repo hrepo).later hw₀ h.grown hstep

-- The rule changes above the roots.
theorem Serving.repoint (h : Serving pattern old newBackend w₀ w) {k : Nat}
    (hkey : w.router.keyIndex pattern = some k)
    (hthrough : ∀ repo : RepoName, w₀.router.RoutedThrough pattern repo.text →
      w.router.RoutedThrough pattern repo.text)
    {backend : Backend} (hserves : ∀ repo : RepoName, w₀.router.RoutedThrough pattern repo.text →
      Serves backend old w₀.volumes w.volumes repo) :
    Serving pattern old newBackend w₀ (w.upsert pattern backend) where
  grown := h.grown
  routed := by
    intro repo hrepo
    have hresolve : (w.upsert pattern backend).router.resolve repo.text = backend :=
      RepoRouter.resolve_upsert_through hkey (hthrough repo hrepo)
    rw [hresolve]
    exact hserves repo hrepo

end Steps

section Copy

variable [SerdeJson] {pattern : String} {old newBackend : Backend} {w₀ w : World}
variable (hw₀ : w₀.volumes.Consistent) (hapart : ∀ root ∈ old.leaves, root ≠ newBackend.head)

-- The old backend has other directories than the one that takes the copies.

include hapart in
omit [SerdeJson] in
theorem read_old (h : Serving pattern old newBackend w₀ w) (repo : RepoName)
    (reference : Reference) :
    old.read w.volumes repo reference = old.read w₀.volumes repo reference := by
  apply first_congr
  intro root hroot
  have hne := hapart root ((old.mem_readOrder root).mp hroot)
  exact h.grown.readAt_apart (fun hmem => hne (List.mem_singleton.mp hmem)) repo reference

include hapart in
omit [SerdeJson] in
theorem tagsResolve_old (h : Serving pattern old newBackend w₀ w) (repo : RepoName) :
    TagsResolve old w.volumes repo ↔ TagsResolve old w₀.volumes repo := by
  have htag : ∀ tag, old.HasTag w.volumes repo tag ↔ old.HasTag w₀.volumes repo tag := by
    intro tag
    refine exists_congr fun root => and_congr_right fun hroot => ?_
    have hsame : (w.volumes root).tag repo tag = (w₀.volumes root).tag repo tag :=
      h.grown.tagAt_apart (fun hmem => hapart root hroot (List.mem_singleton.mp hmem)) repo tag
    rw [hsame]
  simp only [TagsResolve, htag, read_old hapart h]

include hw₀ in
omit [SerdeJson] in
theorem Serving.consistent (h : Serving pattern old newBackend w₀ w) : w.volumes.Consistent where
  wellFormed := w.volumes_wellFormed
  blobs d := h.grown.coherent_blob (hw₀.blobs d)
  manifests r := h.grown.coherent (hw₀.manifests r)

include hw₀ in
-- A step of a copy that started from `w`.
theorem Serving.anything (h : Serving pattern old newBackend w₀ w) {repo : RepoName} {u u' : Volumes}
    (hstep : (copyPlan old w.volumes repo).Advanced old [newBackend.head] w.volumes u u') :
    Plan.anything.Advanced old [newBackend.head] w₀.volumes u u' := by
  have hany : Plan.anything.Advanced old [newBackend.head] w.volumes u u' :=
    hstep.mono (fun _ => id) (fun _ _ => trivial) (fun _ _ _ => trivial) fun _ _ _ _ => trivial
  exact hany.rebase (fun d => h.grown.src_blob (hw₀.blobs d))
    fun r d => h.grown.src_read (hw₀.manifests r) d

-- What a copied repository is served by, and what that says of its tags.
structure Carried (old newBackend : Backend) (w₀ w w' : World) (done : List RepoName) : Prop where
  rules : w'.router = w.router
  grown : Plan.anything.Advanced old [newBackend.head] w₀.volumes w.volumes w'.volumes
  resolve : ∀ repo ∈ done, TagsResolve old w₀.volumes repo
  served : ∀ repo ∈ done, Serves newBackend old w₀.volumes w'.volumes repo

include hw₀ hapart

theorem wp_copyRepo_serving (h : Serving pattern old newBackend w₀ w) (repo : RepoName)
    (report : MigrateReport) :
    (copyRepo old.storage newBackend.storage repo report).wp World.Faulty Eq
      (fun _ w _ w' => Serving pattern old newBackend w₀ w → Serving pattern old newBackend w₀ w')
      (Outcome (fun _ w' => Carried old newBackend w₀ w w' [repo]) fun _ _ => True) w := by
  have hcopy := wp_copyRepo old newBackend repo report w (h.consistent hw₀)
  have hkeeps := World.wp_keeps (uses_copyRepo old newBackend repo report) w
  refine Prog.wp_mono (Prog.wp_and hcopy hkeeps) (fun _ _ _ _ => id) (fun _ _ => id) ?_ ?_
  · rintro op s answer s' _ ⟨hstep, hkept⟩ hs
    exact hs.advance hw₀ hkept.sameRules.router (h.anything hw₀ hstep.advanced)
  · rintro (err | report') w' ⟨hend, hkept⟩
    · trivial
    · have hgrown := h.anything hw₀ hend.advanced
      refine ⟨hkept.sameRules.router, hgrown, ?_, ?_⟩
      · intro r hr
        obtain rfl := List.mem_singleton.mp hr
        exact (tagsResolve_old hapart h r).mp hend.resolve
      · intro r hr
        obtain rfl := List.mem_singleton.mp hr
        constructor
        · intro d bytes hread
          rw [← read_old hapart h] at hread
          have hplan : (copyPlan old w.volumes r).manifest r d :=
            ⟨rfl, Option.isSome_iff_exists.mpr ⟨bytes, hread⟩⟩
          exact hend.held.manifest r d hplan bytes hread
        · intro tag hread
          rw [← read_old hapart h] at hread
          obtain ⟨bytes, hbytes⟩ := Option.isSome_iff_exists.mp hread
          have hat := hend.tag tag (sha256Digest bytes) ⟨bytes, hbytes, rfl⟩
          exact first_isSome.mpr ⟨newBackend.head, newBackend.head_mem_readOrder, hat⟩

theorem wp_copyRepos_serving (h : Serving pattern old newBackend w₀ w) (repos : List RepoName)
    (report : MigrateReport) :
    (copyRepos old.storage newBackend.storage repos report).wp World.Faulty Eq
      (fun _ w _ w' => Serving pattern old newBackend w₀ w → Serving pattern old newBackend w₀ w')
      (Outcome (fun _ w' => Carried old newBackend w₀ w w' repos) fun _ _ => True) w := by
  induction repos generalizing report w with
  | nil => exact ⟨rfl, .refl _ _, by simp, by simp⟩
  | cons repo rest ih =>
      rw [copyRepos, Fallible.wp_bind]
      refine Fallible.wp_post (wp_copyRepo_serving hw₀ hapart h repo report) ?_
      rintro (err | report₁) w₁ hcarried
      · trivial
      · have h₁ := h.advance hw₀ hcarried.rules hcarried.grown
        refine Fallible.wp_post (ih h₁ report₁) ?_
        rintro (err | report₂) w₂ hrest
        · trivial
        · refine ⟨hrest.rules.trans hcarried.rules, hcarried.grown.trans hrest.grown, ?_, ?_⟩
          · intro r hr
            rcases List.mem_cons.mp hr with rfl | hr
            · exact hcarried.resolve r (List.mem_singleton_self r)
            · exact hrest.resolve r hr
          · intro r hr
            rcases List.mem_cons.mp hr with rfl | hr
            · exact (hcarried.served r (List.mem_singleton_self r)).later hw₀ h₁.grown hrest.grown
            · exact hrest.served r hr

end Copy

section Run

variable [SerdeJson] {pattern : String} {old newBackend : Backend} {w₀ : World}
variable (hw₀ : w₀.volumes.Consistent) (hapart : ∀ root ∈ old.leaves, root ≠ newBackend.head)
variable (hrule : w₀.router.backendForPattern pattern = some old)

-- When a collapse leaves no reader behind: it never comes to it, or the repositories
-- that are not copied are on the new backend already.
def Covered (pattern : String) (old newBackend : Backend) (w : World) : Prop :=
  (∃ repo, Moved w pattern old repo ∧ ¬TagsResolve old w.volumes repo) ∨
    ∀ repo : RepoName, w.router.RoutedThrough pattern repo.text →
      ¬w.router.RoutedBy pattern repo.text → Serves newBackend old w.volumes w.volumes repo

omit [SerdeJson] in
include hw₀ hrule in
-- The new backend after the backfill, for all that the rule routes.
theorem serves_collapsed {k : Nat} (hkey : w₀.router.keyIndex pattern = some k)
    (hcovered : Covered pattern old newBackend w₀) {repos : List RepoName}
    (hrepos : ∀ repo, repo ∈ repos ↔ Moved w₀ pattern old repo) {u : World}
    (hgrown : Plan.anything.Advanced old [newBackend.head] w₀.volumes w₀.volumes u.volumes)
    (hresolve : ∀ repo ∈ repos, TagsResolve old w₀.volumes repo)
    (hserved : ∀ repo ∈ repos, Serves newBackend old w₀.volumes u.volumes repo) {repo : RepoName}
    (hrepo : w₀.router.RoutedThrough pattern repo.text) :
    Serves newBackend old w₀.volumes u.volumes repo := by
  by_cases hby : w₀.router.RoutedBy pattern repo.text
  · by_cases hhas : old.HasRepo w₀.volumes repo
    · have hglob := ((w₀.router.routedBy_iff_through hkey).mp hby).1
      exact hserved repo ((hrepos repo).mpr
        ⟨hhas, hglob, w₀.router.resolve_of_routedThrough hrule hrepo⟩)
    · constructor
      · exact fun d bytes hread => absurd (old.hasRepo_of_read w₀ hread) hhas
      · intro tag hread
        obtain ⟨bytes, hbytes⟩ := Option.isSome_iff_exists.mp hread
        exact absurd (old.hasRepo_of_read w₀ hbytes) hhas
  · rcases hcovered with ⟨r, hmoved, hdangling⟩ | hothers
    · exact absurd (hresolve r ((hrepos r).mpr hmoved)) hdangling
    · exact (hothers repo hrepo hby).later hw₀ (.refl _ _) hgrown

include hw₀ hapart hrule in
theorem wp_move_serving (hcovered : Covered pattern old newBackend w₀) {repos : List RepoName}
    (hrepos : ∀ repo, repo ∈ repos ↔ Moved w₀ pattern old repo) :
    (move pattern old newBackend false repos).wp World.Faulty Eq
      (fun _ w _ w' => Serving pattern old newBackend w₀ w → Serving pattern old newBackend w₀ w')
      (fun _ _ => True) w₀ := by
  obtain ⟨k, hkey⟩ := w₀.router.exists_keyIndex hrule
  have hstart : Serving pattern old newBackend w₀ w₀ := serving_start hrule
  have hoverlay : newOverlay newBackend old =
      StoreM.newArc >>= fun arc => pure (overlay arc newBackend old) := rfl
  rw [move, hoverlay, bind_assoc]
  refine World.wp_newArc (fun _ => ⟨hstart.grown, hstart.routed⟩) ?_
  rw [pure_bind]
  -- The overlay reads what the old backend reads, whatever is on the new one.
  have hcut : Serving pattern old newBackend w₀
      (w₀.newArc.upsert pattern (overlay w₀.nextArc newBackend old)) := by
    refine Serving.repoint (w := w₀.newArc) ⟨hstart.grown, hstart.routed⟩ hkey (fun _ => id) ?_
    intro repo _
    refine serves_of_subset hw₀ ?_ hstart.grown
    intro root hroot
    rw [overlay_leaves]
    exact List.mem_append_right _ hroot
  refine World.wp_upsert (fun _ => hcut) ?_
  rw [Fallible.wp_bind]
  refine Fallible.wp_post (wp_copyRepos_serving hw₀ hapart hcut repos _) ?_
  rintro (err | report) w₁ hcarried
  · trivial
  · have hthrough : ∀ repo : RepoName, w₀.router.RoutedThrough pattern repo.text →
        w₁.router.RoutedThrough pattern repo.text := by
      intro repo hrepo
      rw [hcarried.rules]
      exact (RepoRouter.routedThrough_upsert hkey repo.text).mpr hrepo
    have hkey₁ : w₁.router.keyIndex pattern = some k := by
      rw [hcarried.rules]
      exact (RepoRouter.keyIndex_upsert hkey pattern).trans hkey
    refine World.wp_upsert (fun h => h.repoint hkey₁ hthrough ?_) trivial
    intro repo hrepo
    exact serves_collapsed hw₀ hrule hkey hcovered hrepos hcarried.grown hcarried.resolve
      hcarried.served hrepo

include hw₀ hapart hrule in
theorem wp_run_serving (hcovered : Covered pattern old newBackend w₀) :
    (run pattern newBackend false).wp World.Faulty Eq
      (fun _ w _ w' => Serving pattern old newBackend w₀ w → Serving pattern old newBackend w₀ w')
      (fun _ _ => True) w₀ := by
  have hlook : ∀ op w answer w', Undisturbed op w answer w' →
      Serving pattern old newBackend w₀ w → Serving pattern old newBackend w₀ w' := by
    rintro op w answer w' ⟨_, rfl⟩
    exact id
  rw [run]
  refine World.wp_backendForPattern id ?_
  rw [hrule]
  simp only
  split
  · trivial
  · obtain ⟨repos', hlisted', _, hrepos⟩ := run_listed pattern old w₀
    apply old.forthright_listRepos.wp_bind hlook
    · intro listed hlisted
      apply (forthright_selectRepos pattern old listed.toList).wp_bind hlook
      · intro repos hselected
        have hrun := (run_bind_of_ok hlisted fun listed =>
          selectRepos pattern old listed.toList).trans hselected
        rw [Except.ok.inj (Prod.mk.inj (hrun.symm.trans hlisted')).1]
        exact wp_move_serving hw₀ hapart hrule hcovered hrepos
      · exact fun _ => trivial
    · exact fun _ => trivial

-- Nothing that was readable is missed: manifests by their digest are the same, and a
-- tag still gives some manifest.
structure NoMiss (w w' : World) (repo : RepoName) : Prop where
  manifest : ∀ d bytes, w.manifestGet repo (.digest d) = .ok bytes →
    w'.manifestGet repo (.digest d) = .ok bytes
  tag : ∀ tag bytes, w.manifestGet repo (.tag tag) = .ok bytes →
    ∃ bytes', w'.manifestGet repo (.tag tag) = .ok bytes'

omit [SerdeJson] in
include hrule in
theorem noMiss_iff {w' : World} {repo : RepoName}
    (hrepo : w₀.router.RoutedThrough pattern repo.text) : NoMiss w₀ w' repo ↔
      Serves (w'.router.resolve repo.text) old w₀.volumes w'.volumes repo := by
  have hold := w₀.router.resolve_of_routedThrough hrule hrepo
  constructor
  · rintro ⟨hmanifest, htag⟩
    simp only [World.manifestGet_eq_ok, hold] at hmanifest htag
    refine ⟨hmanifest, ?_⟩
    intro tag hread
    obtain ⟨bytes, hbytes⟩ := Option.isSome_iff_exists.mp hread
    exact Option.isSome_iff_exists.mpr (htag tag bytes hbytes)
  · rintro ⟨hmanifest, htag⟩
    constructor
    · intro d bytes hread
      rw [World.manifestGet_eq_ok] at hread ⊢
      rw [hold] at hread
      exact hmanifest d bytes hread
    · intro tag bytes hread
      rw [World.manifestGet_eq_ok, hold] at hread
      simp only [World.manifestGet_eq_ok]
      exact Option.isSome_iff_exists.mp (htag tag (Option.isSome_iff_exists.mpr ⟨bytes, hread⟩))

include hw₀ hrule in
-- A migration that collapses without covering misses something.
theorem covered_of_noMiss
    (hmiss : ∀ prog w', Prog.Reaches World.Faulty (run pattern newBackend false, w₀) (prog, w') →
      ∀ repo : RepoName, w₀.router.RoutedThrough pattern repo.text → NoMiss w₀ w' repo)
    (hne : old ≠ newBackend) : Covered pattern old newBackend w₀ := by
  obtain ⟨k, hkey⟩ := w₀.router.exists_keyIndex hrule
  obtain ⟨repos, _, hrepos, ⟨_, report, w', v, hrun, hend⟩ | ⟨hdangling, _⟩⟩ :=
    run_cases false hrule hne hw₀.manifests
  · right
    intro repo hrepo hother
    have hreach := World.reaches_run (run pattern newBackend false) w₀
    rw [hrun] at hreach
    have hserves := (noMiss_iff hrule hrepo).mp (hmiss _ w' hreach repo hrepo)
    -- The route is on the new backend now, and the repository was not copied.
    have hresolve : w'.router.resolve repo.text = newBackend := by
      rw [hend.router]
      exact RepoRouter.resolve_upsert_through hkey hrepo
    have hleft : repo ∉ repos := by
      intro hmem
      have hglob := ((hrepos repo).mp hmem).2.1
      exact hother ((w₀.router.routedBy_iff_through hkey).mpr ⟨hglob, hrepo⟩)
    have hread : ∀ reference, newBackend.read w'.volumes repo reference =
        newBackend.read w₀.volumes repo reference := by
      intro reference
      rw [hend.kept rfl]
      exact congrArg (first newBackend.readOrder) (hend.copied.readAt_other hleft reference)
    rw [hresolve] at hserves
    constructor
    · intro d bytes hold
      rw [← hread]
      exact hserves.manifest d bytes hold
    · intro tag hold
      rw [← hread]
      exact hserves.tag tag hold
  · left
    by_contra hnone
    apply hdangling
    intro repo hmem
    by_contra hd
    exact hnone ⟨repo, (hrepos repo).mp hmem, hd⟩

omit hw₀ hapart in
include hrule in
-- At no point of a migration, failed or not, is a read missed, exactly when the
-- collapse leaves nothing behind.
theorem zero_miss_iff (hapart : ∀ root ∈ old.leaves, root ∉ newBackend.leaves)
    (hfree : w₀.volumes.CollisionFree) :
    (∀ prog w', Prog.Reaches World.Faulty (run pattern newBackend false, w₀) (prog, w') →
      ∀ repo : RepoName, w₀.router.RoutedThrough pattern repo.text → NoMiss w₀ w' repo) ↔
    (∃ repo, Moved w₀ pattern old repo ∧ ¬TagsResolve old w₀.volumes repo) ∨
      ∀ repo : RepoName, w₀.router.RoutedThrough pattern repo.text →
        ¬w₀.router.RoutedBy pattern repo.text →
          Serves newBackend old w₀.volumes w₀.volumes repo := by
  have hw₀ := World.consistent hfree
  have hhead : ∀ root ∈ old.leaves, root ≠ newBackend.head := by
    rintro root hroot rfl
    exact hapart _ hroot newBackend.head_mem_leaves
  constructor
  · intro hmiss
    apply covered_of_noMiss hw₀ hrule hmiss
    rintro rfl
    exact hapart old.head old.head_mem_leaves old.head_mem_leaves
  · intro hcovered prog w' hreach repo hrepo
    have hkept : Prog.wp World.Faulty Eq (fun _ w _ w' => Serving pattern old newBackend w₀ w →
        Serving pattern old newBackend w₀ w') (run pattern newBackend false) (fun _ _ => True) w₀ :=
      wp_run_serving hw₀ hhead hrule hcovered
    have hserving : Serving pattern old newBackend w₀ w' :=
      Prog.invariant_of_wp hkept (serving_start hrule) hreach
    exact (noMiss_iff hrule hrepo).mpr (hserving.routed repo hrepo)

end Run

end

section

attribute [local instance] Sample.sha2 Sample.serdeJson

-- An image that no rule's pattern matches, kept where the only rule points.
def unmatched : World where
  roots := Sample.stored.roots
  router := ⟨[⟨"system/*", .fs 0 0⟩], List.cons_ne_nil _ _⟩
  nextArc := 2
  arcs_allocated := by decide

def unmatchedAfter : World := ((run "system/*" (.fs 1 1) false).run World.handle unmatched).2

theorem unmatched_reads : unmatched.router.RoutedThrough "system/*" Sample.dataX.text ∧
    unmatched.manifestGet Sample.dataX (.tag Sample.v1) = .ok Sample.braces ∧
    unmatchedAfter.manifestGet Sample.dataX (.tag Sample.v1) = .error .notFound := by
  decide +kernel

theorem unmatched_missed :
    unmatched.router.RoutedThrough "system/*" Sample.dataX.text ∧
      Prog.Reaches World.Faulty (run "system/*" (.fs 1 1) false, unmatched)
        (.pure (.ok { MigrateReport.empty with cutover := true }), unmatchedAfter) ∧
      ¬NoMiss unmatched unmatchedAfter Sample.dataX := by
  obtain ⟨hrouted, hbefore, hafter⟩ := unmatched_reads
  refine ⟨hrouted, ?_, ?_⟩
  · have hreach := World.reaches_run (run "system/*" (.fs 1 1) false) unmatched
    have hreport : ((run "system/*" (.fs 1 1) false).run World.handle unmatched).1 =
        .ok { MigrateReport.empty with cutover := true } := by decide
    rw [hreport] at hreach
    exact hreach
  · intro h
    obtain ⟨bytes, hread⟩ := h.tag Sample.v1 Sample.braces hbefore
    rw [hafter] at hread
    cases hread

theorem unmatched_zero_miss_iff :
    (∀ prog w', Prog.Reaches World.Faulty (run "system/*" (.fs 1 1) false, unmatched) (prog, w') →
      ∀ repo : RepoName, unmatched.router.RoutedThrough "system/*" repo.text →
        NoMiss unmatched w' repo) ↔
    (∃ repo, Moved unmatched "system/*" (.fs 0 0) repo ∧
        ¬TagsResolve (.fs 0 0) unmatched.volumes repo) ∨
      ∀ repo : RepoName, unmatched.router.RoutedThrough "system/*" repo.text →
        ¬unmatched.router.RoutedBy "system/*" repo.text →
          Serves (.fs 1 1) (.fs 0 0) unmatched.volumes unmatched.volumes repo :=
  zero_miss_iff rfl (by decide) Sample.stored_collisionFree

end

end Migrate

end RspaceRegistry
