import RspaceRegistry.Migrate.TagMeaning
import RspaceRegistry.RepoRouter.Reads
import RspaceRegistry.Sample

namespace RspaceRegistry.Migrate

open Calls Fallible Ordered Places

section

variable [Sha2]

-- What a client reads and lists by tag is the same in both worlds.
structure TagsAsBefore (w w' : World) (repo : RepoName) : Prop where
  read : ∀ tag, w'.manifestGet repo (.tag tag) = w.manifestGet repo (.tag tag)
  listed : w'.listTags repo = w.listTags repo

theorem tagsAsBefore_iff {w w' : World} {pattern : String} {old b : Backend} {repo : RepoName}
    (hrule : w.router.backendForPattern pattern = some old)
    (hrepo : w.router.RoutedThrough pattern repo.text)
    (hresolve : w'.router.resolve repo.text = b) :
    TagsAsBefore w w' repo ↔ TagsServed b old w.volumes w'.volumes repo := by
  have hold := w.router.resolve_of_routedThrough hrule hrepo
  have hread : ∀ tag, w'.manifestGet repo (.tag tag) = w.manifestGet repo (.tag tag) ↔
      b.read w'.volumes repo (.tag tag) = old.read w.volumes repo (.tag tag) := by
    intro tag
    rw [World.manifestGet_eq, World.manifestGet_eq, hold, hresolve, orNotFound_injective.eq_iff]
  have hlisted : w'.listTags repo = w.listTags repo ↔
      ∀ tag, b.HasTag w'.volumes repo tag ↔ old.HasTag w.volumes repo tag := by
    rw [World.listTags_eq_iff, hold, hresolve]
  exact ⟨fun h => ⟨fun tag => (hread tag).mp (h.read tag), hlisted.mp h.listed⟩,
    fun h => ⟨fun tag => (hread tag).mpr (h.read tag), hlisted.mpr h.listed⟩⟩

variable {pattern : String} {old newBackend : Backend} {w : World}

theorem always_upsert (pattern : String) (backend : Backend) {inv : World → Prop} (w : World) :
    (StoreM.upsert pattern backend).Always World.handle inv w ↔
      inv w ∧ inv (w.upsert pattern backend) := by
  refine (Prog.always_call (Op.upsert pattern backend) _ w).trans (and_congr_right fun _ => ?_)
  exact Prog.always_pure _ _

variable [SerdeJson]

-- The rest of the run, from the collapse on.
theorem always_collapse (drain : Bool) (repos : List RepoName) (report : MigrateReport)
    {inv : World → Prop}
    (hafter : ∀ w', w'.router.backendForPattern pattern = some newBackend → inv w') {b : Backend}
    (hrule : w.router.backendForPattern pattern = some b) (hw : inv w) :
    (StoreM.upsert pattern newBackend >>= fun _ =>
      if drain then drainOld old repos { report with cutover := true }
      else pure { report with cutover := true }).Always World.handle inv w := by
  have hcollapsed := backendForPattern_after hrule newBackend
  rw [always_bind_of_ok (run_upsert pattern newBackend w), always_upsert]
  refine ⟨⟨hw, hafter _ hcollapsed⟩, ?_⟩
  cases drain with
  | false => exact (always_pure _ _).mpr (hafter _ hcollapsed)
  | true =>
      refine (World.always_router (uses_drainOld old repos _) _).mono ?_
      intro w' hrouter
      exact hafter w' (by rw [hrouter]; exact hcollapsed)

-- Only the backfill can break what does not depend on the roots before the cutover
-- and after the collapse.
theorem always_run_iff (drain : Bool) (hrule : w.router.backendForPattern pattern = some old)
    (hne : old ≠ newBackend) {inv : World → Prop}
    (hbefore : ∀ w', w'.router = w.router → inv w')
    (hafter : ∀ w', w'.router.backendForPattern pattern = some newBackend → inv w') :
    ∃ repos, repos.Pairwise (· < ·) ∧ (∀ repo, repo ∈ repos ↔ Moved w pattern old repo) ∧
      ((run pattern newBackend drain).Always World.handle inv w ↔
        (copyRepos old.storage newBackend.storage repos
          { MigrateReport.empty with reposMigrated := repos.length }).Always World.handle inv
          (w.newArc.upsert pattern (overlay w.nextArc newBackend old))) := by
  have hlook : (StoreM.backendForPattern pattern).run World.handle w = (.ok (some old), w) :=
    congrArg (fun b => (Except.ok b, w)) hrule
  have hlooks : (StoreM.backendForPattern pattern).Always World.handle inv w := by
    refine (Prog.always_call (Op.backendForPattern pattern) _ w).mpr ⟨hbefore w rfl, ?_⟩
    exact (Prog.always_pure _ _).mpr (hbefore w rfl)
  have hdiffer : old.ptrEq newBackend = false := decide_eq_false hne
  obtain ⟨repos, hlisted, hsorted, hmem⟩ := run_listed_sorted pattern old w
  have hlists : (old.storage.listRepos >>= fun listed =>
      selectRepos pattern old listed.toList).Always World.handle inv w :=
    (old.forthright_listRepos.bind fun listed =>
      forthright_selectRepos pattern old listed.toList).always_iff.mpr (hbefore w rfl)
  refine ⟨repos, hsorted, hmem, ?_⟩
  have hoverlays : (newOverlay newBackend old).Always World.handle inv w := by
    refine (Prog.always_call Op.newArc _ w).mpr ⟨hbefore w rfl, ?_⟩
    exact (Prog.always_pure _ _).mpr (hbefore w.newArc rfl)
  have hcut := run_upsert pattern (overlay w.nextArc newBackend old) w.newArc
  rw [run, always_bind_of_ok hlook]
  simp only [hdiffer, Bool.false_eq_true, if_false]
  rw [← bind_assoc, always_bind_of_ok hlisted, move,
    always_bind_of_ok (run_newOverlay newBackend old w), always_bind_of_ok hcut, always_upsert]
  refine ⟨fun h => h.2.2.2.2.of_bind, ?_⟩
  intro h
  refine ⟨hlooks, hlists, hoverlays, ⟨hbefore _ rfl, h.first⟩, ?_⟩
  rcases hrun : (copyRepos old.storage newBackend.storage repos
      { MigrateReport.empty with reposMigrated := repos.length }).run World.handle
        (w.newArc.upsert pattern (overlay w.nextArc newBackend old)) with ⟨err | report, w₁⟩
  · exact (always_bind_of_error hrun _).mpr h
  · have hrouter := (World.always_router (uses_copyRepos old newBackend repos _) _).last hrun
    have hrule₁ : w₁.router.backendForPattern pattern =
        some (overlay w.nextArc newBackend old) := by
      rw [hrouter]
      exact backendForPattern_after (w := w.newArc) hrule _
    exact (always_bind_of_ok hrun _).mpr
      ⟨h, always_collapse drain repos report hafter hrule₁ (h.last hrun)⟩

-- The moments between the cutover and the collapse.
def OnOverlay (pattern : String) (old newBackend : Backend) (w w' : World) : Prop :=
  w'.router.backendForPattern pattern = some (overlay w.nextArc newBackend old)

def KeptOnOverlay (pattern : String) (old newBackend : Backend) (w w' : World) : Prop :=
  OnOverlay pattern old newBackend w w' → ∀ repo : RepoName,
    w.router.RoutedThrough pattern repo.text → TagsAsBefore w w' repo

omit [SerdeJson] in
theorem kept_before_cutover (hrule : w.router.backendForPattern pattern = some old) (w' : World)
    (hrouter : w'.router = w.router) : KeptOnOverlay pattern old newBackend w w' := by
  intro honto
  rw [OnOverlay, hrouter, hrule] at honto
  exact absurd (Option.some.inj honto).symm (overlay_ne_old _ _ _)

omit [SerdeJson] in
theorem kept_after_collapse (w' : World)
    (hcollapsed : w'.router.backendForPattern pattern = some newBackend) :
    KeptOnOverlay pattern old newBackend w w' := by
  intro honto
  rw [OnOverlay, hcollapsed] at honto
  exact absurd (Option.some.inj honto).symm (overlay_ne _ _ _)

omit [SerdeJson] in
theorem resolve_onOverlay {k : Nat} (hkey : w.router.keyIndex pattern = some k) {repo : RepoName}
    (hrepo : w.router.RoutedThrough pattern repo.text) (backend : Backend) :
    (w.newArc.upsert pattern backend).router.resolve repo.text = backend :=
  RepoRouter.resolve_upsert_through hkey hrepo

-- The backfill, seen by the readers of every repository.
theorem always_backfill_iff (hrule : w.router.backendForPattern pattern = some old)
    {repos : List RepoName} (hsorted : repos.Pairwise (· < ·)) (report : MigrateReport)
    (hw : w.volumes.Consistent) :
    (copyRepos old.storage newBackend.storage repos report).Always World.handle
      (KeptOnOverlay pattern old newBackend w)
      (w.newArc.upsert pattern (overlay w.nextArc newBackend old)) ↔
    ∀ repo : RepoName, w.router.RoutedThrough pattern repo.text →
      Fits old newBackend w.volumes repo ∧ (Attained old w.volumes repos repo → ∀ tag bytes,
        Revived old newBackend w.volumes repo tag bytes →
          old.read w.volumes repo (.tag tag) = some bytes) := by
  obtain ⟨k, hkey⟩ := w.router.exists_keyIndex hrule
  have hrouter := World.always_router (uses_copyRepos old newBackend repos report)
    (w.newArc.upsert pattern (overlay w.nextArc newBackend old))
  have hserved : ∀ w',
      w'.router = (w.newArc.upsert pattern (overlay w.nextArc newBackend old)).router →
      ∀ repo : RepoName, w.router.RoutedThrough pattern repo.text → (TagsAsBefore w w' repo ↔
        TagsServed (overlay w.nextArc newBackend old) old w.volumes w'.volumes repo) := by
    intro w' hw' repo hrepo
    refine tagsAsBefore_iff hrule hrepo ?_
    rw [hw']
    exact resolve_onOverlay hkey hrepo _
  have hiff := fun repo => always_copyRepos_iff old newBackend repo w.nextArc repos hsorted report
    (w.newArc.upsert pattern (overlay w.nextArc newBackend old)) hw
  constructor
  · intro h repo hrepo
    refine (hiff repo).mp ?_
    intro prog' w' hreach
    have hw' := hrouter prog' w' hreach
    refine (hserved w' hw' repo hrepo).mp (h prog' w' hreach ?_ repo hrepo)
    rw [OnOverlay, hw']
    exact backendForPattern_after (w := w.newArc) hrule _
  · intro h prog' w' hreach _ repo hrepo
    have hw' := hrouter prog' w' hreach
    exact (hserved w' hw' repo hrepo).mpr ((hiff repo).mpr (h repo hrepo) prog' w' hreach)

-- What the directories of the new backend that a drain spares have for a repository.
structure LeftOver (old newBackend : Backend) (v : Volumes) (repo : RepoName) : Prop where
  read : ∀ tag, first newBackend.readOrder (clear old.leaves (v.readAt repo (.tag tag))) =
    old.read v repo (.tag tag)
  listed : ∀ tag, (∃ root ∈ newBackend.leaves, root ∉ old.leaves ∧ ((v root).tag repo tag).isSome) ↔
    old.HasTag v repo tag

omit [Sha2] [SerdeJson] in
theorem read_of_not_hasTag {b : Backend} {v : Volumes} {repo : RepoName} {tag : TagName}
    (h : ¬b.HasTag v repo tag) : b.read v repo (.tag tag) = none := by
  refine first_eq_none.mpr fun root hroot => ?_
  have hnone : (v root).tag repo tag = none := by
    by_contra hsome
    exact h ⟨root, (b.mem_readOrder root).mp hroot, Option.ne_none_iff_isSome.mp hsome⟩
  rw [Volumes.readAt, Contents.read_tag, hnone]
  rfl

section Copied

variable {repos : List RepoName} {repo : RepoName} {v v' : Volumes}
variable (hcopied : CopiedRepos old newBackend repos v v') (hr : repo ∈ repos)
variable (hv : v.Consistent) (hresolve : TagsResolve old v repo)
variable (hfits : Fits old newBackend v repo)

include hcopied hr hv hresolve

omit hv in
-- Where the copies do not go.
theorem tagAt_of_ne {root : RootId} (hroot : root ≠ newBackend.head) (tag : TagName) :
    (v' root).tag repo tag = (v root).tag repo tag := by
  by_cases htag : old.HasTag v repo tag
  · obtain ⟨bytes, hread⟩ := Option.isSome_iff_exists.mp (hresolve tag htag)
    have hat := congrFun (hcopied.tag repo hr tag _ ⟨bytes, hread, rfl⟩) root
    rw [Function.update_of_ne hroot] at hat
    exact hat
  · exact congrFun (hcopied.otherTag repo tag fun hm => htag hm.2) root

omit hv in
theorem readAt_of_ne {root : RootId} (hroot : root ≠ newBackend.head) (tag : TagName) :
    v'.readAt repo (.tag tag) root = v.readAt repo (.tag tag) root := by
  have hmanifest : (v' root).manifest repo = (v root).manifest repo :=
    funext fun d => hcopied.manifestAt_of_ne repo d hroot
  rw [Volumes.readAt, Volumes.readAt, Contents.read_tag, Contents.read_tag, hmanifest,
    tagAt_of_ne hcopied hr hresolve hroot]

include hfits

theorem copied_served : TagsServed newBackend old v v' repo where
  listed := by
    intro tag
    rw [hcopied.hasTag hr newBackend hresolve]
    exact ⟨fun h => h.elim (hfits.listed tag) And.right,
      fun h => .inr ⟨newBackend.head_mem_leaves, h⟩⟩
  read := by
    intro tag
    by_cases htag : old.HasTag v repo tag
    · obtain ⟨bytes, hread⟩ := Option.isSome_iff_exists.mp (hresolve tag htag)
      rw [hread]
      exact hcopied.read_dst_tag hr hv.wellFormed (hv.manifests repo) hread
    · have hnew : ¬newBackend.HasTag v' repo tag := by
        rw [hcopied.hasTag hr newBackend hresolve]
        rintro (hnew | ⟨_, hold⟩)
        · exact htag (hfits.listed tag hnew)
        · exact htag hold
      rw [read_of_not_hasTag hnew, read_of_not_hasTag htag]

-- After the drain the moved repository is gone below the old backend, also where the
-- copies went, if that is there.
theorem drained_served_iff {v'' : Volumes} (hdrained : Drained old repos v' v'') :
    TagsServed newBackend old v v'' repo ↔
      (newBackend.head ∈ old.leaves → LeftOver old newBackend v repo) := by
  have hreadAt := fun tag => hdrained.readAt_moved hr (.tag tag)
  have htagAt : ∀ tag root, (v'' root).tag repo tag = clear old.leaves (v'.tagAt repo tag) root :=
    fun tag root => congrFun (hdrained.tag repo hr tag) root
  have hhasTag : ∀ tag, newBackend.HasTag v'' repo tag ↔
      ∃ root ∈ newBackend.leaves, root ∉ old.leaves ∧ ((v' root).tag repo tag).isSome := by
    intro tag
    refine exists_congr fun root => and_congr_right fun _ => ?_
    rw [htagAt]
    by_cases hroot : root ∈ old.leaves
    · simp [clear_of_mem hroot, hroot]
    · rw [clear_of_not_mem hroot]
      exact (and_iff_right hroot).symm
  by_cases hhead : newBackend.head ∈ old.leaves
  · have hne : ∀ {root}, root ∉ old.leaves → root ≠ newBackend.head := by
      rintro root hroot rfl
      exact hroot hhead
    have hcleared : ∀ tag, clear old.leaves (v'.readAt repo (.tag tag)) =
        clear old.leaves (v.readAt repo (.tag tag)) := by
      intro tag
      funext root
      by_cases hroot : root ∈ old.leaves
      · rw [clear_of_mem hroot, clear_of_mem hroot]
      · rw [clear_of_not_mem hroot, clear_of_not_mem hroot,
          readAt_of_ne hcopied hr hresolve (hne hroot)]
    have hread : ∀ tag, newBackend.read v'' repo (.tag tag) =
        first newBackend.readOrder (clear old.leaves (v.readAt repo (.tag tag))) := by
      intro tag
      rw [Backend.read, hreadAt, hcleared]
    have hlisted : ∀ tag, newBackend.HasTag v'' repo tag ↔
        ∃ root ∈ newBackend.leaves, root ∉ old.leaves ∧ ((v root).tag repo tag).isSome := by
      intro tag
      rw [hhasTag]
      refine exists_congr fun root => and_congr_right fun _ => and_congr_right fun hroot => ?_
      rw [tagAt_of_ne hcopied hr hresolve (hne hroot)]
    simp only [hhead, true_implies]
    exact ⟨fun h => ⟨fun tag => (hread tag).symm.trans (h.read tag),
        fun tag => (hlisted tag).symm.trans (h.listed tag)⟩,
      fun h => ⟨fun tag => (hread tag).trans (h.read tag),
        fun tag => (hlisted tag).trans (h.listed tag)⟩⟩
  · have hserved := copied_served hcopied hr hv hresolve hfits
    refine iff_of_true ?_ fun h => absurd h hhead
    have hlisted : ∀ tag, newBackend.HasTag v'' repo tag ↔ old.HasTag v repo tag := by
      intro tag
      rw [hhasTag, ← hserved.listed]
      constructor
      · rintro ⟨root, hroot, _, hsome⟩
        exact ⟨root, hroot, hsome⟩
      · intro h
        have htag := (hserved.listed tag).mp h
        obtain ⟨bytes, hread⟩ := Option.isSome_iff_exists.mp (hresolve tag htag)
        have hat : (v' newBackend.head).tag repo tag = some (sha256Digest bytes) := by
          have hat := congrFun (hcopied.tag repo hr tag _ ⟨bytes, hread, rfl⟩) newBackend.head
          rwa [Function.update_self] at hat
        exact ⟨newBackend.head, newBackend.head_mem_leaves, hhead, by rw [hat]; rfl⟩
    refine ⟨fun tag => ?_, hlisted⟩
    by_cases htag : old.HasTag v repo tag
    · obtain ⟨bytes, hread⟩ := Option.isSome_iff_exists.mp (hresolve tag htag)
      obtain ⟨tail, htail⟩ := newBackend.readOrder_eq_cons
      have hat : clear old.leaves (v'.readAt repo (.tag tag)) newBackend.head = some bytes := by
        rw [clear_of_not_mem hhead,
          hcopied.readAt_tag hr hv.wellFormed (hv.manifests repo) hread, Function.update_self]
      rw [hread, Backend.read, hreadAt, htail]
      exact first_cons_of_some hat
    · rw [read_of_not_hasTag htag, read_of_not_hasTag fun h => htag ((hlisted tag).mp h)]

end Copied

-- When a migration leaves the meaning of the tags alone.
structure TagsKept (w : World) (pattern : String) (old newBackend : Backend) (drain : Bool) :
    Prop where
  stale : ∀ repo : RepoName, w.router.RoutedThrough pattern repo.text →
    Fits old newBackend w.volumes repo
  -- In the repositories that the backfill attains.
  revived : ∀ repo : RepoName, w.router.RoutedThrough pattern repo.text →
    Moved w pattern old repo →
    (∀ other, Moved w pattern old other → other ≤ repo → TagsResolve old w.volumes other) →
      ∀ tag bytes, Revived old newBackend w.volumes repo tag bytes →
        old.read w.volumes repo (.tag tag) = some bytes
  collapsed : (∀ repo, Moved w pattern old repo → TagsResolve old w.volumes repo) →
    ∀ repo : RepoName, w.router.RoutedThrough pattern repo.text → ¬Moved w pattern old repo →
      TagsServed newBackend old w.volumes w.volumes repo
  drained : (∀ repo, Moved w pattern old repo → TagsResolve old w.volumes repo) → drain = true →
    newBackend.head ∈ old.leaves → ∀ repo : RepoName, w.router.RoutedThrough pattern repo.text →
      Moved w pattern old repo → LeftOver old newBackend w.volumes repo

section Finished

variable {w' : World} {drain : Bool} {repos : List RepoName} {v : Volumes}
  (hmem : ∀ repo, repo ∈ repos ↔ Moved w pattern old repo)
  (hfinished : Finished pattern old newBackend drain repos w w' v) (hw : w.volumes.Consistent)
  (hresolve : ∀ repo ∈ repos, TagsResolve old w.volumes repo)

include hmem hfinished hw hresolve

theorem finished_served_iff {repo : RepoName} (hfits : Fits old newBackend w.volumes repo) :
    TagsServed newBackend old w.volumes w'.volumes repo ↔
      (¬Moved w pattern old repo → TagsServed newBackend old w.volumes w.volumes repo) ∧
      (drain = true → newBackend.head ∈ old.leaves → Moved w pattern old repo →
        LeftOver old newBackend w.volumes repo) := by
  by_cases hmoved : Moved w pattern old repo
  · have hr := (hmem repo).mpr hmoved
    simp only [hmoved, not_true, false_implies, true_and, true_implies]
    cases hdrain : drain with
    | false =>
        rw [hfinished.kept hdrain]
        exact iff_of_true (copied_served hfinished.copied hr hw (hresolve repo hr) hfits) nofun
    | true =>
        rw [drained_served_iff hfinished.copied hr hw (hresolve repo hr) hfits
          (hfinished.drained hdrain)]
        exact ⟨fun h _ => h, fun h => h rfl⟩
  · simp only [hmoved, not_false_iff, true_implies, false_implies, implies_true, and_true]
    have hread := fun tag => read_staying hmem hfinished hmoved newBackend (.tag tag)
    have hlisted := fun tag => hasTag_staying hmem hfinished hmoved newBackend tag
    exact ⟨fun h => ⟨fun tag => (hread tag).symm.trans (h.read tag),
        fun tag => (hlisted tag).symm.trans (h.listed tag)⟩,
      fun h => ⟨fun tag => (hread tag).trans (h.read tag),
        fun tag => (hlisted tag).trans (h.listed tag)⟩⟩

end Finished

theorem unmoved_served (hrule : w.router.backendForPattern pattern = some newBackend)
    (drain : Bool) : (run pattern newBackend drain).Always World.handle (fun w' => w' = w) w ∧
      ∀ report w', (run pattern newBackend drain).run World.handle w = (.ok report, w') →
        w' = w := by
  have hlook : (StoreM.backendForPattern pattern).run World.handle w = (.ok (some newBackend), w) :=
    congrArg (fun b => (Except.ok b, w)) hrule
  have hsame : newBackend.ptrEq newBackend = true := decide_eq_true rfl
  constructor
  · rw [run, always_bind_of_ok hlook]
    simp only [hsame, if_true]
    refine ⟨(Prog.always_call (Op.backendForPattern pattern) _ w).mpr ⟨rfl, ?_⟩, ?_⟩
    · exact (Prog.always_pure _ _).mpr rfl
    · exact (always_pure _ _).mpr rfl
  · intro report w' hrun
    rw [run_noop hrule] at hrun
    exact (Prod.mk.inj hrun).2.symm

section Final

variable {w' : World} {drain : Bool} {repos : List RepoName} {v : Volumes} {report : MigrateReport}
  (hrule : w.router.backendForPattern pattern = some old)
  (hmem : ∀ repo, repo ∈ repos ↔ Moved w pattern old repo)
  (hfinished : Finished pattern old newBackend drain repos w w' v) (hw : w.volumes.Consistent)
  (hresolve : ∀ repo ∈ repos, TagsResolve old w.volumes repo)
  (hfits : ∀ repo : RepoName, w.router.RoutedThrough pattern repo.text →
    Fits old newBackend w.volumes repo)

include hrule hmem hfinished hw hresolve hfits

-- The last moment.
theorem finished_kept_iff :
    (∀ repo : RepoName, w.router.RoutedThrough pattern repo.text → TagsAsBefore w w' repo) ↔
      (∀ repo : RepoName, w.router.RoutedThrough pattern repo.text → ¬Moved w pattern old repo →
        TagsServed newBackend old w.volumes w.volumes repo) ∧
      (drain = true → newBackend.head ∈ old.leaves → ∀ repo : RepoName,
        w.router.RoutedThrough pattern repo.text → Moved w pattern old repo →
          LeftOver old newBackend w.volumes repo) := by
  obtain ⟨k, hkey⟩ := w.router.exists_keyIndex hrule
  have hserved : ∀ repo : RepoName, w.router.RoutedThrough pattern repo.text →
      (TagsAsBefore w w' repo ↔ TagsServed newBackend old w.volumes w'.volumes repo) := by
    intro repo hrepo
    refine tagsAsBefore_iff hrule hrepo ?_
    rw [resolve_after hfinished hkey repo, servedBy, if_pos hrepo]
  have hiff := fun repo hrepo => (hserved repo hrepo).trans
    (finished_served_iff hmem hfinished hw hresolve (hfits repo hrepo))
  constructor
  · intro h
    exact ⟨fun repo hrepo => ((hiff repo hrepo).mp (h repo hrepo)).1,
      fun hdrain hhead repo hrepo => ((hiff repo hrepo).mp (h repo hrepo)).2 hdrain hhead⟩
  · rintro ⟨hcollapsed, hdrained⟩ repo hrepo
    exact (hiff repo hrepo).mpr ⟨hcollapsed repo hrepo,
      fun hdrain hhead => hdrained hdrain hhead repo hrepo⟩

end Final

-- At every moment between the cutover and the collapse, and after the migration, a
-- tag means what it meant, exactly if the new backend has nothing else for it.
theorem tags_kept_iff (drain : Bool) (hrule : w.router.backendForPattern pattern = some old)
    (hfree : w.volumes.CollisionFree) :
    ((run pattern newBackend drain).Always World.handle
        (fun w' => OnOverlay pattern old newBackend w w' → ∀ repo : RepoName,
          w.router.RoutedThrough pattern repo.text → TagsAsBefore w w' repo) w ∧
      ∀ report w', (run pattern newBackend drain).run World.handle w = (.ok report, w') →
        ∀ repo : RepoName, w.router.RoutedThrough pattern repo.text → TagsAsBefore w w' repo) ↔
    old = newBackend ∨ TagsKept w pattern old newBackend drain := by
  have hw := World.consistent hfree
  rcases eq_or_ne old newBackend with rfl | hne
  · refine iff_of_true ?_ (.inl rfl)
    obtain ⟨halways, hend⟩ := unmoved_served hrule drain
    constructor
    · refine halways.mono ?_
      rintro w' rfl _ repo _
      exact ⟨fun _ => rfl, rfl⟩
    · intro report w' hrun repo _
      rw [hend report w' hrun]
      exact ⟨fun _ => rfl, rfl⟩
  · rw [or_iff_right hne]
    obtain ⟨repos, hsorted, hmem, halways⟩ := always_run_iff drain hrule hne
      (kept_before_cutover hrule) kept_after_collapse
    have hbackfill := halways.trans (always_backfill_iff hrule hsorted _ hw)
    have hattained : ∀ repo, Attained old w.volumes repos repo ↔ Moved w pattern old repo ∧
        ∀ other, Moved w pattern old other → other ≤ repo → TagsResolve old w.volumes other := by
      intro repo
      simp only [Attained, hmem]
    have hstale : (∀ repo : RepoName, w.router.RoutedThrough pattern repo.text →
        Fits old newBackend w.volumes repo ∧ (Attained old w.volumes repos repo → ∀ tag bytes,
          Revived old newBackend w.volumes repo tag bytes →
            old.read w.volumes repo (.tag tag) = some bytes)) ↔
        (∀ repo : RepoName, w.router.RoutedThrough pattern repo.text →
          Fits old newBackend w.volumes repo) ∧
        ∀ repo : RepoName, w.router.RoutedThrough pattern repo.text → Moved w pattern old repo →
          (∀ other, Moved w pattern old other → other ≤ repo → TagsResolve old w.volumes other) →
            ∀ tag bytes, Revived old newBackend w.volumes repo tag bytes →
              old.read w.volumes repo (.tag tag) = some bytes := by
      simp only [hattained, and_imp, imp_and, forall_and]
    refine (and_congr_left' (hbackfill.trans hstale)).trans ?_
    obtain ⟨repos', _, hmem', hcases⟩ := run_cases drain hrule hne hw.manifests
    rcases hcases with ⟨hresolve, report, w', v, hrun, hfinished⟩ | ⟨hdangling, done, w', hrun, _⟩
    · have hend := fun hfits => finished_kept_iff hrule hmem' hfinished hw hresolve hfits
      constructor
      · rintro ⟨⟨hfits, hrevived⟩, hlast⟩
        obtain ⟨hcollapsed, hdrained⟩ := (hend hfits).mp (hlast report w' hrun)
        exact ⟨hfits, hrevived, fun _ => hcollapsed, fun _ => hdrained⟩
      · intro h
        have hall := fun repo hmoved => hresolve repo ((hmem' repo).mpr hmoved)
        refine ⟨⟨h.stale, h.revived⟩, ?_⟩
        intro report' w'' hrun'
        rw [hrun] at hrun'
        obtain ⟨_, rfl⟩ := Prod.mk.inj hrun'
        exact (hend h.stale).mpr ⟨h.collapsed hall, h.drained hall⟩
    · have hnot : ¬∀ repo, Moved w pattern old repo → TagsResolve old w.volumes repo :=
        fun hall => hdangling fun repo hr => hall repo ((hmem' repo).mp hr)
      constructor
      · rintro ⟨⟨hfits, hrevived⟩, _⟩
        exact ⟨hfits, hrevived, fun hall => absurd hall hnot, fun hall => absurd hall hnot⟩
      · intro h
        refine ⟨⟨h.stale, h.revived⟩, ?_⟩
        intro report' w'' hrun'
        rw [hrun] at hrun'
        cases (Prod.mk.inj hrun').1

end

section

attribute [local instance] Sample.sha2 Sample.serdeJson

-- An image that was pushed again after an earlier migration had left the old text of
-- its tag on the other volume.
def revisited : World where
  roots := Sample.roots (FsStorage.new.manifestPut Sample.dataX (.tag Sample.v1) Sample.braces).2
    (FsStorage.new.manifestPut Sample.dataX (.tag Sample.v1) Sample.brackets).2
  router := .single (.fs 0 0)
  nextArc := 2
  arcs_allocated := Sample.arcs_two

theorem revisited_collisionFree : revisited.volumes.CollisionFree := by
  apply Sample.collisionFree [Sample.braces, Sample.brackets]
  · exact Sample.texts_roots (by decide +kernel) (by decide)
  · intro algorithm
    cases algorithm <;> decide +kernel

theorem revisited_reads : revisited.router.RoutedThrough "*" Sample.dataX.text ∧
    revisited.manifestGet Sample.dataX (.tag Sample.v1) = .ok Sample.braces ∧
    (revisited.newArc.upsert "*" (overlay 2 (.fs 1 1) (.fs 0 0))).manifestGet Sample.dataX
      (.tag Sample.v1) = .ok Sample.brackets := by
  decide +kernel

theorem revisited_kept_iff :
    ((run "*" (.fs 1 1) false).Always World.handle
        (fun w' => OnOverlay "*" (.fs 0 0) (.fs 1 1) revisited w' → ∀ repo : RepoName,
          revisited.router.RoutedThrough "*" repo.text → TagsAsBefore revisited w' repo) revisited ∧
      ∀ report w', (run "*" (.fs 1 1) false).run World.handle revisited = (.ok report, w') →
        ∀ repo : RepoName, revisited.router.RoutedThrough "*" repo.text →
          TagsAsBefore revisited w' repo) ↔
    Backend.fs 0 0 = .fs 1 1 ∨ TagsKept revisited "*" (.fs 0 0) (.fs 1 1) false :=
  tags_kept_iff false rfl revisited_collisionFree

-- From the cutover on the tag gives the text that it had before.
theorem stale_tag_read : revisited.router.RoutedThrough "*" Sample.dataX.text ∧
    ¬(run "*" (.fs 1 1) false).Always World.handle
      (fun w' => OnOverlay "*" (.fs 0 0) (.fs 1 1) revisited w' → ∀ repo : RepoName,
        revisited.router.RoutedThrough "*" repo.text → TagsAsBefore revisited w' repo)
      revisited := by
  obtain ⟨hrouted, hbefore, hafter⟩ := revisited_reads
  refine ⟨hrouted, ?_⟩
  intro h
  have hrule : revisited.router.backendForPattern "*" = some (.fs 0 0) := rfl
  have hne : Backend.fs 0 0 ≠ .fs 1 1 := by decide
  obtain ⟨repos, _, _, halways⟩ := always_run_iff false hrule hne
    (kept_before_cutover hrule) kept_after_collapse
  have hcut := Prog.Always.first (halways.mp h) rfl Sample.dataX hrouted
  have hsame := hcut.read Sample.v1
  rw [hbefore] at hsame
  cases hsame.symm.trans hafter

end

end RspaceRegistry.Migrate
