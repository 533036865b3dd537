import RspaceRegistry.Gc.Theorems
import RspaceRegistry.Migrate.Copy

namespace RspaceRegistry.Migrate

open Calls Fallible Ordered Places

-- What the drain does to the storage roots when nothing else runs and nothing
-- fails: it goes through every directory below the old backend.

variable (b : Backend) (repo : RepoName)

structure Deleted (references : List Reference) (v v' : Volumes) : Prop where
  manifest : ∀ d, .digest d ∈ references →
    v'.manifestAt repo d = clear b.leaves (v.manifestAt repo d)
  otherManifest : ∀ r d, ¬(r = repo ∧ .digest d ∈ references) → v'.manifestAt r d = v.manifestAt r d
  tag : ∀ tag, .tag tag ∈ references → v'.tagAt repo tag = clear b.leaves (v.tagAt repo tag)
  otherTag : ∀ r tag, ¬(r = repo ∧ .tag tag ∈ references) → v'.tagAt r tag = v.tagAt r tag
  blob : ∀ d, v'.blobAt d = v.blobAt d
  repo : ∀ root r, (v' root).repo r ↔ (v root).repo r

theorem deleted_step (reference : Reference) (v : Volumes) : Deleted b repo [reference] v
    (v.onRoots b.leaves fun c => c.delete repo reference) := by
  have hrepo : ∀ root r, (v.onRoots b.leaves (fun c => c.delete repo reference) root).repo r ↔
      (v root).repo r := by
    intro root r
    have hl : ∀ c : Contents, (c.delete repo reference).repo r = c.repo r := by
      intro c
      cases reference <;> rfl
    have h := congrFun (v.slot_onRoots_same b.leaves _ (fun c => c.repo r) hl) root
    exact iff_of_eq h
  cases reference with
  | digest d =>
      refine ⟨?_, ?_, ?_, ?_, ?_, hrepo⟩
      · intro e he
        obtain rfl := Reference.digest.inj (List.mem_singleton.mp he)
        exact v.slot_onRoots_clear b.leaves _ (fun c => c.manifest repo e)
          fun c => by simp [Contents.delete, Contents.setManifest]
      · intro r e he
        have hne : ¬(r = repo ∧ e = d) := by
          rintro ⟨rfl, rfl⟩
          exact he ⟨rfl, List.mem_singleton_self _⟩
        exact v.slot_onRoots_same b.leaves _ (fun c => c.manifest r e)
          fun c => by simp [Contents.delete, Contents.setManifest, hne]
      · intro tag ht
        cases List.mem_singleton.mp ht
      · intro r tag _
        exact v.slot_onRoots_same b.leaves _ (fun c => c.tag r tag) fun _ => rfl
      · intro e
        exact v.slot_onRoots_same b.leaves _ (fun c => c.blob e) fun _ => rfl
  | tag t =>
      refine ⟨?_, ?_, ?_, ?_, ?_, hrepo⟩
      · intro e he
        cases List.mem_singleton.mp he
      · intro r e _
        exact v.slot_onRoots_same b.leaves _ (fun c => c.manifest r e) fun _ => rfl
      · intro tag ht
        obtain rfl := Reference.tag.inj (List.mem_singleton.mp ht)
        exact v.slot_onRoots_clear b.leaves _ (fun c => c.tag repo tag)
          fun c => by simp [Contents.delete, Contents.setTag]
      · intro r tag ht
        have hne : ¬(r = repo ∧ tag = t) := by
          rintro ⟨rfl, rfl⟩
          exact ht ⟨rfl, List.mem_singleton_self _⟩
        exact v.slot_onRoots_same b.leaves _ (fun c => c.tag r tag)
          fun c => by simp [Contents.delete, Contents.setTag, hne]
      · intro e
        exact v.slot_onRoots_same b.leaves _ (fun c => c.blob e) fun _ => rfl

theorem Deleted.cons {reference : Reference} {rest : List Reference} {v v₁ v' : Volumes}
    (hstep : Deleted b repo [reference] v v₁) (h : Deleted b repo rest v₁ v') :
    Deleted b repo (reference :: rest) v v' := by
  refine ⟨?_, ?_, ?_, ?_, ?_, ?_⟩
  · intro d hd
    by_cases hr : .digest d ∈ rest
    · rw [h.manifest d hr]
      by_cases hs : .digest d ∈ [reference]
      · rw [hstep.manifest d hs, clear_clear]
      · rw [hstep.otherManifest repo d fun hm => hs hm.2]
    · have hs : .digest d ∈ [reference] :=
        List.mem_singleton.mpr ((List.mem_cons.mp hd).resolve_right hr)
      rw [h.otherManifest repo d fun hm => hr hm.2, hstep.manifest d hs]
  · intro r d hd
    have hr : ¬(r = repo ∧ .digest d ∈ rest) := fun hm => hd ⟨hm.1, List.mem_cons_of_mem _ hm.2⟩
    have hs : ¬(r = repo ∧ .digest d ∈ [reference]) :=
      fun hm => hd ⟨hm.1, List.mem_cons.mpr (.inl (List.mem_singleton.mp hm.2))⟩
    rw [h.otherManifest r d hr, hstep.otherManifest r d hs]
  · intro tag ht
    by_cases hr : .tag tag ∈ rest
    · rw [h.tag tag hr]
      by_cases hs : .tag tag ∈ [reference]
      · rw [hstep.tag tag hs, clear_clear]
      · rw [hstep.otherTag repo tag fun hm => hs hm.2]
    · have hs : .tag tag ∈ [reference] :=
        List.mem_singleton.mpr ((List.mem_cons.mp ht).resolve_right hr)
      rw [h.otherTag repo tag fun hm => hr hm.2, hstep.tag tag hs]
  · intro r tag ht
    have hr : ¬(r = repo ∧ .tag tag ∈ rest) := fun hm => ht ⟨hm.1, List.mem_cons_of_mem _ hm.2⟩
    have hs : ¬(r = repo ∧ .tag tag ∈ [reference]) :=
      fun hm => ht ⟨hm.1, List.mem_cons.mpr (.inl (List.mem_singleton.mp hm.2))⟩
    rw [h.otherTag r tag hr, hstep.otherTag r tag hs]
  · intro d
    rw [h.blob, hstep.blob]
  · intro root r
    exact (h.repo root r).trans (hstep.repo root r)

variable [Sha2]

theorem run_deleteEach (references : List Reference) (w : World) : ∃ w',
    (deleteEach b.storage repo references).run World.handle w = (.ok (), w') ∧
      World.SameRules w w' ∧ Deleted b repo references w.volumes w'.volumes := by
  induction references generalizing w with
  | nil =>
      refine ⟨w, rfl, .refl w, ?_⟩
      exact ⟨fun _ h => (by cases h), fun _ _ _ => rfl, fun _ h => (by cases h), fun _ _ _ => rfl,
        fun _ => rfl, fun _ _ => Iff.rfl⟩
  | cons reference rest ih =>
      obtain ⟨o, w₁, hdelete, _, hsame₁, hvol₁⟩ := b.run_manifestDelete w repo reference
      obtain ⟨w', hrun, hsame, h⟩ := ih w₁
      have hstep := deleted_step b repo reference w.volumes
      rw [← hvol₁] at hstep
      refine ⟨w', ?_, hsame₁.trans hsame, hstep.cons b repo h⟩
      rw [deleteEach, run_attempt_bind hdelete]
      cases o with
      | none => exact hrun
      | some value => exact hrun

-- The whole of a repository is gone from below the backend.
structure Purged (repos : List RepoName) (v v' : Volumes) : Prop where
  manifest : ∀ r ∈ repos, ∀ d, v'.manifestAt r d = clear b.leaves (v.manifestAt r d)
  otherManifest : ∀ r d, r ∉ repos → v'.manifestAt r d = v.manifestAt r d
  tag : ∀ r ∈ repos, ∀ tag, v'.tagAt r tag = clear b.leaves (v.tagAt r tag)
  otherTag : ∀ r tag, r ∉ repos → v'.tagAt r tag = v.tagAt r tag
  blob : ∀ d, v'.blobAt d = v.blobAt d
  repo : ∀ root r, (v' root).repo r ↔ (v root).repo r

theorem run_purgeRepoManifests (w : World) : ∃ w',
    (purgeRepoManifests b.storage repo).run World.handle w = (.ok (), w') ∧
      World.SameRules w w' ∧ Purged b [repo] w.volumes w'.volumes := by
  obtain ⟨tags, htags, hmemTags⟩ := b.run_listTags w repo
  obtain ⟨w₁, hrun₁, hsame₁, h₁⟩ := run_deleteEach b repo (tags.toList.map .tag) w
  obtain ⟨digests, hdigests, hmemDigests⟩ := b.run_listManifestDigests w₁ repo
  obtain ⟨w₂, hrun₂, hsame₂, h₂⟩ := run_deleteEach b repo (digests.toList.map .digest) w₁
  have hmanifest₁ : ∀ r d, w₁.volumes.manifestAt r d = w.volumes.manifestAt r d := by
    intro r d
    exact h₁.otherManifest r d fun hm => by simp at hm
  have htag₂ : ∀ r tag, w₂.volumes.tagAt r tag = w₁.volumes.tagAt r tag := by
    intro r tag
    exact h₂.otherTag r tag fun hm => by simp at hm
  refine ⟨w₂, ?_, hsame₁.trans hsame₂, ?_, ?_, ?_, ?_, ?_, ?_⟩
  · rw [purgeRepoManifests, run_bind_of_ok htags, run_bind_of_ok hrun₁, run_bind_of_ok hdigests]
    exact hrun₂
  · intro r hr d
    obtain rfl := List.mem_singleton.mp hr
    rw [← hmanifest₁ r d]
    by_cases hd : d ∈ digests
    · exact h₂.manifest d (List.mem_map_of_mem hd)
    · have hnone : ∀ root ∈ b.leaves, w₁.volumes.manifestAt r d root = none := by
        intro root hroot
        by_contra hsome
        have hs := Option.ne_none_iff_isSome.mp hsome
        exact hd ((hmemDigests d).mpr ((b.read_isSome _ _ _).mpr ⟨root, hroot, hs⟩))
      rw [clear_of_none hnone]
      exact h₂.otherManifest r d fun hm => hd (by simpa using hm.2)
  · intro r d hr
    have hne : r ≠ repo := fun heq => hr (heq ▸ List.mem_singleton_self _)
    rw [h₂.otherManifest r d fun hm => hne hm.1, hmanifest₁]
  · intro r hr tag
    obtain rfl := List.mem_singleton.mp hr
    rw [htag₂]
    by_cases ht : tag ∈ tags
    · exact h₁.tag tag (List.mem_map_of_mem ht)
    · have hnone : ∀ root ∈ b.leaves, w.volumes.tagAt r tag root = none := by
        intro root hroot
        by_contra hsome
        have hs := Option.ne_none_iff_isSome.mp hsome
        exact ht ((hmemTags tag).mpr ⟨root, hroot, hs⟩)
      rw [clear_of_none hnone]
      exact h₁.otherTag r tag fun hm => ht (by simpa using hm.2)
  · intro r tag hr
    have hne : r ≠ repo := fun heq => hr (heq ▸ List.mem_singleton_self _)
    rw [htag₂, h₁.otherTag r tag fun hm => hne hm.1]
  · intro d
    rw [h₂.blob, h₁.blob]
  · intro root r
    exact (h₂.repo root r).trans (h₁.repo root r)

omit [Sha2] in
theorem Purged.cons {rest : List RepoName} {v v₁ v' : Volumes} (hstep : Purged b [repo] v v₁)
    (h : Purged b rest v₁ v') : Purged b (repo :: rest) v v' := by
  have hne : ∀ {r}, r ∉ repo :: rest → r ∉ [repo] ∧ r ∉ rest := by
    intro r hr
    exact ⟨fun hm => hr (List.mem_cons.mpr (.inl (List.mem_singleton.mp hm))),
      fun hm => hr (List.mem_cons_of_mem _ hm)⟩
  refine ⟨?_, ?_, ?_, ?_, ?_, ?_⟩
  · intro r hr d
    by_cases hrest : r ∈ rest
    · rw [h.manifest r hrest d]
      by_cases hhere : r ∈ [repo]
      · rw [hstep.manifest r hhere, clear_clear]
      · rw [hstep.otherManifest r d hhere]
    · have hhere : r ∈ [repo] :=
        List.mem_singleton.mpr ((List.mem_cons.mp hr).resolve_right hrest)
      rw [h.otherManifest r d hrest, hstep.manifest r hhere]
  · intro r d hr
    rw [h.otherManifest r d (hne hr).2, hstep.otherManifest r d (hne hr).1]
  · intro r hr tag
    by_cases hrest : r ∈ rest
    · rw [h.tag r hrest tag]
      by_cases hhere : r ∈ [repo]
      · rw [hstep.tag r hhere, clear_clear]
      · rw [hstep.otherTag r tag hhere]
    · have hhere : r ∈ [repo] :=
        List.mem_singleton.mpr ((List.mem_cons.mp hr).resolve_right hrest)
      rw [h.otherTag r tag hrest, hstep.tag r hhere]
  · intro r tag hr
    rw [h.otherTag r tag (hne hr).2, hstep.otherTag r tag (hne hr).1]
  · intro d
    rw [h.blob, hstep.blob]
  · intro root r
    exact (h.repo root r).trans (hstep.repo root r)

theorem run_purgeRepos (repos : List RepoName) (w : World) : ∃ w',
    (purgeRepos b.storage repos).run World.handle w = (.ok (), w') ∧ World.SameRules w w' ∧
      Purged b repos w.volumes w'.volumes := by
  induction repos generalizing w with
  | nil =>
      refine ⟨w, rfl, .refl w, ?_⟩
      exact ⟨fun _ h => (by cases h), fun _ _ _ => rfl, fun _ h => (by cases h), fun _ _ _ => rfl,
        fun _ => rfl, fun _ _ => Iff.rfl⟩
  | cons repo rest ih =>
      obtain ⟨w₁, hrun₁, hsame₁, h₁⟩ := run_purgeRepoManifests b repo w
      obtain ⟨w', hrun, hsame, h⟩ := ih w₁
      refine ⟨w', ?_, hsame₁.trans hsame, h₁.cons b repo h⟩
      rw [purgeRepos, run_bind_of_ok hrun₁]
      exact hrun

variable [SerdeJson]

-- What still protects a blob once the moved repositories are purged: a
-- manifest of another repository below the old backend.
def MarkedByOthers (repos : List RepoName) (v : Volumes) (d : Digest) : Prop :=
  ∃ repo ∉ repos, ∃ digest content, b.read v repo (.digest digest) = some content ∧
    (d = digest ∨ d ∈ Gc.references content)

structure Drained (repos : List RepoName) (v v' : Volumes) : Prop where
  manifest : ∀ r ∈ repos, ∀ d, v'.manifestAt r d = clear b.leaves (v.manifestAt r d)
  otherManifest : ∀ r d, r ∉ repos → v'.manifestAt r d = v.manifestAt r d
  tag : ∀ r ∈ repos, ∀ tag, v'.tagAt r tag = clear b.leaves (v.tagAt r tag)
  otherTag : ∀ r tag, r ∉ repos → v'.tagAt r tag = v.tagAt r tag
  marked : ∀ d, MarkedByOthers b repos v d → v'.blobAt d = v.blobAt d
  swept : ∀ d, ¬MarkedByOthers b repos v d → v'.blobAt d = clear b.leaves (v.blobAt d)
  repo : ∀ root r, (v' root).repo r ↔ (v root).repo r

theorem run_drainOld (repos : List RepoName) (report : MigrateReport) (w : World) :
    ∃ report' w', (drainOld b repos report).run World.handle w = (.ok report', w') ∧
      report'.cutover = report.cutover ∧
      World.SameRules w w' ∧ Drained b repos w.volumes w'.volumes := by
  obtain ⟨w₁, hrun₁, hsame₁, h₁⟩ := run_purgeRepos b repos w
  obtain ⟨gc, w₂, hrun₂, hsame₂, hvol₂, _⟩ := Gc.run_gc b w₁
  have hmarked : ∀ d, Gc.Marked b w₁.volumes d ↔ MarkedByOthers b repos w.volumes d := by
    intro d
    have hread : ∀ r ∉ repos, ∀ digest,
        b.read w₁.volumes r (.digest digest) = b.read w.volumes r (.digest digest) :=
      fun r hr digest => congrArg (first b.readOrder) (h₁.otherManifest r digest hr)
    constructor
    · rintro ⟨r, digest, content, hc, h⟩
      by_cases hr : r ∈ repos
      · have hnone : b.read w₁.volumes r (.digest digest) = none := by
          rw [Backend.read_digest, h₁.manifest r hr digest]
          exact first_clear_of_subset fun root hroot => (b.mem_readOrder root).mp hroot
        rw [hnone] at hc
        cases hc
      · exact ⟨r, hr, digest, content, (hread r hr digest).symm.trans hc, h⟩
    · rintro ⟨r, hr, digest, content, hc, h⟩
      exact ⟨r, digest, content, (hread r hr digest).trans hc, h⟩
  have hsame : ∀ {β : Type} (look : Contents → β),
      (∀ c, look (c.keepBlobs (Gc.Marked b w₁.volumes)) = look c) →
      (fun root => look (w₂.volumes root)) = fun root => look (w₁.volumes root) := by
    intro β look hlook
    rw [hvol₂]
    exact Volumes.slot_onRoots_same _ _ _ look hlook
  refine ⟨{ report with blobsPurged := gc.deletedBlobs, bytesPurged := gc.deletedBytes }, w₂, ?_,
    rfl, hsame₁.trans hsame₂, ?_, ?_, ?_, ?_, ?_, ?_, ?_⟩
  · rw [drainOld, run_bind_of_ok hrun₁, run_bind_of_ok hrun₂]
    rfl
  · intro r hr d
    exact (hsame (fun c => c.manifest r d) fun _ => rfl).trans (h₁.manifest r hr d)
  · intro r d hr
    exact (hsame (fun c => c.manifest r d) fun _ => rfl).trans (h₁.otherManifest r d hr)
  · intro r hr tag
    exact (hsame (fun c => c.tag r tag) fun _ => rfl).trans (h₁.tag r hr tag)
  · intro r tag hr
    exact (hsame (fun c => c.tag r tag) fun _ => rfl).trans (h₁.otherTag r tag hr)
  · intro d hd
    have hm := (hmarked d).mpr hd
    rw [← h₁.blob d]
    exact hsame (fun c => c.blob d) fun c => by simp [Contents.keepBlobs, hm]
  · intro d hd
    have hm : ¬Gc.Marked b w₁.volumes d := fun h => hd ((hmarked d).mp h)
    rw [← h₁.blob d, hvol₂]
    exact Volumes.slot_onRoots_clear _ _ _ (fun c => c.blob d)
      fun c => by simp [Contents.keepBlobs, hm]
  · intro root r
    have h := congrFun (hsame (fun c => c.repo r) fun _ => rfl) root
    exact (iff_of_eq h).trans (h₁.repo root r)

omit [Sha2] in
theorem Drained.stores {repos : List RepoName} {v v' : Volumes} (h : Drained b repos v v')
    (content : Bytes) (hc : v'.Stores content) : v.Stores content := by
  obtain ⟨root, ⟨d, hd⟩ | ⟨r, d, hd⟩⟩ := hc
  · have hat : v'.blobAt d root = some content := hd
    by_cases hm : MarkedByOthers b repos v d
    · rw [h.marked d hm] at hat
      exact ⟨root, .inl ⟨d, hat⟩⟩
    · rw [h.swept d hm] at hat
      obtain ⟨root', hat'⟩ := exists_of_clear hat
      exact ⟨root', .inl ⟨d, hat'⟩⟩
  · have hat : v'.manifestAt r d root = some content := hd
    by_cases hr : r ∈ repos
    · rw [h.manifest r hr d] at hat
      obtain ⟨root', hat'⟩ := exists_of_clear hat
      exact ⟨root', .inr ⟨r, d, hat'⟩⟩
    · rw [h.otherManifest r d hr] at hat
      exact ⟨root, .inr ⟨r, d, hat⟩⟩

end RspaceRegistry.Migrate
