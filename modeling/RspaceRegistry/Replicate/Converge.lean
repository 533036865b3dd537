import RspaceRegistry.Backend.Reads
import RspaceRegistry.Replicate.Run
import RspaceRegistry.Sample

namespace RspaceRegistry.Replicate

open Calls Fallible Ordered Places
open Migrate (Target Reads blobReferences)

section

variable [Sha2] [SerdeJson]

-- The `MultiStore` with these partitions around its primary.
def multi (before : Partitions) (primary : Backend) (after : Partitions) : MultiStore :=
  ⟨before.storages, primary.storage, after.storages⟩

def secondaries (before after : Partitions) : List Backend := before.backends ++ after.backends

omit [Sha2] [SerdeJson] in
theorem secondaries_multi (before : Partitions) (primary : Backend) (after : Partitions) :
    (multi before primary after).secondaries =
      (secondaries before after).map Backend.storage := by
  simp only [multi, MultiStore.secondaries, secondaries, Partitions.storages_eq, List.map_append]

variable {cfg : ReplicateConfig} {src : Backend} {w : World}

theorem hasRepo_of_wants {r : RepoName} {d : Digest} (h : Wants cfg src w.volumes r d) :
    src.HasRepo w.volumes r := by
  rcases h with ⟨_, hr⟩ | ⟨_, _, _, hr⟩
  · exact src.hasRepo_of_read w hr
  · exact src.hasRepo_of_read w hr

-- A pass succeeds exactly when every selected tag of the primary resolves.

variable (cfg src) in
theorem run_synced (before after : Partitions) (w : World) (hfree : w.volumes.CollisionFree)
    (hresolve : ∀ repo, src.HasRepo w.volumes repo → SelectedResolve cfg src w.volumes repo) :
    ∃ report w', (run (multi before src after) cfg).run World.handle w = (.ok report, w') ∧
      World.SameRules w w' ∧
      Synced cfg src (secondaries before after).reverse w.volumes w'.volumes ∧
      ∀ b ∈ secondaries before after, CaughtUp cfg src b w.volumes w'.volumes := by
  have hcoh := hfree.coherent w.volumes_wellFormed
  obtain ⟨listed, hlist, hlisted⟩ := src.run_listRepos w
  obtain ⟨wanted, hgather, hwanted⟩ := run_gather cfg src w listed.toList
    (fun repo _ => hcoh repo) listed.nodup (gathered_empty cfg src w.volumes) (by simp)
    fun repo hr => hresolve repo ((hlisted repo).mp hr)
  have hrepos : ∀ r d, Wants cfg src w.volumes r d → False ∨ r ∈ listed.toList :=
    fun r d hd => .inr ((hlisted r).mpr (hasRepo_of_wants hd))
  obtain ⟨report, w', hrun, hsame, hsynced, hheld⟩ := run_fanOut hwanted hrepos
    w.volumes_wellFormed (hfree.blobAt w.volumes_wellFormed) hcoh (secondaries before after) .empty w
    (synced_nil cfg src w.volumes) (by simp)
  rw [List.append_nil] at hsynced hheld
  refine ⟨report, w', ?_, hsame, hsynced, fun b hb => hheld b (List.mem_reverse.mpr hb)⟩
  rw [run, secondaries_multi]
  refine (run_bind_of_ok hlist _).trans ?_
  exact (run_bind_of_ok hgather _).trans hrun

theorem run_dangling (before after : Partitions) (hfree : w.volumes.CollisionFree)
    (hdangling : ¬∀ repo, src.HasRepo w.volumes repo → SelectedResolve cfg src w.volumes repo) :
    (run (multi before src after) cfg).run World.handle w = (.error .notFound, w) := by
  have hcoh := hfree.coherent w.volumes_wellFormed
  obtain ⟨listed, hlist, hlisted⟩ := src.run_listRepos w
  have hleft : ¬∀ repo ∈ listed.toList, SelectedResolve cfg src w.volumes repo :=
    fun h => hdangling fun repo hr => h repo ((hlisted repo).mpr hr)
  have hgather := run_gather_dangling cfg src w listed.toList (fun repo _ => hcoh repo) listed.nodup
    (gathered_empty cfg src w.volumes) (by simp) hleft
  rw [run]
  refine (run_bind_of_ok hlist _).trans ?_
  exact run_bind_of_error hgather _

-- What a pass promises for one secondary.
structure Converged (cfg : ReplicateConfig) (src dst : Backend) (w w' : World) : Prop where
  tags : ∀ repo tag, src.HasTag w.volumes repo tag → cfg.selects tag = true → ∃ bytes,
    src.manifestGet w repo (.tag tag) = .ok bytes ∧
      src.manifestGet w' repo (.tag tag) = .ok bytes ∧
      dst.manifestGet w' repo (.tag tag) = .ok bytes
  manifests : cfg.tagGlob = none → ∀ repo d bytes, src.manifestGet w repo (.digest d) = .ok bytes →
    dst.manifestGet w' repo (.digest d) = .ok bytes
  images : ∀ repo d, Wants cfg src w.volumes repo d → ∀ bytes,
    src.manifestGet w repo (.digest d) = .ok bytes →
      dst.manifestGet w' repo (.digest d) = .ok bytes ∧
      ∀ b ∈ blobReferences bytes, ∀ content, src.blobRead w repo b = .ok content →
        dst.blobRead w' repo b = .ok content
  tagsSelected : ∀ repo tag, dst.HasTag w'.volumes repo tag →
    dst.HasTag w.volumes repo tag ∨ cfg.selects tag = true
  tagsKept : ∀ repo tag, dst.HasTag w.volumes repo tag → dst.HasTag w'.volumes repo tag
  resolveKept : ∀ repo tag bytes, dst.manifestGet w repo (.tag tag) = .ok bytes →
    ∃ bytes', dst.manifestGet w' repo (.tag tag) = .ok bytes'
  manifestsKept : ∀ repo d bytes, dst.manifestGet w repo (.digest d) = .ok bytes →
    dst.manifestGet w' repo (.digest d) = .ok bytes
  blobsKept : ∀ repo d bytes, dst.blobRead w repo d = .ok bytes → dst.blobRead w' repo d = .ok bytes
  reposKept : ∀ repo, dst.HasRepo w.volumes repo → dst.HasRepo w'.volumes repo

section Synced

variable {done : List Backend} {v u : Volumes} (h : Synced cfg src done v u)
variable (hheld : ∀ b ∈ done, CaughtUp cfg src b v u)
variable (hv : ∀ root, (v root).WellFormed) (hcoh : ∀ r, v.Coherent r)

include h hheld hv hcoh

-- Where a secondary takes its writes, a selected tag reads as on the source.
theorem Synced.read_head {b : Backend} (hb : b ∈ done) {r : RepoName} {t : TagName} {d : Digest}
    (ht : WantsTag cfg src v r t d) :
    (u b.head).read r (.tag t) = src.read v r (.tag t) := by
  obtain ⟨bytes, hbytes, hread⟩ := reads_of_wantsTag hcoh hv ht
  obtain ⟨htag, hmanifest⟩ := (hheld b hb).tag r t d ht
  obtain ⟨bytes', hbytes'⟩ := Option.isSome_iff_exists.mp hmanifest
  obtain ⟨p, _, hp⟩ := exists_of_first hread
  obtain ⟨q, hq⟩ := h.advanced.exists_manifest hbytes'
  have htag : (u b.head).tag r t = some d := htag
  rw [Contents.read_tag, htag, hbytes, hcoh r d p q bytes bytes' hp hq]
  exact hbytes'

theorem Synced.readAt_wanted {r : RepoName} {t : TagName} {d : Digest}
    (ht : WantsTag cfg src v r t d) (root : RootId) :
    u.readAt r (.tag t) root = v.readAt r (.tag t) root ∨
      u.readAt r (.tag t) root = src.read v r (.tag t) := by
  by_cases hroot : root ∈ done.map Backend.head
  · obtain ⟨b, hb, rfl⟩ := List.mem_map.mp hroot
    exact .inr (h.read_head hheld hv hcoh hb ht)
  · left
    have htag : (u root).tag r t = (v root).tag r t :=
      (h.advanced.tag r t root).resolve_right fun hn => hroot hn.1
    have hmanifest : (u root).manifest r = (v root).manifest r := by
      funext e
      apply Option.ext
      intro bytes
      refine ⟨fun hu => ?_, h.advanced.manifestKept r e root bytes⟩
      refine (h.filled r e root bytes hu).resolve_right ?_
      rintro ⟨b, hb, hhead, _⟩
      exact hroot (List.mem_map.mpr ⟨b, hb, hhead⟩)
    simp only [Volumes.readAt, Contents.read_tag, htag, hmanifest]

-- A tag that resolved on a root still does.
theorem Synced.readAt_kept {r : RepoName} {t : TagName} {root : RootId} {bytes : Bytes}
    (hread : (v root).read r (.tag t) = some bytes) : ((u root).read r (.tag t)).isSome := by
  rcases h.advanced.tag r t root with htag | ⟨hroot, d, hd, _⟩
  · obtain ⟨d, hd, hm⟩ := (Contents.read_eq_some _ _ _ _).mp hread
    have htag : (u root).tag r t = (v root).tag r t := htag
    have hkept : (u root).manifest r d = some bytes := h.advanced.manifestKept r d root bytes hm
    have hd : (v root).tag r t = some d := hd
    rw [Contents.read_tag, htag, hd, Option.bind_some, hkept]
    rfl
  · obtain ⟨b, hb, rfl⟩ := List.mem_map.mp hroot
    obtain ⟨_, bytes', hbytes', _⟩ := hd
    rw [h.read_head hheld hv hcoh hb ⟨by assumption, bytes', hbytes', rfl⟩, hbytes']
    rfl

end Synced

omit [SerdeJson] in
-- A tag that the source has and that resolves is wanted if it is selected.
theorem exists_wantsTag {repo : RepoName} {tag : TagName} {bytes : Bytes}
    (hselect : cfg.selects tag = true) (h : src.read w.volumes repo (.tag tag) = some bytes) :
    WantsTag cfg src w.volumes repo tag (sha256Digest bytes) := ⟨hselect, bytes, h, rfl⟩

theorem Synced.converged {done : List Backend} {w' : World} {dst : Backend}
    (hfree : w.volumes.CollisionFree)
    (hresolve : ∀ repo, src.HasRepo w.volumes repo → SelectedResolve cfg src w.volumes repo)
    (h : Synced cfg src done w.volumes w'.volumes)
    (hheld : ∀ b ∈ done, CaughtUp cfg src b w.volumes w'.volumes) (hdst : dst ∈ done) :
    Converged cfg src dst w w' := by
  have hv := w.volumes_wellFormed
  have hcoh := hfree.coherent hv
  obtain ⟨rest, horder⟩ := dst.readOrder_eq_cons
  refine ⟨?_, ?_, ?_, ?_, ?_, ?_, ?_, ?_, ?_⟩
  · intro repo tag htag hselect
    obtain ⟨bytes, hbytes⟩ := Option.isSome_iff_exists.mp
      (hresolve repo (src.hasRepo_of_hasTag w htag) tag hselect htag)
    have hwants := exists_wantsTag hselect hbytes
    have hover := h.readAt_wanted hheld hv hcoh hwants
    have hhead : w'.volumes.readAt repo (.tag tag) dst.head = some bytes :=
      (h.read_head hheld hv hcoh hdst hwants).trans hbytes
    refine ⟨bytes, ?_, ?_, ?_⟩
    · exact (src.manifestGet_eq_ok w repo (.tag tag) bytes).mpr hbytes
    · rw [Backend.manifestGet_eq_ok]
      exact first_overwritten (fun p => hbytes ▸ hover p) hbytes
    · rw [Backend.manifestGet_eq_ok, Backend.read, horder]
      exact first_cons_of_some hhead
  · intro hglob repo d bytes hread
    rw [Backend.manifestGet_eq_ok] at hread ⊢
    exact (hheld dst hdst).held.manifest repo d (.start (.inl hglob) hread) bytes hread
  · intro repo d hwants bytes hread
    simp only [Backend.manifestGet_eq_ok, Backend.blobRead_eq_ok] at hread ⊢
    refine ⟨(hheld dst hdst).held.manifest repo d hwants bytes hread, ?_⟩
    intro b hb content hcontent
    exact (hheld dst hdst).held.blob b ⟨repo, d, bytes, hwants, hread, hb⟩ content hcontent
  · rintro repo tag ⟨root, hroot, htag⟩
    rcases h.advanced.tag repo tag root with hsame | ⟨_, d, hd, _⟩
    · have hsame : (w'.volumes root).tag repo tag = (w.volumes root).tag repo tag := hsame
      exact .inl ⟨root, hroot, hsame ▸ htag⟩
    · exact .inr hd.1
  · rintro repo tag ⟨root, hroot, htag⟩
    refine ⟨root, hroot, ?_⟩
    rcases h.advanced.tag repo tag root with hsame | ⟨_, d, _, hnew, _⟩
    · have hsame : (w'.volumes root).tag repo tag = (w.volumes root).tag repo tag := hsame
      rw [hsame]
      exact htag
    · exact Option.isSome_iff_exists.mpr ⟨d, hnew⟩
  · intro repo tag bytes hread
    simp only [Backend.manifestGet_eq_ok] at hread ⊢
    obtain ⟨root, hroot, hat⟩ := exists_of_first hread
    have hsome := h.readAt_kept hheld hv hcoh hat
    exact Option.isSome_iff_exists.mp (first_isSome.mpr ⟨root, hroot, hsome⟩)
  · intro repo d bytes hread
    rw [Backend.manifestGet_eq_ok] at hread ⊢
    exact h.advanced.kept_read (hcoh repo) hread
  · intro repo d bytes hread
    rw [Backend.blobRead_eq_ok] at hread ⊢
    exact h.advanced.kept_blob (hfree.blobAt hv d) hread
  · rintro repo ⟨root, hroot, hr⟩
    exact ⟨root, hroot, h.repoKept root repo hr⟩

theorem synced_of_run {before after : Partitions} {report : ReplicateReport} {w' : World}
    (hfree : w.volumes.CollisionFree)
    (hrun : (run (multi before src after) cfg).run World.handle w = (.ok report, w')) :
    (∀ repo, src.HasRepo w.volumes repo → SelectedResolve cfg src w.volumes repo) ∧
      Synced cfg src (secondaries before after).reverse w.volumes w'.volumes ∧
      ∀ b ∈ secondaries before after, CaughtUp cfg src b w.volumes w'.volumes := by
  by_cases hresolve : ∀ repo, src.HasRepo w.volumes repo → SelectedResolve cfg src w.volumes repo
  · obtain ⟨report₁, w₁, hrun₁, _, hsynced, hheld⟩ :=
      run_synced cfg src before after w hfree hresolve
    obtain ⟨_, rfl⟩ := Prod.mk.inj (hrun.symm.trans hrun₁)
    exact ⟨hresolve, hsynced, hheld⟩
  · rw [run_dangling before after hfree hresolve] at hrun
    cases (Prod.mk.inj hrun).1

-- A successful pass brings every secondary up to the primary and takes nothing
-- away from it.
theorem run_converges {before after : Partitions} {primary : Backend} {cfg : ReplicateConfig}
    {report : ReplicateReport} {w w' : World} (hfree : w.volumes.CollisionFree)
    (hrun : (run (multi before primary after) cfg).run World.handle w = (.ok report, w')) :
    ∀ dst ∈ secondaries before after, Converged cfg primary dst w w' := by
  obtain ⟨hresolve, hsynced, hheld⟩ := synced_of_run hfree hrun
  intro dst hdst
  exact hsynced.converged hfree hresolve (fun b hb => hheld b (List.mem_reverse.mp hb))
    (List.mem_reverse.mpr hdst)

end

section

attribute [local instance] Sample.sha2 Sample.serdeJson

-- An image and its config on the primary, and an empty mirror of it.
def unmirrored : World where
  roots := Sample.roots
    ((FsStorage.new.blobWrite (hashContent .sha256 Sample.x) Sample.x).2.manifestPut Sample.dataX
      (.tag Sample.v1) Sample.typed).2 .new
  router := .single (.fs 0 0)
  nextArc := 1
  arcs_allocated := Sample.arcs_one

def mirror : Backend := .fs 2 1

def versions : ReplicateConfig := ⟨some "v*"⟩

def mirrored : World :=
  ((run (multi .nil (.fs 1 0) (.cons "mirror" mirror .nil)) versions).run World.handle unmirrored).2

theorem mirrored_outcome :
    (((unmirrored.roots 0).texts ⊆ [Sample.x, Sample.typed] ∧
        (unmirrored.roots 1).texts ⊆ [Sample.x, Sample.typed]) ∧
      ∀ algorithm ∈ [Algorithm.sha256, .sha512], ∀ a ∈ [Sample.x, Sample.typed],
        ∀ b ∈ [Sample.x, Sample.typed], hashContent algorithm a = hashContent algorithm b → a = b) ∧
    ((run (multi .nil (.fs 1 0) (.cons "mirror" mirror .nil)) versions).run World.handle
      unmirrored).1 = .ok ⟨1, 1, 1, 1⟩ := by decide +kernel

theorem unmirrored_collisionFree : unmirrored.volumes.CollisionFree :=
  Sample.collisionFree_roots [Sample.x, Sample.typed] rfl mirrored_outcome.1

theorem mirrored_run : (run (multi .nil (.fs 1 0) (.cons "mirror" mirror .nil)) versions).run
    World.handle unmirrored = (.ok ⟨1, 1, 1, 1⟩, mirrored) :=
  run_eq_mk mirrored_outcome.2 rfl

theorem mirrored_converges : Converged versions (.fs 1 0) mirror unmirrored mirrored :=
  run_converges unmirrored_collisionFree mirrored_run mirror (List.mem_singleton_self mirror)

end

end RspaceRegistry.Replicate
