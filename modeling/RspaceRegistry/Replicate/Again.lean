import RspaceRegistry.Migrate.Again
import RspaceRegistry.Replicate.Converge

namespace RspaceRegistry.Replicate

open Calls Fallible Ordered Places
open Migrate (Target Reads Reached blobReferences)

-- A second pass with no change in between.

section

variable [Sha2]

section Settled

variable {src dst : Backend} {w : World}

theorem run_copyBlobs_settled (entries : List Key) (report : ReplicateReport)
    (h : ∀ r d, key r d ∈ entries → (src.blob w.volumes d).isSome → (dst.blob w.volumes d).isSome) :
    (copyBlobs src.storage dst.storage entries report).run World.handle w = (.ok report, w) := by
  induction entries with
  | nil => rfl
  | cons entry rest ih =>
      obtain ⟨repo, d, rfl⟩ := exists_key entry
      have hrest := ih fun r e he => h r e (List.mem_cons_of_mem _ he)
      rw [copyBlobs]
      show Fallible.run World.handle (dst.storage.blobExists repo.text d >>= _) w = _
      rw [run_bind_of_ok (dst.run_blobExists w repo.text d)]
      by_cases hd : (dst.blob w.volumes d).isSome
      · rw [if_pos hd]
        exact hrest
      · have hsrc : src.blob w.volumes d = none :=
          Option.not_isSome_iff_eq_none.mp (mt (h repo d List.mem_cons_self) hd)
        rw [if_neg hd]
        show Fallible.run World.handle (attempt (src.storage.blobRead repo.text d) >>= _) w = _
        rw [run_attempt_bind (src.run_blobRead w repo.text d), hsrc]
        exact hrest

theorem run_copyManifests_settled (entries : List Key) (report : ReplicateReport)
    (h : ∀ r d, key r d ∈ entries → (src.read w.volumes r (.digest d)).isSome →
      (dst.read w.volumes r (.digest d)).isSome) :
    (copyManifests src.storage dst.storage entries report).run World.handle w = (.ok report, w) := by
  induction entries with
  | nil => rfl
  | cons entry rest ih =>
      obtain ⟨repo, d, rfl⟩ := exists_key entry
      have hrest := ih fun r e he => h r e (List.mem_cons_of_mem _ he)
      rw [copyManifests]
      show Fallible.run World.handle (attempt (dst.storage.manifestGet repo (.digest d)) >>= _) w = _
      rw [run_attempt_bind (dst.run_manifestGet w repo (.digest d))]
      cases hdst : dst.read w.volumes repo (.digest d) with
      | some content => exact hrest
      | none =>
          have hsrc : src.read w.volumes repo (.digest d) = none := by
            apply Option.not_isSome_iff_eq_none.mp
            intro hsome
            have hthere := h repo d List.mem_cons_self hsome
            rw [hdst] at hthere
            cases hthere
          rw [orNotFound_none]
          simp only
          show Fallible.run World.handle (attempt (src.storage.manifestGet repo (.digest d)) >>= _) w = _
          rw [run_attempt_bind (src.run_manifestGet w repo (.digest d)), hsrc]
          exact hrest

variable {plan : Plan} {v : Volumes} (hsettled : plan.Settled src dst v) (hcoh : ∀ r, v.Coherent r)

include hsettled hcoh

theorem run_copyTags_settled (entries : List (RepoName × TagName × Digest))
    (htags : ∀ r t d, (r, t, d) ∈ entries → plan.tag r t d) (w : World) (hw : w.volumes = v) :
    ∃ w', (copyTags src.storage dst.storage entries).run World.handle w = (.ok (), w') ∧
      World.SameRules w w' ∧ w'.volumes = v := by
  induction entries generalizing w with
  | nil => exact ⟨w, rfl, .refl w, hw⟩
  | cons entry rest ih =>
      obtain ⟨repo, t, d⟩ := entry
      have hrest := ih fun r t d he => htags r t d (List.mem_cons_of_mem _ he)
      rw [copyTags, run_attempt_bind (src.run_manifestGet w repo (.digest d)), hw]
      cases hsrc : src.read v repo (.digest d) with
      | none => exact hrest w hw
      | some bytes =>
          obtain ⟨w₁, hput, hsame₁, hv₁⟩ :=
            hsettled.run_put hw hcoh (htags repo t d List.mem_cons_self) hsrc
          obtain ⟨w', hrun, hsame, hv'⟩ := hrest w₁ hv₁
          refine ⟨w', ?_, hsame₁.trans hsame, hv'⟩
          exact (run_bind_of_ok hput _).trans hrun

theorem run_copyInto_settled {wanted : Wanted} (report : ReplicateReport)
    (hblobs : ∀ r d, key r d ∈ wanted.blobs → plan.blob d)
    (hmanifests : ∀ r d, key r d ∈ wanted.manifests → plan.manifest r d)
    (htags : ∀ r t d, (r, t, d) ∈ wanted.tags → plan.tag r t d) (w : World) (hw : w.volumes = v) :
    ∃ w', (copyInto src.storage dst.storage wanted report).run World.handle w = (.ok report, w') ∧
      World.SameRules w w' ∧ w'.volumes = v := by
  subst hw
  have hrun₁ := run_copyBlobs_settled wanted.blobs.toList report fun r d hd =>
    hsettled.blob (hblobs r d hd)
  have hrun₂ := run_copyManifests_settled wanted.manifests.toList report fun r d hd =>
    hsettled.manifest (hmanifests r d hd)
  obtain ⟨w', hrun₃, hsame, hv⟩ := run_copyTags_settled hsettled hcoh wanted.tags htags w rfl
  refine ⟨w', ?_, hsame, hv⟩
  rw [copyInto, run_bind_of_ok hrun₁, run_bind_of_ok hrun₂, run_bind_of_ok hrun₃]
  rfl

end Settled

-- The partitions are counted, and nothing else.
theorem run_fanOut_settled {src : Backend} {plan : Plan} {v : Volumes} {wanted : Wanted}
    (hcoh : ∀ r, v.Coherent r) (hblobs : ∀ r d, key r d ∈ wanted.blobs → plan.blob d)
    (hmanifests : ∀ r d, key r d ∈ wanted.manifests → plan.manifest r d)
    (htags : ∀ r t d, (r, t, d) ∈ wanted.tags → plan.tag r t d) (targets : List Backend)
    (hsettled : ∀ dst ∈ targets, plan.Settled src dst v) (report : ReplicateReport) (w : World)
    (hw : w.volumes = v) : ∃ w',
      (fanOut src.storage wanted (targets.map Backend.storage) report).run World.handle w =
        (.ok { report with partitionsScanned := report.partitionsScanned + targets.length }, w') ∧
      World.SameRules w w' ∧ w'.volumes = v := by
  induction targets generalizing report w with
  | nil => exact ⟨w, rfl, .refl w, hw⟩
  | cons dst rest ih =>
      obtain ⟨w₁, hrun₁, hsame₁, hv₁⟩ := run_copyInto_settled
        (hsettled dst List.mem_cons_self) hcoh
        { report with partitionsScanned := report.partitionsScanned + 1 } hblobs hmanifests htags w hw
      obtain ⟨w', hrun, hsame, hv'⟩ := ih (fun b hb => hsettled b (List.mem_cons_of_mem dst hb))
        { report with partitionsScanned := report.partitionsScanned + 1 } w₁ hv₁
      refine ⟨w', ?_, hsame₁.trans hsame, hv'⟩
      rw [List.map_cons, fanOut, run_bind_of_ok hrun₁, hrun]
      simp only [List.length_cons, Nat.add_assoc, Nat.add_comm 1]

variable [SerdeJson]

section Synced

variable {cfg : ReplicateConfig} {src : Backend} {done : List Backend} {v u : Volumes}
variable (h : Synced cfg src done v u) (hheld : ∀ b ∈ done, CaughtUp cfg src b v u)
variable (hv : ∀ root, (v root).WellFormed) (hcoh : ∀ r, v.Coherent r)

include h

theorem Synced.collisionFree (hfree : v.CollisionFree) : u.CollisionFree :=
  fun algorithm content content' hc hc' =>
    hfree algorithm content content' (h.advanced.stores hc) (h.advanced.stores hc')

include hcoh

theorem Synced.reads_iff (r : RepoName) (d : Digest) (bytes : Bytes) :
    Reads src u r d bytes ↔ Reads src v r d bytes := by
  unfold Reads
  rw [h.advanced.src_read (hcoh r) d]

include hheld hv

-- A tag that the pass selects resolves on the source as it did.
theorem Synced.read_tag {r : RepoName} {t : TagName} (hselect : cfg.selects t = true)
    (hresolve : SelectedResolve cfg src v r) : src.read u r (.tag t) = src.read v r (.tag t) := by
  cases hread : src.read v r (.tag t) with
  | some bytes =>
      have hwants : WantsTag cfg src v r t (sha256Digest bytes) := ⟨hselect, bytes, hread, rfl⟩
      exact first_overwritten (fun root => hread ▸ h.readAt_wanted hheld hv hcoh hwants root) hread
  | none =>
      have hno : ¬src.HasTag v r t := by
        intro htag
        have hsome := hresolve t hselect htag
        rw [hread] at hsome
        cases hsome
      apply first_eq_none.mpr
      intro root hroot
      have htag : (v root).tag r t = none := by
        by_contra hne
        exact hno ⟨root, (src.mem_readOrder root).mp hroot, Option.ne_none_iff_isSome.mp hne⟩
      rcases h.advanced.tag r t root with hsame | ⟨-, d, ⟨-, bytes, hbytes, -⟩, -⟩
      · have hsame : (u root).tag r t = (v root).tag r t := hsame
        rw [Volumes.readAt, Contents.read_tag, hsame, htag]
        rfl
      · rw [hread] at hbytes
        cases hbytes

variable (hresolve : ∀ r, SelectedResolve cfg src v r)

include hresolve

theorem Synced.wantsTag_iff (r : RepoName) (t : TagName) (d : Digest) :
    WantsTag cfg src u r t d ↔ WantsTag cfg src v r t d := by
  refine and_congr_right fun hselect => ?_
  unfold Target
  rw [h.read_tag hheld hv hcoh hselect (hresolve r)]

theorem Synced.wants_iff (r : RepoName) (d : Digest) : Wants cfg src u r d ↔ Wants cfg src v r d := by
  have hreads : Reads src u r = Reads src v r :=
    funext fun e => funext fun bytes => propext (h.reads_iff hcoh r e bytes)
  have hstarts : StartsAt cfg src u r = StartsAt cfg src v r := by
    funext e
    exact propext (or_congr_right (exists_congr fun t => h.wantsTag_iff hheld hv hcoh hresolve r t e))
  unfold Wants
  rw [hreads, hstarts]

theorem Synced.wantsBlob_iff (r : RepoName) (b : Digest) :
    WantsBlob cfg src u r b ↔ WantsBlob cfg src v r b := by
  simp only [WantsBlob, h.wants_iff hheld hv hcoh hresolve, h.reads_iff hcoh]

-- No tag is new that was not selected, and those resolve.
theorem Synced.selectedResolve (r : RepoName) : SelectedResolve cfg src u r := by
  rintro t hselect ⟨root, hroot, htag⟩
  rw [h.read_tag hheld hv hcoh hselect (hresolve r)]
  rcases h.advanced.tag r t root with hsame | ⟨-, d, ⟨-, bytes, hbytes, -⟩, -⟩
  · have hsame : (u root).tag r t = (v root).tag r t := hsame
    exact hresolve r t hselect ⟨root, hroot, hsame ▸ htag⟩
  · rw [hbytes]
    rfl

theorem Synced.settled (hblobs : ∀ d, Places.Coherent (v.blobAt d)) {dst : Backend} (hdst : dst ∈ done) :
    (plan cfg src u).Settled src dst u := by
  have hcaught := hheld dst hdst
  refine ⟨⟨?_, ?_⟩, ?_⟩
  · rintro d ⟨r, hd⟩ bytes hsrc
    rw [h.advanced.src_blob (hblobs d)] at hsrc
    exact hcaught.held.blob d ⟨r, (h.wantsBlob_iff hheld hv hcoh hresolve r d).mp hd⟩ bytes hsrc
  · intro r d hd bytes hsrc
    rw [h.advanced.src_read (hcoh r)] at hsrc
    exact hcaught.held.manifest r d ((h.wants_iff hheld hv hcoh hresolve r d).mp hd) bytes hsrc
  · intro r t d ht
    exact hcaught.tag r t d ((h.wantsTag_iff hheld hv hcoh hresolve r t d).mp ht)

end Synced

theorem run_again {before after : Partitions} {primary : Backend} {cfg : ReplicateConfig}
    {report : ReplicateReport} {w w' : World} (hfree : w.volumes.CollisionFree)
    (hrun : (run (multi before primary after) cfg).run World.handle w = (.ok report, w')) : ∃ w'',
      (run (multi before primary after) cfg).run World.handle w' =
        (.ok ⟨(secondaries before after).length, 0, 0, 0⟩, w'') ∧ w''.volumes = w'.volumes := by
  have hv := w.volumes_wellFormed
  have hcoh := hfree.coherent hv
  obtain ⟨hlisted, hsynced, hheld⟩ := synced_of_run hfree hrun
  have hheld : ∀ b ∈ (secondaries before after).reverse,
      CaughtUp cfg primary b w.volumes w'.volumes := fun b hb => hheld b (List.mem_reverse.mp hb)
  have hresolve : ∀ r, SelectedResolve cfg primary w.volumes r :=
    fun r t hselect htag => hlisted r (primary.hasRepo_of_hasTag w htag) t hselect htag
  have hcoh' := (hsynced.collisionFree hfree).coherent w'.volumes_wellFormed
  obtain ⟨repos, hlist, hrepos⟩ := primary.run_listRepos w'
  obtain ⟨wanted, hgather, hwanted⟩ := run_gather cfg primary w' repos.toList (fun repo _ => hcoh' repo)
    repos.nodup (gathered_empty cfg primary w'.volumes) (by simp)
    fun repo _ => hsynced.selectedResolve hheld hv hcoh hresolve repo
  have hsettled : ∀ b ∈ secondaries before after,
      (plan cfg primary w'.volumes).Settled primary b w'.volumes := fun b hb =>
    hsynced.settled hheld hv hcoh hresolve (hfree.blobAt hv) (List.mem_reverse.mpr hb)
  have hblobs : ∀ r d, key r d ∈ wanted.blobs → (plan cfg primary w'.volumes).blob d :=
    fun r d hd => ⟨r, ((hwanted.blob r d).mp hd).2⟩
  obtain ⟨w'', hfan, -, hsame⟩ := run_fanOut_settled hcoh' hblobs
    (fun r d hd => ((hwanted.manifest r d).mp hd).2) (fun r t d ht => ((hwanted.tag r t d).mp ht).2)
    (secondaries before after) hsettled .empty w' rfl
  refine ⟨w'', ?_, hsame⟩
  rw [run, secondaries_multi]
  refine (run_bind_of_ok hlist _).trans ?_
  refine (run_bind_of_ok hgather _).trans (hfan.trans ?_)
  simp only [ReplicateReport.empty, Nat.zero_add]

-- Once a pass or the copy of a repository succeeded, another one copies nothing and leaves
-- every storage root as it is.
theorem copies_idempotent {w : World} (hfree : w.volumes.CollisionFree) :
    (∀ before primary after cfg report w',
      (run (multi before primary after) cfg).run World.handle w = (.ok report, w') → ∃ w'',
        (run (multi before primary after) cfg).run World.handle w' =
          (.ok ⟨(secondaries before after).length, 0, 0, 0⟩, w'') ∧ w''.volumes = w'.volumes) ∧
    ∀ (src dst : Backend) repo report report' w',
      (Migrate.copyRepo src.storage dst.storage repo report).run World.handle w =
        (.ok report', w') → ∀ again, ∃ w'',
          (Migrate.copyRepo src.storage dst.storage repo again).run World.handle w' =
            (.ok again, w'') ∧ w''.volumes = w'.volumes :=
  ⟨fun _ _ _ _ _ _ hrun => run_again hfree hrun,
    fun _ _ _ _ _ _ hrun => Migrate.copyRepo_again hfree hrun⟩

end

section

attribute [local instance] Sample.sha2 Sample.serdeJson

theorem unmirrored_copied : ∃ report w', (Migrate.copyRepo (.fs 1 0 : Backend).storage mirror.storage
    Sample.dataX .empty).run World.handle unmirrored = (.ok report, w') := by
  have hok : ((Migrate.copyRepo (.fs 1 0 : Backend).storage mirror.storage Sample.dataX .empty).run
      World.handle unmirrored).1.isOk := by decide +kernel
  rcases hrun : (Migrate.copyRepo (.fs 1 0 : Backend).storage mirror.storage Sample.dataX .empty).run
      World.handle unmirrored with ⟨result, w'⟩
  rw [hrun] at hok
  cases result with
  | ok report => exact ⟨report, w', rfl⟩
  | error err => cases hok

-- The mirror is brought up once, in one way or the other, and then left alone.
theorem mirrored_idempotent :
    unmirrored.volumes.CollisionFree ∧
    (∃ w'', (run (multi .nil (.fs 1 0) (.cons "mirror" mirror .nil)) versions).run World.handle mirrored =
      (.ok ⟨1, 0, 0, 0⟩, w'') ∧ w''.volumes = mirrored.volumes) ∧
    ∃ w' w'', (Migrate.copyRepo (.fs 1 0 : Backend).storage mirror.storage Sample.dataX .empty).run
      World.handle w' = (.ok .empty, w'') ∧ w''.volumes = w'.volumes := by
  have hagain := copies_idempotent unmirrored_collisionFree
  obtain ⟨report, w', hcopied⟩ := unmirrored_copied
  obtain ⟨w'', hrun, hsame⟩ := hagain.2 _ _ _ _ _ _ hcopied .empty
  exact ⟨unmirrored_collisionFree, hagain.1 _ _ _ _ _ _ mirrored_run, w', w'', hrun, hsame⟩

end

end RspaceRegistry.Replicate
