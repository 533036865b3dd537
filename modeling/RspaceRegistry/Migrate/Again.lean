import RspaceRegistry.Backend.Settled
import RspaceRegistry.Migrate.Reads

namespace RspaceRegistry.Migrate

open Calls Fallible Ordered Places

variable [Sha2] [SerdeJson]

-- A second copy of a repository.

-- What a copy of the repository brings over.
def repoPlan (src : Backend) (v : Volumes) (repo : RepoName) : Plan where
  blob := Referenced src v repo
  manifest r _ := r = repo
  tag r t d := r = repo ∧ Target src v repo t d

section Settled

variable {src dst : Backend} {w : World} {repo : RepoName}

omit [SerdeJson] in
theorem run_copyBlobs_settled (repo : RepoName) (blobs : List Digest) (report : MigrateReport)
    (h : ∀ d ∈ blobs, (src.blob w.volumes d).isSome → (dst.blob w.volumes d).isSome) :
    (copyBlobs src.storage dst.storage repo blobs report).run World.handle w = (.ok report, w) := by
  induction blobs with
  | nil => rfl
  | cons d rest ih =>
      have hrest := ih fun e he => h e (List.mem_cons_of_mem d he)
      rw [copyBlobs, run_bind_of_ok (dst.run_blobExists w repo.text d)]
      by_cases hd : (dst.blob w.volumes d).isSome
      · rw [if_pos hd]
        exact hrest
      · have hsrc : src.blob w.volumes d = none :=
          Option.not_isSome_iff_eq_none.mp (mt (h d List.mem_cons_self) hd)
        rw [if_neg hd, run_attempt_bind (src.run_blobRead w repo.text d), hsrc]
        exact hrest

omit [SerdeJson] in
theorem run_copyManifests_settled (repo : RepoName) (digests : List Digest) (report : MigrateReport)
    (h : ∀ d ∈ digests, (src.read w.volumes repo (.digest d)).isSome →
      (dst.read w.volumes repo (.digest d)).isSome) :
    (copyManifests src.storage dst.storage repo digests report).run World.handle w =
      (.ok report, w) := by
  induction digests with
  | nil => rfl
  | cons d rest ih =>
      have hrest := ih fun e he => h e (List.mem_cons_of_mem d he)
      rw [copyManifests, run_attempt_bind (dst.run_manifestGet w repo (.digest d))]
      cases hdst : dst.read w.volumes repo (.digest d) with
      | some content => exact hrest
      | none =>
          have hsrc : src.read w.volumes repo (.digest d) = none := by
            apply Option.not_isSome_iff_eq_none.mp
            intro hsome
            have hthere := h d List.mem_cons_self hsome
            rw [hdst] at hthere
            cases hthere
          rw [orNotFound_none]
          simp only
          rw [run_attempt_bind (src.run_manifestGet w repo (.digest d)), hsrc]
          exact hrest

theorem run_copyTags_settled {v : Volumes} (hsettled : (repoPlan src v repo).Settled src dst v)
    (hcoh : ∀ r, v.Coherent r) (entries : List (TagName × Digest))
    (htags : ∀ entry ∈ entries, Target src v repo entry.1 entry.2) (w : World) (hw : w.volumes = v) :
    ∃ w', (copyTags src.storage dst.storage repo entries).run World.handle w = (.ok (), w') ∧
      World.SameRules w w' ∧ w'.volumes = v := by
  induction entries generalizing w with
  | nil => exact ⟨w, rfl, .refl w, hw⟩
  | cons entry rest ih =>
      obtain ⟨t, d⟩ := entry
      have hrest := ih fun other hother => htags other (List.mem_cons_of_mem _ hother)
      rw [copyTags, run_attempt_bind (src.run_manifestGet w repo (.digest d)), hw]
      cases hsrc : src.read v repo (.digest d) with
      | none => exact hrest w hw
      | some bytes =>
          obtain ⟨w₁, hput, hsame₁, hv₁⟩ := hsettled.run_put hw hcoh
            ⟨rfl, htags (t, d) List.mem_cons_self⟩ hsrc
          obtain ⟨w', hrun, hsame, hv'⟩ := hrest w₁ hv₁
          refine ⟨w', ?_, hsame₁.trans hsame, hv'⟩
          exact (run_bind_of_ok hput _).trans hrun

-- A copy to where everything is copies nothing and changes nothing.
theorem run_copyRepo_settled (report : MigrateReport) (hcoh : ∀ r, w.volumes.Coherent r)
    (hresolve : TagsResolve src w.volumes repo)
    (hsettled : (repoPlan src w.volumes repo).Settled src dst w.volumes) : ∃ w',
      (copyRepo src.storage dst.storage repo report).run World.handle w = (.ok report, w') ∧
        World.SameRules w w' ∧ w'.volumes = w.volumes := by
  obtain ⟨⟨entries, walked⟩, hsurvey, hfound⟩ := run_survey src w (hcoh repo) hresolve
  have hblobs := run_copyBlobs_settled repo walked.blobs.toList report
    fun d hd => hsettled.blob ((hfound.blob d).mp hd)
  have hmanifests := run_copyManifests_settled repo walked.manifests.toList report
    fun d _ => hsettled.manifest rfl
  obtain ⟨w', hrun, hsame, hv⟩ := run_copyTags_settled hsettled hcoh entries
    (fun entry he => (hfound.tag entry.1 entry.2).mp he) w rfl
  refine ⟨w', ?_, hsame, hv⟩
  rw [copyRepo_eq, run_bind_of_ok hsurvey, copyFound]
  rw [run_bind_of_ok hblobs, run_bind_of_ok hmanifests, run_bind_of_ok hrun]
  rfl

end Settled

section Copied

variable {src dst : Backend} {v u : Volumes} {repo : RepoName}

theorem CopiedRepo.alone (h : CopiedRepo src dst v u repo) : CopiedRepos src dst [repo] v u :=
  CopiedRepos.cons src dst List.not_mem_nil h (copiedRepos_nil src dst u)

variable (h : CopiedRepo src dst v u repo) (hv : ∀ root, (v root).WellFormed)
variable (hcoh : ∀ r, v.Coherent r) (hresolve : TagsResolve src v repo)

include h hv hcoh hresolve

theorem CopiedRepo.target_iff (tag : TagName) (d : Digest) :
    Target src u repo tag d ↔ Target src v repo tag d := by
  have hread := h.alone.read_src (List.mem_singleton_self repo) hv (hcoh repo) hresolve (.tag tag)
  unfold Target
  rw [hread]

omit hv hcoh hresolve in
theorem CopiedRepo.referenced_iff (d : Digest) : Referenced src u repo d ↔ Referenced src v repo d := by
  have hread := h.alone.read_src_digest (List.mem_singleton_self repo)
  simp only [Referenced, hread]

-- The tags are where they were.
theorem CopiedRepo.tagsResolve : TagsResolve src u repo := by
  intro tag htag
  have hsrc : src.HasTag v repo tag := by
    rcases (h.alone.hasTag (List.mem_singleton_self repo) src hresolve).mp htag with hsrc | ⟨-, hsrc⟩
    · exact hsrc
    · exact hsrc
  rw [h.alone.read_src (List.mem_singleton_self repo) hv (hcoh repo) hresolve]
  exact hresolve tag hsrc

theorem CopiedRepo.settled (hblobs : ∀ d, Places.Coherent (v.blobAt d)) :
    (repoPlan src u repo).Settled src dst u := by
  have hmem : repo ∈ [repo] := List.mem_singleton_self repo
  refine ⟨⟨fun d hd bytes hsrc => ?_, ?_⟩, ?_⟩
  · rw [h.alone.blob_src] at hsrc
    rw [h.alone.blob_dst ⟨repo, hmem, (h.referenced_iff d).mp hd⟩, hsrc]
    cases hdst : dst.blob v d with
    | none => rfl
    | some other => rw [Option.some_or, (hblobs d).first_unique hdst hsrc]
  · rintro r d rfl bytes hsrc
    rw [h.alone.read_src_digest hmem] at hsrc
    rw [h.alone.read_dst_digest hmem (hcoh r), hsrc]
    cases hdst : dst.read v r (.digest d) with
    | none => rfl
    | some other => rw [Option.some_or, (hcoh r d).first_unique hdst hsrc]
  · rintro r t d ⟨rfl, ht⟩
    obtain ⟨bytes, hbytes, rfl⟩ := (h.target_iff hv hcoh hresolve t d).mp ht
    have htarget : Target src v r t (sha256Digest bytes) := ⟨bytes, hbytes, rfl⟩
    obtain ⟨root, hroot, hat⟩ := exists_of_first hbytes
    obtain ⟨d, _, hd⟩ := (Contents.read_eq_some _ _ _ _).mp hat
    have haddr := (hv root).manifest_addressed r d bytes hd
    have hsrc : first src.readOrder (v.manifestAt r (sha256Digest bytes)) = some bytes := by
      rw [haddr]
      exact (hcoh r d).first_eq hroot hd
    rw [h.tag t _ htarget, Function.update_self, h.targeted _ ⟨t, htarget⟩, forceSlot,
      force_of_some hsrc, Function.update_self]
    exact ⟨rfl, rfl⟩

end Copied

-- Once a copy of a repository succeeded, another one copies no blob and no manifest.
theorem copyRepo_again {src dst : Backend} {repo : RepoName} {report report' : MigrateReport}
    {w w' : World} (hfree : w.volumes.CollisionFree)
    (hrun : (copyRepo src.storage dst.storage repo report).run World.handle w = (.ok report', w'))
    (again : MigrateReport) : ∃ w'',
      (copyRepo src.storage dst.storage repo again).run World.handle w' = (.ok again, w'') ∧
        w''.volumes = w'.volumes := by
  have hv := w.volumes_wellFormed
  have hcoh := hfree.coherent hv
  have hresolve : TagsResolve src w.volumes repo := by
    by_contra hdangling
    rw [run_copyRepo_dangling src dst w report (hcoh repo) hdangling] at hrun
    cases (Prod.mk.inj hrun).1
  obtain ⟨report₁, w₁, hrun₁, -, hcopied⟩ := run_copyRepo src dst w report (hcoh repo) hresolve
  obtain ⟨-, rfl⟩ := Prod.mk.inj (hrun.symm.trans hrun₁)
  have hfree' : w'.volumes.CollisionFree := by
    intro algorithm content content' hc hc'
    exact hfree algorithm content content' (hcopied.alone.stores src dst content hc)
      (hcopied.alone.stores src dst content' hc')
  obtain ⟨w'', hagain, -, hsame⟩ := run_copyRepo_settled again
    (hfree'.coherent w'.volumes_wellFormed) (hcopied.tagsResolve hv hcoh hresolve)
    (hcopied.settled hv hcoh hresolve (hfree.blobAt hv))
  exact ⟨w'', hagain, hsame⟩

end RspaceRegistry.Migrate
