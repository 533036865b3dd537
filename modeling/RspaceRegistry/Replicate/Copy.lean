import RspaceRegistry.Replicate.Gather

namespace RspaceRegistry.Replicate

open Calls Fallible Ordered Places
open Migrate (fillSlot forceSlot CopiedBlobs CopiedManifests CopiedTags)

variable [Sha2] (src dst : Backend)

-- What the three loops of `copy_into` do when nothing else runs and nothing
-- fails: the steps are those of a migration, over several repositories.

theorem run_copyBlobs (entries : List Key) (report : ReplicateReport) (w : World) :
    ∃ report' w', (copyBlobs src.storage dst.storage entries report).run World.handle w =
        (.ok report', w') ∧ World.SameRules w w' ∧
      CopiedBlobs src dst (fun d => ∃ r, key r d ∈ entries) w.volumes w'.volumes := by
  induction entries generalizing report w with
  | nil =>
      refine ⟨report, w, rfl, .refl w, (Migrate.copiedBlobs_nil src dst w.volumes).congr src dst ?_⟩
      simp
  | cons entry rest ih =>
      obtain ⟨repo, d, rfl⟩ := exists_key entry
      have hcons : ∀ e, (∃ r, key r e ∈ key repo d :: rest) ↔ e = d ∨ ∃ r, key r e ∈ rest := by
        intro e
        simp only [List.mem_cons, key_inj, exists_or, exists_eq_left]
      have hskip : fillSlot src dst (w.volumes.blobAt d) = w.volumes.blobAt d →
          ∃ report' w', (copyBlobs src.storage dst.storage rest report).run World.handle w =
              (.ok report', w') ∧ World.SameRules w w' ∧
            CopiedBlobs src dst (fun e => ∃ r, key r e ∈ key repo d :: rest)
              w.volumes w'.volumes := by
        intro hskip
        obtain ⟨report', w', hrun, hsame, h⟩ := ih report w
        exact ⟨report', w', hrun, hsame,
          ((Migrate.copiedBlobs_skip src dst hskip).trans src dst h).congr src dst hcons⟩
      rw [copyBlobs]
      show ∃ report' w', Fallible.run World.handle (dst.storage.blobExists repo.text d >>= _) w = _ ∧ _
      rw [run_bind_of_ok (dst.run_blobExists w repo.text d)]
      by_cases hd : (dst.blob w.volumes d).isSome
      · rw [if_pos hd]
        exact hskip (fill_of_some hd)
      · have hdst : dst.blob w.volumes d = none := Option.not_isSome_iff_eq_none.mp hd
        rw [if_neg hd]
        show ∃ report' w', Fallible.run World.handle
          (attempt (src.storage.blobRead repo.text d) >>= _) w = _ ∧ _
        rw [run_attempt_bind (src.run_blobRead w repo.text d)]
        cases hsrc : src.blob w.volumes d with
        | none => exact hskip (fill_of_src_none dst.head_mem_readOrder hsrc)
        | some content =>
            obtain ⟨root, _, hc⟩ := Backend.exists_of_blob hsrc
            have haddr := (w.volumes_wellFormed root).blob_addressed d content hc
            obtain ⟨w₁, hwrite, hsame₁, hvol₁⟩ := dst.run_blobWrite w repo.text d content haddr
            obtain ⟨report', w', hrun, hsame, h⟩ := ih
              { report with
                blobsCopied := report.blobsCopied + 1
                bytesCopied := report.bytesCopied + content.length } w₁
            have hstep := Migrate.copiedBlobs_write src dst hdst hsrc
            rw [← hvol₁] at hstep
            refine ⟨report', w', ?_, hsame₁.trans hsame,
              (hstep.trans src dst h).congr src dst hcons⟩
            refine Eq.trans ?_ hrun
            exact run_bind_of_ok hwrite _

theorem run_copyManifests (entries : List Key) (report : ReplicateReport) (w : World) :
    ∃ report' w', (copyManifests src.storage dst.storage entries report).run World.handle w =
        (.ok report', w') ∧ World.SameRules w w' ∧
      CopiedManifests src dst (fun r d => key r d ∈ entries) w.volumes w'.volumes := by
  induction entries generalizing report w with
  | nil =>
      refine ⟨report, w, rfl, .refl w, (Migrate.copiedManifests_nil src dst w.volumes).congr src dst ?_⟩
      simp
  | cons entry rest ih =>
      obtain ⟨repo, d, rfl⟩ := exists_key entry
      have hcons : ∀ r e, key r e ∈ key repo d :: rest ↔ (r = repo ∧ e = d) ∨ key r e ∈ rest := by
        intro r e
        rw [List.mem_cons, key_inj]
      have hskip : fillSlot src dst (w.volumes.manifestAt repo d) = w.volumes.manifestAt repo d →
          ∃ report' w', (copyManifests src.storage dst.storage rest report).run World.handle w =
              (.ok report', w') ∧ World.SameRules w w' ∧
            CopiedManifests src dst (fun r e => key r e ∈ key repo d :: rest)
              w.volumes w'.volumes := by
        intro hskip
        obtain ⟨report', w', hrun, hsame, h⟩ := ih report w
        exact ⟨report', w', hrun, hsame,
          ((Migrate.copiedManifests_skip src dst hskip).trans src dst h).congr src dst hcons⟩
      rw [copyManifests]
      show ∃ report' w', Fallible.run World.handle
        (attempt (dst.storage.manifestGet repo (.digest d)) >>= _) w = _ ∧ _
      rw [run_attempt_bind (dst.run_manifestGet w repo (.digest d))]
      cases hdst : dst.read w.volumes repo (.digest d) with
      | some content => exact hskip (fill_of_some (Option.isSome_iff_exists.mpr ⟨content, hdst⟩))
      | none =>
          rw [orNotFound_none]
          simp only
          show ∃ report' w', Fallible.run World.handle
            (attempt (src.storage.manifestGet repo (.digest d)) >>= _) w = _ ∧ _
          rw [run_attempt_bind (src.run_manifestGet w repo (.digest d))]
          cases hsrc : src.read w.volumes repo (.digest d) with
          | none => exact hskip (fill_of_src_none dst.head_mem_readOrder hsrc)
          | some content =>
              obtain ⟨root, _, hc⟩ := Backend.exists_of_read hsrc
              have haddr := (w.volumes_wellFormed root).manifest_addressed repo d content hc
              obtain ⟨w₁, hput, hsame₁, hvol₁⟩ := dst.run_manifestPut w repo (.digest d) content
              obtain ⟨report', w', hrun, hsame, h⟩ :=
                ih { report with manifestsCopied := report.manifestsCopied + 1 } w₁
              have hstep := Migrate.copiedManifests_put src dst hdst hsrc haddr
              rw [← hvol₁] at hstep
              refine ⟨report', w', ?_, hsame₁.trans hsame,
                (hstep.trans src dst h).congr src dst hcons⟩
              refine Eq.trans ?_ hrun
              exact run_bind_of_ok hput _

theorem run_copyTags (entries : List (RepoName × TagName × Digest)) (w : World)
    (hnodup : (entries.map fun entry => (entry.1, entry.2.1)).Nodup)
    (hread : ∀ entry ∈ entries, (src.read w.volumes entry.1 (.digest entry.2.2)).isSome) :
    ∃ w', (copyTags src.storage dst.storage entries).run World.handle w = (.ok (), w') ∧
      World.SameRules w w' ∧
      CopiedTags src dst (fun r t d => (r, t, d) ∈ entries) w.volumes w'.volumes := by
  induction entries generalizing w with
  | nil =>
      refine ⟨w, rfl, .refl w, (Migrate.copiedTags_nil src dst w.volumes).congr src dst ?_⟩
      simp
  | cons entry rest ih =>
      obtain ⟨repo, t, d⟩ := entry
      obtain ⟨content, hsrc⟩ := Option.isSome_iff_exists.mp (hread _ List.mem_cons_self)
      obtain ⟨root, _, hc⟩ := Backend.exists_of_read hsrc
      have haddr := (w.volumes_wellFormed root).manifest_addressed repo d content hc
      obtain ⟨w₁, hput, hsame₁, hvol₁⟩ := dst.run_manifestPut w repo (.tag t) content
      obtain ⟨ht, hnodup'⟩ := List.nodup_cons.mp hnodup
      have hread₁ : ∀ entry ∈ rest, (src.read w₁.volumes entry.1 (.digest entry.2.2)).isSome := by
        intro entry he
        rw [hvol₁]
        exact Migrate.read_after_put src dst hsrc haddr (hread entry (List.mem_cons_of_mem _ he))
      obtain ⟨w', hrun, hsame, h⟩ := ih w₁ hnodup' hread₁
      refine ⟨w', ?_, hsame₁.trans hsame, ?_⟩
      · rw [copyTags, run_attempt_bind (src.run_manifestGet w repo (.digest d)), hsrc]
        refine Eq.trans ?_ hrun
        exact run_bind_of_ok hput _
      · have hstep := Migrate.copiedTags_put src dst (t := t) hsrc haddr
        rw [← hvol₁] at hstep
        refine (hstep.trans src dst ?_ h).congr src dst ?_
        · rintro r t' e e' ⟨rfl, rfl, _⟩ hm
          exact ht (List.mem_map.mpr ⟨_, hm, rfl⟩)
        · intro r t' e
          rw [List.mem_cons, Prod.mk.injEq, Prod.mk.injEq]

end RspaceRegistry.Replicate
