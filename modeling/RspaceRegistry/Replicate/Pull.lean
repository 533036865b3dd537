import RspaceRegistry.Replicate.Copy

namespace RspaceRegistry.Replicate

open Calls Fallible Ordered Places
open Migrate (Target Reads fillSlot forceSlot)

variable [Sha2] [SerdeJson] (cfg : ReplicateConfig) (src dst : Backend) (v : Volumes)

-- The outcome of `copy_into` on one secondary, for what was wanted of the source
-- when its roots were `v`.
structure Pulled (u u' : Volumes) : Prop where
  blob : ∀ d, (∃ r, WantsBlob cfg src v r d) → u'.blobAt d = fillSlot src dst (u.blobAt d)
  otherBlob : ∀ d, (¬∃ r, WantsBlob cfg src v r d) → u'.blobAt d = u.blobAt d
  pointed : ∀ r d, (∃ t, WantsTag cfg src v r t d) →
    u'.manifestAt r d = forceSlot src dst (u.manifestAt r d)
  walked : ∀ r d, Wants cfg src v r d → (¬∃ t, WantsTag cfg src v r t d) →
    u'.manifestAt r d = fillSlot src dst (u.manifestAt r d)
  otherManifest : ∀ r d, ¬Wants cfg src v r d → u'.manifestAt r d = u.manifestAt r d
  tag : ∀ r t d, WantsTag cfg src v r t d →
    u'.tagAt r t = Function.update (u.tagAt r t) dst.head (some d)
  otherTag : ∀ r t, (¬∃ d, WantsTag cfg src v r t d) → u'.tagAt r t = u.tagAt r t
  repoKept : ∀ root r, (u root).repo r → (u' root).repo r
  repoNew : ∀ root r, (u' root).repo r → (u root).repo r ∨ ∃ d, Wants cfg src v r d

variable {cfg src v}

omit [SerdeJson] in
-- What a tag points to is read under its digest as well.
theorem reads_of_wantsTag (hcoh : ∀ r, v.Coherent r) (hv : ∀ root, (v root).WellFormed)
    {r : RepoName} {t : TagName} {d : Digest} (h : WantsTag cfg src v r t d) :
    ∃ bytes, src.read v r (.tag t) = some bytes ∧ Reads src v r d bytes := by
  obtain ⟨_, bytes, hbytes, rfl⟩ := h
  obtain ⟨root, hroot, hread⟩ := exists_of_first hbytes
  obtain ⟨d, _, hd⟩ := (Contents.read_eq_some _ _ _ _).mp hread
  have haddr := (hv root).manifest_addressed r d bytes hd
  refine ⟨bytes, hbytes, ?_⟩
  rw [haddr]
  exact (hcoh r d).first_eq hroot hd

theorem wants_of_wantsTag (hcoh : ∀ r, v.Coherent r) (hv : ∀ root, (v root).WellFormed)
    {r : RepoName} {t : TagName} {d : Digest} (h : WantsTag cfg src v r t d) :
    Wants cfg src v r d := by
  obtain ⟨bytes, _, hr⟩ := reads_of_wantsTag hcoh hv h
  exact .start (.inr ⟨t, h⟩) hr

theorem run_copyInto {done : RepoName → Prop} {wanted : Wanted} (report : ReplicateReport)
    (w : World) (hwanted : Gathered cfg src v done wanted)
    (hlisted : ∀ r d, Wants cfg src v r d → done r)
    (hcoh : ∀ r, v.Coherent r) (hv : ∀ root, (v root).WellFormed)
    (hsame : ∀ r d, src.read w.volumes r (.digest d) = src.read v r (.digest d)) :
    ∃ report' w', (copyInto src.storage dst.storage wanted report).run World.handle w =
        (.ok report', w') ∧ World.SameRules w w' ∧
      Pulled cfg src dst v w.volumes w'.volumes := by
  have hmanifest : ∀ r d, key r d ∈ wanted.manifests.toList ↔ Wants cfg src v r d := by
    intro r d
    refine (hwanted.manifest r d).trans ⟨And.right, fun h => ⟨hlisted r d h, h⟩⟩
  have hblob : ∀ d, (∃ r, key r d ∈ wanted.blobs.toList) ↔ ∃ r, WantsBlob cfg src v r d := by
    intro d
    refine exists_congr fun r => (hwanted.blob r d).trans ⟨And.right, fun h => ⟨?_, h⟩⟩
    obtain ⟨e, _, he, _⟩ := h
    exact hlisted r e he
  have htag : ∀ r t d, (r, t, d) ∈ wanted.tags ↔ WantsTag cfg src v r t d := by
    intro r t d
    refine (hwanted.tag r t d).trans ⟨And.right, fun h => ⟨?_, h⟩⟩
    exact hlisted r d (wants_of_wantsTag hcoh hv h)
  obtain ⟨report₁, w₁, hrun₁, hsame₁, h₁⟩ := run_copyBlobs src dst wanted.blobs.toList report w
  obtain ⟨report₂, w₂, hrun₂, hsame₂, h₂⟩ :=
    run_copyManifests src dst wanted.manifests.toList report₁ w₁
  have h₁ := h₁.congr src dst fun d => (hblob d).symm
  have h₂ := h₂.congr src dst fun r d => (hmanifest r d).symm
  have hread : ∀ entry ∈ wanted.tags,
      (src.read w₂.volumes entry.1 (.digest entry.2.2)).isSome := by
    rintro ⟨r, t, d⟩ he
    have hw := (htag r t d).mp he
    obtain ⟨bytes, _, hr⟩ := reads_of_wantsTag hcoh hv hw
    have hfilled := h₂.manifest r d (wants_of_wantsTag hcoh hv hw)
    have hw₀ : first src.readOrder (w.volumes.manifestAt r d) = some bytes := (hsame r d).trans hr
    rw [Backend.read_digest, hfilled, fillSlot, first_src_fill dst.head_mem_readOrder, h₁.manifest,
      hw₀]
    rfl
  obtain ⟨w₃, hrun₃, hsame₃, h₃⟩ := run_copyTags src dst wanted.tags w₂ hwanted.nodup hread
  have h₃ := h₃.congr src dst fun r t d => (htag r t d).symm
  refine ⟨report₂, w₃, ?_, (hsame₁.trans hsame₂).trans hsame₃, ?_⟩
  · rw [copyInto, run_bind_of_ok hrun₁, run_bind_of_ok hrun₂, run_bind_of_ok hrun₃]
    rfl
  · refine ⟨?_, ?_, ?_, ?_, ?_, ?_, ?_, ?_, ?_⟩
    · intro d hd
      rw [h₃.blob, h₂.blob, h₁.blob d hd]
    · intro d hd
      rw [h₃.blob, h₂.blob, h₁.otherBlob d hd]
    · rintro r d ⟨t, ht⟩
      rw [h₃.manifest r d ⟨t, ht⟩, h₂.manifest r d (wants_of_wantsTag hcoh hv ht), h₁.manifest,
        forceSlot, fillSlot, force_fill dst.head_mem_readOrder]
    · intro r d hd ht
      rw [h₃.otherManifest r d ht, h₂.manifest r d hd, h₁.manifest]
    · intro r d hd
      have ht : ¬∃ t, WantsTag cfg src v r t d :=
        fun ht => ht.elim fun _ ht => hd (wants_of_wantsTag hcoh hv ht)
      rw [h₃.otherManifest r d ht, h₂.otherManifest r d hd, h₁.manifest]
    · intro r t d ht
      rw [h₃.tag r t d ht, h₂.tag, h₁.tag]
    · intro r t ht
      rw [h₃.otherTag r t ht, h₂.tag, h₁.tag]
    · intro root r hr
      exact h₃.repoKept root r (h₂.repoKept root r ((h₁.repo root r).mpr hr))
    · intro root r hr
      rcases h₃.repoNew root r hr with hr | ⟨t, d, ht⟩
      · exact (h₂.repoNew root r hr).imp_left (h₁.repo root r).mp
      · exact .inr ⟨d, wants_of_wantsTag hcoh hv ht⟩

end RspaceRegistry.Replicate
