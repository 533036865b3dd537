import Mathlib.Algebra.Ring.Nat
import RspaceRegistry.Gc
import RspaceRegistry.Backend.Run

namespace RspaceRegistry

open Calls Fallible Ordered

namespace Contents

def removeBlobs (c : Contents) (blobs : List Digest) : Contents :=
  { c with blob := fun d => if d ∈ blobs then none else c.blob d }

open Classical in
noncomputable def keepBlobs (c : Contents) (keep : Digest → Prop) : Contents :=
  { c with blob := fun d => if keep d then c.blob d else none }

-- Removing what is not to be kept is keeping the rest.
theorem removeBlobs_eq_keepBlobs (c : Contents) (blobs : List Digest) (keep : Digest → Prop)
    (h : ∀ d, (c.blob d).isSome → (d ∈ blobs ↔ ¬keep d)) : c.removeBlobs blobs = c.keepBlobs keep := by
  unfold removeBlobs keepBlobs
  ext1
  · funext d
    cases hd : c.blob d with
    | none => simp only [hd, ite_self]
    | some content =>
        have hmem := h d (by rw [hd]; rfl)
        by_cases hk : keep d
        · have hnot : d ∉ blobs := fun hm => hmem.mp hm hk
          simp only [hd, if_neg hnot, if_pos hk]
        · simp only [hd, if_pos (hmem.mpr hk), if_neg hk]
  all_goals rfl

end Contents

namespace Gc

variable [Sha2] [SerdeJson]

-- What the collector has to keep: every stored manifest's digest, and what a
-- manifest names that parses.
def Marked (b : Backend) (v : Volumes) (d : Digest) : Prop :=
  ∃ repo digest content, b.read v repo (.digest digest) = some content ∧
    (d = digest ∨ d ∈ references content)

-- The mark phase counts other things than the sweep.
def SameDeleted (report report' : GcReport) : Prop :=
  report'.deletedBlobs = report.deletedBlobs ∧ report'.deletedBytes = report.deletedBytes

variable (b : Backend) (w : World)

section Mark

-- A store that answers from what is stored, and by digest alone.
variable {storage : Storage} {stored : RepoName → Digest → Option Bytes}
variable (hget : ∀ repo d, (storage.manifestGet repo (.digest d)).run World.handle w =
  (orNotFound (stored repo d), w))

include hget

theorem run_markDigests (repo : RepoName) (digests : List Digest) (reachable : BTreeSet Digest)
    (report : GcReport) : ∃ reachable' report',
      (markDigests storage repo digests reachable report).run World.handle w =
        (.ok (reachable', report'), w) ∧ SameDeleted report report' ∧
      ∀ d, d ∈ reachable' ↔ d ∈ reachable ∨ ∃ digest ∈ digests, d = digest ∨
        ∃ content, stored repo digest = some content ∧
          d ∈ references content := by
  induction digests generalizing reachable report with
  | nil =>
      refine ⟨reachable, report, rfl, ⟨rfl, rfl⟩, ?_⟩
      intro d
      simp
  | cons digest rest ih =>
      rw [markDigests]
      rw [run_attempt_bind (hget repo digest)]
      cases hread : stored repo digest with
      | none =>
          obtain ⟨reachable', report', hrun, hreport, hmem⟩ := ih (reachable.insert digest)
            { report with manifestsScanned := report.manifestsScanned + 1 }
          refine ⟨reachable', report', hrun, hreport, ?_⟩
          intro d
          rw [hmem, BTreeSet.mem_insert]
          simp only [List.mem_cons, exists_eq_or_imp, hread, reduceCtorEq, false_and, exists_false,
            or_false]
          exact or_assoc.trans or_left_comm
      | some content =>
          obtain ⟨reachable', report', hrun, hreport, hmem⟩ :=
            ih ((reachable.insert digest).extend (references content))
              { report with manifestsScanned := report.manifestsScanned + 1 }
          refine ⟨reachable', report', hrun, hreport, ?_⟩
          intro d
          rw [hmem, BTreeSet.mem_extend, BTreeSet.mem_insert]
          simp only [List.mem_cons, exists_eq_or_imp, hread, Option.some.injEq, exists_eq_left']
          rw [or_left_comm]
          exact (or_congr_left or_assoc.symm).trans (or_assoc.trans or_left_comm)

variable (hlist : ∀ repo, ∃ digests,
  (storage.listManifestDigests repo).run World.handle w = (.ok digests, w) ∧
    ∀ d, d ∈ digests ↔ (stored repo d).isSome)

include hlist

theorem run_markRepos (repos : List RepoName) (reachable : BTreeSet Digest)
    (report : GcReport) : ∃ reachable' report',
      (markRepos storage repos reachable report).run World.handle w =
        (.ok (reachable', report'), w) ∧ SameDeleted report report' ∧
      ∀ d, d ∈ reachable' ↔ d ∈ reachable ∨ ∃ repo ∈ repos, ∃ digest content,
        stored repo digest = some content ∧
          (d = digest ∨ d ∈ references content) := by
  induction repos generalizing reachable report with
  | nil =>
      refine ⟨reachable, report, rfl, ⟨rfl, rfl⟩, ?_⟩
      intro d
      simp
  | cons repo rest ih =>
      obtain ⟨digests, hlisted, hdigests⟩ := hlist repo
      obtain ⟨reachable₁, report₁, hrun₁, hreport₁, hmem₁⟩ :=
        run_markDigests w hget repo digests.toList reachable report
      obtain ⟨reachable', report', hrun, hreport, hmem⟩ := ih reachable₁ report₁
      refine ⟨reachable', report', ?_, ?_, ?_⟩
      · rw [markRepos, run_bind_of_ok hlisted, run_bind_of_ok hrun₁]
        exact hrun
      · exact ⟨hreport.1.trans hreport₁.1, hreport.2.trans hreport₁.2⟩
      · intro d
        have hhere : (∃ digest ∈ digests.toList, d = digest ∨ ∃ content,
            stored repo digest = some content ∧ d ∈ references content) ↔
            ∃ digest content, stored repo digest = some content ∧
              (d = digest ∨ d ∈ references content) := by
          constructor
          · rintro ⟨digest, hd, h⟩
            obtain ⟨content, hc⟩ := Option.isSome_iff_exists.mp ((hdigests digest).mp hd)
            refine ⟨digest, content, hc, h.imp_right ?_⟩
            rintro ⟨content', hc', hr⟩
            rw [hc] at hc'
            exact Option.some.inj hc' ▸ hr
          · rintro ⟨digest, content, hc, h⟩
            refine ⟨digest, (hdigests digest).mpr (Option.isSome_iff_exists.mpr ⟨content, hc⟩), ?_⟩
            exact h.imp_right fun hr => ⟨content, hc, hr⟩
        rw [hmem, hmem₁, hhere]
        simp only [List.mem_cons, exists_eq_or_imp]
        exact or_assoc

end Mark

omit [SerdeJson] in
-- Which repository the sweep probes with makes no difference on a tree of
-- directories; looking for it changes nothing.
theorem run_locateOwner (digest : Digest) (repos : List RepoName) : ∃ owner,
    (locateOwner b.storage digest repos).run World.handle w = (.ok owner, w) := by
  induction repos with
  | nil => exact ⟨none, rfl⟩
  | cons repo rest ih =>
      rw [locateOwner, run_attempt_bind (b.run_blobExists w repo.text digest)]
      cases (b.blob w.volumes digest).isSome with
      | true => exact ⟨some repo, rfl⟩
      | false => exact ih

-- What a reader of the backend would get for a digest, in bytes.
def sizeOf (b : Backend) (v : Volumes) (d : Digest) : Nat := ((b.blob v d).map List.length).getD 0

-- What a sweep over some digests does, and what it reports.
structure Swept (b : Backend) (v v' : Volumes) (swept : List Digest) (report report' : GcReport) :
    Prop where
  volumes : v' = v.onRoots b.leaves fun c => c.removeBlobs swept
  deletedBlobs : report'.deletedBlobs = report.deletedBlobs + swept.length
  deletedBytes : report'.deletedBytes = report.deletedBytes + (swept.map (sizeOf b v)).sum

omit [Sha2] [SerdeJson] in
theorem swept_nil (v : Volumes) (report : GcReport) : Swept b v v [] report report := by
  refine ⟨?_, rfl, rfl⟩
  funext root
  by_cases hr : root ∈ b.leaves
  · rw [Volumes.onRoots_of_mem hr]
    rfl
  · rw [Volumes.onRoots_of_not_mem hr]

omit [Sha2] [SerdeJson] in
theorem Swept.cons {blob : Digest} {rest : List Digest} {v v₁ v' : Volumes}
    {report report' : GcReport} (hblob : blob ∉ rest)
    (hvol : v₁ = v.onRoots b.leaves fun c => c.setBlob blob none)
    (h : Swept b v₁ v' rest { report with
      deletedBlobs := report.deletedBlobs + 1
      deletedBytes := report.deletedBytes + sizeOf b v blob } report') :
    Swept b v v' (blob :: rest) report report' := by
  have hsize : ∀ d ∈ rest, sizeOf b v₁ d = sizeOf b v d := by
    intro d hd
    have hne : d ≠ blob := fun he => hblob (he ▸ hd)
    have hslot : v₁.blobAt d = v.blobAt d := by
      rw [hvol]
      exact Volumes.slot_onRoots_same v b.leaves _ (fun c => c.blob d) (by simp [Contents.setBlob, hne])
    unfold sizeOf Backend.blob
    rw [hslot]
  refine ⟨?_, ?_, ?_⟩
  · rw [h.volumes, hvol]
    funext root
    by_cases hr : root ∈ b.leaves
    · simp only [Volumes.onRoots_of_mem hr]
      ext1
      · funext d
        by_cases hd : d = blob <;> simp [Contents.removeBlobs, Contents.setBlob, hd]
      all_goals rfl
    · simp only [Volumes.onRoots_of_not_mem hr]
  · have hcount : report'.deletedBlobs = report.deletedBlobs + 1 + rest.length := h.deletedBlobs
    rw [hcount, List.length_cons]
    omega
  · have hbytes : report'.deletedBytes =
        report.deletedBytes + sizeOf b v blob + (rest.map (sizeOf b v₁)).sum := h.deletedBytes
    rw [hbytes, List.map_congr_left hsize, List.map_cons, List.sum_cons]
    omega

omit [SerdeJson] in
theorem run_sweep (repos : List RepoName) (reachable : BTreeSet Digest) (blobs : List Digest)
    (report : GcReport) (hnodup : blobs.Nodup)
    (hheld : ∀ d ∈ blobs, (b.blob w.volumes d).isSome) : ∃ report' w',
      (sweep b.storage repos reachable blobs report).run World.handle w = (.ok report', w') ∧
      World.SameRules w w' ∧
      Swept b w.volumes w'.volumes (blobs.filter (· ∉ reachable)) report report' := by
  induction blobs generalizing report w with
  | nil => exact ⟨report, w, rfl, .refl w, swept_nil b w.volumes report⟩
  | cons blob rest ih =>
      obtain ⟨hblob, hrest⟩ := List.nodup_cons.mp hnodup
      by_cases hmarked : blob ∈ reachable
      · have hkept : ∀ d ∈ rest, (b.blob w.volumes d).isSome :=
          fun d hd => hheld d (List.mem_cons_of_mem blob hd)
        obtain ⟨report', w', hrun, hsame, hswept⟩ := ih w report hrest hkept
        refine ⟨report', w', ?_, hsame, ?_⟩
        · rw [sweep, if_pos hmarked]
          exact hrun
        · rw [List.filter_cons_of_neg (by simpa using hmarked)]
          exact hswept
      · obtain ⟨owner, howner⟩ := run_locateOwner b w blob repos
        obtain ⟨o, w₁, hdelete, hdeleted, hsame₁, hvol₁⟩ :=
          b.run_blobDelete w ((owner.map (·.text)).getD "") blob
        have ho := hdeleted.mpr (hheld blob List.mem_cons_self)
        obtain ⟨⟨⟩, rfl⟩ := Option.isSome_iff_exists.mp ho
        have hkept : ∀ d ∈ rest, (b.blob w₁.volumes d).isSome := by
          intro d hd
          have hne : d ≠ blob := fun he => hblob (he ▸ hd)
          have hslot : w₁.volumes.blobAt d = w.volumes.blobAt d := by
            rw [hvol₁]
            exact Volumes.slot_onRoots_same w.volumes b.leaves _ (fun c => c.blob d)
              (by simp [Contents.setBlob, hne])
          unfold Backend.blob
          rw [hslot]
          exact hheld d (List.mem_cons_of_mem blob hd)
        obtain ⟨report', w', hrun, hsame, hswept⟩ := ih w₁ { report with
          deletedBlobs := report.deletedBlobs + 1
          deletedBytes := report.deletedBytes + sizeOf b w.volumes blob } hrest hkept
        have hsize : (orNotFound ((b.blob w.volumes blob).map List.length)).toOption.getD 0 =
            sizeOf b w.volumes blob := by
          unfold sizeOf
          cases b.blob w.volumes blob <;> rfl
        refine ⟨report', w', ?_, hsame₁.trans hsame, ?_⟩
        · rw [sweep, if_neg hmarked, run_bind_of_ok howner,
            run_attempt_bind (b.run_blobSize w ((owner.map (·.text)).getD "") blob),
            run_attempt_bind hdelete, hsize]
          exact hrun
        · rw [List.filter_cons_of_pos (by simpa using hmarked)]
          exact hswept.cons b (fun hm => hblob (List.mem_of_mem_filter hm)) hvol₁

-- The collector never fails of itself, and what it does is decided by what is
-- stored: below the backend, exactly the unmarked blobs go.
theorem run_gc : ∃ report w', (run b.storage).run World.handle w = (.ok report, w') ∧
    World.SameRules w w' ∧
    w'.volumes = w.volumes.onRoots b.leaves (fun c => c.keepBlobs (Marked b w.volumes)) ∧
    ∃ swept : List Digest, swept.Nodup ∧
      (∀ d, d ∈ swept ↔ (b.blob w.volumes d).isSome ∧ ¬Marked b w.volumes d) ∧
      report.deletedBlobs = swept.length ∧
      report.deletedBytes = (swept.map (sizeOf b w.volumes)).sum := by
  obtain ⟨repos, hrepos, hmemRepos⟩ := b.run_listRepos w
  obtain ⟨reachable, report, hmark, hreport, hmemMark⟩ := run_markRepos w
    (fun repo d => b.run_manifestGet w repo (.digest d)) (b.run_listManifestDigests w) repos.toList .empty
    { GcReport.empty with reposScanned := repos.toList.length }
  obtain ⟨blobs, hblobs, hmemBlobs⟩ := b.run_listAllBlobs w
  obtain ⟨report', w', hsweep, hsame, hswept⟩ := run_sweep b w repos.toList reachable blobs.toList
    { report with reachableBlobs := reachable.toList.length } blobs.nodup
    fun d hd => (hmemBlobs d).mp hd
  have hreachable : ∀ d, d ∈ reachable ↔ Marked b w.volumes d := by
    intro d
    rw [hmemMark]
    constructor
    · rintro (h | ⟨repo, _, digest, content, hc, h⟩)
      · exact absurd h (BTreeSet.not_mem_empty d)
      · exact ⟨repo, digest, content, hc, h⟩
    · rintro ⟨repo, digest, content, hc, h⟩
      obtain ⟨root, hroot, hc'⟩ := Backend.exists_of_read hc
      have hlisted := (w.volumes_wellFormed root).manifest_listed repo digest content hc'
      exact .inr ⟨repo, (hmemRepos repo).mpr ⟨root, hroot, hlisted⟩, digest, content, hc, h⟩
  have hmemSwept : ∀ d, d ∈ blobs.toList.filter (· ∉ reachable) ↔
      (b.blob w.volumes d).isSome ∧ ¬Marked b w.volumes d := by
    intro d
    rw [List.mem_filter, decide_eq_true_iff, hreachable, ← hmemBlobs]
    rfl
  refine ⟨report', w', ?_, hsame, ?_, blobs.toList.filter (· ∉ reachable),
    blobs.nodup.filter _, hmemSwept, ?_, ?_⟩
  · rw [run, run_bind_of_ok hrepos, run_bind_of_ok hmark, run_bind_of_ok hblobs]
    exact hsweep
  · rw [hswept.volumes]
    funext root
    by_cases hr : root ∈ b.leaves
    · simp only [Volumes.onRoots_of_mem hr]
      apply Contents.removeBlobs_eq_keepBlobs
      intro d hheld
      have hsome := (b.blob_isSome w.volumes d).mpr ⟨root, hr, hheld⟩
      rw [hmemSwept]
      exact and_iff_right hsome
    · simp only [Volumes.onRoots_of_not_mem hr]
  · have hcount : report.deletedBlobs = 0 := hreport.1
    rw [hswept.deletedBlobs, hcount, Nat.zero_add]
  · have hbytes : report.deletedBytes = 0 := hreport.2
    rw [hswept.deletedBytes, hbytes, Nat.zero_add]

end Gc

end RspaceRegistry
