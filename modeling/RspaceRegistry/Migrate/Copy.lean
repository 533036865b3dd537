import RspaceRegistry.Migrate.Survey

namespace RspaceRegistry.Migrate

open Calls Fallible Ordered Places

-- What the copy of one repository does to the storage roots when nothing else
-- runs and nothing fails.

variable (src dst : Backend)

abbrev fillSlot {α : Type} (slot : Slot RootId α) : Slot RootId α :=
  fill src.readOrder dst.readOrder dst.head slot

abbrev forceSlot {α : Type} (slot : Slot RootId α) : Slot RootId α :=
  force src.readOrder dst.head slot

structure CopiedBlobs (moved : Digest → Prop) (v v' : Volumes) : Prop where
  blob : ∀ d, moved d → v'.blobAt d = fillSlot src dst (v.blobAt d)
  otherBlob : ∀ d, ¬moved d → v'.blobAt d = v.blobAt d
  manifest : ∀ r d, v'.manifestAt r d = v.manifestAt r d
  tag : ∀ r t, v'.tagAt r t = v.tagAt r t
  repo : ∀ root r, (v' root).repo r ↔ (v root).repo r

theorem copiedBlobs_nil (v : Volumes) : CopiedBlobs src dst (fun _ => False) v v where
  blob _ := False.elim
  otherBlob _ _ := rfl
  manifest _ _ := rfl
  tag _ _ := rfl
  repo _ _ := Iff.rfl

-- Filling in more blobs: what was filled stays so.
theorem CopiedBlobs.trans {moved moved' : Digest → Prop} {v v₁ v' : Volumes}
    (hstep : CopiedBlobs src dst moved v v₁) (h : CopiedBlobs src dst moved' v₁ v') :
    CopiedBlobs src dst (fun d => moved d ∨ moved' d) v v' where
  blob := by
    intro e he
    by_cases hed : moved e
    · have hs := hstep.blob e hed
      by_cases her : moved' e
      · obtain ⟨tail, htail⟩ := dst.readOrder_eq_cons
        rw [h.blob e her, hs, fillSlot, fill_fill dst.head_mem_readOrder htail]
      · rw [h.otherBlob e her, hs]
    · rw [h.blob e (he.resolve_left hed), hstep.otherBlob e hed]
  otherBlob := by
    intro e he
    obtain ⟨hed, her⟩ := not_or.mp he
    rw [h.otherBlob e her, hstep.otherBlob e hed]
  manifest r e := (h.manifest r e).trans (hstep.manifest r e)
  tag r t := (h.tag r t).trans (hstep.tag r t)
  repo root r := (h.repo root r).trans (hstep.repo root r)

theorem CopiedBlobs.congr {moved moved' : Digest → Prop} {v v' : Volumes}
    (h : CopiedBlobs src dst moved v v') (hiff : ∀ d, moved' d ↔ moved d) :
    CopiedBlobs src dst moved' v v' := by
  have heq : moved' = moved := funext fun d => propext (hiff d)
  rw [heq]
  exact h

theorem copiedBlobs_skip {d : Digest} {v : Volumes} (h : fillSlot src dst (v.blobAt d) = v.blobAt d) :
    CopiedBlobs src dst (· = d) v v where
  blob e he := by rw [he, h]
  otherBlob _ _ := rfl
  manifest _ _ := rfl
  tag _ _ := rfl
  repo _ _ := Iff.rfl

theorem copiedBlobs_write {d : Digest} {v : Volumes} {content : Bytes}
    (hdst : dst.blob v d = none) (hsrc : src.blob v d = some content) :
    CopiedBlobs src dst (· = d) v (v.onRoots [dst.head] fun c => c.setBlob d (some content)) where
  blob e he := by
    subst he
    rw [fillSlot, fill_of_none hdst, Volumes.blobAt_setBlob_self]
    exact congrArg (Function.update (v.blobAt e) dst.head) hsrc.symm
  otherBlob e he := v.blobAt_setBlob_of_ne _ _ _ he
  manifest r e := v.manifestAt_setBlob _ _ _ r e
  tag r t := v.tagAt_setBlob _ _ _ r t
  repo root r := by rw [v.repo_setBlob]

theorem run_copyBlobs [Sha2] (repo : RepoName) (blobs : List Digest) (report : MigrateReport) (w : World) :
    ∃ report' w', (copyBlobs src.storage dst.storage repo blobs report).run World.handle w =
        (.ok report', w') ∧ World.SameRules w w' ∧
      CopiedBlobs src dst (· ∈ blobs) w.volumes w'.volumes := by
  induction blobs generalizing report w with
  | nil =>
      refine ⟨report, w, rfl, .refl w, (copiedBlobs_nil src dst w.volumes).congr src dst ?_⟩
      simp
  | cons d rest ih =>
      have hcons : ∀ e, e ∈ d :: rest ↔ e = d ∨ e ∈ rest := fun e => List.mem_cons
      rw [copyBlobs, run_bind_of_ok (dst.run_blobExists w repo.text d)]
      by_cases hd : (dst.blob w.volumes d).isSome
      · have hskip : fillSlot src dst (w.volumes.blobAt d) = w.volumes.blobAt d := fill_of_some hd
        obtain ⟨report', w', hrun, hsame, h⟩ := ih report w
        rw [if_pos hd]
        exact ⟨report', w', hrun, hsame,
          ((copiedBlobs_skip src dst hskip).trans src dst h).congr src dst hcons⟩
      · have hdst : dst.blob w.volumes d = none := Option.not_isSome_iff_eq_none.mp hd
        rw [if_neg hd, run_attempt_bind (src.run_blobRead w repo.text d)]
        cases hsrc : src.blob w.volumes d with
        | none =>
            have hskip : fillSlot src dst (w.volumes.blobAt d) = w.volumes.blobAt d :=
              fill_of_src_none dst.head_mem_readOrder hsrc
            obtain ⟨report', w', hrun, hsame, h⟩ := ih report w
            exact ⟨report', w', hrun, hsame,
              ((copiedBlobs_skip src dst hskip).trans src dst h).congr src dst hcons⟩
        | some content =>
            obtain ⟨root, _, hc⟩ := Backend.exists_of_blob hsrc
            have haddr := (w.volumes_wellFormed root).blob_addressed d content hc
            obtain ⟨w₁, hwrite, hsame₁, hvol₁⟩ := dst.run_blobWrite w repo.text d content haddr
            obtain ⟨report', w', hrun, hsame, h⟩ := ih
              { report with
                blobsCopied := report.blobsCopied + 1
                bytesCopied := report.bytesCopied + content.length } w₁
            have hstep := copiedBlobs_write src dst hdst hsrc
            rw [← hvol₁] at hstep
            refine ⟨report', w', ?_, hsame₁.trans hsame,
              (hstep.trans src dst h).congr src dst hcons⟩
            refine Eq.trans ?_ hrun
            exact run_bind_of_ok hwrite _

-- The same for manifests, each of them in its repository.
structure CopiedManifests (moved : RepoName → Digest → Prop) (v v' : Volumes) : Prop where
  manifest : ∀ r d, moved r d → v'.manifestAt r d = fillSlot src dst (v.manifestAt r d)
  otherManifest : ∀ r d, ¬moved r d → v'.manifestAt r d = v.manifestAt r d
  blob : ∀ d, v'.blobAt d = v.blobAt d
  tag : ∀ r t, v'.tagAt r t = v.tagAt r t
  repoKept : ∀ root r, (v root).repo r → (v' root).repo r
  repoNew : ∀ root r, (v' root).repo r → (v root).repo r ∨ ∃ d, moved r d

theorem copiedManifests_nil (v : Volumes) : CopiedManifests src dst (fun _ _ => False) v v where
  manifest _ _ := False.elim
  otherManifest _ _ _ := rfl
  blob _ := rfl
  tag _ _ := rfl
  repoKept _ _ := id
  repoNew _ _ := .inl

theorem CopiedManifests.trans {moved moved' : RepoName → Digest → Prop} {v v₁ v' : Volumes}
    (hstep : CopiedManifests src dst moved v v₁) (h : CopiedManifests src dst moved' v₁ v') :
    CopiedManifests src dst (fun r d => moved r d ∨ moved' r d) v v' where
  manifest := by
    intro r e he
    by_cases hed : moved r e
    · have hs := hstep.manifest r e hed
      by_cases her : moved' r e
      · obtain ⟨tail, htail⟩ := dst.readOrder_eq_cons
        rw [h.manifest r e her, hs, fillSlot, fill_fill dst.head_mem_readOrder htail]
      · rw [h.otherManifest r e her, hs]
    · rw [h.manifest r e (he.resolve_left hed), hstep.otherManifest r e hed]
  otherManifest := by
    intro r e he
    obtain ⟨hed, her⟩ := not_or.mp he
    rw [h.otherManifest r e her, hstep.otherManifest r e hed]
  blob e := (h.blob e).trans (hstep.blob e)
  tag r t := (h.tag r t).trans (hstep.tag r t)
  repoKept root r hr := h.repoKept root r (hstep.repoKept root r hr)
  repoNew := by
    intro root r hr
    rcases h.repoNew root r hr with hr | ⟨d, hd⟩
    · exact (hstep.repoNew root r hr).imp_right fun ⟨d, hd⟩ => ⟨d, .inl hd⟩
    · exact .inr ⟨d, .inr hd⟩

theorem CopiedManifests.congr {moved moved' : RepoName → Digest → Prop} {v v' : Volumes}
    (h : CopiedManifests src dst moved v v') (hiff : ∀ r d, moved' r d ↔ moved r d) :
    CopiedManifests src dst moved' v v' := by
  have heq : moved' = moved := funext fun r => funext fun d => propext (hiff r d)
  rw [heq]
  exact h

theorem copiedManifests_skip {repo : RepoName} {d : Digest} {v : Volumes}
    (h : fillSlot src dst (v.manifestAt repo d) = v.manifestAt repo d) :
    CopiedManifests src dst (fun r e => r = repo ∧ e = d) v v where
  manifest := by
    rintro r e ⟨rfl, rfl⟩
    exact h.symm
  otherManifest _ _ _ := rfl
  blob _ := rfl
  tag _ _ := rfl
  repoKept _ _ := id
  repoNew _ _ := .inl

section

variable [Sha2]

theorem copiedManifests_put {repo : RepoName} {d : Digest} {v : Volumes} {content : Bytes}
    (hdst : dst.read v repo (.digest d) = none)
    (hsrc : src.read v repo (.digest d) = some content) (haddr : sha256Digest content = d) :
    CopiedManifests src dst (fun r e => r = repo ∧ e = d) v
      (v.onRoots [dst.head] fun c => c.put repo (.digest d) content) where
  manifest := by
    rintro r e ⟨rfl, rfl⟩
    have hput := v.manifestAt_put_self dst.head r (.digest e) content
    rw [haddr] at hput
    rw [Backend.read_digest] at hdst
    rw [hput, fillSlot, fill_of_none hdst]
    exact congrArg (Function.update (v.manifestAt r e) dst.head) hsrc.symm
  otherManifest r e he := v.manifestAt_put_of_ne _ _ _ _ (haddr ▸ he)
  blob e := v.blobAt_put _ _ _ _ e
  tag r t := v.tagAt_put_digest _ _ _ _ r t
  repoKept root r hr := (v.repo_put _ _ _ _ root r).mpr (.inl hr)
  repoNew root r hr :=
    ((v.repo_put _ _ _ _ root r).mp hr).imp_right fun h => ⟨d, h.2, rfl⟩

theorem run_copyManifests (repo : RepoName) (digests : List Digest) (report : MigrateReport)
    (w : World) : ∃ report' w',
      (copyManifests src.storage dst.storage repo digests report).run World.handle w =
        (.ok report', w') ∧ World.SameRules w w' ∧
      CopiedManifests src dst (fun r d => r = repo ∧ d ∈ digests) w.volumes w'.volumes := by
  induction digests generalizing report w with
  | nil =>
      refine ⟨report, w, rfl, .refl w, (copiedManifests_nil src dst w.volumes).congr src dst ?_⟩
      simp
  | cons d rest ih =>
      have hcons : ∀ r e, r = repo ∧ e ∈ d :: rest ↔ (r = repo ∧ e = d) ∨ r = repo ∧ e ∈ rest := by
        intro r e
        rw [List.mem_cons, and_or_left]
      rw [copyManifests, run_attempt_bind (dst.run_manifestGet w repo (.digest d))]
      cases hdst : dst.read w.volumes repo (.digest d) with
      | some content =>
          have hskip : fillSlot src dst (w.volumes.manifestAt repo d) = w.volumes.manifestAt repo d :=
            fill_of_some (Option.isSome_iff_exists.mpr ⟨content, hdst⟩)
          obtain ⟨report', w', hrun, hsame, h⟩ := ih report w
          exact ⟨report', w', hrun, hsame,
            ((copiedManifests_skip src dst hskip).trans src dst h).congr src dst hcons⟩
      | none =>
          rw [orNotFound_none]
          simp only
          rw [run_attempt_bind (src.run_manifestGet w repo (.digest d))]
          cases hsrc : src.read w.volumes repo (.digest d) with
          | none =>
              have hskip : fillSlot src dst (w.volumes.manifestAt repo d) =
                  w.volumes.manifestAt repo d := fill_of_src_none dst.head_mem_readOrder hsrc
              obtain ⟨report', w', hrun, hsame, h⟩ := ih report w
              exact ⟨report', w', hrun, hsame,
                ((copiedManifests_skip src dst hskip).trans src dst h).congr src dst hcons⟩
          | some content =>
              obtain ⟨root, _, hc⟩ := Backend.exists_of_read hsrc
              have haddr := (w.volumes_wellFormed root).manifest_addressed repo d content hc
              obtain ⟨w₁, hput, hsame₁, hvol₁⟩ := dst.run_manifestPut w repo (.digest d) content
              obtain ⟨report', w', hrun, hsame, h⟩ :=
                ih { report with manifestsCopied := report.manifestsCopied + 1 } w₁
              have hstep := copiedManifests_put src dst hdst hsrc haddr
              rw [← hvol₁] at hstep
              refine ⟨report', w', ?_, hsame₁.trans hsame,
                (hstep.trans src dst h).congr src dst hcons⟩
              refine Eq.trans ?_ hrun
              exact run_bind_of_ok hput _

end

-- Tags that are written to the destination, each with its manifest.
structure CopiedTags (moved : RepoName → TagName → Digest → Prop) (v v' : Volumes) : Prop where
  manifest : ∀ r d, (∃ t, moved r t d) → v'.manifestAt r d = forceSlot src dst (v.manifestAt r d)
  otherManifest : ∀ r d, (¬∃ t, moved r t d) → v'.manifestAt r d = v.manifestAt r d
  tag : ∀ r t d, moved r t d → v'.tagAt r t = Function.update (v.tagAt r t) dst.head (some d)
  otherTag : ∀ r t, (¬∃ d, moved r t d) → v'.tagAt r t = v.tagAt r t
  blob : ∀ d, v'.blobAt d = v.blobAt d
  repoKept : ∀ root r, (v root).repo r → (v' root).repo r
  repoNew : ∀ root r, (v' root).repo r → (v root).repo r ∨ ∃ t d, moved r t d

theorem copiedTags_nil (v : Volumes) : CopiedTags src dst (fun _ _ _ => False) v v where
  manifest _ _ := fun ⟨_, h⟩ => h.elim
  otherManifest _ _ _ := rfl
  tag _ _ _ := False.elim
  otherTag _ _ _ := rfl
  blob _ := rfl
  repoKept _ _ := id
  repoNew _ _ := .inl

theorem CopiedTags.trans {moved moved' : RepoName → TagName → Digest → Prop} {v v₁ v' : Volumes}
    (hapart : ∀ r t d d', moved r t d → ¬moved' r t d')
    (hstep : CopiedTags src dst moved v v₁) (h : CopiedTags src dst moved' v₁ v') :
    CopiedTags src dst (fun r t d => moved r t d ∨ moved' r t d) v v' where
  manifest := by
    rintro r d ⟨t, ht⟩
    by_cases hed : ∃ t, moved r t d
    · have hs := hstep.manifest r d hed
      by_cases her : ∃ t, moved' r t d
      · rw [h.manifest r d her, hs, forceSlot, force_force]
      · rw [h.otherManifest r d her, hs]
    · have her : ∃ t, moved' r t d := ⟨t, ht.resolve_left fun hm => hed ⟨t, hm⟩⟩
      rw [h.manifest r d her, hstep.otherManifest r d hed]
  otherManifest := by
    intro r d hn
    rw [h.otherManifest r d fun ⟨t, ht⟩ => hn ⟨t, .inr ht⟩,
      hstep.otherManifest r d fun ⟨t, ht⟩ => hn ⟨t, .inl ht⟩]
  tag := by
    rintro r t d (ht | ht)
    · rw [h.otherTag r t fun ⟨d', ht'⟩ => hapart r t d d' ht ht', hstep.tag r t d ht]
    · rw [h.tag r t d ht, hstep.otherTag r t fun ⟨d', ht'⟩ => hapart r t d' d ht' ht]
  otherTag := by
    intro r t hn
    rw [h.otherTag r t fun ⟨d, hd⟩ => hn ⟨d, .inr hd⟩,
      hstep.otherTag r t fun ⟨d, hd⟩ => hn ⟨d, .inl hd⟩]
  blob d := (h.blob d).trans (hstep.blob d)
  repoKept root r hr := h.repoKept root r (hstep.repoKept root r hr)
  repoNew := by
    intro root r hr
    rcases h.repoNew root r hr with hr | ⟨t, d, hd⟩
    · exact (hstep.repoNew root r hr).imp_right fun ⟨t, d, hd⟩ => ⟨t, d, .inl hd⟩
    · exact .inr ⟨t, d, .inr hd⟩

theorem CopiedTags.congr {moved moved' : RepoName → TagName → Digest → Prop} {v v' : Volumes}
    (h : CopiedTags src dst moved v v') (hiff : ∀ r t d, moved' r t d ↔ moved r t d) :
    CopiedTags src dst moved' v v' := by
  have heq : moved' = moved :=
    funext fun r => funext fun t => funext fun d => propext (hiff r t d)
  rw [heq]
  exact h

section

variable [Sha2]

theorem copiedTags_put {repo : RepoName} {t : TagName} {d : Digest} {v : Volumes} {content : Bytes}
    (hsrc : src.read v repo (.digest d) = some content) (haddr : sha256Digest content = d) :
    CopiedTags src dst (fun r t' e => r = repo ∧ t' = t ∧ e = d) v
      (v.onRoots [dst.head] fun c => c.put repo (.tag t) content) where
  manifest := by
    rintro r e ⟨t', rfl, rfl, rfl⟩
    have hput := v.manifestAt_put_self dst.head r (.tag t') content
    rw [haddr] at hput
    rw [Backend.read_digest] at hsrc
    rw [hput, forceSlot, force_of_some hsrc]
  otherManifest := by
    intro r e hn
    apply v.manifestAt_put_of_ne
    rintro ⟨rfl, rfl⟩
    exact hn ⟨t, rfl, rfl, haddr⟩
  tag := by
    rintro r t' e ⟨rfl, rfl, rfl⟩
    rw [v.tagAt_put_self, haddr]
  otherTag := by
    intro r t' hn
    apply v.tagAt_put_of_ne
    rintro ⟨rfl, rfl⟩
    exact hn ⟨d, rfl, rfl, rfl⟩
  blob e := v.blobAt_put _ _ _ _ e
  repoKept root r hr := (v.repo_put _ _ _ _ root r).mpr (.inl hr)
  repoNew root r hr :=
    ((v.repo_put _ _ _ _ root r).mp hr).imp_right fun h => ⟨t, d, h.2, rfl, rfl⟩

-- What the source reads by digest it still reads after a tag was copied from it.
theorem read_after_put {repo r : RepoName} {t : TagName} {d e : Digest} {v : Volumes}
    {content : Bytes} (hsrc : src.read v repo (.digest d) = some content)
    (haddr : sha256Digest content = d) (he : (src.read v r (.digest e)).isSome) :
    (src.read (v.onRoots [dst.head] fun c => c.put repo (.tag t) content) r (.digest e)).isSome := by
  rw [Backend.read_digest] at hsrc he ⊢
  by_cases hsame : r = repo ∧ e = d
  · obtain ⟨rfl, rfl⟩ := hsame
    have hput := v.manifestAt_put_self dst.head r (.tag t) content
    rw [haddr] at hput
    rw [hput, first_update_self dst.head hsrc]
    rfl
  · rw [v.manifestAt_put_of_ne dst.head repo (.tag t) content fun hm =>
      hsame ⟨hm.1, hm.2.trans haddr⟩]
    exact he

theorem run_copyTags (repo : RepoName) (entries : List (TagName × Digest)) (w : World)
    (hnodup : (entries.map Prod.fst).Nodup)
    (hread : ∀ d ∈ entries.map Prod.snd, (src.read w.volumes repo (.digest d)).isSome) :
    ∃ w', (copyTags src.storage dst.storage repo entries).run World.handle w = (.ok (), w') ∧
      World.SameRules w w' ∧
      CopiedTags src dst (fun r t d => r = repo ∧ (t, d) ∈ entries) w.volumes w'.volumes := by
  induction entries generalizing w with
  | nil =>
      refine ⟨w, rfl, .refl w, (copiedTags_nil src dst w.volumes).congr src dst ?_⟩
      simp
  | cons entry rest ih =>
      obtain ⟨t, d⟩ := entry
      obtain ⟨content, hsrc⟩ := Option.isSome_iff_exists.mp (hread d List.mem_cons_self)
      obtain ⟨root, _, hc⟩ := Backend.exists_of_read hsrc
      have haddr := (w.volumes_wellFormed root).manifest_addressed repo d content hc
      obtain ⟨w₁, hput, hsame₁, hvol₁⟩ := dst.run_manifestPut w repo (.tag t) content
      obtain ⟨ht, hnodup'⟩ := List.nodup_cons.mp hnodup
      have hread₁ : ∀ e ∈ rest.map Prod.snd, (src.read w₁.volumes repo (.digest e)).isSome := by
        intro e he
        rw [hvol₁]
        exact read_after_put src dst hsrc haddr (hread e (List.mem_cons_of_mem d he))
      obtain ⟨w', hrun, hsame, h⟩ := ih w₁ hnodup' hread₁
      refine ⟨w', ?_, hsame₁.trans hsame, ?_⟩
      · rw [copyTags, run_attempt_bind (src.run_manifestGet w repo (.digest d)), hsrc]
        refine Eq.trans ?_ hrun
        exact run_bind_of_ok hput _
      · have hstep := copiedTags_put src dst (t := t) hsrc haddr
        rw [← hvol₁] at hstep
        refine (hstep.trans src dst ?_ h).congr src dst ?_
        · rintro r t' e e' ⟨_, rfl, _⟩ ⟨_, hm⟩
          exact ht (List.mem_map.mpr ⟨_, hm, rfl⟩)
        · intro r t' e
          rw [List.mem_cons, Prod.mk.injEq, and_or_left]

end

section Repo

variable [SerdeJson] (v v' : Volumes) (repo : RepoName)

variable [Sha2]

-- The outcome of `copy_repo`: referenced blobs and all manifests are filled
-- in, and what a tag points to is written over whatever was there.
structure CopiedRepo : Prop where
  blob : ∀ d, Referenced src v repo d → v'.blobAt d = fillSlot src dst (v.blobAt d)
  otherBlob : ∀ d, ¬Referenced src v repo d → v'.blobAt d = v.blobAt d
  targeted : ∀ d, (∃ tag, Target src v repo tag d) →
    v'.manifestAt repo d = forceSlot src dst (v.manifestAt repo d)
  untargeted : ∀ d, (¬∃ tag, Target src v repo tag d) →
    v'.manifestAt repo d = fillSlot src dst (v.manifestAt repo d)
  otherManifest : ∀ r d, r ≠ repo → v'.manifestAt r d = v.manifestAt r d
  tag : ∀ tag d, Target src v repo tag d →
    v'.tagAt repo tag = Function.update (v.tagAt repo tag) dst.head (some d)
  otherTag : ∀ r tag, ¬(r = repo ∧ src.HasTag v repo tag) → v'.tagAt r tag = v.tagAt r tag
  repoKept : ∀ root r, (v root).repo r → (v' root).repo r
  repoNew : ∀ root r, (v' root).repo r → (v root).repo r ∨ r = repo

variable {v} {repo} (w : World)

theorem run_copyRepo (report : MigrateReport) (hcoh : w.volumes.Coherent repo)
    (hresolve : TagsResolve src w.volumes repo) : ∃ report' w',
    (copyRepo src.storage dst.storage repo report).run World.handle w = (.ok report', w') ∧
      World.SameRules w w' ∧ CopiedRepo src dst w.volumes w'.volumes repo := by
  obtain ⟨⟨entries, walked⟩, hsurvey, hfound⟩ := run_survey src w hcoh hresolve
  obtain ⟨report₁, w₁, hrun₁, hsame₁, h₁⟩ :=
    run_copyBlobs src dst repo walked.blobs.toList report w
  obtain ⟨report₂, w₂, hrun₂, hsame₂, h₂⟩ :=
    run_copyManifests src dst repo walked.manifests.toList report₁ w₁
  -- Where the source has nothing, filling does nothing, so every manifest is filled.
  have hfilled : ∀ d, w₂.volumes.manifestAt repo d = fillSlot src dst (w.volumes.manifestAt repo d) := by
    intro d
    by_cases hd : d ∈ walked.manifests
    · rw [h₂.manifest repo d ⟨rfl, hd⟩, h₁.manifest]
    · rw [h₂.otherManifest repo d fun hm => hd hm.2, h₁.manifest]
      have hnone : src.read w.volumes repo (.digest d) = none :=
        Option.not_isSome_iff_eq_none.mp fun h => hd ((hfound.manifest d).mpr h)
      exact (fill_of_src_none dst.head_mem_readOrder hnone).symm
  have hread : ∀ d ∈ entries.map Prod.snd, (src.read w₂.volumes repo (.digest d)).isSome := by
    intro d hd
    obtain ⟨⟨tag, d'⟩, he, rfl⟩ := List.mem_map.mp hd
    obtain ⟨bytes, hbytes, rfl⟩ := (hfound.tag tag d').mp he
    rw [Backend.read_digest, hfilled, fillSlot, first_src_fill dst.head_mem_readOrder]
    have h := read_target src w hcoh hbytes
    rw [Backend.read_digest] at h
    rw [h]
    rfl
  obtain ⟨w₃, hrun₃, hsame₃, h₃⟩ := run_copyTags src dst repo entries w₂ hfound.nodup hread
  refine ⟨report₂, w₃, ?_, (hsame₁.trans hsame₂).trans hsame₃, ?_⟩
  · rw [copyRepo_eq, run_bind_of_ok hsurvey, copyFound]
    rw [run_bind_of_ok hrun₁, run_bind_of_ok hrun₂, run_bind_of_ok hrun₃]
    rfl
  · have h₃ := h₃.congr src dst fun r t d => and_congr_right fun _ => (hfound.tag t d).symm
    refine ⟨?_, ?_, ?_, ?_, ?_, ?_, ?_, ?_, ?_⟩
    · intro d hd
      rw [h₃.blob, h₂.blob, h₁.blob d ((hfound.blob d).mpr hd)]
    · intro d hd
      rw [h₃.blob, h₂.blob, h₁.otherBlob d fun hm => hd ((hfound.blob d).mp hm)]
    · rintro d ⟨tag, ht⟩
      rw [h₃.manifest repo d ⟨tag, rfl, ht⟩, hfilled, forceSlot, fillSlot,
        force_fill dst.head_mem_readOrder]
    · intro d hd
      rw [h₃.otherManifest repo d fun ⟨tag, hm⟩ => hd ⟨tag, hm.2⟩, hfilled]
    · intro r d hr
      rw [h₃.otherManifest r d fun ⟨_, hm⟩ => hr hm.1, h₂.otherManifest r d fun hm => hr hm.1,
        h₁.manifest]
    · intro tag d ht
      rw [h₃.tag repo tag d ⟨rfl, ht⟩, h₂.tag, h₁.tag]
    · intro r tag ht
      have hm : ¬∃ d, r = repo ∧ Target src w.volumes repo tag d := by
        rintro ⟨d, rfl, htarget⟩
        exact ht ⟨rfl, hasTag_of_target src _ _ htarget⟩
      rw [h₃.otherTag r tag hm, h₂.tag, h₁.tag]
    · intro root r hr
      exact h₃.repoKept root r (h₂.repoKept root r ((h₁.repo root r).mpr hr))
    · intro root r hr
      rcases h₃.repoNew root r hr with hr | ⟨_, _, hr, _⟩
      · rcases h₂.repoNew root r hr with hr | ⟨_, hr, _⟩
        · exact .inl ((h₁.repo root r).mp hr)
        · exact .inr hr
      · exact .inr hr

-- A dangling tag stops the copy before anything is written.
theorem run_copyRepo_dangling (report : MigrateReport) (hcoh : w.volumes.Coherent repo)
    (hdangling : ¬TagsResolve src w.volumes repo) :
    (copyRepo src.storage dst.storage repo report).run World.handle w = (.error .notFound, w) := by
  rw [copyRepo_eq, run_bind_of_error (run_survey_dangling src w hcoh hdangling)]

end Repo

section Repos

variable [SerdeJson] [Sha2]

theorem CopiedRepo.readAt_other {v v' : Volumes} {repo : RepoName} {src dst : Backend}
    (h : CopiedRepo src dst v v' repo) {r : RepoName} (hr : r ≠ repo) (reference : Reference) :
    v'.readAt r reference = v.readAt r reference :=
  Volumes.readAt_congr (fun d => h.otherManifest r d hr)
    (fun tag => h.otherTag r tag fun hm => hr hm.1) reference

-- The outcome of the backfill: that of its repositories, which do not touch
-- one another except in the blobs they share.
structure CopiedRepos (repos : List RepoName) (v v' : Volumes) : Prop where
  blob : ∀ d, (∃ repo ∈ repos, Referenced src v repo d) →
    v'.blobAt d = fillSlot src dst (v.blobAt d)
  otherBlob : ∀ d, (¬∃ repo ∈ repos, Referenced src v repo d) → v'.blobAt d = v.blobAt d
  targeted : ∀ repo ∈ repos, ∀ d, (∃ tag, Target src v repo tag d) →
    v'.manifestAt repo d = forceSlot src dst (v.manifestAt repo d)
  untargeted : ∀ repo ∈ repos, ∀ d, (¬∃ tag, Target src v repo tag d) →
    v'.manifestAt repo d = fillSlot src dst (v.manifestAt repo d)
  otherManifest : ∀ r d, r ∉ repos → v'.manifestAt r d = v.manifestAt r d
  tag : ∀ repo ∈ repos, ∀ tag d, Target src v repo tag d →
    v'.tagAt repo tag = Function.update (v.tagAt repo tag) dst.head (some d)
  otherTag : ∀ r tag, ¬(r ∈ repos ∧ src.HasTag v r tag) → v'.tagAt r tag = v.tagAt r tag
  repoKept : ∀ root r, (v root).repo r → (v' root).repo r
  repoNew : ∀ root r, (v' root).repo r → (v root).repo r ∨ r ∈ repos

theorem copiedRepos_nil (v : Volumes) : CopiedRepos src dst [] v v where
  blob := by simp
  otherBlob _ _ := rfl
  targeted := by simp
  untargeted := by simp
  otherManifest _ _ _ := rfl
  tag := by simp
  otherTag _ _ _ := rfl
  repoKept _ _ := id
  repoNew _ _ := .inl

theorem CopiedRepos.cons {repo : RepoName} {rest : List RepoName} {v v₁ v' : Volumes}
    (hnodup : repo ∉ rest) (hstep : CopiedRepo src dst v v₁ repo)
    (h : CopiedRepos src dst rest v₁ v') : CopiedRepos src dst (repo :: rest) v v' := by
  have hne : ∀ r ∈ rest, r ≠ repo := by
    rintro r hr rfl
    exact hnodup hr
  have hread : ∀ r ∈ rest, ∀ reference, src.read v₁ r reference = src.read v r reference :=
    fun r hr reference => congrArg (first src.readOrder) (hstep.readAt_other (hne r hr) reference)
  have href : ∀ r ∈ rest, ∀ d, Referenced src v₁ r d ↔ Referenced src v r d := by
    intro r hr d
    simp only [Referenced, hread r hr]
  have htarget : ∀ r ∈ rest, ∀ tag d, Target src v₁ r tag d ↔ Target src v r tag d := by
    intro r hr tag d
    simp only [Target, hread r hr]
  have hhas : ∀ r ∈ rest, ∀ tag, src.HasTag v₁ r tag ↔ src.HasTag v r tag := by
    intro r hr tag
    have ht : v₁.tagAt r tag = v.tagAt r tag := hstep.otherTag r tag fun hm => hne r hr hm.1
    have htr : ∀ root, (v₁ root).tag r tag = (v root).tag r tag := congrFun ht
    simp only [Backend.HasTag, htr]
  obtain ⟨tail, htail⟩ := dst.readOrder_eq_cons
  refine ⟨?_, ?_, ?_, ?_, ?_, ?_, ?_, ?_, ?_⟩
  · rintro d ⟨r, hr, hd⟩
    by_cases hrest : ∃ r ∈ rest, Referenced src v r d
    · have hrest₁ : ∃ r ∈ rest, Referenced src v₁ r d := by
        obtain ⟨r', hr', hd'⟩ := hrest
        exact ⟨r', hr', (href r' hr' d).mpr hd'⟩
      rw [h.blob d hrest₁]
      by_cases hhere : Referenced src v repo d
      · rw [hstep.blob d hhere, fillSlot, fill_fill dst.head_mem_readOrder htail]
      · rw [hstep.otherBlob d hhere]
    · have hrest₁ : ¬∃ r ∈ rest, Referenced src v₁ r d := by
        rintro ⟨r', hr', hd'⟩
        exact hrest ⟨r', hr', (href r' hr' d).mp hd'⟩
      have hhere : Referenced src v repo d := by
        rcases List.mem_cons.mp hr with rfl | hr
        · exact hd
        · exact absurd ⟨r, hr, hd⟩ hrest
      rw [h.otherBlob d hrest₁, hstep.blob d hhere]
  · intro d hd
    have hhere : ¬Referenced src v repo d := fun hr => hd ⟨repo, List.mem_cons_self, hr⟩
    have hrest₁ : ¬∃ r ∈ rest, Referenced src v₁ r d := by
      rintro ⟨r, hr, hd'⟩
      exact hd ⟨r, List.mem_cons_of_mem _ hr, (href r hr d).mp hd'⟩
    rw [h.otherBlob d hrest₁, hstep.otherBlob d hhere]
  · rintro r hr d ⟨tag, ht⟩
    rcases List.mem_cons.mp hr with rfl | hr
    · rw [h.otherManifest r d hnodup, hstep.targeted d ⟨tag, ht⟩]
    · rw [h.targeted r hr d ⟨tag, (htarget r hr tag d).mpr ht⟩,
        hstep.otherManifest r d (hne r hr)]
  · intro r hr d ht
    rcases List.mem_cons.mp hr with rfl | hr
    · rw [h.otherManifest r d hnodup, hstep.untargeted d ht]
    · have ht₁ : ¬∃ tag, Target src v₁ r tag d := by
        rintro ⟨tag, ht₁⟩
        exact ht ⟨tag, (htarget r hr tag d).mp ht₁⟩
      rw [h.untargeted r hr d ht₁, hstep.otherManifest r d (hne r hr)]
  · intro r d hr
    have hr₁ : r ∉ rest := fun hm => hr (List.mem_cons_of_mem repo hm)
    have hr₂ : r ≠ repo := fun heq => hr (heq ▸ List.mem_cons_self)
    rw [h.otherManifest r d hr₁, hstep.otherManifest r d hr₂]
  · intro r hr tag d ht
    rcases List.mem_cons.mp hr with rfl | hr
    · rw [h.otherTag r tag fun hm => hnodup hm.1, hstep.tag tag d ht]
    · rw [h.tag r hr tag d ((htarget r hr tag d).mpr ht),
        hstep.otherTag r tag fun hm => hne r hr hm.1]
  · intro r tag ht
    have hhere : ¬(r = repo ∧ src.HasTag v repo tag) := by
      rintro ⟨rfl, hm⟩
      exact ht ⟨List.mem_cons_self, hm⟩
    have hrest₁ : ¬(r ∈ rest ∧ src.HasTag v₁ r tag) := by
      rintro ⟨hr, hm⟩
      exact ht ⟨List.mem_cons_of_mem repo hr, (hhas r hr tag).mp hm⟩
    rw [h.otherTag r tag hrest₁, hstep.otherTag r tag hhere]
  · intro root r hr
    exact h.repoKept root r (hstep.repoKept root r hr)
  · intro root r hr
    rcases h.repoNew root r hr with hr | hr
    · rcases hstep.repoNew root r hr with hr | rfl
      · exact .inl hr
      · exact .inr List.mem_cons_self
    · exact .inr (List.mem_cons_of_mem repo hr)

-- What a repository's copy needs is left alone by the copy of another.
theorem CopiedRepo.tagsResolve_other {v v' : Volumes} {repo r : RepoName} {src dst : Backend}
    (h : CopiedRepo src dst v v' repo) (hr : r ≠ repo) :
    TagsResolve src v' r ↔ TagsResolve src v r := by
  have hread : ∀ reference, src.read v' r reference = src.read v r reference :=
    fun reference => congrArg (first src.readOrder) (h.readAt_other hr reference)
  have ht : ∀ tag root, (v' root).tag r tag = (v root).tag r tag :=
    fun tag => congrFun (h.otherTag r tag fun hm => hr hm.1)
  simp only [TagsResolve, Backend.HasTag, ht, hread]

theorem CopiedRepo.coherent_other {v v' : Volumes} {repo r : RepoName} {src dst : Backend}
    (h : CopiedRepo src dst v v' repo) (hr : r ≠ repo) (hcoh : v.Coherent r) : v'.Coherent r := by
  intro d
  rw [h.otherManifest r d hr]
  exact hcoh d

theorem run_copyRepos (repos : List RepoName) (report : MigrateReport) (w : World)
    (hnodup : repos.Nodup) (hcoh : ∀ r ∈ repos, w.volumes.Coherent r)
    (hresolve : ∀ r ∈ repos, TagsResolve src w.volumes r) : ∃ report' w',
    (copyRepos src.storage dst.storage repos report).run World.handle w = (.ok report', w') ∧
      World.SameRules w w' ∧ CopiedRepos src dst repos w.volumes w'.volumes := by
  induction repos generalizing report w with
  | nil => exact ⟨report, w, rfl, .refl w, copiedRepos_nil src dst w.volumes⟩
  | cons repo rest ih =>
      obtain ⟨hrepo, hnodup'⟩ := List.nodup_cons.mp hnodup
      have hne : ∀ r ∈ rest, r ≠ repo := by
        rintro r hr rfl
        exact hrepo hr
      obtain ⟨report₁, w₁, hrun₁, hsame₁, h₁⟩ := run_copyRepo src dst w report
        (hcoh repo List.mem_cons_self) (hresolve repo List.mem_cons_self)
      obtain ⟨report', w', hrun, hsame, h⟩ := ih report₁ w₁ hnodup'
        (fun r hr => h₁.coherent_other (hne r hr) (hcoh r (List.mem_cons_of_mem repo hr)))
        (fun r hr => (h₁.tagsResolve_other (hne r hr)).mpr (hresolve r (List.mem_cons_of_mem repo hr)))
      refine ⟨report', w', ?_, hsame₁.trans hsame, CopiedRepos.cons src dst hrepo h₁ h⟩
      rw [copyRepos, run_bind_of_ok hrun₁]
      exact hrun

-- A tag that dangles stops the backfill; the repositories before it are copied.
theorem run_copyRepos_dangling (repos : List RepoName) (report : MigrateReport) (w : World)
    (hnodup : repos.Nodup) (hcoh : ∀ r ∈ repos, w.volumes.Coherent r)
    (hdangling : ¬∀ r ∈ repos, TagsResolve src w.volumes r) : ∃ done w',
    (copyRepos src.storage dst.storage repos report).run World.handle w =
        (.error .notFound, w') ∧ World.SameRules w w' ∧
      (∀ r ∈ done, r ∈ repos ∧ TagsResolve src w.volumes r) ∧
      CopiedRepos src dst done w.volumes w'.volumes := by
  induction repos generalizing report w with
  | nil => exact absurd (by simp) hdangling
  | cons repo rest ih =>
      obtain ⟨hrepo, hnodup'⟩ := List.nodup_cons.mp hnodup
      have hne : ∀ r ∈ rest, r ≠ repo := by
        rintro r hr rfl
        exact hrepo hr
      rw [copyRepos]
      by_cases hhere : TagsResolve src w.volumes repo
      · obtain ⟨report₁, w₁, hrun₁, hsame₁, h₁⟩ :=
          run_copyRepo src dst w report (hcoh repo List.mem_cons_self) hhere
        have hrest : ¬∀ r ∈ rest, TagsResolve src w₁.volumes r := by
          intro hrest
          apply hdangling
          intro r hr
          rcases List.mem_cons.mp hr with rfl | hr
          · exact hhere
          · exact (h₁.tagsResolve_other (hne r hr)).mp (hrest r hr)
        obtain ⟨done, w', hrun, hsame, hdone, h⟩ := ih report₁ w₁ hnodup'
          (fun r hr => h₁.coherent_other (hne r hr) (hcoh r (List.mem_cons_of_mem repo hr))) hrest
        have hnot : repo ∉ done := fun hm => hrepo (hdone repo hm).1
        refine ⟨repo :: done, w', ?_, hsame₁.trans hsame, ?_, CopiedRepos.cons src dst hnot h₁ h⟩
        · rw [run_bind_of_ok hrun₁]
          exact hrun
        · intro r hr
          rcases List.mem_cons.mp hr with rfl | hr
          · exact ⟨List.mem_cons_self, hhere⟩
          · obtain ⟨hmem, hres⟩ := hdone r hr
            exact ⟨List.mem_cons_of_mem repo hmem, (h₁.tagsResolve_other (hne r hmem)).mp hres⟩
      · have hstop := run_copyRepo_dangling src dst w report (hcoh repo List.mem_cons_self) hhere
        exact ⟨[], w, run_bind_of_error hstop _, .refl w, by simp, copiedRepos_nil src dst w.volumes⟩

-- Nothing new is stored.
theorem CopiedRepos.stores {repos : List RepoName} {v v' : Volumes}
    (h : CopiedRepos src dst repos v v') (content : Bytes) (hc : v'.Stores content) :
    v.Stores content := by
  obtain ⟨root, ⟨d, hd⟩ | ⟨r, d, hd⟩⟩ := hc
  · have hat : v'.blobAt d root = some content := hd
    by_cases href : ∃ repo ∈ repos, Referenced src v repo d
    · rw [h.blob d href] at hat
      obtain ⟨root', hat'⟩ := exists_of_fill hat
      exact ⟨root', .inl ⟨d, hat'⟩⟩
    · rw [h.otherBlob d href] at hat
      exact ⟨root, .inl ⟨d, hat⟩⟩
  · have hat : v'.manifestAt r d root = some content := hd
    by_cases hr : r ∈ repos
    · by_cases ht : ∃ tag, Target src v r tag d
      · rw [h.targeted r hr d ht] at hat
        obtain ⟨root', hat'⟩ := exists_of_force hat
        exact ⟨root', .inr ⟨r, d, hat'⟩⟩
      · rw [h.untargeted r hr d ht] at hat
        obtain ⟨root', hat'⟩ := exists_of_fill hat
        exact ⟨root', .inr ⟨r, d, hat'⟩⟩
    · rw [h.otherManifest r d hr] at hat
      exact ⟨root, .inr ⟨r, d, hat⟩⟩

end Repos

end RspaceRegistry.Migrate
