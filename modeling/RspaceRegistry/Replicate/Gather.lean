import RspaceRegistry.Migrate.Copy
import RspaceRegistry.Replicate.Walk

namespace RspaceRegistry.Replicate

open Calls Fallible Ordered
open Migrate (Walked Target Reads Misses Reached blobReferences)

variable [Sha2] [SerdeJson] (cfg : ReplicateConfig) (src : Backend) (v : Volumes)

-- What a pass moves of a repository, in terms of what its source reads: tags that
-- the glob selects, manifests below them (all of them without a glob), and the
-- blobs of these.

def WantsTag (repo : RepoName) (tag : TagName) (d : Digest) : Prop :=
  cfg.selects tag = true ∧ Target src v repo tag d

def StartsAt (repo : RepoName) (d : Digest) : Prop :=
  cfg.tagGlob = none ∨ ∃ tag, WantsTag cfg src v repo tag d

def Wants (repo : RepoName) (d : Digest) : Prop :=
  Reached (Reads src v repo) (StartsAt cfg src v repo) d

def WantsBlob (repo : RepoName) (b : Digest) : Prop :=
  ∃ d bytes, Wants cfg src v repo d ∧ Reads src v repo d bytes ∧ b ∈ blobReferences bytes

-- No tag that the glob selects dangles.
def SelectedResolve (repo : RepoName) : Prop :=
  ∀ tag, cfg.selects tag = true → src.HasTag v repo tag → (src.read v repo (.tag tag)).isSome

-- The sets after some repositories have been gathered.
structure Gathered (done : RepoName → Prop) (wanted : Wanted) : Prop where
  manifest : ∀ r d, key r d ∈ wanted.manifests ↔ done r ∧ Wants cfg src v r d
  blob : ∀ r d, key r d ∈ wanted.blobs ↔ done r ∧ WantsBlob cfg src v r d
  tag : ∀ r t d, (r, t, d) ∈ wanted.tags ↔ done r ∧ WantsTag cfg src v r t d
  nodup : (wanted.tags.map fun entry => (entry.1, entry.2.1)).Nodup

theorem gathered_empty : Gathered cfg src v (fun _ => False) .empty where
  manifest r d := by
    simp only [false_and, iff_false]
    exact BTreeSet.not_mem_empty (key r d)
  blob r d := by
    simp only [false_and, iff_false]
    exact BTreeSet.not_mem_empty (key r d)
  tag r t d := by simp [Wanted.empty]
  nodup := List.nodup_nil

variable {cfg src v}

theorem Gathered.congr {done done' : RepoName → Prop} {wanted : Wanted}
    (h : Gathered cfg src v done wanted) (hiff : ∀ r, done' r ↔ done r) :
    Gathered cfg src v done' wanted := by
  have heq : done' = done := funext fun r => propext (hiff r)
  rw [heq]
  exact h

theorem Gathered.walkedIn {done : RepoName → Prop} {wanted : Wanted}
    (h : Gathered cfg src v done wanted) {repo : RepoName} (hrepo : ¬done repo) :
    wanted.walkedIn repo = .empty := by
  have hmanifests : digestsIn wanted.manifests repo = .empty := by
    apply BTreeSet.ext
    intro d
    rw [mem_digestsIn, h.manifest]
    simp [hrepo]
  have hblobs : digestsIn wanted.blobs repo = .empty := by
    apply BTreeSet.ext
    intro d
    rw [mem_digestsIn, h.blob]
    simp [hrepo]
  rw [Wanted.walkedIn, hmanifests, hblobs]
  rfl

-- One repository more.
theorem Gathered.add {done : RepoName → Prop} {wanted : Wanted}
    (h : Gathered cfg src v done wanted) {repo : RepoName} (hrepo : ¬done repo)
    {entries : List (TagName × Digest)} {walked : Walked}
    (hnodup : (entries.map Prod.fst).Nodup)
    (htags : ∀ t d, (t, d) ∈ entries ↔ WantsTag cfg src v repo t d)
    (hmanifests : ∀ d, d ∈ walked.manifests ↔ Wants cfg src v repo d)
    (hblobs : ∀ d, d ∈ walked.blobs ↔ WantsBlob cfg src v repo d) :
    Gathered cfg src v (fun r => done r ∨ r = repo) (wanted.gathered repo (entries, walked)) where
  manifest r d := by
    refine (mem_replaceIn wanted.manifests repo walked.manifests r d).trans ?_
    rw [h.manifest, hmanifests]
    by_cases hr : r = repo
    · subst hr
      simp [hrepo]
    · simp [hr]
  blob r d := by
    refine (mem_replaceIn wanted.blobs repo walked.blobs r d).trans ?_
    rw [h.blob, hblobs]
    by_cases hr : r = repo
    · subst hr
      simp [hrepo]
    · simp [hr]
  tag r t d := by
    have hmem : (r, t, d) ∈ (wanted.gathered repo (entries, walked)).tags ↔
        (r, t, d) ∈ wanted.tags ∨ r = repo ∧ (t, d) ∈ entries := by
      show (r, t, d) ∈ wanted.tags ++ entries.map (fun entry => (repo, entry)) ↔ _
      rw [List.mem_append]
      refine or_congr_right ?_
      simp only [List.mem_map, Prod.mk.injEq]
      constructor
      · rintro ⟨entry, he, rfl, rfl⟩
        exact ⟨rfl, he⟩
      · rintro ⟨rfl, he⟩
        exact ⟨(t, d), he, rfl, rfl⟩
    rw [hmem, h.tag, htags]
    by_cases hr : r = repo
    · subst hr
      simp [hrepo]
    · simp [hr]
  nodup := by
    show ((wanted.tags ++ entries.map fun entry => (repo, entry)).map
      fun entry => (entry.1, entry.2.1)).Nodup
    rw [List.map_append, List.nodup_append]
    refine ⟨h.nodup, ?_, ?_⟩
    · rw [List.map_map]
      have hpair : (entries.map fun entry => (repo, entry.1)) =
          (entries.map Prod.fst).map fun t => (repo, t) := by
        rw [List.map_map]
        rfl
      refine Eq.mpr (congrArg List.Nodup hpair) ?_
      exact hnodup.map fun a b hab => (Prod.mk.inj hab).2
    · intro a ha b hb hab
      obtain ⟨⟨r, t, d⟩, hm, rfl⟩ := List.mem_map.mp ha
      obtain ⟨⟨r', t', d'⟩, hm', rfl⟩ := List.mem_map.mp hb
      obtain ⟨entry, _, heq⟩ := List.mem_map.mp hm'
      obtain rfl : r = r' := (Prod.mk.inj hab).1
      obtain rfl : repo = r := (Prod.mk.inj heq).1
      exact hrepo ((h.tag _ t d).mp hm).1

variable (cfg src) (w : World)

omit [SerdeJson] in
theorem selected_target {repo : RepoName} {listed : BTreeSet TagName}
    (hlisted : ∀ tag, tag ∈ listed ↔ src.HasTag w.volumes repo tag)
    {entries : List (TagName × Digest)}
    (hfst : entries.map Prod.fst = listed.toList.filter cfg.selects)
    (htargets : ∀ entry ∈ entries, Target src w.volumes repo entry.1 entry.2) (t : TagName)
    (d : Digest) : (t, d) ∈ entries ↔ WantsTag cfg src w.volumes repo t d := by
  constructor
  · intro he
    have hm : t ∈ listed.toList.filter cfg.selects := by
      rw [← hfst]
      exact List.mem_map_of_mem he
    exact ⟨(List.mem_filter.mp hm).2, htargets (t, d) he⟩
  · rintro ⟨hselect, bytes, hbytes, rfl⟩
    obtain ⟨root, hroot, hread⟩ := Backend.exists_of_read hbytes
    obtain ⟨d, hd, _⟩ := (Contents.read_eq_some _ _ _ _).mp hread
    have htag : t ∈ listed := (hlisted t).mpr ⟨root, hroot, Option.isSome_iff_exists.mpr ⟨d, hd⟩⟩
    have hm : t ∈ entries.map Prod.fst := by
      rw [hfst]
      exact List.mem_filter.mpr ⟨htag, hselect⟩
    obtain ⟨⟨t', d'⟩, he, rfl⟩ := List.mem_map.mp hm
    obtain ⟨bytes', hbytes', rfl⟩ := htargets _ he
    rw [hbytes] at hbytes'
    rw [Option.some.inj hbytes']
    exact he

theorem run_gatherRepo (repo : RepoName) {done : RepoName → Prop} {wanted : Wanted}
    (hcoh : w.volumes.Coherent repo) (hwanted : Gathered cfg src w.volumes done wanted)
    (hrepo : ¬done repo) (hresolve : SelectedResolve cfg src w.volumes repo) : ∃ wanted',
      (gatherRepo src.storage cfg repo wanted).run World.handle w = (.ok wanted', w) ∧
      Gathered cfg src w.volumes (fun r => done r ∨ r = repo) wanted' := by
  obtain ⟨listed, hlist, hlisted⟩ := src.run_listTags w repo
  have hstart : ∀ tag ∈ listed.toList.filter cfg.selects, ∀ d, Target src w.volumes repo tag d →
      StartsAt cfg src w.volumes repo d :=
    fun tag ht d htarget => .inr ⟨tag, (List.mem_filter.mp ht).2, htarget⟩
  obtain ⟨result, hwalkTags, htags⟩ := Migrate.run_walkTags src w hcoh
    (StartsAt cfg src w.volumes repo) (listed.toList.filter cfg.selects) hstart
  rcases result with err | ⟨entries, walked⟩
  · obtain ⟨_, tag, htag, hnone⟩ := htags
    obtain ⟨hm, hselect⟩ := List.mem_filter.mp htag
    have h := hresolve tag hselect ((hlisted tag).mp hm)
    rw [hnone] at h
    cases h
  obtain ⟨hext, hfst, hentries⟩ := htags
  have htarget := selected_target cfg src w hlisted hfst fun entry he => (hentries entry he).1
  have hnodup : (entries.map Prod.fst).Nodup := by
    rw [hfst]
    exact listed.nodup.filter _
  have hfun := Migrate.reads_unique src w.volumes repo
  have hmissing := Migrate.not_misses_of_reads src w.volumes repo
  have htagStart : ∀ d, (∃ tag, WantsTag cfg src w.volumes repo tag d) → d ∈ walked.manifests := by
    rintro d ⟨tag, htag⟩
    exact (hentries (tag, d) ((htarget tag d).mpr htag)).2
  rw [gatherRepo_eq, hwanted.walkedIn hrepo, run_bind_of_ok hlist, run_bind_of_ok hwalkTags]
  by_cases hglob : cfg.tagGlob = none
  · obtain ⟨digests, hdigests, hmemDigests⟩ := src.run_listManifestDigests w repo
    obtain ⟨walked', hwalkDetached, hext', _, hall⟩ := Migrate.run_walkDetached src w
      (StartsAt cfg src w.volumes repo) digests.toList (fun _ _ => .inl hglob) walked hext
    have hstart' : ∀ d bytes, StartsAt cfg src w.volumes repo d → Reads src w.volumes repo d bytes →
        d ∈ walked'.manifests := by
      intro d bytes _ hr
      exact hall d ((hmemDigests d).mpr (Option.isSome_iff_exists.mpr ⟨bytes, hr⟩)) bytes hr
    refine ⟨_, ?_, hwanted.add hrepo hnodup htarget (hext'.mem_manifests hfun hmissing hstart')
      (hext'.mem_blobs hfun hmissing hstart')⟩
    rw [if_pos (by rw [hglob]; rfl), run_bind_of_ok hdigests, run_bind_of_ok hwalkDetached]
    rfl
  · have hstart' : ∀ d bytes, StartsAt cfg src w.volumes repo d → Reads src w.volumes repo d bytes →
        d ∈ walked.manifests := by
      intro d bytes hd _
      exact htagStart d (hd.resolve_left hglob)
    refine ⟨_, ?_, hwanted.add hrepo hnodup htarget (hext.mem_manifests hfun hmissing hstart')
      (hext.mem_blobs hfun hmissing hstart')⟩
    rw [if_neg (by simpa using hglob)]
    rfl

-- A dangling tag stops the pass.
theorem run_gatherRepo_dangling (repo : RepoName) (wanted : Wanted) {done : RepoName → Prop}
    (hcoh : w.volumes.Coherent repo) (hwanted : Gathered cfg src w.volumes done wanted)
    (hrepo : ¬done repo) (hdangling : ¬SelectedResolve cfg src w.volumes repo) :
    (gatherRepo src.storage cfg repo wanted).run World.handle w = (.error .notFound, w) := by
  obtain ⟨listed, hlist, hlisted⟩ := src.run_listTags w repo
  obtain ⟨result, hwalkTags, htags⟩ := Migrate.run_walkTags src w hcoh (fun _ => True)
    (listed.toList.filter cfg.selects) fun _ _ _ _ => trivial
  rw [gatherRepo_eq, hwanted.walkedIn hrepo, run_bind_of_ok hlist]
  rcases result with err | ⟨entries, walked⟩
  · rw [run_bind_of_error hwalkTags, htags.1]
  · obtain ⟨_, hfst, hentries⟩ := htags
    refine absurd ?_ hdangling
    intro tag hselect htag
    have hm : tag ∈ entries.map Prod.fst := by
      rw [hfst]
      exact List.mem_filter.mpr ⟨(hlisted tag).mpr htag, hselect⟩
    obtain ⟨⟨tag', d⟩, he, rfl⟩ := List.mem_map.mp hm
    obtain ⟨⟨bytes, hbytes, _⟩, _⟩ := hentries _ he
    exact Option.isSome_iff_exists.mpr ⟨bytes, hbytes⟩

theorem run_gather (repos : List RepoName) {done : RepoName → Prop} {wanted : Wanted}
    (hcoh : ∀ repo ∈ repos, w.volumes.Coherent repo) (hnodup : repos.Nodup)
    (hwanted : Gathered cfg src w.volumes done wanted) (hdone : ∀ repo ∈ repos, ¬done repo)
    (hresolve : ∀ repo ∈ repos, SelectedResolve cfg src w.volumes repo) : ∃ wanted',
      (gather src.storage cfg repos wanted).run World.handle w = (.ok wanted', w) ∧
      Gathered cfg src w.volumes (fun r => done r ∨ r ∈ repos) wanted' := by
  induction repos generalizing done wanted with
  | nil => exact ⟨wanted, rfl, hwanted.congr fun r => by simp⟩
  | cons repo rest ih =>
      obtain ⟨hrepo, hrest⟩ := List.nodup_cons.mp hnodup
      obtain ⟨wanted₁, hrun₁, hwanted₁⟩ := run_gatherRepo cfg src w repo
        (hcoh repo List.mem_cons_self) hwanted (hdone repo List.mem_cons_self)
        (hresolve repo List.mem_cons_self)
      have hdone₁ : ∀ r ∈ rest, ¬(done r ∨ r = repo) := by
        rintro r hr (hd | rfl)
        · exact hdone r (List.mem_cons_of_mem repo hr) hd
        · exact hrepo hr
      obtain ⟨wanted', hrun, hwanted'⟩ := ih (fun r hr => hcoh r (List.mem_cons_of_mem repo hr))
        hrest hwanted₁ hdone₁ fun r hr => hresolve r (List.mem_cons_of_mem repo hr)
      refine ⟨wanted', ?_, hwanted'.congr fun r => by rw [List.mem_cons, or_assoc]⟩
      rw [gather, run_bind_of_ok hrun₁]
      exact hrun

theorem run_gather_dangling (repos : List RepoName) {done : RepoName → Prop} {wanted : Wanted}
    (hcoh : ∀ repo ∈ repos, w.volumes.Coherent repo) (hnodup : repos.Nodup)
    (hwanted : Gathered cfg src w.volumes done wanted) (hdone : ∀ repo ∈ repos, ¬done repo)
    (hdangling : ¬∀ repo ∈ repos, SelectedResolve cfg src w.volumes repo) :
    (gather src.storage cfg repos wanted).run World.handle w = (.error .notFound, w) := by
  induction repos generalizing done wanted with
  | nil => exact absurd (by simp) hdangling
  | cons repo rest ih =>
      obtain ⟨hrepo, hrest⟩ := List.nodup_cons.mp hnodup
      have hcoh₁ := hcoh repo List.mem_cons_self
      rw [gather]
      by_cases hresolve : SelectedResolve cfg src w.volumes repo
      · obtain ⟨wanted₁, hrun₁, hwanted₁⟩ := run_gatherRepo cfg src w repo hcoh₁ hwanted
          (hdone repo List.mem_cons_self) hresolve
        have hdone₁ : ∀ r ∈ rest, ¬(done r ∨ r = repo) := by
          rintro r hr (hd | rfl)
          · exact hdone r (List.mem_cons_of_mem repo hr) hd
          · exact hrepo hr
        have hleft : ¬∀ r ∈ rest, SelectedResolve cfg src w.volumes r := by
          intro h
          refine hdangling fun r hr => ?_
          rcases List.mem_cons.mp hr with rfl | hr
          · exact hresolve
          · exact h r hr
        rw [run_bind_of_ok hrun₁]
        exact ih (fun r hr => hcoh r (List.mem_cons_of_mem repo hr)) hrest hwanted₁ hdone₁ hleft
      · exact run_bind_of_error (run_gatherRepo_dangling cfg src w repo wanted hcoh₁ hwanted
          (hdone repo List.mem_cons_self) hresolve) _

end RspaceRegistry.Replicate
