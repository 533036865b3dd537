import RspaceRegistry.Replicate
import RspaceRegistry.Migrate.Walk

namespace RspaceRegistry.Replicate

open Calls Fallible Ordered
open Migrate (Walked)

theorem exists_key (entry : Key) : ∃ repo d, entry = key repo d := ⟨_, _, rfl⟩

theorem key_inj {repo repo' : RepoName} {d d' : Digest} :
    key repo d = key repo' d' ↔ repo = repo' ∧ d = d' :=
  toLex_inj.trans Prod.mk_inj

-- The part of a keyed set that belongs to one repository, and its replacement.

def digestsIn (set : BTreeSet Key) (repo : RepoName) : BTreeSet Digest :=
  BTreeSet.empty.extend ((set.toList.filter fun entry => (ofLex entry).1 = repo).map
    fun entry => (ofLex entry).2)

def replaceIn (set : BTreeSet Key) (repo : RepoName) (digests : BTreeSet Digest) : BTreeSet Key :=
  (BTreeSet.empty.extend (set.toList.filter fun entry => (ofLex entry).1 ≠ repo)).extend
    (digests.toList.map (key repo))

theorem mem_digestsIn (set : BTreeSet Key) (repo : RepoName) (d : Digest) :
    d ∈ digestsIn set repo ↔ key repo d ∈ set := by
  unfold digestsIn
  rw [BTreeSet.mem_extend]
  simp only [BTreeSet.not_mem_empty, or_false, List.mem_map, List.mem_filter, decide_eq_true_iff]
  constructor
  · rintro ⟨entry, ⟨hm, rfl⟩, rfl⟩
    exact hm
  · intro h
    exact ⟨key repo d, ⟨h, rfl⟩, rfl⟩

theorem mem_replaceIn (set : BTreeSet Key) (repo : RepoName) (digests : BTreeSet Digest)
    (r : RepoName) (d : Digest) : key r d ∈ replaceIn set repo digests ↔
      r = repo ∧ d ∈ digests ∨ r ≠ repo ∧ key r d ∈ set := by
  unfold replaceIn
  rw [BTreeSet.mem_extend, BTreeSet.mem_extend]
  simp only [BTreeSet.not_mem_empty, or_false, List.mem_map, List.mem_filter, decide_eq_true_iff,
    BTreeSet.mem_toList, key_inj]
  refine or_congr ?_ ⟨fun h => ⟨h.2, h.1⟩, fun h => ⟨h.2, h.1⟩⟩
  constructor
  · rintro ⟨e, he, rfl, rfl⟩
    exact ⟨rfl, he⟩
  · rintro ⟨rfl, hd⟩
    exact ⟨d, hd, rfl, rfl⟩

theorem ext_keys {first second : BTreeSet Key}
    (h : ∀ repo d, key repo d ∈ first ↔ key repo d ∈ second) : first = second :=
  BTreeSet.ext fun entry => h (ofLex entry).1 (ofLex entry).2

namespace Wanted

def walkedIn (wanted : Wanted) (repo : RepoName) : Walked :=
  ⟨digestsIn wanted.manifests repo, digestsIn wanted.blobs repo⟩

def replace (wanted : Wanted) (repo : RepoName) (walked : Walked) : Wanted :=
  { wanted with
    manifests := replaceIn wanted.manifests repo walked.manifests
    blobs := replaceIn wanted.blobs repo walked.blobs }

theorem mem_replace_manifests (wanted : Wanted) (repo : RepoName) (walked : Walked) (d : Digest) :
    key repo d ∈ (wanted.replace repo walked).manifests ↔ d ∈ walked.manifests := by
  refine (mem_replaceIn wanted.manifests repo walked.manifests repo d).trans ?_
  simp

theorem ext' {first second : Wanted}
    (hm : ∀ repo d, key repo d ∈ first.manifests ↔ key repo d ∈ second.manifests)
    (hb : ∀ repo d, key repo d ∈ first.blobs ↔ key repo d ∈ second.blobs)
    (ht : first.tags = second.tags) : first = second := by
  cases first
  cases second
  congr
  · exact ext_keys hm
  · exact ext_keys hb

theorem replace_walkedIn (wanted : Wanted) (repo : RepoName) :
    wanted.replace repo (wanted.walkedIn repo) = wanted := by
  refine ext' ?_ ?_ rfl
  all_goals
    intro r d
    refine (mem_replaceIn _ repo _ r d).trans ?_
    by_cases hr : r = repo
    · subst hr
      simp [walkedIn, mem_digestsIn]
    · simp [hr]

theorem visit_replace (wanted : Wanted) (repo : RepoName) (walked : Walked) (digest : Digest) :
    (wanted.replace repo walked).visit repo digest = wanted.replace repo (walked.visit digest) := by
  refine ext' ?_ (fun _ _ => Iff.rfl) rfl
  intro r d
  simp only [visit, replace, Walked.visit, BTreeSet.mem_insert, mem_replaceIn, key_inj]
  by_cases hr : r = repo <;> simp [hr]

theorem collect_replace (wanted : Wanted) (repo : RepoName) (walked : Walked) (m : Manifest) :
    (wanted.replace repo walked).collect repo m = wanted.replace repo (walked.collect m) := by
  refine ext' (fun _ _ => Iff.rfl) ?_ rfl
  intro r d
  simp only [collect, replace, Walked.collect, BTreeSet.mem_extend, mem_replaceIn, List.mem_map,
    key_inj]
  by_cases hr : r = repo
  · subst hr
    simp
  · simp [hr, Ne.symm hr]

def pointAll (wanted : Wanted) (repo : RepoName) (tags : List (TagName × Digest)) : Wanted :=
  { wanted with tags := wanted.tags ++ tags.map fun entry => (repo, entry) }

theorem pointAll_nil (wanted : Wanted) (repo : RepoName) : wanted.pointAll repo [] = wanted := by
  simp [pointAll]

theorem point_pointAll (wanted : Wanted) (repo : RepoName) (tags : List (TagName × Digest))
    (walked : Walked) (tag : TagName) (d : Digest) :
    ((wanted.pointAll repo tags).replace repo walked).point repo tag d =
      (wanted.pointAll repo (tags ++ [(tag, d)])).replace repo walked := by
  simp [point, pointAll, replace]

end Wanted

section Walk

-- Within one repository the pass walks as a migration does: it makes the same
-- calls and adds the same digests, under the repository's key.
variable (storage : Storage) (repo : RepoName) (wanted : Wanted)

theorem walkChildren_replace {walk : Digest → Bytes → Wanted → StoreM Wanted}
    {walk' : Digest → Bytes → Walked → StoreM Walked}
    (hwalk : ∀ d bytes walked, walk d bytes (wanted.replace repo walked) =
      walk' d bytes walked >>= fun walked => pure (wanted.replace repo walked))
    (children : List Digest) (walked : Walked) :
    walkChildren storage repo walk children (wanted.replace repo walked) =
      Migrate.walkChildren storage repo walk' children walked >>=
        fun walked => pure (wanted.replace repo walked) := by
  induction children generalizing walked with
  | nil => rfl
  | cons child rest ih =>
      rw [walkChildren, Migrate.walkChildren]
      simp only [wanted.mem_replace_manifests]
      split
      · exact ih walked
      · rw [bind_assoc]
        congr 1
        funext result
        rcases result with err | bytes
        · cases err with
          | notFound => exact ih walked
          | _ => rfl
        · simp only [hwalk, bind_assoc, pure_bind]
          congr 1
          funext walked'
          exact ih walked'

variable [SerdeJson]

theorem walkFrom_replace (steps : Nat) (d : Digest) (bytes : Bytes) (walked : Walked) :
    walkFrom storage repo steps d bytes (wanted.replace repo walked) =
      Migrate.walkFrom storage repo steps d bytes walked >>=
        fun walked => pure (wanted.replace repo walked) := by
  induction steps generalizing d bytes walked with
  | zero => rfl
  | succ steps ih =>
      rw [walkFrom, Migrate.walkFrom]
      simp only [wanted.mem_replace_manifests]
      split
      · rfl
      · cases parseManifestRefs bytes with
        | none =>
            simp only [Wanted.visit_replace]
            rfl
        | some m =>
            simp only [Wanted.visit_replace, walkChildren_replace storage repo wanted ih, bind_assoc,
              pure_bind, Wanted.collect_replace]

theorem walkManifest_replace (d : Digest) (bytes : Bytes) (walked : Walked) :
    walkManifest storage repo d bytes (wanted.replace repo walked) =
      Migrate.walk storage repo d bytes walked >>=
        fun walked => pure (wanted.replace repo walked) :=
  walkFrom_replace storage repo wanted _ d bytes walked

theorem walkDetached_replace (digests : List Digest) (walked : Walked) :
    walkDetached storage repo digests (wanted.replace repo walked) =
      Migrate.walkDetached storage repo digests walked >>=
        fun walked => pure (wanted.replace repo walked) := by
  induction digests generalizing walked with
  | nil => rfl
  | cons d rest ih =>
      rw [walkDetached, Migrate.walkDetached]
      simp only [wanted.mem_replace_manifests]
      split
      · exact ih walked
      · rw [bind_assoc]
        congr 1
        funext result
        rcases result with err | bytes
        · cases err with
          | notFound => exact ih walked
          | _ => rfl
        · simp only [walkManifest_replace, bind_assoc, pure_bind]
          congr 1
          funext walked'
          exact ih walked'

variable [Sha2]

-- The tags that the glob leaves out are as if they were not listed.
theorem walkTags_replace (cfg : ReplicateConfig) (listed : List TagName)
    (tags : List (TagName × Digest)) (walked : Walked) :
    walkTags storage cfg repo listed ((wanted.pointAll repo tags).replace repo walked) =
      Migrate.walkTags storage repo (listed.filter cfg.selects) tags walked >>= fun found =>
        pure ((wanted.pointAll repo found.1).replace repo found.2) := by
  induction listed generalizing tags walked with
  | nil => rfl
  | cons tag rest ih =>
      rw [walkTags]
      by_cases hselect : cfg.selects tag
      · rw [if_pos hselect, List.filter_cons_of_pos hselect, Migrate.walkTags, bind_assoc]
        congr 1
        funext bytes
        simp only [Wanted.point_pointAll, walkManifest_replace, bind_assoc, pure_bind]
        congr 1
        funext walked'
        exact ih _ walked'
      · rw [if_neg hselect, List.filter_cons_of_neg hselect]
        exact ih tags walked

-- What one repository adds to the gathered sets.
def Wanted.gathered (wanted : Wanted) (repo : RepoName)
    (found : List (TagName × Digest) × Walked) : Wanted :=
  (wanted.pointAll repo found.1).replace repo found.2

theorem gatherRepo_eq (cfg : ReplicateConfig) : gatherRepo storage cfg repo wanted = (do
    let tags ← storage.listTags repo
    let found ← Migrate.walkTags storage repo (tags.toList.filter cfg.selects) []
      (wanted.walkedIn repo)
    if cfg.tagGlob.isNone then
      let digests ← storage.listManifestDigests repo
      let walked ← Migrate.walkDetached storage repo digests.toList found.2
      pure (wanted.gathered repo (found.1, walked))
    else pure (wanted.gathered repo found)) := by
  unfold gatherRepo
  congr 1
  funext tags
  have hstart : wanted = (wanted.pointAll repo []).replace repo (wanted.walkedIn repo) := by
    rw [Wanted.pointAll_nil, Wanted.replace_walkedIn]
  rw [hstart, walkTags_replace, bind_assoc, ← hstart]
  congr 1
  funext found
  rw [pure_bind]
  split
  · congr 1
    funext digests
    rw [walkDetached_replace]
    rfl
  · rfl

end Walk

end RspaceRegistry.Replicate
