import RspaceRegistry.Migrate.Walk
import RspaceRegistry.World.Forthright

namespace RspaceRegistry.Migrate

open Calls Fallible Ordered Places

-- The first half of the copy of a repository: what there is to copy.

variable [SerdeJson]

section Forthright

variable (src : Backend) (repo : RepoName)

omit [SerdeJson] in
theorem forthright_walkChildren [Sha2] {walk : Digest → Bytes → Walked → StoreM Walked}
    (hwalk : ∀ d bytes walked, Forthright (walk d bytes walked)) (children : List Digest)
    (walked : Walked) : Forthright (walkChildren src.storage repo walk children walked) := by
  induction children generalizing walked with
  | nil => exact .pure walked
  | cons child rest ih =>
      rw [walkChildren]
      split
      · exact ih walked
      · apply (src.forthright_manifestGet repo (.digest child)).attempt_bind
        · exact fun bytes => (hwalk child bytes walked).bind ih
        · exact ih walked
        · intro err hne
          cases err <;> first | rfl | exact absurd rfl hne

theorem forthright_walkFrom [Sha2] (steps : Nat) (d : Digest) (bytes : Bytes) (walked : Walked) :
    Forthright (walkFrom src.storage repo steps d bytes walked) := by
  induction steps generalizing d bytes walked with
  | zero => exact .pure walked
  | succ steps ih =>
      rw [walkFrom]
      split
      · exact .pure walked
      · split
        · exact .pure _
        · exact (forthright_walkChildren src repo ih _ _).bind fun walked => .pure _

theorem forthright_walk [Sha2] (d : Digest) (bytes : Bytes) (walked : Walked) :
    Forthright (walk src.storage repo d bytes walked) :=
  forthright_walkFrom src repo _ d bytes walked

variable [Sha2]

theorem forthright_walkTags (listed : List TagName) (tags : List (TagName × Digest))
    (walked : Walked) : Forthright (walkTags src.storage repo listed tags walked) := by
  induction listed generalizing tags walked with
  | nil => exact .pure (tags, walked)
  | cons tag rest ih =>
      refine (src.forthright_manifestGet repo (.tag tag)).bind ?_
      exact fun bytes => (forthright_walk src repo _ bytes walked).bind fun walked => ih _ walked

theorem forthright_walkDetached (digests : List Digest) (walked : Walked) :
    Forthright (walkDetached src.storage repo digests walked) := by
  induction digests generalizing walked with
  | nil => exact .pure walked
  | cons d rest ih =>
      rw [walkDetached]
      split
      · exact ih walked
      · apply (src.forthright_manifestGet repo (.digest d)).attempt_bind
        · exact fun bytes => (forthright_walk src repo d bytes walked).bind ih
        · exact ih walked
        · intro err hne
          cases err <;> first | rfl | exact absurd rfl hne

end Forthright

variable (src : Backend) (v : Volumes) (repo : RepoName)

-- The blobs that a stored text of the repository refers to.
def Referenced (d : Digest) : Prop :=
  ∃ digest bytes, src.read v repo (.digest digest) = some bytes ∧ d ∈ blobReferences bytes

-- No tag of the repository dangles.
def TagsResolve : Prop :=
  ∀ tag, src.HasTag v repo tag → (src.read v repo (.tag tag)).isSome

variable [Sha2]

def Target (tag : TagName) (d : Digest) : Prop :=
  ∃ bytes, src.read v repo (.tag tag) = some bytes ∧ d = sha256Digest bytes

-- The outcome of the first half.
structure Surveyed (found : List (TagName × Digest) × Walked) : Prop where
  tag : ∀ tag d, (tag, d) ∈ found.1 ↔ Target src v repo tag d
  nodup : (found.1.map Prod.fst).Nodup
  manifest : ∀ d, d ∈ found.2.manifests ↔ (src.read v repo (.digest d)).isSome
  blob : ∀ b, b ∈ found.2.blobs ↔ Referenced src v repo b

omit [SerdeJson] in
theorem hasTag_of_target {tag : TagName} {d : Digest} (h : Target src v repo tag d) :
    src.HasTag v repo tag := by
  obtain ⟨bytes, hbytes, _⟩ := h
  obtain ⟨root, hroot, hread⟩ := Backend.exists_of_read hbytes
  obtain ⟨d, hd, _⟩ := (Contents.read_eq_some _ _ _ _).mp hread
  exact ⟨root, hroot, Option.isSome_iff_exists.mpr ⟨d, hd⟩⟩

variable {repo} (w : World)

omit [SerdeJson] in
-- What the copier reads by a tag it reads by the digest as well.
theorem read_target (hcoh : w.volumes.Coherent repo) {tag : TagName} {bytes : Bytes}
    (h : src.read w.volumes repo (.tag tag) = some bytes) :
    src.read w.volumes repo (.digest (sha256Digest bytes)) = some bytes := by
  obtain ⟨root, hroot, hread⟩ := exists_of_first h
  obtain ⟨d, _, hd⟩ := (Contents.read_eq_some _ _ _ _).mp hread
  have haddr := (w.volumes_wellFormed root).manifest_addressed repo d bytes hd
  rw [haddr]
  exact (hcoh d).first_eq hroot hd

-- What a reader alone gets for a digest, and when it gets nothing.

def Reads (v : Volumes) (repo : RepoName) (d : Digest) (bytes : Bytes) : Prop :=
  src.read v repo (.digest d) = some bytes

def Misses (v : Volumes) (repo : RepoName) (d : Digest) (err : StorageError) : Prop :=
  err = .notFound ∧ src.read v repo (.digest d) = none

omit [SerdeJson] in
theorem reads_alone (repo : RepoName) :
    ReadsWith World.handle.sem Eq unguarded src.storage repo (Reads src w.volumes repo)
      (Misses src w.volumes repo) (· = w) := by
  rintro d _ rfl
  rw [Fallible.wp_iff_run, src.run_manifestGet]
  cases hread : src.read _ repo (.digest d) with
  | some bytes => exact ⟨hread, rfl⟩
  | none => exact ⟨⟨rfl, hread⟩, rfl⟩

-- The walk from the listed tags, run alone.
theorem run_walkTags (hcoh : w.volumes.Coherent repo) (Start : Digest → Prop)
    (listed : List TagName)
    (hstart : ∀ tag ∈ listed, ∀ d, Target src w.volumes repo tag d → Start d) :
    ∃ result, (walkTags src.storage repo listed [] .empty).run World.handle w = (result, w) ∧
      Outcome (fun (found : List (TagName × Digest) × Walked) _ =>
          Walked.empty.Extends (Reads src w.volumes repo) (Misses src w.volumes repo · .notFound) Start found.2 ∧
          found.1.map Prod.fst = listed ∧ ∀ entry ∈ found.1,
            Target src w.volumes repo entry.1 entry.2 ∧ entry.2 ∈ found.2.manifests)
        (fun err _ => err = .notFound ∧ ∃ tag ∈ listed, src.read w.volumes repo (.tag tag) = none)
        result w := by
  have htag : ∀ tag s, s = w → (src.storage.manifestGet repo (.tag tag)).wp World.handle.sem Eq
      unguarded (Outcome (fun bytes s' =>
        src.read w.volumes repo (.digest (sha256Digest bytes)) = some bytes ∧
          Target src w.volumes repo tag (sha256Digest bytes) ∧ s' = w)
        (fun err s' => (err = .notFound ∧ src.read w.volumes repo (.tag tag) = none) ∧ s' = w)) s := by
    rintro tag s hs
    rw [Fallible.wp_iff_run, src.run_manifestGet, hs]
    cases hread : src.read w.volumes repo (.tag tag) with
    | some bytes => exact ⟨read_target src w hcoh hread, ⟨bytes, hread, rfl⟩, rfl⟩
    | none => exact ⟨⟨rfl, rfl⟩, rfl⟩
  have hwalk := wp_walkTags (reads_alone src w repo) listed htag hstart [] .empty w rfl
  rw [Fallible.wp_iff_run] at hwalk
  rcases hrun : (walkTags src.storage repo listed [] .empty).run World.handle w with ⟨result, w'⟩
  rw [hrun] at hwalk
  rcases result with err | found
  · obtain ⟨rfl, h⟩ := hwalk
    refine ⟨.error err, rfl, ?_⟩
    rcases h with ⟨tag, htag, hfailed⟩ | ⟨hne, ⟨d, hfailed⟩, _⟩
    · exact ⟨hfailed.1, tag, htag, hfailed.2⟩
    · exact absurd hfailed.1 hne
  · obtain ⟨rfl, hext, entries, hentries, hfst, hpoints⟩ := hwalk
    refine ⟨.ok found, rfl, hext, ?_, ?_⟩
    · rw [hentries]
      exact hfst
    · intro entry he
      rw [hentries] at he
      exact hpoints entry he

omit [SerdeJson] [Sha2] in
theorem reads_unique (v : Volumes) (repo : RepoName) (d : Digest) (bytes bytes' : Bytes)
    (h : Reads src v repo d bytes) (h' : Reads src v repo d bytes') :
    bytes = bytes' := Option.some.inj (h.symm.trans h')

omit [SerdeJson] [Sha2] in
theorem not_misses_of_reads (v : Volumes) (repo : RepoName) (d : Digest) (bytes : Bytes)
    (h : Reads src v repo d bytes) : ¬Misses src v repo d .notFound := by
  rintro ⟨_, hnone⟩
  exact Option.some_ne_none bytes (h.symm.trans hnone)

-- The walk from some digests, run alone.
theorem run_walkDetached (Start : Digest → Prop) (digests : List Digest)
    (hstart : ∀ d ∈ digests, Start d) (walked : Walked)
    (hwalked : Walked.empty.Extends (Reads src w.volumes repo) (Misses src w.volumes repo · .notFound)
      Start walked) : ∃ walked',
    (walkDetached src.storage repo digests walked).run World.handle w = (.ok walked', w) ∧
      Walked.empty.Extends (Reads src w.volumes repo) (Misses src w.volumes repo · .notFound) Start
        walked' ∧
      (∀ d ∈ walked.manifests, d ∈ walked'.manifests) ∧
      ∀ d ∈ digests, ∀ bytes, Reads src w.volumes repo d bytes → d ∈ walked'.manifests := by
  have hwalk := wp_walkDetached (reads_alone src w repo) digests walked w rfl hstart
  rw [Fallible.wp_iff_run] at hwalk
  rcases hrun : (walkDetached src.storage repo digests walked).run World.handle w with ⟨result, w'⟩
  rw [hrun] at hwalk
  rcases result with err | walked'
  · obtain ⟨hne, ⟨d, hfailed⟩, _⟩ := hwalk
    exact absurd hfailed.1 hne
  · obtain ⟨rfl, hext, hfound⟩ := hwalk
    refine ⟨walked', rfl, hwalked.trans hext, hext.manifests, ?_⟩
    intro d hd bytes hr
    exact (hfound d hd).resolve_right (not_misses_of_reads src _ repo d bytes hr)

-- A walk that took in everything the source can read has all its blobs.
theorem mem_walked_all {walked : Walked}
    (h : Walked.empty.Extends (Reads src w.volumes repo) (Misses src w.volumes repo · .notFound)
      (fun _ => True) walked)
    (hall : ∀ d bytes, Reads src w.volumes repo d bytes → d ∈ walked.manifests) :
    (∀ d, d ∈ walked.manifests ↔ (src.read w.volumes repo (.digest d)).isSome) ∧
      ∀ b, b ∈ walked.blobs ↔ Referenced src w.volumes repo b := by
  have hreached : ∀ d, Reached (Reads src w.volumes repo) (fun _ => True) d ↔
      ∃ bytes, Reads src w.volumes repo d bytes := by
    intro d
    constructor
    · rintro (⟨_, hr⟩ | ⟨_, _, _, hr⟩) <;> exact ⟨_, hr⟩
    · rintro ⟨bytes, hr⟩
      exact .start trivial hr
  have hstart : ∀ d bytes, True → Reads src w.volumes repo d bytes → d ∈ walked.manifests :=
    fun d bytes _ => hall d bytes
  have hfun := reads_unique src w.volumes repo
  have hmissing := not_misses_of_reads src w.volumes repo
  constructor
  · intro d
    rw [h.mem_manifests hfun hmissing hstart, hreached, Option.isSome_iff_exists]
    rfl
  · intro b
    rw [h.mem_blobs hfun hmissing hstart]
    constructor
    · rintro ⟨d, bytes, _, hr, hb⟩
      exact ⟨d, bytes, hr, hb⟩
    · rintro ⟨d, bytes, hr, hb⟩
      exact ⟨d, bytes, (hreached d).mpr ⟨bytes, hr⟩, hr, hb⟩

variable (repo) in
def survey : StoreM (List (TagName × Digest) × Walked) := do
  let listed ← src.storage.listTags repo
  let (tags, walked) ← walkTags src.storage repo listed.toList [] .empty
  let digests ← src.storage.listManifestDigests repo
  let walked ← walkDetached src.storage repo digests.toList walked
  pure (tags, walked)

theorem forthright_survey : Forthright (survey src repo) := by
  refine (src.forthright_listTags repo).bind fun listed => ?_
  refine (forthright_walkTags src repo _ _ _).bind fun found => ?_
  refine (src.forthright_listManifestDigests repo).bind fun digests => ?_
  exact (forthright_walkDetached src repo _ _).bind fun walked => .pure _

-- The tags are found in their order.
theorem run_survey_sorted (hcoh : w.volumes.Coherent repo) (hresolve : TagsResolve src w.volumes repo) :
    ∃ found, (survey src repo).run World.handle w = (.ok found, w) ∧
      Surveyed src w.volumes repo found ∧ (found.1.map Prod.fst).Pairwise (· < ·) := by
  obtain ⟨listed, hlist, hlisted⟩ := src.run_listTags w repo
  obtain ⟨digests, hdigests, hmemDigests⟩ := src.run_listManifestDigests w repo
  obtain ⟨result, hwalkTags, htags⟩ :=
    run_walkTags src w hcoh (fun _ => True) listed.toList fun _ _ _ _ => trivial
  rcases result with err | ⟨entries, walked⟩
  · obtain ⟨_, tag, htag, hnone⟩ := htags
    have h := hresolve tag ((hlisted tag).mp htag)
    rw [hnone] at h
    cases h
  obtain ⟨hext, hfst, htargets⟩ := htags
  obtain ⟨walked', hwalkDetached, hext', _, hall⟩ := run_walkDetached src w (fun _ => True)
    digests.toList (fun _ _ => trivial) walked hext
  obtain ⟨hmanifests, hblobs⟩ := mem_walked_all src w hext' fun d bytes hr =>
    hall d ((hmemDigests d).mpr (Option.isSome_iff_exists.mpr ⟨bytes, hr⟩)) bytes hr
  refine ⟨(entries, walked'), ?_, ⟨?_, ?_, hmanifests, hblobs⟩, by rw [hfst]; exact listed.sorted⟩
  · rw [survey, run_bind_of_ok hlist, run_bind_of_ok hwalkTags]
    refine Eq.trans (run_bind_of_ok hdigests _) ?_
    exact run_bind_of_ok hwalkDetached _
  · intro tag d
    refine ⟨fun he => (htargets (tag, d) he).1, ?_⟩
    intro htarget
    have hm : tag ∈ entries.map Prod.fst := by
      rw [hfst]
      exact (hlisted tag).mpr (hasTag_of_target src _ repo htarget)
    obtain ⟨⟨tag', d'⟩, he, rfl⟩ := List.mem_map.mp hm
    obtain ⟨⟨bytes', hbytes', rfl⟩, _⟩ := htargets _ he
    obtain ⟨bytes, hbytes, rfl⟩ := htarget
    rw [hbytes] at hbytes'
    rw [Option.some.inj hbytes']
    exact he
  · rw [hfst]
    exact listed.nodup

theorem run_survey (hcoh : w.volumes.Coherent repo) (hresolve : TagsResolve src w.volumes repo) :
    ∃ found, (survey src repo).run World.handle w = (.ok found, w) ∧
      Surveyed src w.volumes repo found := by
  obtain ⟨found, hrun, hfound, _⟩ := run_survey_sorted src w hcoh hresolve
  exact ⟨found, hrun, hfound⟩

theorem run_survey_dangling (hcoh : w.volumes.Coherent repo)
    (hdangling : ¬TagsResolve src w.volumes repo) :
    (survey src repo).run World.handle w = (.error .notFound, w) := by
  obtain ⟨listed, hlist, hlisted⟩ := src.run_listTags w repo
  obtain ⟨result, hwalkTags, htags⟩ :=
    run_walkTags src w hcoh (fun _ => True) listed.toList fun _ _ _ _ => trivial
  rw [survey, run_bind_of_ok hlist]
  rcases result with err | ⟨entries, walked⟩
  · rw [run_bind_of_error hwalkTags, htags.1]
  · obtain ⟨_, hfst, htargets⟩ := htags
    refine absurd ?_ hdangling
    intro tag htag
    have hm : tag ∈ entries.map Prod.fst := by
      rw [hfst]
      exact (hlisted tag).mpr htag
    obtain ⟨⟨tag', d⟩, he, rfl⟩ := List.mem_map.mp hm
    obtain ⟨⟨bytes, hbytes, _⟩, _⟩ := htargets _ he
    exact Option.isSome_iff_exists.mpr ⟨bytes, hbytes⟩

-- The second half of the copy of a repository.
def copyFound (src dst : Storage) (repo : RepoName) (found : List (TagName × Digest) × Walked)
    (report : MigrateReport) : StoreM MigrateReport := do
  let report ← copyBlobs src dst repo found.2.blobs.toList report
  let report ← copyManifests src dst repo found.2.manifests.toList report
  copyTags src dst repo found.1
  pure report

theorem copyRepo_eq (dst : Backend) (report : MigrateReport) :
    copyRepo src.storage dst.storage repo report =
      survey src repo >>= fun found => copyFound src.storage dst.storage repo found report := by
  simp only [survey, bind_assoc, pure_bind]
  rfl

end RspaceRegistry.Migrate
