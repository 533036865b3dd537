import RspaceRegistry.Migrate.Run

namespace RspaceRegistry.Migrate

open Calls Fallible Ordered Places

variable [Sha2] [SerdeJson]

-- What the source and the destination of a backfill read afterwards.

section Copied

variable {src dst : Backend} {repos : List RepoName} {v v' : Volumes}
  (h : CopiedRepos src dst repos v v')

include h

theorem CopiedRepos.readAt_other {repo : RepoName} (hr : repo ∉ repos) (reference : Reference) :
    v'.readAt repo reference = v.readAt repo reference :=
  Volumes.readAt_congr (fun d => h.otherManifest repo d hr)
    (fun tag => h.otherTag repo tag fun hm => hr hm.1) reference

theorem CopiedRepos.hasTag_other {repo : RepoName} (hr : repo ∉ repos) (b : Backend)
    (tag : TagName) : b.HasTag v' repo tag ↔ b.HasTag v repo tag := by
  have ht : ∀ root, (v' root).tag repo tag = (v root).tag repo tag :=
    congrFun (h.otherTag repo tag fun hm => hr hm.1)
  simp only [Backend.HasTag, ht]

theorem CopiedRepos.manifestAt_of_ne (repo : RepoName) (d : Digest) {root : RootId}
    (hroot : root ≠ dst.head) : v'.manifestAt repo d root = v.manifestAt repo d root := by
  by_cases hr : repo ∈ repos
  · by_cases ht : ∃ tag, Target src v repo tag d
    · rw [h.targeted repo hr d ht, forceSlot, force_of_ne hroot]
    · rw [h.untargeted repo hr d ht, fillSlot, fill_of_ne hroot]
  · rw [h.otherManifest repo d hr]

theorem CopiedRepos.blob_src (d : Digest) : src.blob v' d = src.blob v d := by
  unfold Backend.blob
  by_cases hd : ∃ repo ∈ repos, Referenced src v repo d
  · rw [h.blob d hd, fillSlot, first_src_fill dst.head_mem_readOrder]
  · rw [h.otherBlob d hd]

theorem CopiedRepos.blob_dst {d : Digest} (hd : ∃ repo ∈ repos, Referenced src v repo d) :
    dst.blob v' d = (dst.blob v d).or (src.blob v d) := by
  obtain ⟨tail, htail⟩ := dst.readOrder_eq_cons
  unfold Backend.blob
  rw [h.blob d hd, fillSlot, first_dst_fill htail]

theorem CopiedRepos.blob_other {d : Digest} (hd : ¬∃ repo ∈ repos, Referenced src v repo d)
    (b : Backend) : b.blob v' d = b.blob v d := congrArg (first b.readOrder) (h.otherBlob d hd)

section Moved

variable {repo : RepoName} (hr : repo ∈ repos)

include hr

theorem CopiedRepos.read_src_digest (d : Digest) :
    src.read v' repo (.digest d) = src.read v repo (.digest d) := by
  rw [Backend.read_digest, Backend.read_digest]
  by_cases ht : ∃ tag, Target src v repo tag d
  · rw [h.targeted repo hr d ht, forceSlot, first_src_force]
  · rw [h.untargeted repo hr d ht, fillSlot, first_src_fill dst.head_mem_readOrder]

theorem CopiedRepos.read_dst_digest (hcoh : v.Coherent repo) (d : Digest) :
    dst.read v' repo (.digest d) =
      (dst.read v repo (.digest d)).or (src.read v repo (.digest d)) := by
  obtain ⟨tail, htail⟩ := dst.readOrder_eq_cons
  simp only [Backend.read_digest]
  by_cases ht : ∃ tag, Target src v repo tag d
  · rw [h.targeted repo hr d ht, forceSlot, first_dst_force htail]
    cases hs : first src.readOrder (v.manifestAt repo d) with
    | none => rw [Option.none_or, Option.or_none]
    | some value =>
        cases hd : first dst.readOrder (v.manifestAt repo d) with
        | none => rfl
        | some value' => rw [(hcoh d).first_unique hs hd, Option.some_or]
  · rw [h.untargeted repo hr d ht, fillSlot, first_dst_fill htail]

variable (hw : ∀ root, (v root).WellFormed) (hcoh : v.Coherent repo)

include hw hcoh

-- A tag that the source resolves is written to the destination's head, and
-- its manifest with it.
theorem CopiedRepos.readAt_tag {tag : TagName} {bytes : Bytes}
    (hread : src.read v repo (.tag tag) = some bytes) : v'.readAt repo (.tag tag) =
      Function.update (v.readAt repo (.tag tag)) dst.head (some bytes) := by
  have htarget : Target src v repo tag (sha256Digest bytes) := ⟨bytes, hread, rfl⟩
  have htag := h.tag repo hr tag _ htarget
  have hmanifest : v'.manifestAt repo (sha256Digest bytes) dst.head = some bytes := by
    obtain ⟨root, hroot, hat⟩ := exists_of_first hread
    obtain ⟨d, _, hd⟩ := (Contents.read_eq_some _ _ _ _).mp hat
    have haddr := (hw root).manifest_addressed repo d bytes hd
    have hsrc : first src.readOrder (v.manifestAt repo (sha256Digest bytes)) = some bytes := by
      rw [haddr]
      exact (hcoh d).first_eq hroot hd
    rw [h.targeted repo hr _ ⟨tag, htarget⟩, forceSlot, force_of_some hsrc, Function.update_self]
  have htagAt : ∀ root, (v' root).tag repo tag =
      Function.update (v.tagAt repo tag) dst.head (some (sha256Digest bytes)) root := congrFun htag
  funext root
  by_cases hroot : root = dst.head
  · subst hroot
    have hhead : (v' dst.head).tag repo tag = some (sha256Digest bytes) := by
      rw [htagAt, Function.update_self]
    rw [Function.update_self, Volumes.readAt, Contents.read_tag, hhead]
    exact hmanifest
  · have hother : (v' root).tag repo tag = (v root).tag repo tag := by
      rw [htagAt, Function.update_of_ne hroot]
      rfl
    have hsame : (v' root).manifest repo = (v root).manifest repo :=
      funext fun d => h.manifestAt_of_ne repo d hroot
    rw [Function.update_of_ne hroot, Volumes.readAt, Volumes.readAt, Contents.read_tag,
      Contents.read_tag, hother, hsame]

theorem CopiedRepos.read_dst_tag {tag : TagName} {bytes : Bytes}
    (hread : src.read v repo (.tag tag) = some bytes) :
    dst.read v' repo (.tag tag) = some bytes := by
  obtain ⟨tail, htail⟩ := dst.readOrder_eq_cons
  rw [Backend.read, h.readAt_tag hr hw hcoh hread, htail]
  exact first_cons_of_some (Function.update_self dst.head (some bytes) (v.readAt repo (.tag tag)))

theorem CopiedRepos.read_src (hresolve : TagsResolve src v repo) (reference : Reference) :
    src.read v' repo reference = src.read v repo reference := by
  cases reference with
  | digest d => exact h.read_src_digest hr d
  | tag tag =>
      by_cases ht : src.HasTag v repo tag
      · obtain ⟨bytes, hread⟩ := Option.isSome_iff_exists.mp (hresolve tag ht)
        rw [hread, Backend.read, h.readAt_tag hr hw hcoh hread]
        exact first_update_self dst.head hread
      · have hnone : ∀ root ∈ src.readOrder, v'.readAt repo (.tag tag) root = none ∧
            v.readAt repo (.tag tag) root = none := by
          intro root hroot
          have hn : (v root).tag repo tag = none := by
            by_contra hsome
            exact ht ⟨root, (src.mem_readOrder root).mp hroot, Option.ne_none_iff_isSome.mp hsome⟩
          have hn' : (v' root).tag repo tag = none :=
            (congrFun (h.otherTag repo tag fun hm => ht hm.2) root).trans hn
          rw [Volumes.readAt, Volumes.readAt, Contents.read_tag, Contents.read_tag, hn, hn']
          exact ⟨rfl, rfl⟩
        rw [Backend.read, Backend.read, first_eq_none.mpr fun root hroot => (hnone root hroot).1,
          first_eq_none.mpr fun root hroot => (hnone root hroot).2]

omit hw hcoh in
theorem CopiedRepos.hasTag {tag : TagName} (b : Backend) (hresolve : TagsResolve src v repo) :
    b.HasTag v' repo tag ↔
      b.HasTag v repo tag ∨ dst.head ∈ b.leaves ∧ src.HasTag v repo tag := by
  by_cases ht : src.HasTag v repo tag
  · obtain ⟨bytes, hread⟩ := Option.isSome_iff_exists.mp (hresolve tag ht)
    have htag : ∀ root, (v' root).tag repo tag =
        Function.update (v.tagAt repo tag) dst.head (some (sha256Digest bytes)) root :=
      congrFun (h.tag repo hr tag _ ⟨bytes, hread, rfl⟩)
    constructor
    · rintro ⟨root, hroot, hsome⟩
      by_cases hhead : root = dst.head
      · exact .inr ⟨hhead ▸ hroot, ht⟩
      · rw [htag, Function.update_of_ne hhead] at hsome
        exact .inl ⟨root, hroot, hsome⟩
    · rintro (⟨root, hroot, hsome⟩ | ⟨hhead, _⟩)
      · refine ⟨root, hroot, ?_⟩
        by_cases hhead : root = dst.head
        · rw [htag, hhead, Function.update_self]
          rfl
        · rw [htag, Function.update_of_ne hhead]
          exact hsome
      · refine ⟨dst.head, hhead, ?_⟩
        rw [htag, Function.update_self]
        rfl
  · have htag : ∀ root, (v' root).tag repo tag = (v root).tag repo tag :=
      congrFun (h.otherTag repo tag fun hm => ht hm.2)
    have hsame : b.HasTag v' repo tag ↔ b.HasTag v repo tag := by
      simp only [Backend.HasTag, htag]
    rw [hsame]
    exact ⟨.inl, fun hor => hor.resolve_right fun hm => ht hm.2⟩

end Moved

end Copied

-- What is read after a drain, by a backend that shares no directory with the
-- drained one.

section Drained

variable {old b : Backend} {repos : List RepoName} {v v' : Volumes} (h : Drained old repos v v')

include h

omit [Sha2] in
theorem Drained.readAt_other {repo : RepoName} (hr : repo ∉ repos) (reference : Reference) :
    v'.readAt repo reference = v.readAt repo reference :=
  Volumes.readAt_congr (fun d => h.otherManifest repo d hr) (fun tag => h.otherTag repo tag hr)
    reference

omit [Sha2] in
theorem Drained.readAt_moved {repo : RepoName} (hr : repo ∈ repos) (reference : Reference) :
    v'.readAt repo reference = clear old.leaves (v.readAt repo reference) := by
  funext root
  by_cases hroot : root ∈ old.leaves
  · have hm : ∀ d, (v' root).manifest repo d = none := by
      intro d
      have hd := congrFun (h.manifest repo hr d) root
      rw [clear_of_mem hroot] at hd
      exact hd
    rw [clear_of_mem hroot, Volumes.readAt, Contents.read]
    cases (v' root).target repo reference with
    | none => rfl
    | some d => exact hm d
  · have hm : (v' root).manifest repo = (v root).manifest repo := by
      funext d
      have hd := congrFun (h.manifest repo hr d) root
      rw [clear_of_not_mem hroot] at hd
      exact hd
    have ht : ∀ tag, (v' root).tag repo tag = (v root).tag repo tag := by
      intro tag
      have hd := congrFun (h.tag repo hr tag) root
      rw [clear_of_not_mem hroot] at hd
      exact hd
    rw [clear_of_not_mem hroot, Volumes.readAt, Volumes.readAt]
    cases reference with
    | digest d => rw [Contents.read_digest, Contents.read_digest, hm]
    | tag tag => rw [Contents.read_tag, Contents.read_tag, hm, ht]

omit [Sha2] in
theorem Drained.blob_apart (hapart : ∀ root ∈ old.leaves, root ∉ b.leaves) (d : Digest) :
    b.blob v' d = b.blob v d := by
  unfold Backend.blob
  by_cases hd : MarkedByOthers old repos v d
  · rw [h.marked d hd]
  · rw [h.swept d hd]
    apply first_clear_of_disjoint
    intro root hroot hold
    exact hapart root hold ((b.mem_readOrder root).mp hroot)

end Drained

end RspaceRegistry.Migrate
