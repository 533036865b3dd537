import RspaceRegistry.Replicate.Converge

namespace RspaceRegistry

open Calls Fallible Ordered Places
open Migrate (Reads)
open Replicate (ReplicateConfig SelectedResolve Synced Wants WantsTag)

-- A handle on a `MultiStore`.
structure MultiHandle where
  arc : Nat
  before : Partitions
  name : String
  primary : Backend
  after : Partitions

namespace MultiHandle

def backend (m : MultiHandle) : Backend := .multi m.arc m.before m.name m.primary m.after

def multi (m : MultiHandle) : MultiStore := Replicate.multi m.before m.primary m.after

def secondaries (m : MultiHandle) : List Backend := Replicate.secondaries m.before m.after

end MultiHandle

-- A request on a store, or a replication pass over it.
inductive Request
  | manifestPut (repo : RepoName) (reference : Reference) (content : Bytes)
  | manifestDelete (repo : RepoName) (reference : Reference)
  | blobWrite (repo : RepoName) (expected : Digest) (content : Bytes)
  | blobDelete (repo : RepoName) (digest : Digest)
  | replicate (cfg : ReplicateConfig)

namespace Request

variable [Sha2] [SerdeJson]

-- What it leaves of a single store, where there is nothing to replicate.
def onSingle : Request → FsStorage → FsStorage
  | .manifestPut repo reference content, fs => (fs.manifestPut repo reference content).2
  | .manifestDelete repo reference, fs => (fs.manifestDelete repo reference).2
  | .blobWrite _ expected content, fs => (fs.blobWrite expected content).2
  | .blobDelete _ digest, fs => (fs.blobDelete digest).2
  | .replicate _, fs => fs

def onMulti (m : MultiHandle) : Request → World → World
  | .manifestPut repo reference content, w =>
      ((m.backend.storage.manifestPut repo reference content).run World.handle w).2
  | .manifestDelete repo reference, w =>
      ((m.backend.storage.manifestDelete repo reference).run World.handle w).2
  | .blobWrite repo expected content, w =>
      ((m.backend.storage.blobWrite repo.text expected content).run World.handle w).2
  | .blobDelete repo digest, w =>
      ((m.backend.storage.blobDelete repo.text digest).run World.handle w).2
  | .replicate cfg, w => ((Replicate.run m.multi cfg).run World.handle w).2

-- The text that it may store.
def texts : Request → List Bytes
  | .manifestPut _ _ content => [content]
  | .blobWrite _ _ content => [content]
  | _ => []

end Request

section

variable [Sha2] [SerdeJson]

-- The two stores after some requests.
def executed (m : MultiHandle) : List Request → World × FsStorage → World × FsStorage
  | [], s => s
  | request :: rest, s => executed m rest (request.onMulti m s.1, request.onSingle s.2)

-- Nobody can tell the two stores apart by reading.
def SameReads (m : MultiHandle) (w : World) (fs : FsStorage) : Prop :=
  (∀ repo reference, m.backend.manifestGet w repo reference = fs.manifestGet repo reference) ∧
    (∀ repo d, m.backend.blobRead w repo d = fs.blobRead d) ∧
    ∀ repo, m.backend.listTags w repo = .ok (fs.listTags repo)

-- A delete by digest must not leave a tag of the primary without its manifest
-- while a partition still resolves the tag to an older one, and a pass must not
-- bring a manifest to a partition whose tag points to it when the tag dangles.
def Harmless (m : MultiHandle) (v : Volumes) : Request → Prop
  | .manifestDelete repo (.digest d) => ∀ tag, (v m.primary.head).tag repo tag = some d →
      ∀ root ∈ m.backend.leaves, ∀ e, (v root).tag repo tag = some e → e ≠ d →
        (v root).manifest repo e = none
  | .replicate cfg =>
      (∀ repo, m.primary.HasRepo v repo → SelectedResolve cfg m.primary v repo) →
      ∀ repo tag, m.backend.read v repo (.tag tag) = none →
        ∀ dst ∈ m.secondaries, ∀ e, (v dst.head).tag repo tag = some e →
          (¬∃ t, WantsTag cfg m.primary v repo t e) ∧
            (Wants cfg m.primary v repo e → (dst.read v repo (.digest e)).isSome)
  | _ => True

def AllHarmless (m : MultiHandle) : List Request → World → Prop
  | [], _ => True
  | request :: rest, w => Harmless m w.volumes request ∧ AllHarmless m rest (request.onMulti m w)

end

section

variable (m : MultiHandle)

theorem MultiHandle.head_mem_leaves : m.primary.head ∈ m.backend.leaves :=
  m.backend.head_mem_leaves

theorem MultiHandle.primary_leaves {root : RootId} (h : root ∈ m.primary.leaves) :
    root ∈ m.backend.leaves :=
  List.mem_append_left _ (List.mem_append_right _ h)

end

-- How the partitions stand to a single store with the contents `c`: the primary
-- has the same files, everything in a partition is in `c`, and what `c` does not
-- resolve no partition resolves.
structure Mirrored (m : MultiHandle) (v : Volumes) (c : Contents) : Prop where
  blob : (v m.primary.head).blob = c.blob
  manifest : (v m.primary.head).manifest = c.manifest
  tag : (v m.primary.head).tag = c.tag
  blobBelow : ∀ root ∈ m.backend.leaves, ∀ d bytes, (v root).blob d = some bytes →
    c.blob d = some bytes
  manifestBelow : ∀ root ∈ m.backend.leaves, ∀ repo d bytes,
    (v root).manifest repo d = some bytes → c.manifest repo d = some bytes
  tagBelow : ∀ root ∈ m.backend.leaves, ∀ repo tag, ((v root).tag repo tag).isSome →
    (c.tag repo tag).isSome
  hidden : ∀ root ∈ m.backend.leaves, ∀ repo tag, c.read repo (.tag tag) = none →
    (v root).read repo (.tag tag) = none

namespace Mirrored

variable {m : MultiHandle} {v : Volumes} {c : Contents} (h : Mirrored m v c)

include h

theorem read (repo : RepoName) (reference : Reference) :
    m.backend.read v repo reference = c.read repo reference := by
  obtain ⟨rest, horder⟩ := m.backend.readOrder_eq_cons
  have hhead : (v m.primary.head).read repo reference = c.read repo reference := by
    cases reference with
    | digest d => exact congrFun (congrFun h.manifest repo) d
    | tag tag => rw [Contents.read_tag, Contents.read_tag, h.tag, h.manifest]
  cases hread : c.read repo reference with
  | some bytes =>
      rw [Backend.read, horder]
      exact first_cons_of_some (hhead.trans hread)
  | none =>
      apply first_eq_none.mpr
      intro root hroot
      have hroot := (m.backend.mem_readOrder root).mp hroot
      cases reference with
      | tag tag => exact h.hidden root hroot repo tag hread
      | digest d =>
          cases hat : (v root).manifest repo d with
          | none => exact hat
          | some bytes =>
              rw [Contents.read_digest, h.manifestBelow root hroot repo d bytes hat] at hread
              cases hread

theorem blob_eq (d : Digest) : m.backend.blob v d = c.blob d := by
  obtain ⟨rest, horder⟩ := m.backend.readOrder_eq_cons
  cases hread : c.blob d with
  | some bytes =>
      rw [Backend.blob, horder]
      exact first_cons_of_some ((congrFun h.blob d).trans hread)
  | none =>
      apply first_eq_none.mpr
      intro root hroot
      cases hat : (v root).blob d with
      | none => exact hat
      | some bytes =>
          rw [h.blobBelow root ((m.backend.mem_readOrder root).mp hroot) d bytes hat] at hread
          cases hread

theorem hasTag (repo : RepoName) (tag : TagName) :
    m.backend.HasTag v repo tag ↔ (c.tag repo tag).isSome := by
  constructor
  · rintro ⟨root, hroot, htag⟩
    exact h.tagBelow root hroot repo tag htag
  · intro htag
    rw [← h.tag] at htag
    exact ⟨m.primary.head, m.head_mem_leaves, htag⟩

end Mirrored

variable [Sha2] in
theorem Mirrored.sameReads {m : MultiHandle} {w : World} {fs : FsStorage}
    (h : Mirrored m w.volumes fs.contents) : SameReads m w fs := by
  refine ⟨?_, ?_, ?_⟩
  · intro repo reference
    rw [Backend.manifestGet_eq, h.read, FsStorage.manifestGet_eq]
  · intro repo d
    rw [Backend.blobRead_eq, h.blob_eq, FsStorage.blobRead_eq]
  · intro repo
    obtain ⟨tags, hlist, hmem⟩ := m.backend.listTags_eq w repo
    have htags : tags = fs.listTags repo := by
      apply BTreeSet.ext
      intro tag
      rw [hmem, h.hasTag, FsStorage.mem_listTags]
    rw [hlist, htags]

section Steps

variable [Sha2] {m : MultiHandle} {v : Volumes} {c : Contents}

-- A write changes the primary's directory as it changes the single store.

omit [Sha2] in
theorem Mirrored.setBlob (h : Mirrored m v c) (d : Digest) (content : Bytes)
    (hsame : ∀ root ∈ m.backend.leaves, ∀ bytes, (v root).blob d = some bytes → bytes = content) :
    Mirrored m (v.onRoots [m.primary.head] fun c => c.setBlob d (some content))
      (c.setBlob d (some content)) := by
  have hhead : v.onRoots [m.primary.head] (fun c => c.setBlob d (some content)) m.primary.head =
      (v m.primary.head).setBlob d (some content) :=
    Volumes.onRoots_of_mem (List.mem_singleton_self _)
  have hother : ∀ root ≠ m.primary.head,
      v.onRoots [m.primary.head] (fun c => c.setBlob d (some content)) root = v root :=
    fun root hr => Volumes.onRoots_of_not_mem fun hm => hr (List.mem_singleton.mp hm)
  have hmanifest : ∀ root, (v.onRoots [m.primary.head] (fun c => c.setBlob d (some content))
      root).manifest = (v root).manifest := by
    intro root
    unfold Volumes.onRoots
    split <;> rfl
  have htag : ∀ root, (v.onRoots [m.primary.head] (fun c => c.setBlob d (some content))
      root).tag = (v root).tag := by
    intro root
    unfold Volumes.onRoots
    split <;> rfl
  refine ⟨?_, ?_, ?_, ?_, ?_, ?_, ?_⟩
  · rw [hhead]
    funext e
    simp only [Contents.setBlob, h.blob]
  · exact (hmanifest _).trans h.manifest
  · exact (htag _).trans h.tag
  · intro root hroot e bytes hat
    by_cases hr : root = m.primary.head
    · rw [hr, hhead] at hat
      simp only [Contents.setBlob, h.blob] at hat
      exact hat
    · rw [hother root hr] at hat
      have hc := h.blobBelow root hroot e bytes hat
      by_cases he : e = d
      · subst he
        simp [Contents.setBlob, hsame root hroot bytes hat]
      · simpa [Contents.setBlob, he] using hc
  · intro root hroot repo e bytes hat
    rw [hmanifest] at hat
    exact h.manifestBelow root hroot repo e bytes hat
  · intro root hroot repo tag hat
    rw [htag] at hat
    exact h.tagBelow root hroot repo tag hat
  · intro root hroot repo tag hnone
    rw [Contents.read_tag, htag, hmanifest]
    exact h.hidden root hroot repo tag hnone

theorem Mirrored.put (h : Mirrored m v c) (repo : RepoName) (reference : Reference)
    (content : Bytes) (hsame : ∀ root ∈ m.backend.leaves, ∀ bytes,
      (v root).manifest repo (sha256Digest content) = some bytes → bytes = content) :
    Mirrored m (v.onRoots [m.primary.head] fun c => c.put repo reference content)
      (c.put repo reference content) := by
  have hhead : v.onRoots [m.primary.head] (fun c => c.put repo reference content) m.primary.head =
      (v m.primary.head).put repo reference content :=
    Volumes.onRoots_of_mem (List.mem_singleton_self _)
  have hother : ∀ root ≠ m.primary.head,
      v.onRoots [m.primary.head] (fun c => c.put repo reference content) root = v root :=
    fun root hr => Volumes.onRoots_of_not_mem fun hm => hr (List.mem_singleton.mp hm)
  have hblob : ∀ root, (v.onRoots [m.primary.head] (fun c => c.put repo reference content)
      root).blob = (v root).blob := by
    intro root
    unfold Volumes.onRoots
    split <;> simp
  have hmanifest : ((v m.primary.head).put repo reference content).manifest =
      (c.put repo reference content).manifest := by
    funext r d
    rw [Contents.put_manifest, Contents.put_manifest, h.manifest]
  have htag : ((v m.primary.head).put repo reference content).tag =
      (c.put repo reference content).tag := by
    funext r t
    rw [Contents.put_tag, Contents.put_tag, h.tag]
  have hgrown : ∀ r d bytes, c.manifest r d = some bytes →
      ((c.put repo reference content).manifest r d).isSome := by
    intro r d bytes hc
    rw [Contents.put_manifest]
    split
    · rfl
    · rw [hc]
      rfl
  refine ⟨?_, ?_, ?_, ?_, ?_, ?_, ?_⟩
  · rw [hblob, h.blob, Contents.put_blob]
  · rw [hhead, hmanifest]
  · rw [hhead, htag]
  · intro root hroot d bytes hat
    rw [hblob] at hat
    rw [Contents.put_blob]
    exact h.blobBelow root hroot d bytes hat
  · intro root hroot r d bytes hat
    by_cases hr : root = m.primary.head
    · rw [hr, hhead, hmanifest] at hat
      exact hat
    · rw [hother root hr] at hat
      rw [Contents.put_manifest]
      split
      · rename_i hrd
        obtain ⟨rfl, rfl⟩ := hrd
        rw [hsame root hroot bytes hat]
      · exact h.manifestBelow root hroot r d bytes hat
  · intro root hroot r t hat
    by_cases hr : root = m.primary.head
    · rw [hr, hhead, htag] at hat
      exact hat
    · rw [hother root hr] at hat
      rw [Contents.put_tag]
      split
      · rfl
      · exact h.tagBelow root hroot r t hat
  · intro root hroot r t hnone
    by_cases hr : root = m.primary.head
    · rw [hr, hhead, Contents.read_tag, hmanifest, htag]
      exact hnone
    · rw [hother root hr]
      apply h.hidden root hroot r t
      -- What resolves still does after a put.
      by_contra hsome
      obtain ⟨bytes, hbytes⟩ := Option.ne_none_iff_exists'.mp hsome
      obtain ⟨d, hd, hm⟩ := (Contents.read_eq_some _ _ _ _).mp hbytes
      have hd : c.tag r t = some d := hd
      rw [Contents.read_tag, Contents.put_tag] at hnone
      split at hnone
      · rename_i hrt
        obtain ⟨rfl, _⟩ := hrt
        rw [Option.bind_some, Contents.put_manifest, if_pos ⟨rfl, rfl⟩] at hnone
        cases hnone
      · rw [hd, Option.bind_some] at hnone
        have hkept := hgrown r d bytes hm
        rw [hnone] at hkept
        cases hkept

omit [Sha2] in
-- A delete takes the file from every partition.
theorem Mirrored.clearBlob (h : Mirrored m v c) (d : Digest) :
    Mirrored m (v.onRoots m.backend.leaves fun c => c.setBlob d none) (c.setBlob d none) := by
  have hroot : ∀ root ∈ m.backend.leaves,
      v.onRoots m.backend.leaves (fun c => c.setBlob d none) root = (v root).setBlob d none :=
    fun root hr => Volumes.onRoots_of_mem hr
  have hhead := hroot m.primary.head m.head_mem_leaves
  refine ⟨?_, ?_, ?_, ?_, ?_, ?_, ?_⟩
  · rw [hhead]
    funext e
    simp only [Contents.setBlob, h.blob]
  · rw [hhead]
    exact h.manifest
  · rw [hhead]
    exact h.tag
  · intro root hr e bytes hat
    rw [hroot root hr] at hat
    by_cases he : e = d
    · simp [Contents.setBlob, he] at hat
    · simp only [Contents.setBlob, if_neg he] at hat ⊢
      exact h.blobBelow root hr e bytes hat
  · intro root hr repo e bytes hat
    rw [hroot root hr] at hat
    exact h.manifestBelow root hr repo e bytes hat
  · intro root hr repo tag hat
    rw [hroot root hr] at hat
    exact h.tagBelow root hr repo tag hat
  · intro root hr repo tag hnone
    rw [hroot root hr]
    exact h.hidden root hr repo tag hnone

omit [Sha2] in
theorem Mirrored.deleteTag (h : Mirrored m v c) (repo : RepoName) (tag : TagName) :
    Mirrored m (v.onRoots m.backend.leaves fun c => c.delete repo (.tag tag))
      (c.delete repo (.tag tag)) := by
  have hroot : ∀ root ∈ m.backend.leaves,
      v.onRoots m.backend.leaves (fun c => c.delete repo (.tag tag)) root =
        (v root).setTag repo tag none := fun root hr => Volumes.onRoots_of_mem hr
  have hhead := hroot m.primary.head m.head_mem_leaves
  refine ⟨?_, ?_, ?_, ?_, ?_, ?_, ?_⟩
  · rw [hhead]
    exact h.blob
  · rw [hhead]
    exact h.manifest
  · rw [hhead]
    funext r t
    simp only [Contents.setTag, Contents.delete, h.tag]
  · intro root hr e bytes hat
    rw [hroot root hr] at hat
    exact h.blobBelow root hr e bytes hat
  · intro root hr r e bytes hat
    rw [hroot root hr] at hat
    exact h.manifestBelow root hr r e bytes hat
  · intro root hr r t hat
    rw [hroot root hr] at hat
    by_cases hrt : r = repo ∧ t = tag
    · simp [Contents.setTag, hrt] at hat
    · simp only [Contents.delete, Contents.setTag, if_neg hrt] at hat ⊢
      exact h.tagBelow root hr r t hat
  · intro root hr r t hnone
    rw [hroot root hr]
    by_cases hrt : r = repo ∧ t = tag
    · simp [Contents.read_tag, Contents.setTag, hrt]
    · simp only [Contents.read_tag, Contents.delete, Contents.setTag, if_neg hrt] at hnone ⊢
      exact h.hidden root hr r t hnone

omit [Sha2] in
theorem Mirrored.deleteDigest (h : Mirrored m v c) (repo : RepoName) (d : Digest)
    (hharmless : ∀ tag, c.tag repo tag = some d → ∀ root ∈ m.backend.leaves, ∀ e,
      (v root).tag repo tag = some e → e ≠ d → (v root).manifest repo e = none) :
    Mirrored m (v.onRoots m.backend.leaves fun c => c.delete repo (.digest d))
      (c.delete repo (.digest d)) := by
  have hroot : ∀ root ∈ m.backend.leaves,
      v.onRoots m.backend.leaves (fun c => c.delete repo (.digest d)) root =
        (v root).setManifest repo d none := fun root hr => Volumes.onRoots_of_mem hr
  have hhead := hroot m.primary.head m.head_mem_leaves
  refine ⟨?_, ?_, ?_, ?_, ?_, ?_, ?_⟩
  · rw [hhead]
    exact h.blob
  · rw [hhead]
    funext r e
    simp only [Contents.setManifest, Contents.delete, h.manifest]
  · rw [hhead]
    exact h.tag
  · intro root hr e bytes hat
    rw [hroot root hr] at hat
    exact h.blobBelow root hr e bytes hat
  · intro root hr r e bytes hat
    rw [hroot root hr] at hat
    by_cases hre : r = repo ∧ e = d
    · simp [Contents.setManifest, hre] at hat
    · simp only [Contents.delete, Contents.setManifest, if_neg hre] at hat ⊢
      exact h.manifestBelow root hr r e bytes hat
  · intro root hr r t hat
    rw [hroot root hr] at hat
    exact h.tagBelow root hr r t hat
  · intro root hr r t hnone
    rw [hroot root hr, Contents.read_tag]
    have hnone : (c.tag r t).bind ((c.setManifest repo d none).manifest r) = none := hnone
    show ((v root).tag r t).bind (((v root).setManifest repo d none).manifest r) = none
    cases hat : (v root).tag r t with
    | none => rfl
    | some e =>
        rw [Option.bind_some]
        by_cases hre : r = repo ∧ e = d
        · simp [Contents.setManifest, hre]
        · simp only [Contents.setManifest, if_neg hre]
          -- The partition resolves the tag only if the single store did, to `d`.
          by_contra hsome
          have hread : (v root).read r (.tag t) ≠ none := by
            rw [Contents.read_tag, hat, Option.bind_some]
            exact hsome
          have hc : c.read r (.tag t) ≠ none := fun hc => hread (h.hidden root hr r t hc)
          obtain ⟨bytes, hbytes⟩ := Option.ne_none_iff_exists'.mp hc
          obtain ⟨e', he', hm⟩ := (Contents.read_eq_some _ _ _ _).mp hbytes
          have he' : c.tag r t = some e' := he'
          rw [he', Option.bind_some] at hnone
          by_cases hre' : r = repo ∧ e' = d
          · obtain ⟨rfl, rfl⟩ := hre'
            exact hsome (hharmless t he' root hr e hat fun heq => hre ⟨rfl, heq⟩)
          · simp only [Contents.setManifest, if_neg hre'] at hnone
            rw [hnone] at hm
            cases hm

section Replicate

variable [SerdeJson] {cfg : ReplicateConfig}

omit [SerdeJson] in
-- What the primary points a selected tag to is what the single store does.
theorem Mirrored.tag_of_wantsTag (h : Mirrored m v c) (hv : ∀ root, (v root).WellFormed)
    {repo : RepoName} {tag : TagName} {d : Digest} (ht : WantsTag cfg m.primary v repo tag d) :
    c.tag repo tag = some d ∧ c.read repo (.tag tag) ≠ none := by
  obtain ⟨_, bytes, hbytes, rfl⟩ := ht
  have hhead : (v m.primary.head).read repo (.tag tag) = c.read repo (.tag tag) := by
    rw [Contents.read_tag, Contents.read_tag, h.tag, h.manifest]
  obtain ⟨root, hroot, hat⟩ := Backend.exists_of_read hbytes
  have hresolves : c.read repo (.tag tag) ≠ none := by
    intro hnone
    rw [h.hidden root (m.primary_leaves hroot) repo tag hnone] at hat
    cases hat
  refine ⟨?_, hresolves⟩
  obtain ⟨bytes', hread⟩ := Option.ne_none_iff_exists'.mp hresolves
  obtain ⟨rest, horder⟩ := m.primary.readOrder_eq_cons
  have hfirst : m.primary.read v repo (.tag tag) = some bytes' := by
    rw [Backend.read, horder]
    exact first_cons_of_some (hhead.trans hread)
  obtain rfl : bytes = bytes' := Option.some.inj (hbytes.symm.trans hfirst)
  obtain ⟨d, hd, hm⟩ := (Contents.read_eq_some _ _ _ _).mp hread
  rw [← h.manifest] at hm
  rw [(hv m.primary.head).manifest_addressed repo d bytes hm]
  exact hd

-- A pass brings the partitions nothing that the single store does not have.
theorem Mirrored.synced {u : Volumes} (h : Mirrored m v c) (hv : ∀ root, (v root).WellFormed)
    (hsynced : Synced cfg m.primary m.secondaries.reverse v u)
    (hharmless : ∀ repo tag, m.backend.read v repo (.tag tag) = none →
      ∀ dst ∈ m.secondaries, ∀ e, (v dst.head).tag repo tag = some e →
        (¬∃ t, WantsTag cfg m.primary v repo t e) ∧
          (Wants cfg m.primary v repo e → (dst.read v repo (.digest e)).isSome)) :
    Mirrored m u c := by
  have hblobNew : ∀ root ∈ m.backend.leaves, ∀ d bytes, (u root).blob d = some bytes →
      c.blob d = some bytes := by
    intro root hroot d bytes hat
    rcases hsynced.advanced.blobNew d root bytes hat with hat | ⟨_, _, hsrc⟩
    · exact h.blobBelow root hroot d bytes hat
    · obtain ⟨p, hp, hat⟩ := Backend.exists_of_blob hsrc
      exact h.blobBelow p (m.primary_leaves hp) d bytes hat
  have hmanifestNew : ∀ root ∈ m.backend.leaves, ∀ repo d bytes,
      (u root).manifest repo d = some bytes → c.manifest repo d = some bytes := by
    intro root hroot repo d bytes hat
    rcases hsynced.advanced.manifestNew repo d root bytes hat with hat | ⟨_, _, hsrc⟩
    · exact h.manifestBelow root hroot repo d bytes hat
    · obtain ⟨p, hp, hat⟩ := Backend.exists_of_read hsrc
      exact h.manifestBelow p (m.primary_leaves hp) repo d bytes hat
  have htagNew : ∀ root repo tag, (u root).tag repo tag = (v root).tag repo tag ∨
      (u root).tag repo tag = c.tag repo tag ∧ c.read repo (.tag tag) ≠ none := by
    intro root repo tag
    rcases hsynced.advanced.tag repo tag root with hsame | ⟨_, d, hd, hnew, _⟩
    · exact .inl hsame
    · obtain ⟨htag, hresolves⟩ := h.tag_of_wantsTag hv hd
      have hnew : (u root).tag repo tag = some d := hnew
      exact .inr ⟨hnew.trans htag.symm, hresolves⟩
  have hhead := m.head_mem_leaves
  refine ⟨?_, ?_, ?_, hblobNew, hmanifestNew, ?_, ?_⟩
  · funext d
    apply Option.ext
    intro bytes
    refine ⟨hblobNew _ hhead d bytes, fun hc => hsynced.advanced.blobKept d _ bytes ?_⟩
    exact (congrFun h.blob d).trans hc
  · funext repo d
    apply Option.ext
    intro bytes
    refine ⟨hmanifestNew _ hhead repo d bytes, fun hc => hsynced.advanced.manifestKept repo d _ bytes ?_⟩
    exact (congrFun (congrFun h.manifest repo) d).trans hc
  · funext repo tag
    rcases htagNew m.primary.head repo tag with hsame | ⟨hnew, _⟩
    · rw [hsame, h.tag]
    · exact hnew
  · intro root hroot repo tag hat
    rcases htagNew root repo tag with hsame | ⟨hnew, _⟩
    · rw [hsame] at hat
      exact h.tagBelow root hroot repo tag hat
    · rw [hnew] at hat
      exact hat
  · intro root hroot repo tag hnone
    rcases htagNew root repo tag with hsame | ⟨_, hresolves⟩
    · have hbefore := h.hidden root hroot repo tag hnone
      rw [Contents.read_tag] at hbefore ⊢
      rw [hsame]
      cases hat : (v root).tag repo tag with
      | none => rfl
      | some e =>
          rw [hat, Option.bind_some] at hbefore
          rw [Option.bind_some]
          -- The manifest would have to come with this pass.
          by_contra hsome
          obtain ⟨bytes, hbytes⟩ := Option.ne_none_iff_exists'.mp hsome
          rcases hsynced.filled repo e root bytes hbytes with hold | ⟨b, hb, rfl, hput⟩
          · have hold : (v root).manifest repo e = some bytes := hold
            rw [hbefore] at hold
            cases hold
          · have hwants : Wants cfg m.primary v repo e := by
              refine ((hsynced.advanced.manifestNew repo e _ bytes hbytes).resolve_left ?_).2.1
              intro hold
              have hold : (v b.head).manifest repo e = some bytes := hold
              rw [hbefore] at hold
              cases hold
            obtain ⟨hpointed, hfilled⟩ := hharmless repo tag ((h.read repo (.tag tag)).trans hnone)
              b (List.mem_reverse.mp hb) e hat
            rcases hput with hput | hput
            · exact hpointed hput
            · have hheld := hfilled hwants
              rw [hput] at hheld
              cases hheld
    · exact absurd hnone hresolves

end Replicate

end Steps

section Run

variable [Sha2] [SerdeJson] {m : MultiHandle}

-- What a request stores it stored before or brings along.
theorem Request.stores_onMulti (request : Request) (w : World)
    (hfree : w.volumes.CollisionFree) {content : Bytes}
    (h : (request.onMulti m w).volumes.Stores content) :
    w.volumes.Stores content ∨ content ∈ request.texts := by
  cases request with
  | manifestPut repo reference text =>
      obtain ⟨w', hrun, _, hvol⟩ := m.backend.run_manifestPut w repo reference text
      rw [onMulti, hrun, hvol] at h
      refine Volumes.stores_onRoots ?_ ?_ h
      · intro c d content hc
        rw [Contents.put_blob] at hc
        exact .inl hc
      · intro c r d content hc
        rw [Contents.put_manifest] at hc
        split at hc
        · exact .inr (by simp [texts, Option.some.inj hc])
        · exact .inl hc
  | manifestDelete repo reference =>
      obtain ⟨_, w', hrun, _, _, hvol⟩ := m.backend.run_manifestDelete w repo reference
      rw [onMulti, hrun, hvol] at h
      refine Volumes.stores_onRoots ?_ ?_ h
      · intro c d content hc
        cases reference <;> exact .inl hc
      · intro c r d content hc
        cases reference with
        | tag tag => exact .inl hc
        | digest e =>
            simp only [Contents.delete, Contents.setManifest] at hc
            split at hc
            · cases hc
            · exact .inl hc
  | blobWrite repo expected text =>
      by_cases hd : hashContent expected.algorithm text = expected
      · obtain ⟨w', hrun, _, hvol⟩ := m.backend.run_blobWrite w repo.text expected text hd
        rw [onMulti, hrun, hvol] at h
        refine Volumes.stores_onRoots ?_ ?_ h
        · intro c d content hc
          simp only [Contents.setBlob] at hc
          split at hc
          · exact .inr (by simp [texts, Option.some.inj hc])
          · exact .inl hc
        · exact fun c r d content hc => .inl hc
      · rw [onMulti, m.backend.run_blobWrite_mismatch w repo.text expected text hd] at h
        exact .inl h
  | blobDelete repo d =>
      obtain ⟨_, w', hrun, _, _, hvol⟩ := m.backend.run_blobDelete w repo.text d
      rw [onMulti, hrun, hvol] at h
      refine Volumes.stores_onRoots ?_ ?_ h
      · intro c e content hc
        simp only [Contents.setBlob] at hc
        split at hc
        · cases hc
        · exact .inl hc
      · exact fun c r e content hc => .inl hc
  | replicate cfg =>
      left
      by_cases hresolve : ∀ repo, m.primary.HasRepo w.volumes repo →
          SelectedResolve cfg m.primary w.volumes repo
      · obtain ⟨_, w', hrun, _, hsynced, _⟩ :=
          Replicate.run_synced cfg m.primary m.before m.after w hfree hresolve
        rw [onMulti, MultiHandle.multi, hrun] at h
        exact hsynced.advanced.stores h
      · rw [onMulti, MultiHandle.multi, Replicate.run_dangling m.before m.after hfree hresolve] at h
        exact h

-- One request: the two stores stay alike if it is harmless.
theorem Mirrored.step {texts : Bytes → Prop} (hapart : Volumes.TellsApart texts)
    {request : Request} (htexts : ∀ content ∈ request.texts, texts content) {w : World}
    (hstores : ∀ content, w.volumes.Stores content → texts content) {fs : FsStorage}
    (h : Mirrored m w.volumes fs.contents) (hharmless : Harmless m w.volumes request) :
    Mirrored m (request.onMulti m w).volumes (request.onSingle fs).contents := by
  have hv := w.volumes_wellFormed
  have hfree := hapart.collisionFree hstores
  cases request with
  | manifestPut repo reference content =>
      obtain ⟨w', hrun, _, hvol⟩ := m.backend.run_manifestPut w repo reference content
      rw [Request.onMulti, hrun, hvol, Request.onSingle, fs.manifestPut_contents]
      apply h.put
      intro root _ bytes hat
      exact hapart .sha256 bytes content (hstores bytes ⟨root, .inr ⟨repo, _, hat⟩⟩)
        (htexts content List.mem_cons_self) ((hv root).manifest_addressed repo _ bytes hat)
  | manifestDelete repo reference =>
      obtain ⟨_, w', hrun, _, _, hvol⟩ := m.backend.run_manifestDelete w repo reference
      rw [Request.onMulti, hrun, hvol, Request.onSingle, fs.manifestDelete_contents]
      cases reference with
      | tag tag => exact h.deleteTag repo tag
      | digest d =>
          apply h.deleteDigest repo d
          intro tag htag
          rw [← h.tag] at htag
          exact hharmless tag htag
  | blobWrite repo expected content =>
      by_cases hd : hashContent expected.algorithm content = expected
      · obtain ⟨w', hrun, _, hvol⟩ := m.backend.run_blobWrite w repo.text expected content hd
        rw [Request.onMulti, hrun, hvol, Request.onSingle,
          (fs.blobWrite_addressed expected content hd).2]
        apply h.setBlob
        intro root _ bytes hat
        exact hapart expected.algorithm bytes content (hstores bytes ⟨root, .inl ⟨_, hat⟩⟩)
          (htexts content List.mem_cons_self)
          (((hv root).blob_addressed expected bytes hat).trans hd.symm)
      · rw [Request.onMulti, m.backend.run_blobWrite_mismatch w repo.text expected content hd,
          Request.onSingle, fs.blobWrite_mismatch expected content hd]
        exact h
  | blobDelete repo d =>
      obtain ⟨_, w', hrun, _, _, hvol⟩ := m.backend.run_blobDelete w repo.text d
      rw [Request.onMulti, hrun, hvol, Request.onSingle, (fs.blobDelete_eq d).2]
      exact h.clearBlob d
  | replicate cfg =>
      rw [Request.onMulti, MultiHandle.multi, Request.onSingle]
      by_cases hresolve : ∀ repo, m.primary.HasRepo w.volumes repo →
          SelectedResolve cfg m.primary w.volumes repo
      · obtain ⟨_, w', hrun, _, hsynced, _⟩ :=
          Replicate.run_synced cfg m.primary m.before m.after w hfree hresolve
        rw [hrun]
        exact h.synced hv hsynced (hharmless hresolve)
      · rw [Replicate.run_dangling m.before m.after hfree hresolve]
        exact h

theorem Mirrored.run {texts : Bytes → Prop} (hapart : Volumes.TellsApart texts)
    (requests : List Request) {w : World} {fs : FsStorage}
    (htexts : ∀ content ∈ requests.flatMap Request.texts, texts content)
    (hstores : ∀ content, w.volumes.Stores content → texts content)
    (h : Mirrored m w.volumes fs.contents) (hharmless : AllHarmless m requests w) :
    Mirrored m (executed m requests (w, fs)).1.volumes
      (executed m requests (w, fs)).2.contents := by
  induction requests generalizing w fs with
  | nil => exact h
  | cons request rest ih =>
      have hhere : ∀ content ∈ request.texts, texts content := by
        intro content hc
        exact htexts content (List.mem_flatMap.mpr ⟨request, List.mem_cons_self, hc⟩)
      have hrest : ∀ content ∈ rest.flatMap Request.texts, texts content := by
        intro content hc
        obtain ⟨r, hr, hc⟩ := List.mem_flatMap.mp hc
        exact htexts content (List.mem_flatMap.mpr ⟨r, List.mem_cons_of_mem request hr, hc⟩)
      have hfree := hapart.collisionFree hstores
      refine ih hrest ?_ (h.step hapart hhere hstores hharmless.1) hharmless.2
      intro content hc
      rcases request.stores_onMulti w hfree hc with hc | hc
      · exact hstores content hc
      · exact hhere content hc

theorem AllHarmless.of_append {done rest : List Request} {w : World}
    (h : AllHarmless m (done ++ rest) w) : AllHarmless m done w := by
  induction done generalizing w with
  | nil => trivial
  | cons request done ih => exact ⟨h.1, ih h.2⟩

omit [SerdeJson] in
-- Stores without anything in them.
theorem mirrored_new {w : World} (hempty : ∀ root ∈ m.backend.leaves, w.roots root = FsStorage.new) :
    Mirrored m w.volumes (FsStorage.new).contents := by
  have hroot : ∀ root ∈ m.backend.leaves, w.volumes root = (FsStorage.new).contents :=
    fun root hr => congrArg FsStorage.contents (hempty root hr)
  have hhead := hroot m.primary.head m.head_mem_leaves
  refine ⟨?_, ?_, ?_, ?_, ?_, ?_, ?_⟩
  · rw [hhead]
  · rw [hhead]
  · rw [hhead]
  · intro root hr d bytes hat
    rwa [hroot root hr] at hat
  · intro root hr repo d bytes hat
    rwa [hroot root hr] at hat
  · intro root hr repo tag hat
    rwa [hroot root hr] at hat
  · intro root hr repo tag hnone
    rwa [hroot root hr]

-- A store of empty partitions reads like a single one after every request of a
-- history in which each request is harmless.
theorem reads_like_single {requests : List Request} {w : World}
    (hempty : ∀ root ∈ m.backend.leaves, w.roots root = FsStorage.new)
    (hapart : Volumes.TellsApart fun content =>
      w.volumes.Stores content ∨ content ∈ requests.flatMap Request.texts)
    (hharmless : AllHarmless m requests w) : ∀ done rest, requests = done ++ rest →
      SameReads m (executed m done (w, .new)).1 (executed m done (w, .new)).2 := by
  rintro done rest rfl
  apply Mirrored.sameReads
  refine Mirrored.run hapart done ?_ (fun _ => .inl) (mirrored_new hempty) hharmless.of_append
  intro content hc
  rw [List.flatMap_append]
  exact .inr (List.mem_append_left _ hc)

end Run

section

attribute [local instance] Sample.sha2 Sample.serdeJson

-- Two empty directories, one of them the primary.
def unwritten : World where
  roots := fun _ => .new
  router := .single (.fs 0 0)
  nextArc := 1
  arcs_allocated := Sample.arcs_one

def pair : MultiHandle := ⟨0, .nil, "a", .fs 1 0, .cons "b" (.fs 2 1) .nil⟩

-- A tag that is moved after a pass, and then loses its manifest.
def resurfacing : List Request :=
  [.manifestPut Sample.dataX (.tag Sample.v1) Sample.braces, .replicate ⟨none⟩,
    .manifestPut Sample.dataX (.tag Sample.v1) Sample.brackets,
    .manifestDelete Sample.dataX (.digest (sha256Digest Sample.brackets))]

theorem resurfacing_reads :
    pair.backend.manifestGet (executed pair resurfacing (unwritten, .new)).1 Sample.dataX
        (.tag Sample.v1) = .ok Sample.braces ∧
      (executed pair resurfacing (unwritten, .new)).2.manifestGet Sample.dataX
        (.tag Sample.v1) = .error .notFound := by decide +kernel

theorem resurfacing_differs : ¬SameReads pair (executed pair resurfacing (unwritten, .new)).1
    (executed pair resurfacing (unwritten, .new)).2 := by
  intro h
  obtain ⟨hmulti, hsingle⟩ := resurfacing_reads
  rw [h.1, hsingle] at hmulti
  cases hmulti

-- The same with the tag deleted by its name.
def retagging : List Request :=
  [.manifestPut Sample.dataX (.tag Sample.v1) Sample.braces, .replicate ⟨none⟩,
    .manifestPut Sample.dataX (.tag Sample.v1) Sample.brackets,
    .manifestDelete Sample.dataX (.tag Sample.v1)]

theorem retagging_texts : Volumes.TellsApart fun content =>
    unwritten.volumes.Stores content ∨ content ∈ retagging.flatMap Request.texts := by
  have hmem : ∀ content, unwritten.volumes.Stores content ∨
      content ∈ retagging.flatMap Request.texts → content ∈ [Sample.braces, Sample.brackets] := by
    rintro content (⟨root, ⟨d, hd⟩ | ⟨repo, d, hd⟩⟩ | hc)
    · cases hd
    · cases hd
    · exact hc
  have hdistinct : ∀ algorithm, ∀ a ∈ [Sample.braces, Sample.brackets],
      ∀ b ∈ [Sample.braces, Sample.brackets],
        hashContent algorithm a = hashContent algorithm b → a = b := by
    intro algorithm
    cases algorithm <;> decide +kernel
  exact fun algorithm a b ha hb => hdistinct algorithm a (hmem a ha) b (hmem b hb)

theorem retagging_harmless : AllHarmless pair retagging unwritten := by
  refine ⟨trivial, ?_, trivial, trivial, trivial⟩
  -- The mirror has no tag yet.
  intro _ repo tag _ dst hdst e he
  obtain rfl : dst = .fs 2 1 := List.mem_singleton.mp hdst
  cases he

theorem retagging_reads : SameReads pair (executed pair retagging (unwritten, .new)).1
    (executed pair retagging (unwritten, .new)).2 :=
  reads_like_single (fun _ _ => rfl) retagging_texts retagging_harmless retagging []
    (List.append_nil retagging).symm

end

end RspaceRegistry
