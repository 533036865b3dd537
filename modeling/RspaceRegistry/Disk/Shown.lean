import RspaceRegistry.Disk.Answers
import RspaceRegistry.Disk.Listing
import RspaceRegistry.Disk.Repos
import RspaceRegistry.Contents
import RspaceRegistry.World

namespace RspaceRegistry

open Calls Files Ordered

-- The calls of the walks on a store, as calls on a directory tree.

def TagName.key (tag : TagName) : Disk.Key :=
  .tag tag.text ⟨tag.ordinary.1, tag.ordinary.2.1, tag.ordinary.2.2.1, tag.ordinary.2.2.2.1⟩

def Reference.key : Reference → Disk.Key
  | .tag name => name.key
  | .digest d => .digest d

def RepoName.toRepo (repo : RepoName) : Disk.Repo := ⟨repo.text, repo.ordinary.1⟩

namespace FsCall

-- A blob is asked for through some repository, which the storage ignores.
def op (through : String) : FsCall → Disk.StoreOp
  | .blobExists d => .request (.blobExists through d)
  | .blobSize d => .blobSize through d
  | .blobRead d => .request (.blobRead through d)
  | .blobWrite expected content => .request (.blobWrite through expected content)
  | .blobDelete d => .request (.blobDelete through d)
  | .manifestGet repo reference => .request (.manifestGet repo.text reference.key.reference)
  | .manifestPut repo reference content =>
      .request (.manifestPut repo.text reference.key.reference content)
  | .manifestDelete repo reference => .request (.manifestDelete repo.text reference.key.reference)
  | .listRepos => .request .listRepos
  | .listTags repo => .request (.listTags repo.text)
  | .listManifestDigests repo => .request (.listManifestDigests repo.text)
  | .listAllBlobs => .listAllBlobs

-- A listing gives the names as strings.
def text (through : String) : (call : FsCall) → call.Value → (call.op through).Value
  | .blobExists _, found => found
  | .blobSize _, size => size
  | .blobRead _, bytes | .manifestGet _ _, bytes => bytes
  | .blobWrite _ _, done | .blobDelete _, done | .manifestDelete _ _, done => done
  | .manifestPut _ _ _, d => d
  | .listRepos, repos => BTreeSet.empty.extend (repos.toList.map RepoName.text)
  | .listTags _, tags => BTreeSet.empty.extend (tags.toList.map TagName.text)
  | .listManifestDigests _, digests | .listAllBlobs, digests => digests

end FsCall

namespace Disk

section Maps

variable {α β γ : Type} [DecidableEq α] [DecidableEq β] {f : α → β} (hf : Function.Injective f)
variable {small : AList fun _ : α => γ} {large : AList fun _ : β => γ}
variable (h : ∀ key, large.lookup (f key) = small.lookup key)

include hf h

theorem lookup_insert_of (key : α) (value : γ) (other : α) :
    (large.insert (f key) value).lookup (f other) = (small.insert key value).lookup other := by
  by_cases heq : other = key
  · rw [heq, AList.lookup_insert, AList.lookup_insert]
  · rw [AList.lookup_insert_ne (hf.ne heq), AList.lookup_insert_ne heq, h]

theorem lookup_erase_of (key other : α) :
    (large.erase (f key)).lookup (f other) = (small.erase key).lookup other := by
  by_cases heq : other = key
  · rw [heq, AList.lookup_erase, AList.lookup_erase]
  · rw [AList.lookup_erase_ne (hf.ne heq), AList.lookup_erase_ne heq, h]

omit hf in
theorem mem_of_lookup (key : α) : f key ∈ large ↔ key ∈ small := by
  rw [← AList.lookup_isSome, ← AList.lookup_isSome, h]

end Maps

section Shows

def tagKey : RepoName × TagName → String × String := Prod.map RepoName.text TagName.text

def manifestKey : RepoName × Digest → String × Digest := Prod.map RepoName.text id

theorem tagKey_injective : Function.Injective tagKey :=
  RepoName.text_injective.prodMap TagName.text_injective

theorem manifestKey_injective : Function.Injective manifestKey :=
  RepoName.text_injective.prodMap Function.injective_id

variable [Sha2]

-- The maps have what the store has, under the same names and under no other tags.
structure Shows (fs : FsStorage) (maps : MapStore) : Prop where
  tags : ∀ key, maps.tags.lookup (tagKey key) = fs.tags.lookup key
  manifests : ∀ key, maps.manifests.lookup (manifestKey key) = fs.manifests.lookup key
  ordinary : ∀ repo tag, (repo, tag) ∈ maps.tags → TagName.Ordinary tag

variable {fs : FsStorage} {maps : MapStore} (h : Shows fs maps) (repo : RepoName)

include h

namespace Shows

theorem manifestGet (reference : RspaceRegistry.Reference) :
    maps.manifestGet repo.text reference.key.reference = fs.manifestGet repo reference := by
  have hmanifest : ∀ d, maps.manifests.lookup (repo.text, d) = fs.manifests.lookup (repo, d) :=
    fun d => h.manifests (repo, d)
  cases reference with
  | digest d =>
      simp only [RspaceRegistry.Reference.key, Key.reference, MapStore.manifestGet,
        FsStorage.manifestGet, FsStorage.target, hmanifest]
      cases fs.manifests.lookup (repo, d) <;> rfl
  | tag tag =>
      have htag : maps.tags.lookup (repo.text, tag.text) = fs.tags.lookup (repo, tag) :=
        h.tags (repo, tag)
      simp only [RspaceRegistry.Reference.key, TagName.key, Key.reference, MapStore.manifestGet,
        FsStorage.manifestGet, FsStorage.target, htag]
      cases fs.tags.lookup (repo, tag) with
      | none => rfl
      | some d =>
          simp only [hmanifest]
          cases fs.manifests.lookup (repo, d) <;> rfl

theorem manifestPut (reference : RspaceRegistry.Reference) (content : Bytes) :
    (maps.manifestPut repo.text reference.key.reference content).1 =
        (fs.manifestPut repo reference content).1 ∧
      Shows (fs.manifestPut repo reference content).2
        (maps.manifestPut repo.text reference.key.reference content).2 := by
  have hstored : ∀ key, (maps.manifests.insert (repo.text, sha256Digest content) content).lookup
      (manifestKey key) = (fs.insertManifest repo content).manifests.lookup key :=
    lookup_insert_of manifestKey_injective h.manifests (repo, sha256Digest content) content
  cases reference with
  | digest d => exact ⟨rfl, h.tags, hstored, h.ordinary⟩
  | tag tag =>
      refine ⟨rfl, ?_, hstored, fun repo' tag' hmem => ?_⟩
      · exact lookup_insert_of tagKey_injective h.tags (repo, tag) (sha256Digest content)
      · rcases (AList.mem_insert _).mp hmem with heq | hold
        · rw [(Prod.mk.inj heq).2]
          exact tag.ordinary
        · exact h.ordinary repo' tag' hold

theorem manifestDelete (reference : RspaceRegistry.Reference) :
    (maps.manifestDelete repo.text reference.key.reference).1 =
        (fs.manifestDelete repo reference).1 ∧
      Shows (fs.manifestDelete repo reference).2
        (maps.manifestDelete repo.text reference.key.reference).2 := by
  cases reference with
  | digest d =>
      have hmem : (repo.text, d) ∈ maps.manifests ↔ (repo, d) ∈ fs.manifests :=
        mem_of_lookup h.manifests (repo, d)
      simp only [RspaceRegistry.Reference.key, Key.reference, MapStore.manifestDelete,
        FsStorage.manifestDelete, hmem]
      split
      · refine ⟨rfl, h.tags, ?_, h.ordinary⟩
        exact lookup_erase_of manifestKey_injective h.manifests (repo, d)
      · exact ⟨rfl, h⟩
  | tag tag =>
      have hmem : (repo.text, tag.text) ∈ maps.tags ↔ (repo, tag) ∈ fs.tags :=
        mem_of_lookup h.tags (repo, tag)
      simp only [RspaceRegistry.Reference.key, TagName.key, Key.reference, MapStore.manifestDelete,
        FsStorage.manifestDelete, hmem]
      split
      · refine ⟨rfl, ?_, h.manifests, fun repo' tag' htag => ?_⟩
        · exact lookup_erase_of tagKey_injective h.tags (repo, tag)
        · exact h.ordinary repo' tag' (AList.mem_erase.mp htag).2
      · exact ⟨rfl, h⟩

theorem listTags : maps.listTags repo.text =
    BTreeSet.empty.extend ((fs.listTags repo).toList.map TagName.text) := by
  apply BTreeSet.ext
  intro tag
  have hset : ∀ name, (fs.contents.tag repo name).isSome ↔ (repo, name) ∈ fs.tags :=
    fun _ => AList.lookup_isSome
  simp only [maps.mem_listTags, BTreeSet.mem_extend, List.mem_map, BTreeSet.mem_toList,
    FsStorage.mem_listTags, hset, BTreeSet.not_mem_empty, or_false]
  constructor
  · intro hmem
    exact ⟨⟨tag, h.ordinary _ _ hmem⟩, (mem_of_lookup h.tags (repo, ⟨tag, _⟩)).mp hmem, rfl⟩
  · rintro ⟨name, hname, rfl⟩
    exact (mem_of_lookup h.tags (repo, name)).mpr hname

end Shows

end Shows

-- A directory tree in which every name is one that the listings show, and the store
-- that has the same files.
structure Mirrors [Sha2] (fs : FsStorage) (tree : Tree) : Prop where
  laid : Laid tree
  blobs : ∀ d, tree.fileAt (blobPath d) = fs.blobs.lookup d
  maps : ∃ maps, Represents maps tree ∧ Shows fs maps
  root : tree.node ["manifests"] = some .dir
  dirs : DirsOf (fun repo => Unmarked (components repo.name)) tree
  files : ∀ path, ["manifests"] <:+ path → (tree.fileAt path).isSome →
    "tags" ∈ path.tail ∨ "digests" ∈ path.tail
  repos : ∀ repo : RepoName, Marked tree (repoPath repo.text) ↔ repo ∈ fs.repoDirs

-- A session that is finished becomes a blob, if it has the digest.
def filed [Sha2] (fs : FsStorage) (tree : Tree) (id : String) (d : Digest) : FsStorage :=
  match (shelf tree).sessions id with
  | some bytes => (fs.blobWrite d bytes).2
  | none => fs

-- What is sent to a directory: calls of the walks, blobs through some repository, and
-- uploads.
inductive Sent
  | call (through : String) (call : FsCall)
  | create (repo id : String)
  | append (repo id : String) (chunk : Bytes)
  | finalize (repo id : String) (d : Digest)
  | cancel (repo id : String)

namespace Sent

def op : Sent → StoreOp
  | .call through asked => asked.op through
  | .create repo id => .request (.uploadCreate repo id)
  | .append repo id chunk => .request (.uploadAppend repo id chunk)
  | .finalize repo id d => .request (.uploadFinalize repo id d)
  | .cancel repo id => .request (.uploadCancel repo id)

-- An upload is nothing to the store before it is finished.
def exec [Sha2] (fs : FsStorage) (tree : Tree) : Sent → FsStorage
  | .call _ asked => (asked.exec fs).2
  | .finalize _ id d => filed fs tree id d
  | .create _ _ | .append _ _ _ | .cancel _ _ => fs

-- The store and the directory tree after a run.
def run [Sha2] (apart : Option IoError) : List Sent → FsStorage × Tree → FsStorage × Tree
  | [], now => now
  | sent :: rest, now =>
      run apart rest (sent.exec now.1 now.2, (fsStore apart sent.op now.2).2)

end Sent

namespace Mirrors

section Names

variable [Sha2] {fs : FsStorage} {tree : Tree}

omit [Sha2] in
theorem unmarked_path (repo : RepoName) : Unmarked (repoPath repo.text) := by
  rw [repoPath, unmarked_snoc]
  refine ⟨?_, by decide⟩
  simpa only [Unmarked, List.mem_reverse] using repo.ordinary.2

-- No file is in the way of a repository, no directory in the place of a tag.

theorem way_free (h : Mirrors fs tree) (repo : RepoName) (kind : String) :
    ¬InTheWay tree (kind :: repoPath repo.text) := by
  rintro ⟨above, inode, habove, hfile⟩
  have hsome : (tree.fileAt above).isSome := by
    rw [Tree.fileAt_of_file hfile]
    rfl
  have hbelow : ["manifests"] <:+ above := by
    refine List.suffix_of_suffix_length_le (below_manifests [kind] repo.text) habove ?_
    cases above with
    | nil =>
        rw [Files.Tree.node, tree.rooted] at hfile
        cases hfile
    | cons name parent => exact Nat.succ_le_succ (Nat.zero_le _)
  have htail : above.tail ⊆ repoPath repo.text := by
    rcases List.suffix_cons_iff.mp habove with rfl | hdeep
    · exact List.Subset.refl _
    · exact List.Subset.trans (List.tail_subset _) hdeep.subset
  rcases h.files above hbelow hsome with htags | hdigests
  · exact (unmarked_path repo).1 (htail htags)
  · exact (unmarked_path repo).2 (htail hdigests)

theorem tag_not_dir (h : Mirrors fs tree) (repo : RepoName) (name : String) :
    tree.node (manifestTagPath repo.text name) ≠ some .dir := by
  intro hdir
  have hof : ∀ (other : Repo) (kind : String), Unmarked (components other.name) →
      ¬manifestTagPath repo.text name <:+ kind :: repoPath other.name := by
    intro other kind hfree habove
    have hinside : "tags" :: repoPath repo.text <:+ repoPath other.name := by
      rcases List.suffix_cons_iff.mp habove with heq | hdeep
      · rw [← (List.cons.inj heq).2]
      · exact (List.suffix_cons name _).trans hdeep
    have hparts : "tags" :: (components repo.text).reverse ++ ["manifests"] <:+
        (components other.name).reverse ++ ["manifests"] := hinside
    exact hfree.1 (List.mem_reverse.mp ((suffix_of_append hparts).subset List.mem_cons_self))
  rcases h.dirs _ hdir (below_manifests [_, _] repo.text) with heq | ⟨other, hfree, habove | habove⟩
  · have hlength := congrArg List.length heq
    simp [manifestTagPath, repoPath] at hlength
  · exact hof other _ hfree habove
  · exact hof other _ hfree habove

theorem no_tmp {maps : MapStore} (hrep : Represents maps tree) (hshows : Shows fs maps)
    (repo tag : String) (htmp : isTmp tag = true) :
    tree.fileAt (manifestTagPath repo tag) = none := by
  rw [hrep.tags]
  cases hlookup : maps.tags.lookup (repo, tag) with
  | none => rfl
  | some d =>
      have hmem : (repo, tag) ∈ maps.tags := AList.lookup_isSome.mp (Option.isSome_of_eq_some hlookup)
      exact absurd (isTmp_iff.mp htmp) (hshows.ordinary repo tag hmem).2.2.2.2

end Names

section Requests

variable [Sha2] {fs : FsStorage} {tree : Tree} (h : Mirrors fs tree) (repo : RepoName)

include h

theorem fits_put {maps : MapStore} (hrep : Represents maps tree) (hshows : Shows fs maps)
    (reference : RspaceRegistry.Reference) (content : Bytes) :
    (Request.manifestPut repo.toRepo reference.key content).Fits tree := by
  have hdigest : ¬tree.Blocked (manifestDigestPath repo.text (hashContent .sha256 content)) :=
    fun hblocked => h.way_free repo "digests" (Tree.blocked_cons.mp hblocked)
  cases reference with
  | digest d => exact hdigest
  | tag name =>
      refine ⟨hdigest, ⟨h.tag_not_dir repo name.text, h.tag_not_dir repo (tmpName name.text), ?_⟩, ?_⟩
      · exact fun hblocked => h.way_free repo "tags" (Tree.blocked_cons.mp hblocked)
      · exact .inr (no_tmp hrep hshows repo.text _ (isTmp_tmpName name.text))

theorem fits_get (reference : RspaceRegistry.Reference) :
    (Request.manifestGet repo.toRepo reference.key).Fits tree := by
  cases reference with
  | digest d => exact fun hblocked => h.way_free repo "digests" (Tree.blocked_cons.mp hblocked)
  | tag name =>
      refine ⟨h.tag_not_dir repo name.text, fun hblocked => ?_⟩
      exact h.way_free repo "tags" (Tree.blocked_cons.mp hblocked)

theorem fits_delete (reference : RspaceRegistry.Reference) :
    (Request.manifestDelete repo.toRepo reference.key).Fits tree := by
  cases reference with
  | digest d => exact fun hblocked => h.way_free repo "digests" (Tree.blocked_cons.mp hblocked)
  | tag name =>
      refine ⟨h.tag_not_dir repo name.text, fun hblocked => ?_⟩
      exact h.way_free repo "tags" (Tree.blocked_cons.mp hblocked)

theorem fits_list {maps : MapStore} (hrep : Represents maps tree) (hshows : Shows fs maps) :
    (Request.listTags repo.toRepo).Fits tree :=
  ⟨fun hblocked => h.way_free repo "tags" (Tree.blocked_cons.mp hblocked),
    no_tmp hrep hshows repo.text⟩

omit h [Sha2] in
theorem plain_key (reference : RspaceRegistry.Reference) :
    ¬(reference.key.reference = .tag "." ∨ reference.key.reference = .tag "..") := by
  cases reference with
  | digest d => rintro (heq | heq) <;> cases heq
  | tag name =>
      rintro (heq | heq)
      · exact name.ordinary.2.2.1 (Reference.tag.inj heq)
      · exact name.ordinary.2.2.2.1 (Reference.tag.inj heq)

end Requests

section Steps

variable [Sha2] {fs fs' : FsStorage} {tree : Tree} (apart : Option IoError) (h : Mirrors fs tree)

include h

omit h [Sha2] in
theorem blob_apart {d : Digest} {path : Path} (h : path = blobPath d ∨ path = tmpPath (blobPath d)) :
    ¬["manifests"] <:+ path := by
  intro hpath
  rcases h with rfl | rfl
  · exact absurd (last_unique hpath (blobs_suffix d)) (by decide)
  · exact absurd (last_unique hpath (List.suffix_append [_, _, _] ["blobs"])) (by decide)

omit h [Sha2] in
theorem blobDir_apart {d : Digest} {path : Path} (h : path <:+ (blobPath d).tail) :
    ¬["manifests"] <:+ path ∧ ∀ name ∈ path, ':' ∉ name.toList := by
  refine ⟨fun hpath => absurd (last_unique (hpath.trans h) (List.suffix_append [_, _] ["blobs"]))
    (by decide), fun name hname => ?_⟩
  rcases List.mem_cons.mp (h.subset hname) with rfl | hname
  · rw [String.toList_ofList]
    intro hmem
    exact absurd (List.all_eq_true.mp d.valid.2 _ (List.mem_of_mem_take hmem)) (by decide)
  · rcases List.mem_cons.mp hname with rfl | hlast
    · cases d.algorithm <;> decide
    · rw [List.mem_singleton.mp hlast]
      decide

-- A call on a blob leaves the manifests alone, and one on a manifest the blobs.

theorem of_blob {op : StorageOp}
    (htouches : ∀ path, op.Touches path → ¬["manifests"] <:+ path)
    (hmakes : ∀ path, op.Makes path → ¬["manifests"] <:+ path ∧ ∀ name ∈ path, ':' ∉ name.toList)
    (hblobs : ∀ d, (fsStorageOn apart op tree).2.fileAt (blobPath d) = fs'.blobs.lookup d)
    (hmanifests : fs'.manifests = fs.manifests) (htags : fs'.tags = fs.tags)
    (hrepos : fs'.repoDirs = fs.repoDirs) : Mirrors fs' (fsStorageOn apart op tree).2 := by
  have hc := changes_call apart h.laid op
  have hlaid := laid_call apart h.laid op
  generalize (fsStorageOn apart op tree).2 = tree' at hblobs hc hlaid
  have hsame : ∀ path, ["manifests"] <:+ path → tree'.fileAt path = tree.fileAt path :=
    fun path hpath => hc.others path fun htouch => htouches path htouch hpath
  have hdirs : ∀ path, ["manifests"] <:+ path →
      (tree'.node path = some .dir ↔ tree.node path = some .dir) := by
    refine fun path hpath => ⟨fun hdir => (hc.dirs path hdir).resolve_right fun hmade => ?_,
      hc.kept path⟩
    exact (hmakes path hmade).1 hpath
  obtain ⟨maps, hrep, hshows⟩ := h.maps
  refine ⟨hlaid, hblobs, ⟨maps, ⟨?_, ?_, ?_, ?_⟩, ⟨?_, ?_, hshows.ordinary⟩⟩, hc.kept _ h.root, ?_, ?_,
    ?_⟩
  · exact fun repo tag => (hsame _ (below_manifests [_, _] repo)).trans (hrep.tags repo tag)
  · exact fun repo d => (hsame _ (below_manifests [_, _] repo)).trans (hrep.manifests repo d)
  · exact fun repo tag hmem => hc.kept _ (hrep.digests repo tag hmem)
  · intro path hdir name hname
    rcases hc.dirs path hdir with hold | hmade
    · exact hrep.dirs path hold name hname
    · exact (hmakes path hmade).2 name hname
  · rw [htags]
    exact hshows.tags
  · rw [hmanifests]
    exact hshows.manifests
  · intro path hdir hpath
    exact h.dirs path ((hdirs path hpath).mp hdir) hpath
  · intro path hpath hsome
    rw [hsame path hpath] at hsome
    exact h.files path hpath hsome
  · intro repo
    rw [hrepos]
    exact (or_congr (hdirs _ (below_manifests [_] repo.text))
      (hdirs _ (below_manifests [_] repo.text))).trans (h.repos repo)

theorem of_manifest {op : StorageOp} {maps' : MapStore} (repo : RepoName)
    (htouches : ∀ path, op.Touches path → "tags" ∈ path.tail ∨ "digests" ∈ path.tail)
    (hserve : (shelf tree).serve op = (none, shelf tree))
    (hmakes : ∀ path, op.Makes path →
      path <:+ "tags" :: repoPath repo.text ∨ path <:+ "digests" :: repoPath repo.text)
    (hrep : Represents maps' (fsStorageOn apart op tree).2) (hshows : Shows fs' maps')
    (hblobs : fs'.blobs = fs.blobs)
    (hrepos : ∀ other : RepoName, Marked (fsStorageOn apart op tree).2 (repoPath other.text) ↔
      other ∈ fs'.repoDirs) : Mirrors fs' (fsStorageOn apart op tree).2 := by
  have hc := changes_call apart h.laid op
  have hshelf := (serves_call apart h.laid op).1
  rw [hserve] at hshelf
  refine ⟨laid_call apart h.laid op, fun d => ?_, ⟨maps', hrep, hshows⟩, hc.kept _ h.root, ?_, ?_,
    hrepos⟩
  · rw [hblobs, ← h.blobs d]
    exact congrFun (congrArg Shelf.blobs hshelf) d
  · refine h.dirs.mono (fun _ => id) fun path hdir => (hc.dirs path hdir).imp_right fun hmade => ?_
    exact ⟨repo.toRepo, repo.ordinary.2, hmakes path hmade⟩
  · intro path hpath hsome
    by_cases htouch : op.Touches path
    · exact htouches path htouch
    · rw [hc.others path htouch] at hsome
      exact h.files path hpath hsome

omit h in
theorem put_touches {repo : RepoName} {reference : RspaceRegistry.Reference} {content : Bytes}
    {path : Path} (htouch :
      (StorageOp.manifestPut repo.text reference.key.reference content).Touches path) :
    "tags" ∈ path.tail ∨ "digests" ∈ path.tail := by
  rcases htouch with rfl | rfl | htag
  · exact .inr List.mem_cons_self
  · exact .inr List.mem_cons_self
  · cases reference with
    | digest d => exact htag.elim
    | tag name =>
        have hplain : ¬(name.text = "." ∨ name.text = "..") :=
          not_or.mpr ⟨name.ordinary.2.2.1, name.ordinary.2.2.2.1⟩
        have hput : PutTouches repo.text (.tag name.text) path := htag
        rw [PutTouches, if_neg hplain] at hput
        rcases hput with rfl | rfl <;> exact .inl List.mem_cons_self

omit h in
theorem delete_touches {repo : RepoName} {reference : RspaceRegistry.Reference} {path : Path}
    (htouch : (StorageOp.manifestDelete repo.text reference.key.reference).Touches path) :
    "tags" ∈ path.tail ∨ "digests" ∈ path.tail := by
  cases reference with
  | digest d =>
      rw [show path = manifestDigestPath repo.text d from htouch]
      exact .inr List.mem_cons_self
  | tag name =>
      rw [show path = manifestTagPath repo.text name.text from htouch]
      exact .inl List.mem_cons_self

-- The repositories after a put.
theorem marked_put {repo : RepoName} {reference : RspaceRegistry.Reference} {content : Bytes}
    (hstored : ((fsStorageOn apart (.manifestPut repo.text reference.key.reference content)
      tree).2.fileAt (manifestDigestPath repo.text (sha256Digest content))).isSome)
    (other : RepoName) :
    Marked (fsStorageOn apart (.manifestPut repo.text reference.key.reference content) tree).2
        (repoPath other.text) ↔ other = repo ∨ other ∈ fs.repoDirs := by
  have hc := changes_call apart h.laid (.manifestPut repo.text reference.key.reference content)
  generalize (fsStorageOn apart (.manifestPut repo.text reference.key.reference content) tree).2 =
    tree' at hstored hc
  have hdir : ∀ kind, kind = "tags" ∨ kind = "digests" →
      tree'.node (kind :: repoPath other.text) = some .dir →
        tree.node (kind :: repoPath other.text) = some .dir ∨ other = repo := by
    intro kind hkind hnode
    refine (hc.dirs _ hnode).imp_right fun hmade => ?_
    have hof : ∀ kind', kind :: repoPath other.text <:+ kind' :: repoPath repo.text →
        other = repo := by
      intro kind' habove
      rcases List.suffix_cons_iff.mp habove with heq | hdeep
      · exact RepoName.text_injective (repoPath_injective (List.cons.inj heq).2)
      · have hmem := hdeep.subset List.mem_cons_self
        rcases hkind with rfl | rfl
        · exact absurd hmem (unmarked_path repo).1
        · exact absurd hmem (unmarked_path repo).2
    exact hmade.elim (hof _) (hof _)
  rw [← h.repos other]
  constructor
  · rintro (htags | hdigests)
    · exact (hdir _ (.inl rfl) htags).symm.imp_right .inl
    · exact (hdir _ (.inr rfl) hdigests).symm.imp_right .inr
  · rintro (rfl | htags | hdigests)
    · obtain ⟨bytes, hfile⟩ := Option.isSome_iff_exists.mp hstored
      obtain ⟨inode, hnode, -⟩ := Tree.fileAt_eq_some.mp hfile
      exact .inr (Tree.dir_above hnode (List.suffix_cons _ _) List.ne_cons_self)
    · exact .inl (hc.kept _ htags)
    · exact .inr (hc.kept _ hdigests)

end Steps

section Calls

variable [Sha2] {fs : FsStorage} {tree : Tree} (apart : Option IoError) (h : Mirrors fs tree)

include h

-- What a call on the files answers, and the store that has the files it leaves.
def Follows (apart : Option IoError) (through : String) (fs : FsStorage) (tree : Tree)
    (call : FsCall) : Prop :=
  (fsStore apart (call.op through) tree).1 = (call.exec fs).1.map (call.text through) ∧
    Mirrors (call.exec fs).2 (fsStore apart (call.op through) tree).2

omit h [Sha2] in
theorem map_same {ε α : Type} (result : Except ε α) : result.map (fun value => value) = result := by
  cases result <;> rfl

omit h in
theorem manifestDelete_same (repo : RepoName) (reference : RspaceRegistry.Reference) :
    (fs.manifestDelete repo reference).2.blobs = fs.blobs ∧
      (fs.manifestDelete repo reference).2.repoDirs = fs.repoDirs := by
  cases reference with
  | digest d =>
      rw [FsStorage.manifestDelete]
      split <;> exact ⟨rfl, rfl⟩
  | tag name =>
      rw [FsStorage.manifestDelete]
      split <;> exact ⟨rfl, rfl⟩

omit h in
theorem follows_look {through : String} {call : FsCall} (h : Mirrors fs tree)
    {answer : (call.op through).Ans} (hrun : fsStore apart (call.op through) tree = (answer, tree))
    (hanswer : answer = (call.exec fs).1.map (call.text through)) (hexec : (call.exec fs).2 = fs) :
    Follows apart through fs tree call := by
  rw [Follows, hrun, hexec]
  exact ⟨hanswer, h⟩

theorem follows_blobRead (through : String) (d : Digest) :
    Follows apart through fs tree (.blobRead d) := by
  refine follows_look apart h (run_blobRead h.laid d) ?_ rfl
  rw [show (shelf tree).blobs d = fs.blobs.lookup d from h.blobs d]
  show _ = (fs.blobRead d).map id
  rw [FsStorage.blobRead]
  cases fs.blobs.lookup d <;> rfl

theorem follows_blobSize (through : String) (d : Digest) :
    Follows apart through fs tree (.blobSize d) := by
  refine follows_look apart h (run_blobSize h.laid d) ?_ rfl
  rw [show (shelf tree).blobs d = fs.blobs.lookup d from h.blobs d]
  show _ = (fs.blobSize d).map id
  rw [FsStorage.blobSize]
  cases fs.blobs.lookup d <;> rfl

theorem follows_blobExists (through : String) (d : Digest) :
    Follows apart through fs tree (.blobExists d) := by
  refine follows_look apart h (run_blobExists h.laid d) ?_ rfl
  rw [show (shelf tree).blobs d = fs.blobs.lookup d from h.blobs d]
  show _ = Except.ok (decide (d ∈ fs.blobs))
  congr 1
  rw [Bool.eq_iff_iff, AList.lookup_isSome, decide_eq_true_iff]

theorem follows_listAllBlobs (through : String) : Follows apart through fs tree .listAllBlobs := by
  obtain ⟨listing, hrun, hmem⟩ := run_listAllBlobs h.laid
  refine follows_look apart h hrun ?_ rfl
  show _ = Except.ok fs.listAllBlobs
  congr 1
  apply BTreeSet.ext
  intro d
  rw [hmem, FsStorage.mem_listAllBlobs]
  exact iff_of_eq (congrArg (fun found => Option.isSome found = true) (h.blobs d))

theorem follows_blobWrite (through : String) (d : Digest) (content : Bytes) :
    Follows apart through fs tree (.blobWrite d content) := by
  obtain ⟨hshelf, hanswer⟩ := serves_blobWrite apart h.laid through d content
  by_cases hhash : hashContent d.algorithm content = d
  · have hserve : (shelf tree).serve (.blobWrite through d content) =
        (some (.ok ()), (shelf tree).put d content) := if_pos hhash
    have hexec : (FsCall.blobWrite d content).exec fs =
        (.ok (), fs.insertBlob d content hhash) := dif_pos hhash
    rw [hserve] at hshelf hanswer
    rw [Follows, hexec]
    refine ⟨hanswer _ rfl, h.of_blob apart ?_ ?_ ?_ rfl rfl rfl⟩
    · exact fun path htouch => blob_apart htouch
    · exact fun path hmade => blobDir_apart hmade
    · intro d'
      have hat := congrFun (congrArg Shelf.blobs hshelf) d'
      rw [Shelf.put_blobs] at hat
      refine hat.trans ?_
      split
      · rename_i heq
        rw [heq]
        exact (AList.lookup_insert fs.blobs).symm
      · rename_i hne
        exact (h.blobs d').trans (AList.lookup_insert_ne hne).symm
  · have hserve : (shelf tree).serve (.blobWrite through d content) =
        (some (.error (.digestMismatch d (hashContent d.algorithm content))), shelf tree) :=
      if_neg hhash
    have hexec : (FsCall.blobWrite d content).exec fs =
        (.error (.digestMismatch d (hashContent d.algorithm content)), fs) := dif_neg hhash
    have hrun : fsStore apart ((FsCall.blobWrite d content).op through) tree =
        (.error (.digestMismatch d (hashContent d.algorithm content)), tree) := by
      show (blobWrite d content).run Tree.handle tree = _
      rw [blobWrite, if_pos hhash]
      rfl
    rw [Follows, hexec, hrun]
    exact ⟨rfl, h⟩

theorem follows_blobDelete (through : String) (d : Digest) :
    Follows apart through fs tree (.blobDelete d) := by
  obtain ⟨hshelf, hanswer⟩ := serves_blobDelete apart h.laid through d
  have htouches : ∀ path, (StorageOp.blobDelete through d).Touches path →
      ¬["manifests"] <:+ path := fun path htouch => blob_apart (.inl htouch)
  by_cases hmem : d ∈ fs.blobs
  · obtain ⟨bytes, hbytes⟩ := Option.isSome_iff_exists.mp (AList.lookup_isSome.mpr hmem)
    have hserve : (shelf tree).serve (.blobDelete through d) =
        (some (.ok ()), (shelf tree).drop d) := by
      simp only [Shelf.serve, show (shelf tree).blobs d = some bytes from (h.blobs d).trans hbytes]
    have hexec : (FsCall.blobDelete d).exec fs = (.ok (), fs.eraseBlob d) := if_pos hmem
    rw [hserve] at hshelf hanswer
    rw [Follows, hexec]
    refine ⟨hanswer _ rfl, h.of_blob apart htouches (fun _ hmade => hmade.elim) ?_ rfl rfl rfl⟩
    intro d'
    have hat := congrFun (congrArg Shelf.blobs hshelf) d'
    rw [Shelf.drop_blobs] at hat
    refine hat.trans ?_
    split
    · rename_i heq
      rw [heq]
      exact (AList.lookup_erase d fs.blobs).symm
    · rename_i hne
      exact (h.blobs d').trans (AList.lookup_erase_ne hne).symm
  · have hnone : (shelf tree).blobs d = none := (h.blobs d).trans (AList.lookup_eq_none.mpr hmem)
    have hserve : (shelf tree).serve (.blobDelete through d) =
        (some (.error .notFound), shelf tree) := by
      simp only [Shelf.serve, hnone]
    have hexec : (FsCall.blobDelete d).exec fs = (.error .notFound, fs) := if_neg hmem
    rw [hserve] at hshelf hanswer
    rw [Follows, hexec]
    refine ⟨hanswer _ rfl, h.of_blob apart htouches (fun _ hmade => hmade.elim) ?_ rfl rfl rfl⟩
    exact fun d' => (congrFun (congrArg Shelf.blobs hshelf) d').trans (h.blobs d')

theorem follows_listRepos (through : String) : Follows apart through fs tree .listRepos := by
  obtain ⟨listing, hrun, hmem⟩ := run_listRepos h.root
  refine follows_look apart h hrun ?_ rfl
  show _ = Except.ok (BTreeSet.empty.extend (fs.repoDirs.toList.map RepoName.text))
  congr 1
  apply BTreeSet.ext
  intro name
  simp only [hmem, BTreeSet.mem_extend, List.mem_map, BTreeSet.mem_toList, BTreeSet.not_mem_empty,
    or_false]
  constructor
  · intro hlisted
    obtain ⟨repo, hfree, rfl⟩ := h.dirs.repo_of_marked (fun _ => id)
      (listed_components h.dirs hlisted).2
    exact ⟨⟨repo.name, repo.valid, hfree⟩, (h.repos ⟨repo.name, repo.valid, hfree⟩).mp
      (listed_components h.dirs hlisted).2, rfl⟩
  · rintro ⟨repo, hrepo, rfl⟩
    exact listed_of_marked repo.toRepo repo.ordinary.2 ((h.repos repo).mpr hrepo)

theorem follows_listTags (through : String) (repo : RepoName) :
    Follows apart through fs tree (.listTags repo) := by
  obtain ⟨maps, hrep, hshows⟩ := h.maps
  have hlist := hrep.listTags_eq (h.fits_list repo hrep hshows)
  exact follows_look apart h hlist (congrArg Except.ok (hshows.listTags repo)) rfl

theorem follows_listManifestDigests (through : String) (repo : RepoName) :
    Follows apart through fs tree (.listManifestDigests repo) := by
  obtain ⟨maps, hrep, hshows⟩ := h.maps
  obtain ⟨listing, hanswer, hmem⟩ := answer_digests (h.way_free repo "digests")
  have hok : (fsStorage (.listManifestDigests repo.text) tree).1 = .ok listing :=
    ok_of_answer hanswer
  have hsame := run_looks (looks_listManifestDigests repo.text) tree
  have hrun : (listManifestDigests repo.text).run Tree.handle tree = (.ok listing, tree) :=
    Prod.ext hok hsame
  refine follows_look apart h hrun ?_ rfl
  show _ = Except.ok (fs.listManifestDigests repo)
  congr 1
  apply BTreeSet.ext
  intro d
  rw [hmem, FsStorage.mem_listManifestDigests, hrep.manifests]
  exact iff_of_eq (congrArg (fun found => Option.isSome found = true) (hshows.manifests (repo, d)))

theorem follows_manifestGet (through : String) (repo : RepoName)
    (reference : RspaceRegistry.Reference) :
    Follows apart through fs tree (.manifestGet repo reference) := by
  obtain ⟨maps, hrep, hshows⟩ := h.maps
  have hfits := h.fits_get repo reference
  have hget : (Disk.manifestGet repo.text reference.key.reference).run Tree.handle tree =
      (maps.manifestGet repo.text reference.key.reference, tree) := by
    cases reference with
    | digest d => exact hrep.manifestGet_digest _ hfits
    | tag name => exact hrep.manifestGet_tag hfits
  have hrun : fsStore apart ((FsCall.manifestGet repo reference).op through) tree =
      (fs.manifestGet repo reference, tree) := by
    show (StorageOp.body tree (.manifestGet repo.text reference.key.reference)).run Tree.handle tree = _
    rw [StorageOp.body, if_neg (plain_key reference), ← hshows.manifestGet repo reference]
    exact hget
  refine follows_look apart h hrun ?_ rfl
  exact (map_same _).symm

omit h in
theorem mem_repoDirs_put (repo : RepoName) (reference : RspaceRegistry.Reference) (content : Bytes)
    (other : RepoName) : other ∈ (fs.manifestPut repo reference content).2.repoDirs ↔
      other = repo ∨ other ∈ fs.repoDirs := by
  cases reference with
  | digest d => exact BTreeSet.mem_insert _ _ _
  | tag name =>
      show other ∈ (fs.repoDirs.insert repo).insert repo ↔ _
      rw [BTreeSet.mem_insert, BTreeSet.mem_insert, ← or_assoc, or_self]

theorem run_put {maps : MapStore} (hrep : Represents maps tree) (hshows : Shows fs maps)
    (repo : RepoName) (reference : RspaceRegistry.Reference) (content : Bytes) : ∃ tree',
      fsStorageOn apart (.manifestPut repo.text reference.key.reference content) tree =
          ((maps.manifestPut repo.text reference.key.reference content).1, tree') ∧
        Represents (maps.manifestPut repo.text reference.key.reference content).2 tree' := by
  have hfits := h.fits_put repo hrep hshows reference content
  have hplain : ∀ result, (Disk.manifestPut repo.text reference.key.reference content).run
      Tree.handle tree = result →
        fsStorageOn apart (.manifestPut repo.text reference.key.reference content) tree = result := by
    intro result hresult
    show (StorageOp.body tree _).run Tree.handle tree = _
    rw [StorageOp.body, if_neg (plain_key reference)]
    exact hresult
  cases reference with
  | digest d =>
      have hfree : ¬tree.Blocked (manifestDigestPath repo.toRepo.name
        (hashContent .sha256 content)) := hfits
      obtain ⟨tree', hput, hrep'⟩ := hrep.manifestPut_digest d hfree
      exact ⟨tree', hplain _ hput, hrep'⟩
  | tag name =>
      have hfree : ¬tree.Blocked (manifestDigestPath repo.toRepo.name
        (hashContent .sha256 content)) := hfits.1
      have hwritable : TagWritable tree repo.toRepo.name name.text := hfits.2
      obtain ⟨tree', hput, hrep'⟩ := hrep.manifestPut_tag hfree hwritable
      exact ⟨tree', hplain _ hput, hrep'⟩

theorem follows_manifestPut (through : String) (repo : RepoName)
    (reference : RspaceRegistry.Reference) (content : Bytes) :
    Follows apart through fs tree (.manifestPut repo reference content) := by
  obtain ⟨maps, hrep, hshows⟩ := h.maps
  obtain ⟨hresult, hshows'⟩ := hshows.manifestPut repo reference content
  obtain ⟨tree', hrun, hrep'⟩ := h.run_put apart hrep hshows repo reference content
  have hstored : (tree'.fileAt (manifestDigestPath repo.text (sha256Digest content))).isSome := by
    rw [hrep'.manifests]
    cases reference <;> exact AList.lookup_isSome.mpr ((AList.mem_insert _).mpr (.inl rfl))
  have hmirrors : Mirrors (fs.manifestPut repo reference content).2
      (fsStorageOn apart (.manifestPut repo.text reference.key.reference content) tree).2 := by
    have hmarked := h.marked_put apart (by rw [hrun]; exact hstored)
    refine h.of_manifest apart repo (fun _ => put_touches) rfl (fun _ => Or.symm) ?_ hshows' ?_ ?_
    · rw [hrun]
      exact hrep'
    · cases reference <;> rfl
    · exact fun other => (hmarked other).trans (mem_repoDirs_put repo reference content other).symm
  rw [hrun] at hmirrors
  have hstore : fsStore apart ((FsCall.manifestPut repo reference content).op through) tree =
      ((fs.manifestPut repo reference content).1, tree') := by rw [← hresult]; exact hrun
  rw [Follows, hstore]
  exact ⟨(map_same _).symm, hmirrors⟩

theorem run_delete {maps : MapStore} (hrep : Represents maps tree) (repo : RepoName)
    (reference : RspaceRegistry.Reference) : ∃ tree',
      fsStorageOn apart (.manifestDelete repo.text reference.key.reference) tree =
          ((maps.manifestDelete repo.text reference.key.reference).1, tree') ∧
        Represents (maps.manifestDelete repo.text reference.key.reference).2 tree' := by
  have hfits := h.fits_delete repo reference
  have hplain : ∀ result, (Disk.manifestDelete repo.text reference.key.reference).run
      Tree.handle tree = result →
        fsStorageOn apart (.manifestDelete repo.text reference.key.reference) tree = result := by
    intro result hresult
    show (StorageOp.body tree _).run Tree.handle tree = _
    rw [StorageOp.body, if_neg (plain_key reference)]
    exact hresult
  cases reference with
  | digest d =>
      obtain ⟨tree', hdelete, hrep'⟩ := hrep.manifestDelete_digest hfits
      exact ⟨tree', hplain _ hdelete, hrep'⟩
  | tag name =>
      obtain ⟨tree', hdelete, hrep'⟩ := hrep.manifestDelete_tag hfits
      exact ⟨tree', hplain _ hdelete, hrep'⟩

theorem follows_manifestDelete (through : String) (repo : RepoName)
    (reference : RspaceRegistry.Reference) :
    Follows apart through fs tree (.manifestDelete repo reference) := by
  obtain ⟨maps, hrep, hshows⟩ := h.maps
  obtain ⟨hresult, hshows'⟩ := hshows.manifestDelete repo reference
  obtain ⟨tree', hrun, hrep'⟩ := h.run_delete apart hrep repo reference
  have hmirrors : Mirrors (fs.manifestDelete repo reference).2
      (fsStorageOn apart (.manifestDelete repo.text reference.key.reference) tree).2 := by
    have hc := changes_call apart h.laid (.manifestDelete repo.text reference.key.reference)
    have hdir : ∀ path, (fsStorageOn apart (.manifestDelete repo.text reference.key.reference)
        tree).2.node path = some .dir ↔ tree.node path = some .dir :=
      fun path => ⟨fun hdir => (hc.dirs path hdir).resolve_right id, hc.kept path⟩
    refine h.of_manifest apart repo (fun _ => delete_touches) rfl (fun _ => False.elim) ?_ hshows'
      ?_ ?_
    · rw [hrun]
      exact hrep'
    · exact (manifestDelete_same repo reference).1
    · intro other
      rw [(manifestDelete_same repo reference).2, ← h.repos other]
      exact or_congr (hdir _) (hdir _)
  rw [hrun] at hmirrors
  have hstore : fsStore apart ((FsCall.manifestDelete repo reference).op through) tree =
      ((fs.manifestDelete repo reference).1, tree') := by rw [← hresult]; exact hrun
  rw [Follows, hstore]
  exact ⟨(map_same _).symm, hmirrors⟩

-- On names that the listings show, the files answer every call as the store does, and
-- the store goes on having the same files.
theorem call (through : String) (call : FsCall) : Follows apart through fs tree call := by
  cases call with
  | blobExists d => exact h.follows_blobExists apart through d
  | blobSize d => exact h.follows_blobSize apart through d
  | blobRead d => exact h.follows_blobRead apart through d
  | blobWrite d content => exact h.follows_blobWrite apart through d content
  | blobDelete d => exact h.follows_blobDelete apart through d
  | manifestGet repo reference => exact h.follows_manifestGet apart through repo reference
  | manifestPut repo reference content =>
      exact h.follows_manifestPut apart through repo reference content
  | manifestDelete repo reference => exact h.follows_manifestDelete apart through repo reference
  | listRepos => exact h.follows_listRepos apart through
  | listTags repo => exact h.follows_listTags apart through repo
  | listManifestDigests repo => exact h.follows_listManifestDigests apart through repo
  | listAllBlobs => exact h.follows_listAllBlobs apart through

-- The session of an upload is a file apart.
theorem after_session {op : StorageOp} (id : String)
    (htouches : ∀ path, op.Touches path → path = uploadPath id)
    (hmakes : ∀ path, op.Makes path → path <:+ ["uploads"]) (hserves : Serves apart tree op)
    (hblobs : ((shelf tree).serve op).2.blobs = (shelf tree).blobs) :
    Mirrors fs (fsStorageOn apart op tree).2 := by
  refine h.of_blob apart (fun path htouch hpath => ?_) (fun path hmade => ?_) (fun d => ?_)
    rfl rfl rfl
  · rw [htouches path htouch] at hpath
    exact absurd (last_unique hpath (uploads_suffix id)) (by decide)
  · have habove := hmakes path hmade
    refine ⟨fun hpath => ?_, fun name hname => ?_⟩
    · exact absurd (last_unique (hpath.trans habove) (List.suffix_refl ["uploads"])) (by decide)
    · rw [List.mem_singleton.mp (habove.subset hname)]
      decide
  · exact (congrFun ((congrArg Shelf.blobs hserves.1).trans hblobs) d).trans (h.blobs d)

theorem after_finalize (through id : String) (d : Digest) :
    Mirrors (filed fs tree id d) (fsStorageOn apart (.uploadFinalize through id d) tree).2 := by
  obtain ⟨hshelf, -⟩ := serves_uploadFinalize apart h.laid through id d
  refine h.of_blob apart ?_ (fun path hmade => blobDir_apart hmade) (fun d' => ?_) ?_ ?_ ?_
  · rintro path (rfl | rfl) hpath
    · exact blob_apart (.inl rfl) hpath
    · exact absurd (last_unique hpath (uploads_suffix id)) (by decide)
  · refine (congrFun (congrArg Shelf.blobs hshelf) d').trans ?_
    rw [filed]
    cases hsession : (shelf tree).sessions id with
    | none =>
        simp only [Shelf.serve, hsession]
        exact h.blobs d'
    | some bytes =>
        simp only [Shelf.serve, hsession]
        by_cases hhash : hashContent d.algorithm bytes = d
        · rw [if_pos hhash, FsStorage.blobWrite, dif_pos hhash, Shelf.close_blobs, Shelf.put_blobs]
          split
          · rename_i heq
            rw [heq]
            exact (AList.lookup_insert fs.blobs).symm
          · rename_i hne
            exact (h.blobs d').trans (AList.lookup_insert_ne hne).symm
        · rw [if_neg hhash, FsStorage.blobWrite, dif_neg hhash]
          exact h.blobs d'
  all_goals
    rw [filed]
    cases (shelf tree).sessions id with
    | none => rfl
    | some bytes =>
        show _ = _
        simp only [FsStorage.blobWrite]
        split <;> rfl

end Calls

section Run

variable [Sha2]

theorem new : Mirrors FsStorage.new Disk.new where
  laid := laid_new
  blobs d := no_file_new (blobPath d)
  maps := by
    refine ⟨.empty, Represents.new, fun _ => rfl, fun _ => rfl, fun repo tag hmem => ?_⟩
    exact absurd hmem (AList.notMem_empty _)
  root := by decide
  dirs := counted_new.dirs.mono (fun _ hrepo => hrepo.1) fun _ hdir => .inl hdir
  files path _ hsome := by
    rw [no_file_new] at hsome
    cases hsome
  repos repo := by
    refine ⟨fun hmarked => ?_, fun hmem => absurd hmem (BTreeSet.not_mem_empty repo)⟩
    have hlength : ∀ kind, Disk.new.node (kind :: repoPath repo.text) ≠ some .dir := by
      intro kind hdir
      have hmem := node_new hdir
      simp [repoPath] at hmem
    exact hmarked.elim (fun hdir => absurd hdir (hlength _)) fun hdir => absurd hdir (hlength _)

theorem sent {fs : FsStorage} {tree : Tree} (apart : Option IoError) (h : Mirrors fs tree)
    (sent : Sent) : Mirrors (sent.exec fs tree) (fsStore apart sent.op tree).2 := by
  cases sent with
  | call through call => exact (h.call apart through call).2
  | create repo id =>
      have hmakes : ∀ path, (StorageOp.uploadCreate repo id).Makes path → path <:+ ["uploads"] :=
        fun _ hmade => hmade
      exact h.after_session apart id (fun _ htouch => htouch) hmakes
        (serves_uploadCreate apart h.laid repo id) rfl
  | append repo id chunk =>
      have hserves := serves_uploadAppend apart h.laid repo id chunk
      refine h.after_session apart id (fun _ htouch => htouch) (fun _ => False.elim) hserves ?_
      simp only [Shelf.serve]
      cases (shelf tree).sessions id <;> rfl
  | finalize repo id d => exact h.after_finalize apart repo id d
  | cancel repo id =>
      have hserves := serves_uploadCancel apart h.laid repo id
      refine h.after_session apart id (fun _ htouch => htouch) (fun _ => False.elim) hserves ?_
      simp only [Shelf.serve]
      cases (shelf tree).sessions id <;> rfl

theorem run {now : FsStorage × Tree} (apart : Option IoError) (h : Mirrors now.1 now.2)
    (list : List Sent) :
    Mirrors (Sent.run apart list now).1 (Sent.run apart list now).2 := by
  induction list generalizing now with
  | nil => exact h
  | cons first rest ih => exact ih (h.sent apart first)

end Run

end Mirrors

-- After whatever was sent with names that the listings show, the directory tree answers
-- the next call as the store of the walks does.
theorem answers_like_store [Sha2] (apart : Option IoError) (list : List Sent) (through : String)
    (call : FsCall) :
    let now := Sent.run apart list (FsStorage.new, new)
    (fsStore apart (call.op through) now.2).1 = (call.exec now.1).1.map (call.text through) :=
  ((Mirrors.run apart Mirrors.new list).call apart through call).1

end Disk

end RspaceRegistry
