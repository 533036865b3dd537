import Mathlib.Data.List.TakeWhile
import RspaceRegistry.Disk.Blobs
import RspaceRegistry.RepoName.Components

namespace RspaceRegistry.Disk

open Calls Files Ordered

-- What the storage is for: two maps that know nothing of each other.
structure MapStore where
  tags : AList fun _ : String × String => Digest
  manifests : AList fun _ : String × Digest => Bytes

namespace MapStore

def empty : MapStore := ⟨∅, ∅⟩

variable (maps : MapStore)

def manifestGet (repo : String) (reference : Reference) : Except StorageError Bytes :=
  let target := match reference with
    | .digest digest => some digest
    | .tag tag => maps.tags.lookup (repo, tag)
  match target with
  | none => .error .notFound
  | some digest =>
      match maps.manifests.lookup (repo, digest) with
      | none => .error .notFound
      | some bytes => .ok bytes

def manifestPut [Sha2] (repo : String) (reference : Reference) (content : Bytes) :
    Except StorageError Digest × MapStore :=
  let digest := hashContent .sha256 content
  let manifests := maps.manifests.insert (repo, digest) content
  match reference with
  | .digest _ => (.ok digest, ⟨maps.tags, manifests⟩)
  | .tag tag => (.ok digest, ⟨maps.tags.insert (repo, tag) digest, manifests⟩)

def manifestDelete (repo : String) (reference : Reference) : Except StorageError Unit × MapStore :=
  match reference with
  | .digest digest =>
      if (repo, digest) ∈ maps.manifests then
        (.ok (), ⟨maps.tags, maps.manifests.erase (repo, digest)⟩)
      else (.error .notFound, maps)
  | .tag tag =>
      if (repo, tag) ∈ maps.tags then (.ok (), ⟨maps.tags.erase (repo, tag), maps.manifests⟩)
      else (.error .notFound, maps)

def listTags (repo : String) : BTreeSet String :=
  BTreeSet.empty.extend (maps.tags.keys.filterMap fun key =>
    if key.1 = repo then some key.2 else none)

theorem mem_listTags {repo tag : String} :
    tag ∈ maps.listTags repo ↔ (repo, tag) ∈ maps.tags := by
  rw [listTags, BTreeSet.mem_extend, List.mem_filterMap]
  constructor
  · rintro (⟨key, hkey, hname⟩ | h)
    · split at hname
      · rename_i hrepo
        obtain rfl := Option.some.inj hname
        rw [← hrepo]
        exact hkey
      · cases hname
    · exact absurd h (BTreeSet.not_mem_empty tag)
  · exact fun h => .inl ⟨(repo, tag), h, if_pos rfl⟩

end MapStore

structure Repo where
  name : String
  valid : validateRepoName name = .ok ()

-- A digest, or a tag that is one path component.
inductive Key
  | tag (tag : String) (isName : IsFileName tag)
  | digest (digest : Digest)

def Key.reference : Key → Reference
  | .tag name _ => .tag name
  | .digest d => .digest d

inductive Request
  | manifestPut (repo : Repo) (key : Key) (content : Bytes)
  | manifestGet (repo : Repo) (key : Key)
  | manifestDelete (repo : Repo) (key : Key)
  | listTags (repo : Repo)

inductive Answer
  | stored (result : Except StorageError Digest)
  | fetched (result : Except StorageError Bytes)
  | deleted (result : Except StorageError Unit)
  | listed (result : Except StorageError (BTreeSet String))
deriving DecidableEq

section Serve

variable [Sha2]

def Request.serve : Request → Tree → Answer × Tree
  | .manifestPut repo key content, tree =>
      let (result, tree') := (Disk.manifestPut repo.name key.reference content).run Tree.handle tree
      (.stored result, tree')
  | .manifestGet repo key, tree =>
      let (result, tree') := (Disk.manifestGet repo.name key.reference).run Tree.handle tree
      (.fetched result, tree')
  | .manifestDelete repo key, tree =>
      let (result, tree') := (Disk.manifestDelete repo.name key.reference).run Tree.handle tree
      (.deleted result, tree')
  | .listTags repo, tree =>
      let (result, tree') := (Disk.listTags repo.name).run Tree.handle tree
      (.listed result, tree')

def Request.lookUp : Request → MapStore → Answer × MapStore
  | .manifestPut repo key content, maps =>
      let (result, maps') := maps.manifestPut repo.name key.reference content
      (.stored result, maps')
  | .manifestGet repo key, maps => (.fetched (maps.manifestGet repo.name key.reference), maps)
  | .manifestDelete repo key, maps =>
      let (result, maps') := maps.manifestDelete repo.name key.reference
      (.deleted result, maps')
  | .listTags repo, maps => (.listed (.ok (maps.listTags repo.name)), maps)

-- The requests one after the other, by the files and by the maps.
def serveAll : List Request → Tree → List Answer
  | [], _ => []
  | request :: rest, tree => (request.serve tree).1 :: serveAll rest (request.serve tree).2

def lookUpAll : List Request → MapStore → List Answer
  | [], _ => []
  | request :: rest, maps => (request.lookUp maps).1 :: lookUpAll rest (request.lookUp maps).2

end Serve

-- No directory stands at the path, and no file above it.
def Clear (tree : Tree) (path : Path) : Prop := tree.node path ≠ some .dir ∧ ¬tree.Blocked path

-- A tag can be written without another being lost: no directory stands in its
-- place or in that of its temporary file, and that file is no other tag.
def TagWritable (tree : Tree) (repo tag : String) : Prop :=
  Writable tree (manifestTagPath repo tag) ∧
    (tmpName tag = tag ∨ tree.fileAt (manifestTagPath repo (tmpName tag)) = none)

-- The tags of the repository are listed: no file stands at their directory or
-- above it, and none of them looks like a temporary file.
def Listable (tree : Tree) (repo : String) : Prop :=
  ¬tree.Blocked (manifestTagPath repo "") ∧
    ∀ tag, isTmp tag = true → tree.fileAt (manifestTagPath repo tag) = none

instance (tree : Tree) (path : Path) : Decidable (Clear tree path) :=
  inferInstanceAs (Decidable (_ ∧ _))

instance (tree : Tree) (repo tag : String) : Decidable (TagWritable tree repo tag) :=
  inferInstanceAs (Decidable (_ ∧ _))

theorem no_tmp_iff {tree : Tree} {repo : String} :
    (∀ tag, isTmp tag = true → tree.fileAt (manifestTagPath repo tag) = none) ↔
      ∀ path ∈ tree.nodes.keys, ∀ name ∈ path.head?, isTmp name = true →
        path = manifestTagPath repo name → tree.fileAt path = none := by
  constructor
  · rintro h path - name - htmp rfl
    exact h name htmp
  · intro h tag htmp
    by_cases hmem : manifestTagPath repo tag ∈ tree.nodes
    · exact h _ hmem tag rfl htmp rfl
    · rw [Files.Tree.fileAt, Files.Tree.node, AList.lookup_eq_none.mpr hmem]

instance (tree : Tree) (repo : String) : Decidable (Listable tree repo) :=
  @instDecidableAnd _ _ _ (decidable_of_iff' _ no_tmp_iff)

-- When the files answer as the maps do.
def Request.Fits [Sha2] (tree : Tree) : Request → Prop
  | .manifestPut repo (.tag tag _) content =>
      ¬tree.Blocked (manifestDigestPath repo.name (hashContent .sha256 content)) ∧
        TagWritable tree repo.name tag
  | .manifestPut repo (.digest _) content =>
      ¬tree.Blocked (manifestDigestPath repo.name (hashContent .sha256 content))
  | .manifestGet repo (.tag tag _) => Clear tree (manifestTagPath repo.name tag)
  | .manifestGet repo (.digest d) => ¬tree.Blocked (manifestDigestPath repo.name d)
  | .manifestDelete repo (.tag tag _) => Clear tree (manifestTagPath repo.name tag)
  | .manifestDelete repo (.digest d) => ¬tree.Blocked (manifestDigestPath repo.name d)
  | .listTags repo => Listable tree repo.name

instance [Sha2] (tree : Tree) : (request : Request) → Decidable (request.Fits tree)
  | .manifestPut _ (.tag _ _) _ => inferInstanceAs (Decidable (_ ∧ _))
  | .manifestPut _ (.digest _) _ => inferInstanceAs (Decidable (¬_))
  | .manifestGet _ (.tag _ _) => inferInstanceAs (Decidable (Clear _ _))
  | .manifestGet _ (.digest _) => inferInstanceAs (Decidable (¬_))
  | .manifestDelete _ (.tag _ _) => inferInstanceAs (Decidable (Clear _ _))
  | .manifestDelete _ (.digest _) => inferInstanceAs (Decidable (¬_))
  | .listTags _ => inferInstanceAs (Decidable (Listable _ _))

-- Every request of the sequence fits the files that it meets.
def Fitting [Sha2] : List Request → Tree → Prop
  | [], _ => True
  | request :: rest, tree => request.Fits tree ∧ Fitting rest (request.serve tree).2

instance [Sha2] : (requests : List Request) → (tree : Tree) → Decidable (Fitting requests tree)
  | [], _ => .isTrue trivial
  | request :: rest, tree =>
      @instDecidableAnd _ _ inferInstance (instDecidableFitting rest (request.serve tree).2)

-- The files are those of the maps.
structure Represents (maps : MapStore) (tree : Tree) : Prop where
  tags : ∀ repo tag, tree.fileAt (manifestTagPath repo tag) =
    (maps.tags.lookup (repo, tag)).map fun d => utf8 d.toString
  manifests : ∀ repo d, tree.fileAt (manifestDigestPath repo d) = maps.manifests.lookup (repo, d)
  digests : ∀ repo tag, (repo, tag) ∈ maps.tags →
    tree.node ("digests" :: repoPath repo) = some .dir
  dirs : ∀ path, tree.node path = some .dir → ∀ name ∈ path, ':' ∉ name.toList

section Paths

theorem tmpName_digest (d : Digest) : tmpName d.toString = d.toString ++ ".tmp" := by
  have hdot : ∀ c ∈ d.toString.toList.reverse, decide (c ≠ '.') = true := by
    intro c hc
    rw [List.mem_reverse, Digest.toString, String.toList_append, String.toList_append] at hc
    rcases List.mem_append.mp hc with hname | hhex
    · have hall : ∀ algorithm : Algorithm,
          (algorithm.name.toList ++ ":".toList).all (· ≠ '.') = true := by
        intro algorithm
        cases algorithm <;> decide
      exact List.all_eq_true.mp (hall d.algorithm) c hname
    · rw [decide_eq_true_eq]
      rintro rfl
      exact absurd (List.all_eq_true.mp d.valid.2 _ hhex) (by decide)
  rw [tmpName, fileStem, List.span_eq_takeWhile_dropWhile, List.dropWhile_eq_nil_iff.mpr hdot,
    String.append_assoc]
  rfl

theorem repoPath_injective : Function.Injective repoPath := by
  intro a b h
  exact components_injective (List.reverse_injective (List.append_cancel_right h))

@[simp] theorem tagPath_inj {repo repo' tag tag' : String} :
    manifestTagPath repo tag = manifestTagPath repo' tag' ↔ repo = repo' ∧ tag = tag' := by
  simp only [manifestTagPath, List.cons.injEq, true_and, repoPath_injective.eq_iff]
  exact and_comm

@[simp] theorem digestPath_inj {repo repo' : String} {d d' : Digest} :
    manifestDigestPath repo d = manifestDigestPath repo' d' ↔ repo = repo' ∧ d = d' := by
  simp only [manifestDigestPath, List.cons.injEq, true_and, repoPath_injective.eq_iff,
    toString_injective.eq_iff]
  exact and_comm

theorem Repo.no_colon (repo : Repo) {name : String} (h : name ∈ components repo.name) :
    ':' ∉ name.toList := by
  have hvalid := repo.valid
  rw [validateRepoName] at hvalid
  split at hvalid
  · cases hvalid
  · intro hcolon
    exact absurd (validateComponent_chars (validateComponents_ok hvalid h) _ hcolon) (by decide)

-- No directory of the storage has a colon in its name, as digests do.
theorem Repo.no_colon_above (repo : Repo) {kind : String} (hkind : ':' ∉ kind.toList) {path : Path}
    (h : path <:+ kind :: repoPath repo.name) : ∀ name ∈ path, ':' ∉ name.toList := by
  intro name hname
  rcases List.mem_cons.mp (h.subset hname) with rfl | hrest
  · exact hkind
  · rcases List.mem_append.mp hrest with hpart | hlast
    · exact repo.no_colon (List.mem_reverse.mp hpart)
    · rw [List.mem_singleton.mp hlast]
      decide

end Paths

namespace Represents

variable {maps : MapStore} {tree tree' : Tree} {repo : Repo}

-- No digest is the name of a directory.
theorem digest_not_dir (h : Represents maps tree) (repo : String) (d : Digest) :
    tree.node (manifestDigestPath repo d) ≠ some .dir := by
  intro hdir
  have hcolon := h.dirs _ hdir d.toString List.mem_cons_self
  rw [Digest.toString, String.toList_append, String.toList_append] at hcolon
  exact hcolon (by simp)

theorem digestTmp_not_dir (h : Represents maps tree) (repo : String) (d : Digest) :
    tree.node (withExtension (manifestDigestPath repo d) "tmp") ≠ some .dir := by
  intro hdir
  have hcolon := h.dirs _ hdir (tmpName d.toString) List.mem_cons_self
  rw [tmpName_digest, String.toList_append, Digest.toString, String.toList_append,
    String.toList_append] at hcolon
  exact hcolon (by simp)

theorem write_digest (h : Represents maps tree) {d : Digest} {bytes : Bytes}
    (hrep : Replaced (withExtension (manifestDigestPath repo.name d) "tmp")
      (manifestDigestPath repo.name d) bytes tree tree') :
    Represents ⟨maps.tags, maps.manifests.insert (repo.name, d) bytes⟩ tree' where
  tags repo' tag := by
    rw [← h.tags, hrep.others _ (tagPath_ne_digestPath _ _ _ _)]
    exact fun heq => absurd (List.cons.inj (List.cons.inj heq).2).1 (by decide)
  manifests repo' d' := by
    by_cases heq : (repo', d') = (repo.name, d)
    · obtain ⟨rfl, rfl⟩ := Prod.mk.inj heq
      rw [AList.lookup_insert, hrep.content]
    · rw [AList.lookup_insert_ne heq, ← h.manifests, hrep.others]
      · rw [Ne, digestPath_inj]
        rintro ⟨rfl, rfl⟩
        exact heq rfl
      · exact fun htmp => tmpName_ne (isTmp_digest d') (List.cons.inj htmp).1.symm
  digests repo' tag htag := hrep.kept _ (h.digests repo' tag htag)
  dirs path hdir := by
    rcases hrep.dirs path hdir with hold | habove
    · exact h.dirs path hold
    · exact repo.no_colon_above (by decide) habove

theorem write_tag (h : Represents maps tree) {tag : String} {d : Digest}
    (hdir : tree.node ("digests" :: repoPath repo.name) = some .dir)
    (hfree : tmpName tag = tag ∨ tree.fileAt (manifestTagPath repo.name (tmpName tag)) = none)
    (hrep : Replaced (withExtension (manifestTagPath repo.name tag) "tmp")
      (manifestTagPath repo.name tag) (utf8 d.toString) tree tree') :
    Represents ⟨maps.tags.insert (repo.name, tag) d, maps.manifests⟩ tree' where
  tags repo' tag' := by
    by_cases heq : (repo', tag') = (repo.name, tag)
    · obtain ⟨rfl, rfl⟩ := Prod.mk.inj heq
      rw [AList.lookup_insert, hrep.content]
      rfl
    · rw [AList.lookup_insert_ne heq, ← h.tags]
      have hpath : manifestTagPath repo' tag' ≠ manifestTagPath repo.name tag := by
        rw [Ne, tagPath_inj]
        rintro ⟨rfl, rfl⟩
        exact heq rfl
      by_cases htmp : manifestTagPath repo' tag' = manifestTagPath repo.name (tmpName tag)
      · have hgone : tree'.fileAt (manifestTagPath repo.name (tmpName tag)) = none :=
          hrep.gone fun hsame => hpath (htmp.trans hsame)
        have hnone := hfree.resolve_left fun hsame => hpath (htmp.trans (by rw [hsame]))
        rw [htmp, hgone, hnone]
      · exact hrep.others _ hpath htmp
  manifests repo' d' := by
    rw [← h.manifests, hrep.others]
    · exact (tagPath_ne_digestPath _ _ _ _).symm
    · exact fun heq => absurd (List.cons.inj (List.cons.inj heq).2).1 (by decide)
  digests repo' tag' htag := by
    rcases (AList.mem_insert _).mp htag with heq | hold
    · rw [(Prod.mk.inj heq).1]
      exact hrep.kept _ hdir
    · exact hrep.kept _ (h.digests repo' tag' hold)
  dirs path hpath := by
    rcases hrep.dirs path hpath with hold | habove
    · exact h.dirs path hold
    · exact repo.no_colon_above (by decide) habove

-- Taking a file away.
theorem remove_digest (h : Represents maps tree) {repo : String} {d : Digest} {inode : Nat}
    (hfile : tree.node (manifestDigestPath repo d) = some (.file inode)) :
    Represents ⟨maps.tags, maps.manifests.erase (repo, d)⟩
      (tree.removeName (manifestDigestPath repo d) inode) where
  tags repo' tag := by
    rw [← h.tags, (Tree.removeName_frame hfile (tagPath_ne_digestPath _ _ _ _)).fileAt]
  manifests repo' d' := by
    by_cases heq : (repo', d') = (repo, d)
    · obtain ⟨rfl, rfl⟩ := Prod.mk.inj heq
      rw [AList.lookup_erase, Tree.fileAt, Tree.removeName_node hfile, if_pos rfl]
    · rw [AList.lookup_erase_ne heq, ← h.manifests, (Tree.removeName_frame hfile _).fileAt]
      rw [Ne, digestPath_inj]
      rintro ⟨rfl, rfl⟩
      exact heq rfl
  digests repo' tag htag := (Tree.removeName_dir hfile).mpr (h.digests repo' tag htag)
  dirs path hdir := h.dirs path ((Tree.removeName_dir hfile).mp hdir)

theorem remove_tag (h : Represents maps tree) {repo tag : String} {inode : Nat}
    (hfile : tree.node (manifestTagPath repo tag) = some (.file inode)) :
    Represents ⟨maps.tags.erase (repo, tag), maps.manifests⟩
      (tree.removeName (manifestTagPath repo tag) inode) where
  tags repo' tag' := by
    by_cases heq : (repo', tag') = (repo, tag)
    · obtain ⟨rfl, rfl⟩ := Prod.mk.inj heq
      rw [AList.lookup_erase, Tree.fileAt, Tree.removeName_node hfile, if_pos rfl]
      rfl
    · rw [AList.lookup_erase_ne heq, ← h.tags, (Tree.removeName_frame hfile _).fileAt]
      rw [Ne, tagPath_inj]
      rintro ⟨rfl, rfl⟩
      exact heq rfl
  manifests repo' d' := by
    rw [← h.manifests, (Tree.removeName_frame hfile (tagPath_ne_digestPath _ _ _ _).symm).fileAt]
  digests repo' tag' htag :=
    (Tree.removeName_dir hfile).mpr (h.digests repo' tag' (AList.mem_erase.mp htag).2)
  dirs path hdir := h.dirs path ((Tree.removeName_dir hfile).mp hdir)

theorem run_fromIo_of_ok {α : Type} {prog : FileM α} {value : α}
    (hrun : prog.run Tree.handle tree = (.ok value, tree')) :
    (Fallible.mapError fromIo prog).run Tree.handle tree = (.ok value, tree') := by
  rw [Fallible.run_mapError, hrun]
  rfl

section Answers

variable (h : Represents maps tree)

include h

theorem lookup_tag (repo tag : String) : maps.tags.lookup (repo, tag) = none ↔
    tree.fileAt (manifestTagPath repo tag) = none := by
  rw [h.tags, Option.map_eq_none_iff]

theorem manifestGet_digest (repo : String) {d : Digest}
    (hfree : ¬tree.Blocked (manifestDigestPath repo d)) :
    (Disk.manifestGet repo (.digest d)).run Tree.handle tree =
      (maps.manifestGet repo (.digest d), tree) := by
  rw [run_manifestGet_digest, Tree.read_clear (h.digest_not_dir repo d) hfree, h.manifests]
  simp only [MapStore.manifestGet]
  cases maps.manifests.lookup (repo, d) <;> rfl

theorem manifestGet_tag {repo tag : String} (hclear : Clear tree (manifestTagPath repo tag)) :
    (Disk.manifestGet repo (.tag tag)).run Tree.handle tree =
      (maps.manifestGet repo (.tag tag), tree) := by
  rw [run_manifestGet_tag, Tree.read_clear hclear.1 hclear.2, h.tags]
  simp only [MapStore.manifestGet]
  cases htag : maps.tags.lookup (repo, tag) with
  | none => rfl
  | some d =>
      have hmem : (repo, tag) ∈ maps.tags := AList.lookup_isSome.mp (htag ▸ rfl)
      have hfree : ¬tree.Blocked (manifestDigestPath repo d) := by
        rintro ⟨above, inode, habove, hne, hfile⟩
        have hdir := h.digests repo tag hmem
        rcases (List.suffix_cons_iff.mp habove).resolve_left hne with hsuffix
        by_cases heq : above = "digests" :: repoPath repo
        · rw [heq, hdir] at hfile
          cases hfile
        · rw [Tree.dir_above hdir hsuffix heq] at hfile
          cases hfile
      simp only [Option.map_some, Option.elim_some, Except.bind, fromUtf8_utf8, Except.mapError,
        tagDigest, trim_digest, fromStr_toString]
      rw [Tree.read_clear (h.digest_not_dir repo d) hfree, h.manifests]
      cases maps.manifests.lookup (repo, d) <;> rfl

theorem manifestDelete_digest {repo : String} {d : Digest}
    (hfree : ¬tree.Blocked (manifestDigestPath repo d)) :
    ∃ tree', (Disk.manifestDelete repo (.digest d)).run Tree.handle tree =
        ((maps.manifestDelete repo (.digest d)).1, tree') ∧
      Represents (maps.manifestDelete repo (.digest d)).2 tree' := by
  rw [Disk.manifestDelete, Fallible.run_mapError, FileM.run_call, Tree.handle, MapStore.manifestDelete]
  rcases Tree.file_or_none (h.digest_not_dir repo d) with ⟨inode, hfile⟩ | hnone
  · have hmem : (repo, d) ∈ maps.manifests := by
      rw [← AList.lookup_isSome, ← h.manifests, Tree.fileAt_of_file hfile]
      rfl
    rw [Tree.remove_file hfile, if_pos hmem]
    exact ⟨_, rfl, h.remove_digest hfile⟩
  · have hnotin : (repo, d) ∉ maps.manifests := by
      rw [← AList.lookup_eq_none, ← h.manifests, Tree.fileAt_of_none hnone]
    rw [Tree.remove_none hnone hfree, if_neg hnotin]
    exact ⟨_, rfl, h⟩

theorem manifestDelete_tag {repo tag : String} (hclear : Clear tree (manifestTagPath repo tag)) :
    ∃ tree', (Disk.manifestDelete repo (.tag tag)).run Tree.handle tree =
        ((maps.manifestDelete repo (.tag tag)).1, tree') ∧
      Represents (maps.manifestDelete repo (.tag tag)).2 tree' := by
  rw [Disk.manifestDelete, Fallible.run_mapError, FileM.run_call, Tree.handle, MapStore.manifestDelete]
  rcases Tree.file_or_none hclear.1 with ⟨inode, hfile⟩ | hnone
  · have hmem : (repo, tag) ∈ maps.tags := by
      by_contra hnotin
      have hempty := (h.lookup_tag repo tag).mp (AList.lookup_eq_none.mpr hnotin)
      rw [Tree.fileAt_of_file hfile] at hempty
      cases hempty
    rw [Tree.remove_file hfile, if_pos hmem]
    exact ⟨_, rfl, h.remove_tag hfile⟩
  · have hnotin : (repo, tag) ∉ maps.tags := by
      rw [← AList.lookup_eq_none, h.lookup_tag, Tree.fileAt_of_none hnone]
    rw [Tree.remove_none hnone hclear.2, if_neg hnotin]
    exact ⟨_, rfl, h⟩

-- The tags that are set are the files of the directory.
theorem mem_tags {repo tag : String} : (repo, tag) ∈ maps.tags ↔
    ∃ inode, tree.node (manifestTagPath repo tag) = some (.file inode) := by
  rw [← not_iff_not, ← AList.lookup_eq_none, h.lookup_tag, Option.eq_none_iff_forall_ne_some]
  constructor
  · rintro hnone ⟨inode, hfile⟩
    exact hnone _ (Tree.fileAt_of_file hfile)
  · intro hnofile bytes hbytes
    obtain ⟨inode, hfile, -⟩ := Tree.fileAt_eq_some.mp hbytes
    exact hnofile ⟨inode, hfile⟩

theorem tagsOf_entries {repo : String} {entries : List (String × Node)}
    (hentries : ∀ name node, (name, node) ∈ entries ↔
      tree.node (manifestTagPath repo name) = some node)
    (htmp : ∀ tag, isTmp tag = true → tree.fileAt (manifestTagPath repo tag) = none) :
    tagsOf entries = maps.listTags repo := by
  apply BTreeSet.ext
  intro tag
  rw [maps.mem_listTags, h.mem_tags, tagsOf, BTreeSet.mem_extend, List.mem_filterMap]
  constructor
  · rintro (⟨⟨name, node⟩, hentry, heq⟩ | hempty)
    · cases node with
      | dir => cases heq
      | file inode =>
          simp only at heq
          split at heq
          · cases heq
          · obtain rfl := Option.some.inj heq
            exact ⟨inode, (hentries _ _).mp hentry⟩
    · exact absurd hempty (BTreeSet.not_mem_empty tag)
  · rintro ⟨inode, hfile⟩
    refine .inl ⟨(tag, .file inode), (hentries tag _).mpr hfile, ?_⟩
    have hname : isTmp tag = false := by
      by_contra hne
      have hnone := htmp tag (Bool.eq_true_of_not_eq_false hne)
      rw [Tree.fileAt_of_file hfile] at hnone
      cases hnone
    simp only [hname, Bool.false_eq_true, if_false]

theorem listTags_eq {repo : String} (hlist : Listable tree repo) :
    (Disk.listTags repo).run Tree.handle tree = (.ok (maps.listTags repo), tree) := by
  obtain ⟨hfree, htmp⟩ := hlist
  have hclear : ∀ above inode, above <:+ "tags" :: repoPath repo →
      tree.node above ≠ some (.file inode) := by
    intro above inode habove hfile
    exact hfree (Tree.blocked_cons.mpr ⟨above, inode, habove, hfile⟩)
  rw [Disk.listTags, Fallible.run_bind, Fallible.run_mapError, Fallible.run_attempt, FileM.run_call,
    Tree.handle]
  simp only
  cases hnode : tree.node ("tags" :: repoPath repo) with
  | none =>
      have hempty : maps.listTags repo = BTreeSet.empty := by
        apply BTreeSet.ext
        intro tag
        rw [maps.mem_listTags, h.mem_tags]
        constructor
        · rintro ⟨inode, hfile⟩
          rw [Tree.dir_above hfile (List.suffix_cons _ _) (List.ne_cons_self)] at hnode
          cases hnode
        · exact fun hmem => absurd hmem (BTreeSet.not_mem_empty tag)
      have hparent : ¬tree.Blocked ("tags" :: repoPath repo) :=
        by rintro ⟨above, inode, habove, _, hfile⟩; exact hclear above inode habove hfile
      rw [hempty, Tree.readDir, Tree.find_of_none hnode hparent]
      rfl
  | some node =>
      cases node with
      | file inode => exact absurd hnode (hclear _ inode (List.suffix_refl _))
      | dir =>
          obtain ⟨entries, hread, hentries⟩ := Tree.mem_readDir hnode
          rw [hread, ← h.tagsOf_entries hentries htmp]
          rfl

-- The manifest itself is written first.
theorem put_digest {repo : Repo} {d : Digest} (content : Bytes)
    (hfree : ¬tree.Blocked (manifestDigestPath repo.name d)) :
    ∃ tree', (atomicWrite (manifestDigestPath repo.name d) content).run Tree.handle tree =
        (.ok (), tree') ∧
      Replaced (withExtension (manifestDigestPath repo.name d) "tmp")
        (manifestDigestPath repo.name d) content tree tree' :=
  run_replaceFile content (h.digestTmp_not_dir repo.name d) (h.digest_not_dir repo.name d) hfree

variable [Sha2]

theorem manifestPut_digest {repo : Repo} (d : Digest) {content : Bytes}
    (hfree : ¬tree.Blocked (manifestDigestPath repo.name (hashContent .sha256 content))) :
    ∃ tree', (Disk.manifestPut repo.name (.digest d) content).run Tree.handle tree =
        ((maps.manifestPut repo.name (.digest d) content).1, tree') ∧
      Represents (maps.manifestPut repo.name (.digest d) content).2 tree' := by
  obtain ⟨tree', hrun, hrep⟩ := h.put_digest content hfree
  refine ⟨tree', ?_, h.write_digest hrep⟩
  rw [Disk.manifestPut, Fallible.run_bind_of_ok (run_fromIo_of_ok hrun)]
  rfl

theorem manifestPut_tag {repo : Repo} {tag : String} {content : Bytes}
    (hfree : ¬tree.Blocked (manifestDigestPath repo.name (hashContent .sha256 content)))
    (hwritable : TagWritable tree repo.name tag) :
    ∃ tree', (Disk.manifestPut repo.name (.tag tag) content).run Tree.handle tree =
        ((maps.manifestPut repo.name (.tag tag) content).1, tree') ∧
      Represents (maps.manifestPut repo.name (.tag tag) content).2 tree' := by
  obtain ⟨between, hfirst, hrep⟩ := h.put_digest content hfree
  obtain ⟨⟨hpath, htmp, hclear⟩, hspare⟩ := hwritable
  have hnodir : ∀ name, tree.node (manifestTagPath repo.name name) ≠ some .dir →
      between.node (manifestTagPath repo.name name) ≠ some .dir := by
    intro name hnot hdir
    rcases hrep.dirs _ hdir with hold | habove
    · exact hnot hold
    · exact Nat.lt_irrefl _ habove.length_le
  have hother : ∀ path kind, path <:+ kind :: "tags" :: repoPath repo.name →
      between.fileAt path = tree.fileAt path := by
    intro path kind habove
    apply hrep.others
    · rintro rfl
      have heq := habove.eq_of_length rfl
      exact absurd (List.cons.inj (List.cons.inj heq).2).1 (by decide)
    · rintro rfl
      have heq := habove.eq_of_length rfl
      exact absurd (List.cons.inj (List.cons.inj heq).2).1 (by decide)
  have hstill : ¬between.Blocked (manifestTagPath repo.name tag) := by
    rintro ⟨above, inode, habove, hne, hfile⟩
    have hold := hother above tag habove
    rw [Tree.fileAt_of_file hfile] at hold
    obtain ⟨inode', hfile', -⟩ := Tree.fileAt_eq_some.mp hold.symm
    exact hclear ⟨above, inode', habove, hne, hfile'⟩
  have hdir : between.node ("digests" :: repoPath repo.name) = some .dir := by
    obtain ⟨inode, hfile, -⟩ := Tree.fileAt_eq_some.mp hrep.content
    exact Tree.dir_above hfile (List.suffix_cons _ _) List.ne_cons_self
  obtain ⟨tree', hsecond, hrep'⟩ := run_replaceFile (utf8 (hashContent .sha256 content).toString)
    (hnodir (tmpName tag) htmp) (hnodir tag hpath) hstill
  refine ⟨tree', ?_, (h.write_digest hrep).write_tag hdir ?_ hrep'⟩
  · have hwrite : (atomicWrite (manifestTagPath repo.name tag)
        (utf8 (hashContent .sha256 content).toString)).run Tree.handle between = (.ok (), tree') :=
      hsecond
    rw [Disk.manifestPut, Fallible.run_bind_of_ok (run_fromIo_of_ok hfirst),
      Fallible.run_bind_of_ok (run_fromIo_of_ok hwrite)]
    rfl
  · rcases hspare with hsame | hnone
    · exact .inl hsame
    · exact .inr ((hother _ (tmpName tag) (List.suffix_refl _)).trans hnone)

-- One request that fits is answered as by the maps, and the files follow them.
theorem serve (request : Request) (hfits : request.Fits tree) :
    (request.serve tree).1 = (request.lookUp maps).1 ∧
      Represents (request.lookUp maps).2 (request.serve tree).2 := by
  cases request with
  | manifestPut repo key content =>
      cases key with
      | tag tag isName =>
          obtain ⟨tree', hrun, hnext⟩ := h.manifestPut_tag hfits.1 hfits.2
          simp only [Request.serve, Request.lookUp, Key.reference, hrun]
          exact ⟨trivial, hnext⟩
      | digest d =>
          obtain ⟨tree', hrun, hnext⟩ := h.manifestPut_digest d hfits
          simp only [Request.serve, Request.lookUp, Key.reference, hrun]
          exact ⟨trivial, hnext⟩
  | manifestGet repo key =>
      cases key with
      | tag tag isName =>
          simp only [Request.serve, Request.lookUp, Key.reference, h.manifestGet_tag hfits]
          exact ⟨trivial, h⟩
      | digest d =>
          simp only [Request.serve, Request.lookUp, Key.reference, h.manifestGet_digest _ hfits]
          exact ⟨trivial, h⟩
  | manifestDelete repo key =>
      cases key with
      | tag tag isName =>
          obtain ⟨tree', hrun, hnext⟩ := h.manifestDelete_tag hfits
          simp only [Request.serve, Request.lookUp, Key.reference, hrun]
          exact ⟨trivial, hnext⟩
      | digest d =>
          obtain ⟨tree', hrun, hnext⟩ := h.manifestDelete_digest hfits
          simp only [Request.serve, Request.lookUp, Key.reference, hrun]
          exact ⟨trivial, hnext⟩
  | listTags repo =>
      simp only [Request.serve, Request.lookUp, h.listTags_eq hfits]
      exact ⟨trivial, h⟩

theorem serveAll {requests : List Request} (hfitting : Fitting requests tree) :
    Disk.serveAll requests tree = lookUpAll requests maps := by
  induction requests generalizing maps tree with
  | nil => rfl
  | cons request rest ih =>
      obtain ⟨hfits, hrest⟩ := hfitting
      obtain ⟨hanswer, hnext⟩ := h.serve request hfits
      rw [Disk.serveAll, lookUpAll, hanswer, ih hnext hrest]

end Answers

theorem new : Represents .empty new where
  tags repo tag := by
    rw [no_file_new]
    rfl
  manifests repo d := no_file_new _
  digests repo tag h := absurd h (AList.notMem_empty _)
  dirs path hdir := by
    have hroot : ∀ path, Tree.new.node path = some .dir → path = [] := by
      intro path hpath
      by_contra hne
      rw [Files.Tree.node, Files.Tree.new, AList.lookup_insert_ne hne] at hpath
      cases hpath
    have habove : path = [] ∨ path <:+ ["blobs"] ∨ path <:+ ["manifests"] ∨ path <:+ ["uploads"] := by
      rcases Tree.makeDirs_node ["uploads"] path with heq | ⟨-, -, hlast⟩
      · rcases Tree.makeDirs_node ["manifests"] path with heq' | ⟨-, -, hmiddle⟩
        · rcases Tree.makeDirs_node ["blobs"] path with heq'' | ⟨-, -, hfirst⟩
          · exact .inl (hroot path (heq''.symm.trans (heq'.symm.trans (heq.symm.trans hdir))))
          · exact .inr (.inl hfirst)
        · exact .inr (.inr (.inl hmiddle))
      · exact .inr (.inr (.inr hlast))
    intro name hname
    rcases habove with rfl | hsuffix | hsuffix | hsuffix
    · cases hname
    all_goals
      rw [List.mem_singleton.mp (hsuffix.subset hname)]
      decide

end Represents

-- As long as every request fits the files it meets, the storage answers a
-- sequence of requests as the two maps do.
theorem answers_like_maps [Sha2] (requests : List Request) (h : Fitting requests new) :
    serveAll requests new = lookUpAll requests .empty := Represents.new.serveAll h

section

attribute [local instance] Sample.sha2

def repoA : Repo := ⟨"a", by decide⟩

def repoATags : Repo := ⟨"a/tags", by decide⟩

def v1 : Key := .tag "v1" (by decide)

def v1Tmp : Key := .tag "v1.tmp" (by decide)

-- A tag stands where another repository has its directory of tags.
def blocked : List Request :=
  [.manifestPut repoA (.tag "tags" (by decide)) Sample.braces,
    .manifestPut repoATags v1 Sample.braces]

-- A tag stands where another has its temporary file.
def clobbered : List Request :=
  [.manifestPut repoA v1Tmp Sample.braces, .manifestPut repoA v1 Sample.braces,
    .manifestGet repoA v1Tmp]

-- A tag looks like a temporary file.
def unlisted : List Request := [.manifestPut repoA v1Tmp Sample.braces, .listTags repoA]

-- Two repositories, one below the other.
def ordinary : List Request :=
  [.manifestPut repoA v1 Sample.braces, .manifestPut repoATags v1 Sample.brackets,
    .listTags repoATags, .manifestDelete repoA v1, .manifestGet repoATags v1]

theorem ordinary_like_maps : serveAll ordinary new = lookUpAll ordinary .empty :=
  answers_like_maps ordinary (by decide +kernel)

theorem answers_unlike_maps :
    ¬(∀ requests, serveAll requests new = lookUpAll requests .empty) ∧
      ∀ requests ∈ [blocked, clobbered, unlisted],
        serveAll requests new ≠ lookUpAll requests .empty := by
  have hall : ∀ requests ∈ [blocked, clobbered, unlisted],
      serveAll requests new ≠ lookUpAll requests .empty := by decide +kernel
  exact ⟨fun h => hall blocked List.mem_cons_self (h blocked), hall⟩

end

end RspaceRegistry.Disk
