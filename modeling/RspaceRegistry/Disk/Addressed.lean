import RspaceRegistry.Disk.Apart
import RspaceRegistry.Disk.Listing

namespace RspaceRegistry.Disk

open Calls Files Ordered

-- Whatever happened to a storage, what it has under a digest hashes to it.

section Shelves

variable [Sha2]

def Shelf.Sound (s : Shelf) : Prop :=
  ∀ d bytes, s.blobs d = some bytes → hashContent d.algorithm bytes = d

-- Content comes under a digest only after it was hashed.
theorem Shelf.Sound.serve {s : Shelf} (h : s.Sound) (op : StorageOp) : (s.serve op).2.Sound := by
  have hput : ∀ {d : Digest} {bytes : Bytes}, hashContent d.algorithm bytes = d →
      (s.put d bytes).Sound := by
    intro d bytes hhash d' bytes' hblob
    rw [Shelf.put_blobs] at hblob
    split at hblob
    · rename_i heq
      rw [heq, ← Option.some.inj hblob, hhash]
    · exact h d' bytes' hblob
  cases op with
  | blobWrite _ d content =>
      simp only [Shelf.serve]
      split
      · rename_i hhash
        exact hput hhash
      · exact h
  | blobDelete _ d =>
      simp only [Shelf.serve]
      split
      · intro d' bytes' hblob
        rw [Shelf.drop_blobs] at hblob
        split at hblob
        · cases hblob
        · exact h d' bytes' hblob
      · exact h
  | uploadFinalize _ id d =>
      simp only [Shelf.serve]
      split
      · split
        · rename_i hhash
          exact hput hhash
        · exact h
      · exact h
  | uploadAppend _ id chunk =>
      simp only [Shelf.serve]
      split <;> exact h
  | uploadCancel _ id =>
      simp only [Shelf.serve]
      split <;> exact h
  | blobExists _ _ | blobRead _ _ | uploadCreate _ _ | uploadStatus _ _ | manifestGet _ _
  | manifestPut _ _ _ | manifestDelete _ _ | listRepos | listTags _ | listManifestDigests _ =>
      exact h

end Shelves

section Manifests

variable {tree : Tree} {repo : String} {d : Digest}

theorem manifest_not_tmp (name : String) (parent : Path) :
    manifestDigestPath repo d ≠ tmpPath (name :: parent) := by
  intro h
  rw [tmpPath_cons] at h
  exact tmpName_ne (isTmp_digest d) (List.cons.inj h).1.symm

theorem manifest_not_blob (d' : Digest) : manifestDigestPath repo d ≠ blobPath d' ∧
    manifestDigestPath repo d ≠ tmpPath (blobPath d') := by
  have hroot : ["manifests"] <:+ manifestDigestPath repo d := below_manifests [_, _] repo
  refine ⟨fun heq => ?_, manifest_not_tmp _ _⟩
  rw [heq] at hroot
  exact absurd (last_unique hroot (blobs_suffix d')) (by decide)

theorem manifest_not_upload (id : String) : manifestDigestPath repo d ≠ uploadPath id := by
  intro heq
  have hroot : ["manifests"] <:+ manifestDigestPath repo d := below_manifests [_, _] repo
  rw [heq] at hroot
  exact absurd (last_unique hroot (uploads_suffix id)) (by decide)

theorem manifest_not_reference {repo' : String} {reference : Reference} :
    ¬PutTouches repo' reference (manifestDigestPath repo d) := by
  cases reference with
  | digest d' => exact id
  | tag tag =>
      simp only [PutTouches]
      split
      · exact manifest_not_tmp "tags" (repoPath repo')
      · rintro (htag | htmp)
        · exact tagPath_ne_digestPath repo' repo tag d htag.symm
        · exact manifest_not_tmp _ _ htmp

variable (tree)

-- A deleted file is gone, or nothing was there to delete.
theorem remove_content (path other : Path) :
    (tree.remove path).2.fileAt other = tree.fileAt other ∨
      (tree.remove path).2.fileAt other = none := by
  rcases tree.remove_cases path with hsame | ⟨inode, hfile, hremove⟩
  · rw [hsame]
    exact .inl rfl
  · rw [hremove]
    by_cases heq : other = path
    · rw [heq]
      exact .inr (Tree.fileAt_of_none (by rw [Tree.removeName_node hfile, if_pos rfl]))
    · exact .inl (Tree.removeName_frame hfile heq).fileAt

variable [Sha2]

-- The two halves of a push, at the place of its manifest.
theorem putManifest_content (repo : String) (content : Bytes) :
    let path := manifestDigestPath repo (hashContent .sha256 content)
    let after := ((putManifest repo content).run Tree.handle tree).2
    after.fileAt path = tree.fileAt path ∨ after.fileAt path = some content := by
  intro path after
  have hne : path ≠ tmpPath path := manifest_not_tmp _ _
  have hafter : after = ((replaceFile (tmpPath path) path content).run Tree.handle tree).2 := by
    show ((putManifest repo content).run Tree.handle tree).2 = _
    rw [putManifest, Fallible.run_mapError]
    rfl
  rw [hafter]
  exact Tree.replaceFile_content hne content

omit [Sha2] in
theorem putReference_content (repo : String) (reference : Reference) (digest : Digest) :
    ((putReference repo reference digest).run Tree.handle tree).2.fileAt
      (manifestDigestPath repo' d) = tree.fileAt (manifestDigestPath repo' d) := by
  have hfrozen : Tree.Frozen (· = manifestDigestPath repo' d) (fun _ => False) tree
      ((putReference repo reference digest).run Tree.handle tree).2 := by
    apply frozen_reference
    · rintro path htouch rfl
      exact manifest_not_reference htouch
    · exact fun _ _ => id
  exact (hfrozen.kept _ rfl).fileAt

theorem put_content (repo' : String) (d : Digest) (repo : String) (reference : Reference)
    (content : Bytes) :
    let after := ((StorageOp.body tree (.manifestPut repo reference content)).run Tree.handle tree).2
    after.fileAt (manifestDigestPath repo' d) = tree.fileAt (manifestDigestPath repo' d) ∨
      after.fileAt (manifestDigestPath repo' d) = some content ∧
        hashContent .sha256 content = d := by
  intro after
  by_cases hstored : manifestDigestPath repo' d =
      manifestDigestPath repo (hashContent .sha256 content)
  · have hd : hashContent .sha256 content = d :=
      toString_injective (List.cons.inj hstored).1.symm
    have hfirst := putManifest_content tree repo content
    have hafter : after.fileAt (manifestDigestPath repo' d) =
        ((putManifest repo content).run Tree.handle tree).2.fileAt (manifestDigestPath repo' d) := by
      show ((StorageOp.body tree (.manifestPut repo reference content)).run
        Tree.handle tree).2.fileAt _ = _
      rw [body_manifestPut]
      rcases hrun : (putManifest repo content).run Tree.handle tree with ⟨result, mid⟩
      cases result with
      | error err => rw [Fallible.run_bind_of_error hrun]
      | ok _ => rw [Fallible.run_bind_of_ok hrun, putReference_content]
    rw [hafter, hstored]
    exact hfirst.imp_right fun hcontent => ⟨hcontent, hd⟩
  · left
    have hfrozen : Tree.Frozen (· = manifestDigestPath repo' d) (fun _ => False) tree after := by
      apply frozen_put
      · rintro path (htouch | htouch | htouch) heq
        · exact hstored (heq.symm.trans htouch)
        · exact manifest_not_tmp _ _ (heq.symm.trans htouch)
        · rw [heq] at htouch
          exact manifest_not_reference htouch
      · exact fun _ _ => id
    exact (hfrozen.kept _ rfl).fileAt

theorem delete_content (repo : String) (reference : Reference) :
    let after := ((StorageOp.body tree (.manifestDelete repo reference)).run Tree.handle tree).2
    after = tree ∨ ∃ path, (StorageOp.manifestDelete repo reference).Touches path ∧
      after = (tree.remove path).2 := by
  intro after
  by_cases hdots : reference = .tag "." ∨ reference = .tag ".."
  · left
    show ((StorageOp.body tree (.manifestDelete repo reference)).run Tree.handle tree).2 = tree
    simp only [StorageOp.body, if_pos hdots]
    exact run_looks (looks_atDots repo) tree
  · right
    show ∃ path, (StorageOp.manifestDelete repo reference).Touches path ∧
      ((StorageOp.body tree (.manifestDelete repo reference)).run Tree.handle tree).2 =
        (tree.remove path).2
    simp only [StorageOp.body, if_neg hdots]
    cases reference <;> exact ⟨_, rfl, rfl⟩

end Manifests

-- The order of the files, and content that hashes to the names of its files.
structure ManifestsSound [Sha2] (tree : Tree) : Prop extends Laid tree where
  manifests_hash : ∀ repo d bytes, tree.fileAt (manifestDigestPath repo d) = some bytes →
    hashContent .sha256 bytes = d

structure Sound [Sha2] (tree : Tree) : Prop extends ManifestsSound tree where
  blobs_hash : (shelf tree).Sound

-- A call, and what the file system makes of a rename out of the sessions meanwhile.
structure StoreCall where
  op : StoreOp
  apart : Option IoError

def runCalls [Sha2] (calls : List StoreCall) (tree : Tree) : Tree :=
  calls.foldl (fun tree call => (fsStore call.apart call.op tree).2) tree

section Calls

variable [Sha2] {tree : Tree}

theorem manifests_request (apart : Option IoError) (h : ManifestsSound tree) (op : StorageOp)
    {repo : String}
    {d : Digest} {bytes : Bytes}
    (hfile : (fsStorageOn apart op tree).2.fileAt (manifestDigestPath repo d) = some bytes) :
    hashContent .sha256 bytes = d := by
  have hc := changes_call apart h.toLaid op
  have hother : ¬op.Touches (manifestDigestPath repo d) → hashContent .sha256 bytes = d := by
    intro htouch
    rw [hc.others _ htouch] at hfile
    exact h.manifests_hash repo d bytes hfile
  cases op with
  | blobWrite _ d' content =>
      exact hother (not_or.mpr (manifest_not_blob d'))
  | blobDelete _ d' => exact hother (manifest_not_blob d').1
  | uploadFinalize _ id d' =>
      exact hother (not_or.mpr ⟨(manifest_not_blob d').1, manifest_not_upload id⟩)
  | uploadCreate _ id | uploadAppend _ id _ | uploadCancel _ id =>
      exact hother (manifest_not_upload id)
  | manifestPut repo' reference content =>
      rcases put_content tree repo d repo' reference content with
        hsame | ⟨hcontent, hhash⟩
      · exact h.manifests_hash repo d bytes (hsame.symm.trans hfile)
      · rw [← Option.some.inj (hcontent.symm.trans hfile), hhash]
  | manifestDelete repo' reference =>
      rcases delete_content tree repo' reference with hsame | ⟨path, -, hremoved⟩
      · have hafter : (fsStorageOn apart (.manifestDelete repo' reference) tree).2 = tree := hsame
        rw [hafter] at hfile
        exact h.manifests_hash repo d bytes hfile
      · have hafter : (fsStorageOn apart (.manifestDelete repo' reference) tree).2 =
            (tree.remove path).2 := hremoved
        rw [hafter] at hfile
        rcases remove_content tree path (manifestDigestPath repo d) with hkept | hgone
        · exact h.manifests_hash repo d bytes (hkept.symm.trans hfile)
        · rw [hgone] at hfile
          cases hfile
  | blobExists _ _ | blobRead _ _ | uploadStatus _ _ | manifestGet _ _ | listRepos | listTags _
  | listManifestDigests _ => exact hother id

theorem ManifestsSound.request (h : ManifestsSound tree) (apart : Option IoError) (op : StorageOp) :
    ManifestsSound (fsStorageOn apart op tree).2 :=
  ⟨laid_call apart h.toLaid op, fun _ _ _ hfile => manifests_request apart h op hfile⟩

theorem Sound.call (h : Sound tree) (call : StoreCall) :
    Sound (fsStore call.apart call.op tree).2 := by
  obtain ⟨op, apart⟩ := call
  cases op with
  | request op =>
      refine ⟨h.toManifestsSound.request apart op, ?_⟩
      show (shelf (fsStorageOn apart op tree).2).Sound
      rw [(serves_call apart h.toLaid op).1]
      exact h.blobs_hash.serve op
  | blobSize repo d =>
      show Sound ((blobSize d).run Tree.handle tree).2
      rw [run_blobSize h.toLaid]
      exact h
  | listAllBlobs =>
      obtain ⟨listing, hrun, -⟩ := run_listAllBlobs h.toLaid
      show Sound (listAllBlobs.run Tree.handle tree).2
      rw [hrun]
      exact h

theorem Sound.calls (h : Sound tree) (calls : List StoreCall) : Sound (runCalls calls tree) := by
  induction calls generalizing tree with
  | nil => exact h
  | cons call rest ih => exact ih (h.call call)

theorem sound_new : Sound new where
  toLaid := laid_new
  blobs_hash d bytes hblob := by
    rw [show (shelf new).blobs d = none from no_file_new (blobPath d)] at hblob
    cases hblob
  manifests_hash repo d bytes hfile := by
    rw [no_file_new] at hfile
    cases hfile

omit [Sha2] in
theorem mem_digestsOf {entries : List (String × Node)} {d : Digest} :
    d ∈ digestsOf entries ↔ ∃ inode, (d.toString, Node.file inode) ∈ entries := by
  simp only [digestsOf, BTreeSet.mem_extend, BTreeSet.not_mem_empty, or_false,
    List.mem_filterMap]
  constructor
  · rintro ⟨⟨name, node⟩, hmem, hsome⟩
    cases node with
    | dir => cases hsome
    | file inode =>
        simp only at hsome
        split at hsome
        · cases hsome
        · cases hparsed : Digest.fromStr name with
          | error err =>
              rw [hparsed] at hsome
              cases hsome
          | ok found =>
              rw [hparsed] at hsome
              obtain rfl := Option.some.inj hsome
              exact ⟨inode, by rwa [toString_of_fromStr hparsed]⟩
  · rintro ⟨inode, hmem⟩
    refine ⟨_, hmem, ?_⟩
    simp only [isTmp_digest, Bool.false_eq_true, if_false, fromStr_toString]
    rfl

theorem read_manifest (repo : String) (d : Digest) (apart : Option IoError) :
    (fsStore apart (.request (.manifestGet repo (.digest d))) tree).1 =
      (tree.read (manifestDigestPath repo d)).mapError ioToStorage := by
  show ((StorageOp.body tree (.manifestGet repo (.digest d))).run Tree.handle tree).1 = _
  have hbody : StorageOp.body tree (.manifestGet repo (.digest d)) =
      manifestGet repo (.digest d) := by
    simp only [StorageOp.body, reduceCtorEq, or_self, if_false]
  rw [hbody, run_manifestGet_digest]

theorem ManifestsSound.read_manifest_ok (h : ManifestsSound tree) {repo : String} {d : Digest}
    {bytes : Bytes}
    {apart : Option IoError}
    (hget : (fsStore apart (.request (.manifestGet repo (.digest d))) tree).1 = .ok bytes) :
    hashContent .sha256 bytes = d := by
  rw [read_manifest] at hget
  cases hread : tree.read (manifestDigestPath repo d) with
  | error err =>
      rw [hread] at hget
      cases hget
  | ok found =>
      rw [hread] at hget
      obtain rfl : found = bytes := Except.ok.inj hget
      exact h.manifests_hash repo d found (Tree.read_ok.mp hread)

-- A listed manifest is there to be read.
theorem listed_manifest {repo : String} {apart : Option IoError} {listing : BTreeSet Digest}
    {d : Digest}
    (hlist : (fsStore apart (.request (.listManifestDigests repo)) tree).1 = .ok listing)
    (hd : d ∈ listing) : ∃ bytes,
      (fsStore apart (.request (.manifestGet repo (.digest d))) tree).1 = .ok bytes := by
  have hrun : (fsStore apart (.request (.listManifestDigests repo)) tree).1 = _ :=
    congrArg Prod.fst (run_listManifestDigests repo tree)
  rw [hrun] at hlist
  simp only at hlist
  split at hlist
  · rename_i entries hread
    obtain rfl := Except.ok.inj hlist
    have hdir : tree.node ("digests" :: repoPath repo) = some .dir := by
      by_contra hnot
      rw [Tree.readDir_error hnot] at hread
      cases hread
    obtain ⟨entries', hread', hmem⟩ := Tree.mem_readDir hdir
    obtain rfl : entries = entries' := Except.ok.inj (hread.symm.trans hread')
    obtain ⟨inode, hentry⟩ := mem_digestsOf.mp hd
    refine ⟨tree.contents inode, ?_⟩
    rw [read_manifest, manifestDigestPath, Tree.read_file ((hmem _ _).mp hentry)]
    rfl
  · obtain rfl := Except.ok.inj hlist
    exact absurd hd (BTreeSet.not_mem_empty d)
  · cases hlist

end Calls

end RspaceRegistry.Disk
