import RspaceRegistry.Contents
import RspaceRegistry.Disk.Effects
import RspaceRegistry.Disk.Blobs

namespace RspaceRegistry.Disk

open Calls Files

-- What the storage is for on the side of the blobs: content under digests, and
-- sessions that collect it.
structure Shelf where
  blobs : Digest → Option Bytes
  sessions : String → Option Bytes

namespace Shelf

variable (s : Shelf)

def put (d : Digest) (content : Bytes) : Shelf :=
  { s with blobs := Function.update s.blobs d (some content) }

def drop (d : Digest) : Shelf := { s with blobs := Function.update s.blobs d none }

def keep (id : String) (bytes : Bytes) : Shelf :=
  { s with sessions := Function.update s.sessions id (some bytes) }

def close (id : String) : Shelf := { s with sessions := Function.update s.sessions id none }

section Updates

variable (d d' : Digest) (id id' : String) (bytes : Bytes)

@[simp] theorem put_blobs : (s.put d bytes).blobs d' = if d' = d then some bytes else s.blobs d' :=
  Function.update_apply s.blobs d (some bytes) d'

@[simp] theorem put_sessions : (s.put d bytes).sessions = s.sessions := rfl

@[simp] theorem drop_blobs : (s.drop d).blobs d' = if d' = d then none else s.blobs d' :=
  Function.update_apply s.blobs d none d'

@[simp] theorem drop_sessions : (s.drop d).sessions = s.sessions := rfl

@[simp] theorem keep_blobs : (s.keep id bytes).blobs = s.blobs := rfl

@[simp] theorem keep_sessions :
    (s.keep id bytes).sessions id' = if id' = id then some bytes else s.sessions id' :=
  Function.update_apply s.sessions id (some bytes) id'

@[simp] theorem close_blobs : (s.close id).blobs = s.blobs := rfl

@[simp] theorem close_sessions :
    (s.close id).sessions id' = if id' = id then none else s.sessions id' :=
  Function.update_apply s.sessions id none id'

end Updates

-- The answer to a call on a blob or a session, and what the shelf is afterwards.
-- The other calls do not concern it.
def serve [Sha2] : (op : StorageOp) → Option op.Ans × Shelf
  | .blobExists _ d => (some (.ok (s.blobs d).isSome), s)
  | .blobRead _ d => (some (orNotFound (s.blobs d)), s)
  | .blobWrite _ d content =>
      if hashContent d.algorithm content = d then (some (.ok ()), s.put d content)
      else (some (.error (.digestMismatch d (hashContent d.algorithm content))), s)
  | .blobDelete _ d =>
      match s.blobs d with
      | some _ => (some (.ok ()), s.drop d)
      | none => (some (.error .notFound), s)
  | .uploadCreate _ id => (some (.ok ⟨id, 0⟩), s.keep id [])
  | .uploadStatus _ id =>
      (some ((orNotFound (s.sessions id)).map fun bytes => ⟨id, bytes.length⟩), s)
  | .uploadAppend _ id chunk =>
      match s.sessions id with
      | some bytes => (some (.ok ⟨id, (bytes ++ chunk).length⟩), s.keep id (bytes ++ chunk))
      | none => (some (.error .notFound), s)
  | .uploadFinalize _ id d =>
      match s.sessions id with
      | some bytes =>
          if hashContent d.algorithm bytes = d then (some (.ok ()), (s.put d bytes).close id)
          else (some (.error (.digestMismatch d (hashContent d.algorithm bytes))), s)
      | none => (some (.error .notFound), s)
  | .uploadCancel _ id =>
      match s.sessions id with
      | some _ => (some (.ok ()), s.close id)
      | none => (some (.error .notFound), s)
  | _ => (none, s)

end Shelf

def shelf (tree : Tree) : Shelf :=
  ⟨fun d => tree.fileAt (blobPath d), fun id => tree.fileAt (uploadPath id)⟩

-- The order below `blobs` and `uploads` that the storage keeps.
structure Laid (tree : Tree) : Prop where
  uploads : tree.node ["uploads"] = some .dir
  blobs : tree.node ["blobs"] = some .dir
  sessions : ∀ id, tree.node (uploadPath id) ≠ some .dir
  files : ∀ path, ["blobs"] <:+ path → (tree.fileAt path).isSome →
    ∃ d, path = blobPath d ∨ path = tmpPath (blobPath d)
  dirs : ∀ path, ["blobs"] <:+ path → tree.node path = some .dir → path.length ≤ 3

section Paths

theorem blobs_suffix (d : Digest) : ["blobs"] <:+ blobPath d := List.suffix_append [_, _, _] ["blobs"]

theorem uploads_suffix (id : String) : ["uploads"] <:+ uploadPath id :=
  List.suffix_append [_] ["uploads"]

theorem last_of_suffix {last : String} {path above : Path} (hpath : [last] <:+ path)
    (habove : above <:+ path) : above = [] ∨ [last] <:+ above := by
  rcases Nat.eq_zero_or_pos above.length with hlen | hlen
  · exact .inl (List.length_eq_zero_iff.mp hlen)
  · exact .inr (List.suffix_of_suffix_length_le hpath habove hlen)

theorem last_unique {last last' : String} {path : Path} (h : [last] <:+ path)
    (h' : [last'] <:+ path) : last = last' := by
  have heq := (List.suffix_of_suffix_length_le h h' (Nat.le_refl _)).eq_of_length rfl
  exact (List.cons.inj heq).1

theorem uploadPath_ne_blobPath (id : String) (d : Digest) : uploadPath id ≠ blobPath d := by
  simp [uploadPath, blobPath]

theorem uploadPath_ne_tmp (id : String) (d : Digest) : uploadPath id ≠ tmpPath (blobPath d) := by
  simp [uploadPath, blobPath, tmpPath, withExtension]

theorem blobPath_ne_tmp (d d' : Digest) : blobPath d ≠ tmpPath (blobPath d') := by
  intro h
  exact tmpName_ne (isTmp_hex d) (List.cons.inj h).1.symm

theorem manifests_not_last {last : String} (hlast : last ≠ "manifests") (repo : String)
    (front : Path) {path : Path} (h : path <:+ front ++ repoPath repo) : ¬[last] <:+ path := by
  intro hpath
  have hroot : ["manifests"] <:+ front ++ repoPath repo :=
    (List.suffix_append _ _).trans (List.suffix_append front _)
  exact hlast (last_unique (hpath.trans h) hroot)

end Paths

namespace Laid

variable {tree tree' : Tree}

theorem not_dir (h : Laid tree) {path : Path} (hpath : ["blobs"] <:+ path) (hlen : path.length = 4) :
    tree.node path ≠ some .dir := by
  intro hdir
  have hle := h.dirs path hpath hdir
  omega

theorem blob_not_dir (h : Laid tree) (d : Digest) : tree.node (blobPath d) ≠ some .dir :=
  h.not_dir (blobs_suffix d) rfl

theorem tmp_not_dir (h : Laid tree) (d : Digest) : tree.node (tmpPath (blobPath d)) ≠ some .dir :=
  h.not_dir (List.suffix_append [_, _, _] ["blobs"]) rfl

theorem no_file (h : Laid tree) {path : Path} (hpath : ["blobs"] <:+ path) (hlen : path.length ≤ 3)
    (inode : Nat) : tree.node path ≠ some (.file inode) := by
  intro hfile
  obtain ⟨d, rfl | rfl⟩ := h.files path hpath (by rw [Tree.fileAt_of_file hfile]; rfl)
  · exact absurd hlen (by simp [blobPath])
  · exact absurd hlen (by simp [blobPath, tmpPath, withExtension])

theorem clear (h : Laid tree) (d : Digest) (above : Path) (inode : Nat)
    (habove : above <:+ (blobPath d).tail) : tree.node above ≠ some (.file inode) := by
  have hlen := habove.length_le
  have hblobs : ["blobs"] <:+ (blobPath d).tail := List.suffix_append [_, _] ["blobs"]
  rcases last_of_suffix hblobs habove with rfl | hlast
  · intro hfile
    have hroot := tree.rooted
    rw [Files.Tree.node, hroot] at hfile
    cases hfile
  · exact h.no_file hlast hlen inode

theorem blob_free (h : Laid tree) (d : Digest) : ¬tree.Blocked (blobPath d) := by
  rw [blobPath, Tree.blocked_cons]
  rintro ⟨above, inode, habove, hfile⟩
  exact h.clear d above inode habove hfile

theorem upload_free (h : Laid tree) (id : String) : ¬tree.Blocked (uploadPath id) := by
  rw [uploadPath, Tree.blocked_cons]
  rintro ⟨above, inode, habove, hfile⟩
  rcases List.suffix_cons_iff.mp habove with rfl | hnil
  · rw [h.uploads] at hfile
    cases hfile
  · rw [List.suffix_nil.mp hnil, Files.Tree.node, tree.rooted] at hfile
    cases hfile

-- The order is kept where files come as blobs only, and directories above them only.
theorem of_changes {files made : Path → Prop} (h : Laid tree) (hc : Changes files made tree tree')
    (hfiles : ∀ path, files path → ["blobs"] <:+ path →
      ∃ d, path = blobPath d ∨ path = tmpPath (blobPath d))
    (hmade : ∀ path, made path → ["blobs"] <:+ path → path.length ≤ 3)
    (hsessions : ∀ id, ¬made (uploadPath id)) : Laid tree' where
  uploads := hc.kept _ h.uploads
  blobs := hc.kept _ h.blobs
  sessions id hdir := (hc.dirs _ hdir).elim (h.sessions id) (hsessions id)
  files path hpath hfile := by
    by_cases hchanged : files path
    · exact hfiles path hchanged hpath
    · rw [hc.others path hchanged] at hfile
      exact h.files path hpath hfile
  dirs path hpath hdir := (hc.dirs path hdir).elim (h.dirs path hpath) fun hm => hmade path hm hpath

theorem of_filing {id : String} {d : Digest} (h : Laid tree)
    (hc : Changes (fun path => path = blobPath d ∨ path = uploadPath id) (· <:+ (blobPath d).tail)
      tree tree') : Laid tree' := by
  refine h.of_changes hc ?_ (fun path hmade _ => hmade.length_le) ?_
  · rintro path (rfl | rfl) hblobs
    · exact ⟨d, .inl rfl⟩
    · exact absurd (last_unique hblobs (uploads_suffix id)) (by decide)
  · intro id' hmade
    exact absurd (last_unique ((uploads_suffix id').trans hmade)
      (List.suffix_append [_, _] ["blobs"])) (by decide)

end Laid

section Runs

variable {tree : Tree} (h : Laid tree)

include h

theorem read_blob (d : Digest) :
    (tree.read (blobPath d)).mapError ioToStorage = orNotFound ((shelf tree).blobs d) := by
  rw [Tree.read_clear (h.blob_not_dir d) (h.blob_free d)]
  show _ = orNotFound (tree.fileAt (blobPath d))
  cases tree.fileAt (blobPath d) <;> rfl

theorem read_session (id : String) :
    tree.read (uploadPath id) = ((shelf tree).sessions id).elim (.error .notFound) .ok :=
  Tree.read_clear (h.sessions id) (h.upload_free id)

theorem metadata_blob (d : Digest) : tree.metadata (blobPath d) =
    ((shelf tree).blobs d).elim (.error .notFound) fun bytes => .ok (some bytes.length) := by
  rw [Tree.metadata_eq, if_neg (h.blob_not_dir d), if_neg (h.blob_free d)]
  show _ = (tree.fileAt (blobPath d)).elim _ _
  cases tree.fileAt (blobPath d) <;> rfl

theorem metadata_session (id : String) : tree.metadata (uploadPath id) =
    ((shelf tree).sessions id).elim (.error .notFound) fun bytes => .ok (some bytes.length) := by
  rw [Tree.metadata_eq, if_neg (h.sessions id), if_neg (h.upload_free id)]
  show _ = (tree.fileAt (uploadPath id)).elim _ _
  cases tree.fileAt (uploadPath id) <;> rfl

theorem run_blobExists (d : Digest) : (blobExists d).run Tree.handle tree =
    (.ok ((shelf tree).blobs d).isSome, tree) := by
  rw [blobExists, Fallible.run_bind, Fallible.run_mapError, Fallible.run_attempt, FileM.run_call]
  simp only [Tree.handle, metadata_blob h]
  cases (shelf tree).blobs d <;> rfl

theorem run_blobRead (d : Digest) : (blobRead d).run Tree.handle tree =
    (orNotFound ((shelf tree).blobs d), tree) := by
  rw [blobRead, Fallible.run_mapError, FileM.run_call]
  simp only [Tree.handle, read_blob h]

theorem run_uploadStatus_laid (id : String) : (uploadStatus id).run Tree.handle tree =
    ((orNotFound ((shelf tree).sessions id)).map fun bytes => ⟨id, bytes.length⟩, tree) := by
  rw [uploadStatus, Fallible.run_bind, Fallible.run_mapError, FileM.run_call]
  simp only [Tree.handle, metadata_session h]
  cases (shelf tree).sessions id <;> rfl

theorem replace_blob (d : Digest) (content : Bytes) :
    ∃ tree', (atomicWrite (blobPath d) content).run Tree.handle tree = (.ok (), tree') ∧
      Replaced (tmpPath (blobPath d)) (blobPath d) content tree tree' :=
  run_replaceFile content (h.tmp_not_dir d) (h.blob_not_dir d) (h.blob_free d)

omit h in
theorem remove_run {path : Path} (hdir : tree.node path ≠ some .dir) (hfree : ¬tree.Blocked path) :
    (Fallible.mapError ioToStorage (FileM.call (.remove path))).run Tree.handle tree =
        (if (tree.fileAt path).isSome then .ok () else .error .notFound, (tree.remove path).2) ∧
      (tree.remove path).2.fileAt path = none := by
  rw [Fallible.run_mapError, FileM.run_call]
  simp only [Tree.handle]
  rcases Tree.file_or_none hdir with ⟨inode, hfile⟩ | hnone
  · rw [Tree.remove_file hfile, Tree.fileAt_of_file hfile]
    refine ⟨rfl, Tree.fileAt_of_none ?_⟩
    rw [Tree.removeName_node hfile, if_pos rfl]
  · rw [Tree.remove_none hnone hfree, Tree.fileAt_of_none hnone]
    exact ⟨rfl, rfl⟩

theorem run_uploadCreate (id : String) :
    ((uploadCreate id).run Tree.handle tree).1 = .ok ⟨id, 0⟩ ∧
      ((uploadCreate id).run Tree.handle tree).2.fileAt (uploadPath id) = some [] := by
  have hdirs : (FileM.call (.createDirAll ["uploads"])).run Tree.handle tree = (.ok (), tree) := by
    rw [FileM.run_call]
    simp only [Tree.handle, Tree.createDirAll, Tree.find_of_node h.uploads]
  obtain ⟨inode, hcreated, hnode, hcontents, -⟩ := Tree.create_ok h.uploads (h.sessions id)
  have hcreate : (FileM.call (.create (uploadPath id))).run Tree.handle tree =
      (.ok inode, (tree.create (uploadPath id)).2) := Fallible.run_eq_mk hcreated rfl
  have hrun : (uploadCreate id).run Tree.handle tree =
      (.ok ⟨id, 0⟩, (tree.create (uploadPath id)).2) := by
    rw [uploadCreate, Fallible.run_bind, Fallible.run_mapError]
    simp only [uploadPath, List.tail_cons, hdirs]
    show ((Fallible.mapError fromIo (FileM.call (.create (uploadPath id))) >>= fun _ =>
      pure (⟨id, 0⟩ : UploadStatus)).run Tree.handle tree) = _
    rw [Fallible.run_bind, Fallible.run_mapError, hcreate]
    rfl
  rw [hrun]
  refine ⟨rfl, Tree.fileAt_eq_some.mpr ⟨inode, ?_, ?_⟩⟩
  · rw [uploadPath, hnode, if_pos rfl]
  · rw [uploadPath, hcontents, Function.update_self]

theorem run_uploadAppend (id : String) (chunk : Bytes) :
    match (shelf tree).sessions id with
    | some bytes =>
        ((uploadAppend id chunk).run Tree.handle tree).1 = .ok ⟨id, (bytes ++ chunk).length⟩ ∧
          ((uploadAppend id chunk).run Tree.handle tree).2.fileAt (uploadPath id) =
            some (bytes ++ chunk)
    | none => (uploadAppend id chunk).run Tree.handle tree = (.error .notFound, tree) := by
  rcases Tree.file_or_none (h.sessions id) with ⟨inode, hfile⟩ | hnone
  · have hsession : (shelf tree).sessions id = some (tree.contents inode) :=
      Tree.fileAt_of_file hfile
    have hopen : (FileM.call (.openAppend (uploadPath id))).run Tree.handle tree =
        (.ok inode, tree) := by
      rw [FileM.run_call, Tree.handle, Tree.openAppend_eq_ok.mpr hfile]
    have hrun : (uploadAppend id chunk).run Tree.handle tree =
        (.ok ⟨id, (tree.contents inode ++ chunk).length⟩, tree.append inode chunk) := by
      rw [uploadAppend, Fallible.run_bind, Fallible.run_mapError, hopen]
      show (Except.ok (⟨id, ((tree.append inode chunk).contents inode).length⟩ : UploadStatus),
        tree.append inode chunk) = _
      rw [Tree.append, Tree.store_contents, Function.update_self]
    rw [hsession]
    simp only [hrun]
    refine ⟨trivial, Tree.fileAt_eq_some.mpr ⟨inode, hfile, ?_⟩⟩
    rw [Tree.append, Tree.store_contents, Function.update_self]
  · have hsession : (shelf tree).sessions id = none := Tree.fileAt_of_none hnone
    have hopen : (FileM.call (.openAppend (uploadPath id))).run Tree.handle tree =
        (.error .notFound, tree) := by
      rw [FileM.run_call, Tree.handle, Tree.openAppend,
        Tree.find_of_none hnone (h.upload_free id)]
    rw [hsession]
    simp only
    rw [uploadAppend, Fallible.run_bind, Fallible.run_mapError, hopen]
    rfl

end Runs

section Finalize

variable {tree : Tree} (h : Laid tree) {id : String} {d : Digest} {bytes : Bytes}

-- What becomes of a session whose content has the digest.
structure Filed (id : String) (d : Digest) (bytes : Bytes) (tree tree' : Tree) : Prop where
  content : tree'.fileAt (blobPath d) = some bytes
  gone : tree'.fileAt (uploadPath id) = none
  changes : Changes (fun path => path = blobPath d ∨ path = uploadPath id)
    (· <:+ (blobPath d).tail) tree tree'

theorem made_parent (h : Laid tree) (d : Digest) :
    (tree.createDirAll (blobPath d).tail).1 = .ok () ∧
      (tree.createDirAll (blobPath d).tail).2.node (blobPath d).tail = some .dir :=
  Tree.createDirAll_ok (h.clear d)

theorem changes_made (d : Digest) :
    Changes (fun path => path = blobPath d ∨ path = uploadPath id) (· <:+ (blobPath d).tail) tree
      (tree.createDirAll (blobPath d).tail).2 := by
  apply Changes.handle (.createDirAll (blobPath d).tail)
  · exact fun _ => False.elim
  · rintro path above heq habove
    rw [FileOp.createDirAll.inj heq]
    exact habove

theorem filed_of_rename {made : Tree} {inode : Nat} (hlaid : Laid made)
    (hsession : made.node (uploadPath id) = some (.file inode)) (hbytes : made.contents inode = bytes)
    (hparent : made.node (blobPath d).tail = some .dir) :
    (made.rename (uploadPath id) (blobPath d)).1 = .ok () ∧
      Filed id d bytes made (made.rename (uploadPath id) (blobPath d)).2 := by
  have hdst : made.node (blobPath d) ≠ some .dir := hlaid.blob_not_dir d
  have hok : made.rename (uploadPath id) (blobPath d) =
      (.ok (), made.move (uploadPath id) inode (blobPath d)) :=
    Tree.rename_ok hsession hparent hdst
  refine ⟨congrArg Prod.fst hok, ?_, ?_, ?_⟩
  · rw [← hbytes]
    exact Tree.rename_fileAt hsession hparent hdst
  · rw [hok]
    apply Tree.fileAt_of_none
    have hnode := Tree.move_node hsession hparent hdst (uploadPath id)
    exact hnode.trans ((if_neg (uploadPath_ne_blobPath id d)).trans (if_pos rfl))
  · apply Changes.handle (.rename (uploadPath id) (blobPath d))
    · exact fun path htouch => htouch.symm
    · nofun

-- The copy that is made where the rename fails.
def copyOver (id : String) (d : Digest) (bytes : Bytes) : DiskM Unit := do
  Fallible.mapError fromIo (writeFile (blobPath d) bytes)
  let _ ← Fallible.mapError fromIo (Fallible.attempt (FileM.call (.remove (uploadPath id))))
  pure ()

theorem changes_of_written {made tree' : Tree} (h : Tree.Written (blobPath d) bytes made tree') :
    Changes (fun path => path = blobPath d ∨ path = uploadPath id) (· <:+ (blobPath d).tail) made
      tree' where
  others path hpath := h.others path (not_or.mp hpath).1
  dirs path hdir := .inl ((h.dirs path).mp hdir)
  kept path hdir := (h.dirs path).mpr hdir

-- The session file is removed once its bytes are in place.
theorem filed_of_written {inode : Nat} {made tree' : Tree}
    (hsession : made.node (uploadPath id) = some (.file inode))
    (h : Tree.Written (blobPath d) bytes made tree') :
    Filed id d bytes made (tree'.remove (uploadPath id)).2 := by
  have hfile : ∃ inode', tree'.node (uploadPath id) = some (.file inode') := by
    have hsame := (h.others _ (uploadPath_ne_blobPath id d)).trans (Tree.fileAt_of_file hsession)
    obtain ⟨inode', hnode, -⟩ := Tree.fileAt_eq_some.mp hsame
    exact ⟨inode', hnode⟩
  obtain ⟨inode', hnode⟩ := hfile
  rw [Tree.remove_file hnode]
  refine ⟨?_, ?_, (changes_of_written h).trans ?_⟩
  · rw [(Tree.removeName_frame hnode (uploadPath_ne_blobPath id d).symm).fileAt]
    exact h.content
  · exact Tree.fileAt_of_none (by rw [Tree.removeName_node hnode, if_pos rfl])
  · have hstep : (tree'.remove (uploadPath id)).2 = tree'.removeName (uploadPath id) inode' :=
      congrArg Prod.snd (Tree.remove_file hnode)
    rw [← hstep]
    exact Changes.handle (.remove (uploadPath id)) (fun _ htouch => .inr htouch)
      fun _ _ heq => by cases heq

theorem created_blob {made : Tree} (h : Laid made) (hparent : made.node (blobPath d).tail = some .dir) :
    ∃ file created, Tree.handle (.create (blobPath d)) made = (.ok file, created) ∧
      ∀ part, Tree.Written (blobPath d) part made (created.write file part) := by
  have hwritten : ∀ part, ∃ file created, made.create (blobPath d) = (.ok file, created) ∧
      Tree.Written (blobPath d) part made (created.write file part) := by
    intro part
    obtain ⟨file, created, hcreate, -, hwritten⟩ :=
      Tree.create_write hparent (h.blob_not_dir d) part
    exact ⟨file, created, hcreate, hwritten⟩
  obtain ⟨file, created, hcreate, -⟩ := hwritten []
  refine ⟨file, created, hcreate, fun part => ?_⟩
  obtain ⟨file', created', hcreate', hwritten'⟩ := hwritten part
  obtain ⟨hfile, rfl⟩ := Prod.mk.inj (hcreate.symm.trans hcreate')
  rw [Except.ok.inj hfile]
  exact hwritten'

theorem filed_of_copy {made : Tree} {inode : Nat} (hlaid : Laid made)
    (hsession : made.node (uploadPath id) = some (.file inode))
    (hparent : made.node (blobPath d).tail = some .dir) :
    ((copyOver id d bytes).run Tree.handle made).1 = .ok () ∧
      Filed id d bytes made ((copyOver id d bytes).run Tree.handle made).2 := by
  obtain ⟨file, created, hcreate, hwritten⟩ := created_blob hlaid hparent
  have hopen : (FileM.call (.create (blobPath d))).run Tree.handle made = (.ok file, created) :=
    hcreate
  have hrun : (copyOver id d bytes).run Tree.handle made =
      (.ok (), ((created.write file bytes).remove (uploadPath id)).2) := by
    rw [copyOver, writeFile, Fallible.run_bind, Fallible.run_mapError, Fallible.run_bind_of_ok hopen]
    show ((Fallible.mapError fromIo (Fallible.attempt
      (FileM.call (.remove (uploadPath id)))) >>= fun _ => pure ()).run Tree.handle
        (created.write file bytes)) = _
    rw [Fallible.run_bind, Fallible.run_mapError, Fallible.run_attempt, FileM.run_call]
    rfl
  rw [hrun]
  exact ⟨rfl, filed_of_written hsession (hwritten bytes)⟩

variable [Sha2]

omit [Sha2] in
theorem run_copyOver (apart : Option IoError) (id : String) (d : Digest) (bytes : Bytes)
    (made : Tree) : (copyOver id d bytes).run (straddling apart) made =
      (copyOver id d bytes).run Tree.handle made := by
  apply run_straddling
  refine ⟨nofun, fun created => ?_⟩
  cases created with
  | error err => trivial
  | ok inode =>
      refine ⟨nofun, fun written => ?_⟩
      cases written with
      | error err => trivial
      | ok _ => exact ⟨nofun, fun _ => trivial⟩

include h

theorem run_uploadFinalize (apart : Option IoError)
    (hsession : tree.fileAt (uploadPath id) = some bytes)
    (hhash : hashContent d.algorithm bytes = d) :
    ∃ tree', (uploadFinalize id d).run (straddling apart) tree = (.ok (), tree') ∧
      Filed id d bytes tree tree' := by
  obtain ⟨inode, hfile, hbytes⟩ := Tree.fileAt_eq_some.mp hsession
  obtain ⟨hmade, hparent⟩ := made_parent h d
  generalize hnew : (tree.createDirAll (blobPath d).tail).2 = made at hparent
  have hchanges : Changes (fun path => path = blobPath d ∨ path = uploadPath id)
      (· <:+ (blobPath d).tail) tree made := hnew ▸ changes_made d
  have hlaid : Laid made := h.of_filing hchanges
  have hfile' : made.node (uploadPath id) = some (.file inode) := by
    rw [← hnew]
    exact ((Tree.createDirAll_frame _ (uploadPath id)) inode).1.mpr hfile
  have hbytes' : made.contents inode = bytes := by
    rw [← hnew, Tree.createDirAll_contents]
    exact hbytes
  have hread : (Fallible.mapError ioToStorage (FileM.call (.read (uploadPath id)))).run
      (straddling apart) tree = (.ok bytes, tree) := by
    rw [Fallible.run_mapError]
    show (((tree.read (uploadPath id)).mapError ioToStorage), tree) = _
    rw [Tree.read_ok.mpr hsession]
    rfl
  have hdirs : (Fallible.mapError fromIo (FileM.call (.createDirAll (blobPath d).tail))).run
      (straddling apart) tree = (.ok (), made) := by
    rw [Fallible.run_mapError]
    show (((tree.createDirAll (blobPath d).tail).1.mapError fromIo),
      (tree.createDirAll (blobPath d).tail).2) = _
    rw [hmade, hnew]
    rfl
  have htrans : ∀ {tree'}, Filed id d bytes made tree' → Filed id d bytes tree tree' :=
    fun hfiled => ⟨hfiled.content, hfiled.gone, hchanges.trans hfiled.changes⟩
  rw [uploadFinalize, Fallible.run_bind_of_ok hread]
  simp only
  rw [if_neg (not_not_intro hhash), Fallible.run_bind_of_ok hdirs]
  cases apart with
  | none =>
      obtain ⟨hrenamed, hfiled⟩ := filed_of_rename hlaid hfile' hbytes' hparent
      refine ⟨_, ?_, htrans hfiled⟩
      have hmove : (Fallible.mapError fromIo (Fallible.attempt
          (FileM.call (.rename (uploadPath id) (blobPath d))))).run (straddling none) made =
            (.ok (.ok ()), (made.rename (uploadPath id) (blobPath d)).2) := by
        rw [Fallible.run_mapError, Fallible.run_attempt]
        show ((Except.ok (made.rename (uploadPath id) (blobPath d)).1 :
          Except StorageError (Except IoError Unit)), (made.rename (uploadPath id) (blobPath d)).2) = _
        rw [hrenamed]
      rw [Fallible.run_bind_of_ok hmove]
      rfl
  | some err =>
      obtain ⟨hcopied, hfiled⟩ := filed_of_copy hlaid hfile' hparent
      refine ⟨_, ?_, htrans hfiled⟩
      have hmove : (Fallible.mapError fromIo (Fallible.attempt
          (FileM.call (.rename (uploadPath id) (blobPath d))))).run (straddling (some err)) made =
            (.ok (.error err), made) := by
        have hfails : (FileM.call (.rename (uploadPath id) (blobPath d))).run
            (straddling (some err)) made = (.error err, made) :=
          straddling_session err (uploads_suffix id) (blobPath d) made
        rw [Fallible.run_mapError, Fallible.run_attempt, hfails]
        rfl
      rw [Fallible.run_bind_of_ok hmove]
      exact (run_copyOver (some err) id d bytes made).trans (Prod.ext hcopied rfl)

end Finalize

section Serve

variable [Sha2] (apart : Option IoError) {tree : Tree} (h : Laid tree)

omit h [Sha2] in
theorem frozen_remove {names dirs : Path → Prop} {path : Path} (hpath : ¬names path) :
    Tree.Frozen names dirs tree
      ((Fallible.mapError ioToStorage (FileM.call (.remove path))).run Tree.handle tree).2 :=
  (Tree.Frozen.remove hpath).mapError _

include h

-- A session is filed, or nothing changes.
theorem uploadFinalize_cases (id : String) (d : Digest) :
    match (shelf tree).sessions id with
    | some bytes =>
        if hashContent d.algorithm bytes = d then
          ∃ tree', (uploadFinalize id d).run (straddling apart) tree = (.ok (), tree') ∧
            Filed id d bytes tree tree'
        else (uploadFinalize id d).run (straddling apart) tree =
          (.error (.digestMismatch d (hashContent d.algorithm bytes)), tree)
    | none => (uploadFinalize id d).run (straddling apart) tree = (.error .notFound, tree) := by
  have hread := read_session h id
  cases hsession : (shelf tree).sessions id with
  | none =>
      rw [hsession] at hread
      have hfirst : (Fallible.mapError ioToStorage (FileM.call (.read (uploadPath id)))).run
          (straddling apart) tree = (.error .notFound, tree) := by
        rw [Fallible.run_mapError]
        show (((tree.read (uploadPath id)).mapError ioToStorage), tree) = _
        rw [hread]
        rfl
      exact Fallible.run_bind_of_error hfirst _
  | some bytes =>
      simp only
      split
      · rename_i hhash
        exact run_uploadFinalize h apart hsession hhash
      · rename_i hhash
        rw [hsession] at hread
        have hfirst : (Fallible.mapError ioToStorage (FileM.call (.read (uploadPath id)))).run
            (straddling apart) tree = (.ok bytes, tree) := by
          rw [Fallible.run_mapError]
          show (((tree.read (uploadPath id)).mapError ioToStorage), tree) = _
          rw [hread]
          rfl
        rw [uploadFinalize, Fallible.run_bind_of_ok hfirst]
        simp only
        rw [if_pos hhash]
        rfl

theorem changes_call (op : StorageOp) :
    Changes op.Touches op.Makes tree (fsStorageOn apart op tree).2 := by
  have hlooks : ∀ {α : Type} {prog : Prog FileOp FileOp.Ans α}, prog.Uses Looks →
      Changes op.Touches op.Makes tree (prog.run Tree.handle tree).2 := by
    intro α prog hprog
    rw [run_looks hprog]
    exact .refl tree
  cases op with
  | blobExists _ d => exact hlooks (looks_blobExists d)
  | blobRead _ d => exact hlooks (uses_mapError _ (looks_read _))
  | blobWrite _ d content =>
      show Changes _ _ tree ((blobWrite d content).run Tree.handle tree).2
      rw [blobWrite]
      split
      · exact .refl tree
      · exact .of_frozen ((frozen_atomicWrite content (fun hkept => hkept (.inl rfl))
          (fun hkept => hkept (.inr rfl)) fun above habove hkept => hkept habove).mapError _)
  | blobDelete _ d => exact .of_frozen (frozen_remove fun hkept => hkept rfl)
  | uploadCreate _ id =>
      refine .of_frozen (((Tree.Frozen.createDirAll fun above habove hkept =>
        hkept habove).mapError _).bind fun _ _ _ => ?_)
      exact ((Tree.Frozen.create fun hkept => hkept rfl).mapError _).bind fun _ _ _ => .refl _
  | uploadStatus _ id => exact hlooks (looks_uploadStatus id)
  | uploadAppend _ id chunk => exact .of_frozen (frozen_append chunk fun hkept => hkept rfl)
  | uploadFinalize _ id d =>
      have hcases := uploadFinalize_cases apart h id d
      show Changes _ _ tree ((uploadFinalize id d).run (straddling apart) tree).2
      cases hsession : (shelf tree).sessions id with
      | none =>
          simp only [hsession] at hcases
          rw [hcases]
          exact .refl tree
      | some bytes =>
          simp only [hsession] at hcases
          split at hcases
          · obtain ⟨tree', hrun, hfiled⟩ := hcases
            rw [hrun]
            exact hfiled.changes
          · rw [hcases]
            exact .refl tree
  | uploadCancel _ id => exact .of_frozen (frozen_remove fun hkept => hkept rfl)
  | manifestGet repo reference =>
      refine hlooks ?_
      simp only [StorageOp.body]
      split
      · exact looks_atDots repo
      · exact looks_manifestGet repo reference
  | manifestPut repo reference content =>
      exact .of_frozen (frozen_put content (fun _ htouch hkept => hkept htouch)
        fun _ hmade hkept => hkept hmade)
  | manifestDelete repo reference =>
      show Changes _ _ tree ((StorageOp.body tree (.manifestDelete repo reference)).run
        Tree.handle tree).2
      simp only [StorageOp.body]
      split
      · exact hlooks (looks_atDots repo)
      · refine .of_frozen (frozen_remove fun hkept => hkept ?_)
        cases reference <;> rfl
  | listRepos => exact hlooks (looks_listRepos _)
  | listTags repo => exact hlooks (looks_listTags repo)
  | listManifestDigests repo => exact hlooks (looks_listManifestDigests repo)

omit h [Sha2] in
theorem below_manifests (front : Path) (repo : String) :
    ["manifests"] <:+ front ++ repoPath repo :=
  (List.suffix_append _ _).trans (List.suffix_append front _)

omit h in
theorem manifestPut_below {repo : String} {reference : Reference} {content : Bytes} {path : Path}
    (h : (StorageOp.manifestPut repo reference content).Touches path) :
    ["manifests"] <:+ path := by
  rcases h with rfl | rfl | htag
  · exact below_manifests [_, _] repo
  · exact below_manifests [_, _] repo
  · cases reference with
    | digest d => cases htag
    | tag tag =>
        simp only [PutTouches] at htag
        split at htag
        · rw [htag]
          exact below_manifests [_] repo
        · rcases htag with rfl | rfl
          · exact below_manifests [_, _] repo
          · exact below_manifests [_, _] repo

omit h in
theorem manifestDelete_below {repo : String} {reference : Reference} {path : Path}
    (h : (StorageOp.manifestDelete repo reference).Touches path) : ["manifests"] <:+ path := by
  cases reference with
  | digest d =>
      rw [(h : path = manifestDigestPath repo d)]
      exact below_manifests [_, _] repo
  | tag tag =>
      rw [(h : path = manifestTagPath repo tag)]
      exact below_manifests [_, _] repo

omit h in
theorem touches_places {op : StorageOp} {path : Path} (hpath : op.Touches path) :
    (∃ d, path = blobPath d ∨ path = tmpPath (blobPath d)) ∨ (∃ id, path = uploadPath id) ∨
      ["manifests"] <:+ path := by
  cases op with
  | blobWrite _ d content => exact .inl ⟨d, hpath⟩
  | blobDelete _ d => exact .inl ⟨d, .inl hpath⟩
  | uploadCreate _ id => exact .inr (.inl ⟨id, hpath⟩)
  | uploadAppend _ id chunk => exact .inr (.inl ⟨id, hpath⟩)
  | uploadCancel _ id => exact .inr (.inl ⟨id, hpath⟩)
  | uploadFinalize _ id d =>
      rcases hpath with rfl | rfl
      · exact .inl ⟨d, .inl rfl⟩
      · exact .inr (.inl ⟨id, rfl⟩)
  | manifestPut repo reference content => exact .inr (.inr (manifestPut_below hpath))
  | manifestDelete repo reference => exact .inr (.inr (manifestDelete_below hpath))
  | blobExists _ _ | blobRead _ _ | uploadStatus _ _ | manifestGet _ _ | listRepos | listTags _
  | listManifestDigests _ => cases hpath

omit h [Sha2] in
theorem makes_places {op : StorageOp} {path : Path} (hpath : op.Makes path) :
    (["blobs"] <:+ path → path.length ≤ 3) ∧ ∀ id, path ≠ uploadPath id := by
  have hblob : ∀ d : Digest, path <:+ (blobPath d).tail →
      (["blobs"] <:+ path → path.length ≤ 3) ∧ ∀ id, path ≠ uploadPath id := by
    intro d habove
    refine ⟨fun _ => habove.length_le, ?_⟩
    rintro id rfl
    exact absurd (last_unique ((uploads_suffix id).trans habove)
      (List.suffix_append [_, _] ["blobs"])) (by decide)
  have hmanifest : ∀ kind repo, path <:+ kind :: repoPath repo →
      (["blobs"] <:+ path → path.length ≤ 3) ∧ ∀ id, path ≠ uploadPath id := by
    intro kind repo habove
    refine ⟨fun hblobs => absurd hblobs ?_, ?_⟩
    · exact manifests_not_last (by decide) repo [kind] habove
    · rintro id rfl
      exact manifests_not_last (by decide) repo [kind] habove (uploads_suffix id)
  cases op with
  | blobWrite _ d content => exact hblob d hpath
  | uploadFinalize _ id d => exact hblob d hpath
  | uploadCreate _ id =>
      have hle : path.length ≤ 1 := (show path <:+ ["uploads"] from hpath).length_le
      refine ⟨fun _ => by omega, ?_⟩
      rintro id' rfl
      exact absurd hle (by simp [uploadPath])
  | manifestPut repo reference content =>
      exact hpath.elim (hmanifest "digests" repo) (hmanifest "tags" repo)
  | blobExists _ _ | blobRead _ _ | blobDelete _ _ | uploadStatus _ _ | uploadAppend _ _ _
  | uploadCancel _ _ | manifestGet _ _ | manifestDelete _ _ | listRepos | listTags _
  | listManifestDigests _ => cases hpath

-- Every call keeps the order.
theorem laid_call (op : StorageOp) : Laid (fsStorageOn apart op tree).2 := by
  refine h.of_changes (changes_call apart h op) ?_ (fun path hmade => (makes_places hmade).1) ?_
  · intro path htouch hblobs
    rcases touches_places htouch with hblob | ⟨id, rfl⟩ | hmanifest
    · exact hblob
    · exact absurd (last_unique hblobs (uploads_suffix id)) (by decide)
    · exact absurd (last_unique hblobs hmanifest) (by decide)
  · intro id hmade
    exact (makes_places hmade).2 id rfl

omit h [Sha2] in
theorem shelf_eq {tree' : Tree} {s : Shelf}
    (hblobs : ∀ d, tree'.fileAt (blobPath d) = s.blobs d)
    (hsessions : ∀ id, tree'.fileAt (uploadPath id) = s.sessions id) : shelf tree' = s := by
  obtain ⟨blobs, sessions⟩ := s
  rw [shelf, Shelf.mk.injEq]
  exact ⟨funext hblobs, funext hsessions⟩

omit h [Sha2] in
theorem uploadPath_inj {id id' : String} (heq : uploadPath id = uploadPath id') : id = id' :=
  (List.cons.inj heq).1

-- The files answer as the shelf does, and hold what it holds afterwards.
def Serves (apart : Option IoError) (tree : Tree) (op : StorageOp) : Prop :=
  shelf (fsStorageOn apart op tree).2 = ((shelf tree).serve op).2 ∧
    ∀ answer, ((shelf tree).serve op).1 = some answer → (fsStorageOn apart op tree).1 = answer

omit h in
theorem Serves.mk {apart : Option IoError} {op : StorageOp} {answer : op.Ans} {tree' : Tree}
    {s : Shelf} (hrun : fsStorageOn apart op tree = (answer, tree'))
    (hserve : (shelf tree).serve op = (some answer, s)) (hshelf : shelf tree' = s) :
    Serves apart tree op := by
  rw [Serves, hrun, hserve]
  exact ⟨hshelf, fun _ heq => Option.some.inj heq⟩

theorem serves_blobWrite (repo : String) (d : Digest) (content : Bytes) :
    Serves apart tree (.blobWrite repo d content) := by
  by_cases hhash : hashContent d.algorithm content = d
  · obtain ⟨tree', hrun, hrep⟩ := replace_blob h d content
    have hcall : fsStorageOn apart (.blobWrite repo d content) tree = (.ok (), tree') := by
      show (blobWrite d content).run Tree.handle tree = _
      rw [blobWrite_eq hhash, Fallible.run_mapError, hrun]
      rfl
    refine .mk hcall (if_pos hhash) (shelf_eq (fun d' => ?_) fun id => ?_)
    · rw [Shelf.put_blobs]
      split
      · rename_i heq
        rw [heq, hrep.content]
      · rename_i hne
        exact hrep.others _ (fun heq => hne (blobPath_injective heq)) (blobPath_ne_tmp d' d)
    · exact hrep.others _ (uploadPath_ne_blobPath id d) (uploadPath_ne_tmp id d)
  · have hcall : fsStorageOn apart (.blobWrite repo d content) tree =
        (.error (.digestMismatch d (hashContent d.algorithm content)), tree) := by
      show (blobWrite d content).run Tree.handle tree = _
      rw [blobWrite, if_pos hhash]
      rfl
    exact .mk hcall (if_neg hhash) rfl

theorem serves_blobDelete (repo : String) (d : Digest) :
    Serves apart tree (.blobDelete repo d) := by
  have hc := changes_call apart h (.blobDelete repo d)
  obtain ⟨hrun, hgone⟩ := remove_run (h.blob_not_dir d) (h.blob_free d)
  have hcall : fsStorageOn apart (.blobDelete repo d) tree = _ := hrun
  rw [hcall] at hc
  cases hblob : (shelf tree).blobs d with
  | none =>
      have hfile : tree.fileAt (blobPath d) = none := hblob
      rw [hfile] at hcall
      refine .mk hcall (by simp only [Shelf.serve, hblob]; rfl) (shelf_eq (fun d' => ?_) fun id => ?_)
      · by_cases heq : d' = d
        · rw [heq, hgone, hblob]
        · exact hc.others _ fun htouch => heq (blobPath_injective htouch)
      · exact hc.others _ (uploadPath_ne_blobPath id d)
  | some bytes =>
      have hfile : tree.fileAt (blobPath d) = some bytes := hblob
      rw [hfile] at hcall
      refine .mk hcall (by simp only [Shelf.serve, hblob]; rfl) (shelf_eq (fun d' => ?_) fun id => ?_)
      · rw [Shelf.drop_blobs]
        split
        · rename_i heq
          rw [heq, hgone]
        · rename_i hne
          exact hc.others _ fun htouch => hne (blobPath_injective htouch)
      · exact hc.others _ (uploadPath_ne_blobPath id d)

theorem serves_uploadCancel (repo id : String) :
    Serves apart tree (.uploadCancel repo id) := by
  have hc := changes_call apart h (.uploadCancel repo id)
  obtain ⟨hrun, hgone⟩ := remove_run (h.sessions id) (h.upload_free id)
  have hcall : fsStorageOn apart (.uploadCancel repo id) tree = _ := hrun
  rw [hcall] at hc
  cases hsession : (shelf tree).sessions id with
  | none =>
      have hfile : tree.fileAt (uploadPath id) = none := hsession
      rw [hfile] at hcall
      refine .mk hcall (by simp only [Shelf.serve, hsession]; rfl)
        (shelf_eq (fun d => ?_) fun id' => ?_)
      · exact hc.others _ fun htouch => uploadPath_ne_blobPath id d htouch.symm
      · by_cases heq : id' = id
        · rw [heq, hgone, hsession]
        · exact hc.others _ fun htouch => heq (uploadPath_inj htouch)
  | some bytes =>
      have hfile : tree.fileAt (uploadPath id) = some bytes := hsession
      rw [hfile] at hcall
      refine .mk hcall (by simp only [Shelf.serve, hsession]; rfl)
        (shelf_eq (fun d => ?_) fun id' => ?_)
      · exact hc.others _ fun htouch => uploadPath_ne_blobPath id d htouch.symm
      · rw [Shelf.close_sessions]
        split
        · rename_i heq
          rw [heq, hgone]
        · rename_i hne
          exact hc.others _ fun htouch => hne (uploadPath_inj htouch)

omit h [Sha2] in
-- What a session holds after a call that writes to it.
theorem shelf_keep {op : StorageOp} {tree' : Tree} {id : String} {bytes : Bytes}
    (hc : Changes (· = uploadPath id) op.Makes tree tree')
    (hfile : tree'.fileAt (uploadPath id) = some bytes) :
    shelf tree' = (shelf tree).keep id bytes := by
  refine shelf_eq (fun d => ?_) fun id' => ?_
  · exact hc.others _ fun htouch => uploadPath_ne_blobPath id d htouch.symm
  · rw [Shelf.keep_sessions]
    split
    · rename_i heq
      rw [heq, hfile]
    · rename_i hne
      exact hc.others _ fun htouch => hne (uploadPath_inj htouch)

theorem serves_uploadCreate (repo id : String) :
    Serves apart tree (.uploadCreate repo id) := by
  obtain ⟨hanswer, hfile⟩ := run_uploadCreate h id
  exact .mk (Prod.ext hanswer rfl) rfl (shelf_keep (changes_call apart h (.uploadCreate repo id)) hfile)

theorem serves_uploadAppend (repo id : String) (chunk : Bytes) :
    Serves apart tree (.uploadAppend repo id chunk) := by
  have hrun := run_uploadAppend h id chunk
  cases hsession : (shelf tree).sessions id with
  | none =>
      rw [hsession] at hrun
      exact .mk hrun (by simp only [Shelf.serve, hsession]) rfl
  | some bytes =>
      rw [hsession] at hrun
      exact .mk (Prod.ext hrun.1 rfl) (by simp only [Shelf.serve, hsession])
        (shelf_keep (changes_call apart h (.uploadAppend repo id chunk)) hrun.2)

theorem serves_uploadFinalize (repo id : String) (d : Digest) :
    Serves apart tree (.uploadFinalize repo id d) := by
  have hcases := uploadFinalize_cases apart h id d
  cases hsession : (shelf tree).sessions id with
  | none =>
      simp only [hsession] at hcases
      exact .mk hcases (by simp only [Shelf.serve, hsession]) rfl
  | some bytes =>
      simp only [hsession] at hcases
      by_cases hhash : hashContent d.algorithm bytes = d
      · rw [if_pos hhash] at hcases
        obtain ⟨tree', hrun, hfiled⟩ := hcases
        refine .mk hrun (by simp only [Shelf.serve, hsession, if_pos hhash]; rfl)
          (shelf_eq (fun d' => ?_) fun id' => ?_)
        · rw [Shelf.close_blobs, Shelf.put_blobs]
          split
          · rename_i heq
            rw [heq, hfiled.content]
          · rename_i hne
            refine hfiled.changes.others _ (not_or.mpr ⟨?_, ?_⟩)
            · exact fun htouch => hne (blobPath_injective htouch)
            · exact fun htouch => uploadPath_ne_blobPath id d' htouch.symm
        · rw [Shelf.close_sessions]
          split
          · rename_i heq
            rw [heq, hfiled.gone]
          · rename_i hne
            refine hfiled.changes.others _ (not_or.mpr ⟨uploadPath_ne_blobPath id' d, ?_⟩)
            exact fun htouch => hne (uploadPath_inj htouch)
      · rw [if_neg hhash] at hcases
        exact .mk hcases (by simp only [Shelf.serve, hsession, if_neg hhash]) rfl

theorem serves_manifests {op : StorageOp} (hserve : (shelf tree).serve op = (none, shelf tree))
    (hplace : ∀ path, op.Touches path → ["manifests"] <:+ path) : Serves apart tree op := by
  have hc := changes_call apart h op
  refine ⟨?_, by rw [hserve]; nofun⟩
  rw [hserve]
  refine shelf_eq (fun d => hc.others _ fun htouch => ?_) fun id => hc.others _ fun htouch => ?_
  · exact absurd (last_unique (blobs_suffix d) (hplace _ htouch)) (by decide)
  · exact absurd (last_unique (uploads_suffix id) (hplace _ htouch)) (by decide)

theorem serves_call (op : StorageOp) : Serves apart tree op := by
  cases op with
  | blobExists _ d => exact .mk (run_blobExists h d) rfl rfl
  | blobRead _ d => exact .mk (run_blobRead h d) rfl rfl
  | blobWrite repo d content => exact serves_blobWrite apart h repo d content
  | blobDelete repo d => exact serves_blobDelete apart h repo d
  | uploadCreate repo id => exact serves_uploadCreate apart h repo id
  | uploadStatus _ id => exact .mk (run_uploadStatus_laid h id) rfl rfl
  | uploadAppend repo id chunk => exact serves_uploadAppend apart h repo id chunk
  | uploadFinalize repo id d => exact serves_uploadFinalize apart h repo id d
  | uploadCancel repo id => exact serves_uploadCancel apart h repo id
  | manifestPut _ _ _ => exact serves_manifests apart h rfl fun _ => manifestPut_below
  | manifestDelete _ _ => exact serves_manifests apart h rfl fun _ => manifestDelete_below
  | manifestGet _ _ | listRepos | listTags _ | listManifestDigests _ =>
      exact serves_manifests apart h rfl fun _ => False.elim

end Serve

end RspaceRegistry.Disk
