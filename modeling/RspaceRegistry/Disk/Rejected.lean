import RspaceRegistry.Disk.Repos

namespace RspaceRegistry.Disk

open Calls Files

-- What a push leaves behind that fails at its reference.

-- The directories below `manifests` are those of repositories.
structure Grown (tree : Tree) : Prop where
  root : tree.node ["manifests"] = some .dir
  dirs : DirsOf (fun _ => True) tree

-- The calls that handlers make, of which each names a repository that is allowed.
def StoreOp.Named : StoreOp → Prop
  | .request op => ∀ repo, op.repo = some repo → validateRepoName repo = .ok ()
  | .blobSize repo _ => validateRepoName repo = .ok ()
  | .listAllBlobs => True

section Grown

variable [Sha2] {tree : Tree}

omit [Sha2] in
theorem Grown.of_dirs {tree' : Tree} (h : Grown tree)
    (hkept : ∀ path, tree.node path = some .dir → tree'.node path = some .dir)
    (hdirs : ∀ path, tree'.node path = some .dir → ["manifests"] <:+ path →
      tree.node path = some .dir ∨ ∃ repo : Repo,
        path <:+ "tags" :: repoPath repo.name ∨ path <:+ "digests" :: repoPath repo.name) :
    Grown tree' where
  root := hkept _ h.root
  dirs path hdir hpath := (hdirs path hdir hpath).elim (fun hold => h.dirs path hold hpath)
    fun ⟨repo, hrepo⟩ => .inr ⟨repo, trivial, hrepo⟩

-- The directories that calls make are those of repositories.
omit [Sha2] in
theorem Grown.of_makes {tree' : Tree} (h : Grown tree) {op : StorageOp}
    (hnamed : ∀ repo, op.repo = some repo → validateRepoName repo = .ok ())
    (hkept : ∀ path, tree.node path = some .dir → tree'.node path = some .dir)
    (hdirs : ∀ path, tree'.node path = some .dir → tree.node path = some .dir ∨ op.Makes path) :
    Grown tree' := by
  refine h.of_dirs hkept fun path hdir hpath => (hdirs path hdir).imp_right ?_
  intro hmade
  have hblob : ∀ d : Digest, ¬path <:+ (blobPath d).tail := by
    intro d habove
    exact absurd (last_unique (hpath.trans habove) (List.suffix_append [_, _] ["blobs"])) (by decide)
  cases op with
  | manifestPut repo reference content => exact ⟨⟨repo, hnamed repo rfl⟩, hmade.symm⟩
  | blobWrite _ d _ => exact absurd hmade (hblob d)
  | uploadFinalize _ id d => exact absurd hmade (hblob d)
  | uploadCreate _ id =>
      have habove : path <:+ ["uploads"] := hmade
      exact absurd (last_unique (hpath.trans habove) (List.suffix_refl ["uploads"])) (by decide)
  | blobExists _ _ | blobRead _ _ | blobDelete _ _ | uploadStatus _ _ | uploadAppend _ _ _
  | uploadCancel _ _ | manifestGet _ _ | manifestDelete _ _ | listRepos | listTags _
  | listManifestDigests _ => cases hmade

theorem Grown.request (h : Grown tree) (hlaid : Laid tree) (apart : Option IoError) {op : StorageOp}
    (hnamed : ∀ repo, op.repo = some repo → validateRepoName repo = .ok ()) :
    Grown (fsStorageOn apart op tree).2 :=
  h.of_makes hnamed (changes_call apart hlaid op).kept (changes_call apart hlaid op).dirs

theorem Grown.call (h : Grown tree) (hsound : Sound tree) (call : StoreCall)
    (hnamed : call.op.Named) : Grown (fsStore call.apart call.op tree).2 := by
  obtain ⟨op, apart⟩ := call
  cases op with
  | request op => exact h.request hsound.toLaid apart hnamed
  | blobSize repo d =>
      show Grown ((blobSize d).run Tree.handle tree).2
      rw [run_blobSize hsound.toLaid]
      exact h
  | listAllBlobs =>
      obtain ⟨listing, hrun, -⟩ := run_listAllBlobs hsound.toLaid
      show Grown (listAllBlobs.run Tree.handle tree).2
      rw [hrun]
      exact h

theorem Grown.calls (h : Grown tree) (hsound : Sound tree) (calls : List StoreCall)
    (hnamed : ∀ call ∈ calls, call.op.Named) : Grown (runCalls calls tree) := by
  induction calls generalizing tree with
  | nil => exact h
  | cons call rest ih =>
      exact ih (h.call hsound call (hnamed call List.mem_cons_self)) (hsound.call call)
        fun other hother => hnamed other (List.mem_cons_of_mem _ hother)

end Grown

theorem grown_new : Grown new where
  root := counted_new.root
  dirs := counted_new.dirs.mono (fun _ _ => trivial) fun _ hdir => .inl hdir

-- What requests with allowed names make of an empty storage.
theorem grown_calls [Sha2] (calls : List StoreCall) (hnamed : ∀ call ∈ calls, call.op.Named) :
    Grown (runCalls calls new) := grown_new.calls sound_new calls hnamed

-- A tag that can be written.
def TakesTag (tree : Tree) (repo tag : String) : Prop :=
  tag ≠ "." ∧ tag ≠ ".." ∧ Writable tree (manifestTagPath repo tag)

-- A path at which a failing push leaves the text of the digest.
def Leaves (tree : Tree) (repo : String) (reference : Reference) (path : Path) : Prop :=
  match reference with
  | .digest _ => False
  | .tag tag =>
      if tag = "." then path = tmpName "tags" :: repoPath repo ∧ tree.node path ≠ some .dir
      else if tag = ".." then False
      else path = tmpPath (manifestTagPath repo tag) ∧
        ¬InTheWay tree ("tags" :: repoPath repo) ∧ tree.node path ≠ some .dir

-- What lies at other paths is as before, up to directories on the way to the tags.
structure LeftAt (tree : Tree) (repo : String) (reference : Reference) (text : Bytes)
    (tree' : Tree) : Prop where
  left : ∀ path, Leaves tree repo reference path → tree'.fileAt path = some text
  others : ∀ path, ¬Leaves tree repo reference path → tree'.fileAt path = tree.fileAt path
  dirs : ∀ path, tree'.node path = some .dir → tree.node path = some .dir ∨
    path <:+ "tags" :: repoPath repo
  kept : ∀ path, tree.node path = some .dir → tree'.node path = some .dir

namespace LeftAt

variable {tree tree' : Tree} {repo : String} {reference : Reference} {text : Bytes}

theorem refl (h : ∀ path, ¬Leaves tree repo reference path) :
    LeftAt tree repo reference text tree :=
  ⟨fun path hpath => absurd hpath (h path), fun _ _ => rfl, fun _ hdir => .inl hdir,
    fun _ hdir => hdir⟩

theorem of_written {path : Path} (h : Files.Tree.Written path text tree tree')
    (hleaves : ∀ other, Leaves tree repo reference other ↔ other = path) :
    LeftAt tree repo reference text tree' where
  left other hother := by
    rw [(hleaves other).mp hother]
    exact h.content
  others other hother := h.others other fun heq => hother ((hleaves other).mpr heq)
  dirs other hdir := .inl ((h.dirs other).mp hdir)
  kept other hdir := (h.dirs other).mpr hdir

theorem of_createDirAll (h : ∀ path, ¬Leaves tree repo reference path) :
    LeftAt tree repo reference text (tree.createDirAll ("tags" :: repoPath repo)).2 where
  left path hpath := absurd hpath (h path)
  others path _ := (Tree.createDirAll_frame _ path).fileAt
  dirs path hdir := by
    rcases tree.createDirAll_node ("tags" :: repoPath repo) path with hsame | ⟨-, -, hmade⟩
    · exact .inl (hsame ▸ hdir)
    · exact .inr hmade
  kept path hdir := by
    have hkept : (tree.handle (.createDirAll ("tags" :: repoPath repo))).2.node path = some .dir :=
      Tree.handle_dir hdir
    exact hkept

theorem of_made_written {tag : String} {made : Tree} (hdots : tag ≠ "." ∧ tag ≠ "..")
    (hmade : made = (tree.createDirAll ("tags" :: repoPath repo)).2)
    (h : Files.Tree.Written (tmpPath (manifestTagPath repo tag)) text made tree')
    (hway : ¬InTheWay tree ("tags" :: repoPath repo))
    (hdir : tree.node (tmpPath (manifestTagPath repo tag)) ≠ some .dir) :
    LeftAt tree repo (.tag tag) text tree' := by
  have hleaves : ∀ path, Leaves tree repo (.tag tag) path ↔
      path = tmpPath (manifestTagPath repo tag) := by
    intro path
    simp only [Leaves, hdots.1, hdots.2, if_false]
    exact ⟨fun h => h.1, fun heq => ⟨heq, hway, heq ▸ hdir⟩⟩
  have hdirs : LeftAt tree repo (.tag "..") text made := by
    rw [hmade]
    exact of_createDirAll fun path => by simp [Leaves]
  refine ⟨fun path hpath => ?_, fun path hpath => ?_, fun path hdir => ?_, fun path hdir => ?_⟩
  · rw [(hleaves path).mp hpath]
    exact h.content
  · rw [h.others path fun heq => hpath ((hleaves path).mpr heq)]
    exact hdirs.others path (by simp [Leaves])
  · exact hdirs.dirs path ((h.dirs path).mp hdir)
  · exact (h.dirs path).mpr (hdirs.kept path hdir)

end LeftAt

section Reference

variable {tree : Tree} {repo : String}

theorem blocked_tag (tag : String) :
    tree.Blocked (manifestTagPath repo tag) ↔ InTheWay tree ("tags" :: repoPath repo) := by
  rw [manifestTagPath, Tree.blocked_cons]
  rfl

theorem run_writeFile {name : String} {parent : Path} (hparent : tree.node parent = some .dir)
    (hdir : tree.node (name :: parent) ≠ some .dir) (bytes : Bytes) : ∃ tree',
      (writeFile (name :: parent) bytes).run Tree.handle tree = (.ok (), tree') ∧
        Files.Tree.Written (name :: parent) bytes tree tree' := by
  obtain ⟨inode, created, hcreate, -, hwritten⟩ := Tree.create_write hparent hdir bytes
  have hopen : (FileM.call (.create (name :: parent))).run Tree.handle tree =
      (.ok inode, created) := hcreate
  refine ⟨_, ?_, hwritten⟩
  rw [writeFile, Fallible.run_bind_of_ok hopen]
  rfl

-- In the place of the tag `.` is the directory of the repository's tags: the name of its
-- temporary file is beside it, and the rename fails.
theorem dot_reference_fails (hrepo : tree.node (repoPath repo) = some .dir) (d : Digest) :
    ∃ tree', (putReference repo (.tag ".") d).run Tree.handle tree = (.error .io, tree') ∧
      LeftAt tree repo (.tag ".") (utf8 d.toString) tree' := by
  have hdirs : (Fallible.mapError fromIo (FileM.call (.createDirAll (repoPath repo)))).run
      Tree.handle tree = (.ok (), tree) :=
    Represents.run_fromIo_of_ok (Tree.createDirAll_of_dir hrepo)
  by_cases hthere : tree.node (tmpName "tags" :: repoPath repo) = some .dir
  · have hcreate : (FileM.call (.create (tmpName "tags" :: repoPath repo))).run Tree.handle tree =
        (.error .isADirectory, tree) := by
      rw [FileM.run_call, Tree.handle, Tree.create, Tree.entry_of_parent hrepo, hthere]
    have hwrite : (Fallible.mapError fromIo (writeFile (tmpName "tags" :: repoPath repo)
        (utf8 d.toString))).run Tree.handle tree = (.error .io, tree) := by
      rw [Fallible.run_mapError, writeFile, Fallible.run_bind_of_error hcreate]
      rfl
    refine ⟨tree, ?_, .refl fun other => ?_⟩
    · simp only [putReference, if_true]
      rw [Fallible.run_bind_of_ok hdirs, Fallible.run_bind_of_error hwrite]
    · simp only [Leaves, if_true]
      rintro ⟨rfl, hne⟩
      exact hne hthere
  · obtain ⟨tree', hwrite, hwritten⟩ := run_writeFile hrepo hthere (utf8 d.toString)
    refine ⟨tree', ?_, .of_written hwritten fun other => ?_⟩
    · simp only [putReference, if_true]
      rw [Fallible.run_bind_of_ok hdirs,
        Fallible.run_bind_of_ok (Represents.run_fromIo_of_ok hwrite)]
      rfl
    · simp only [Leaves, if_true]
      exact ⟨fun h => h.1, fun h => ⟨h, h ▸ hthere⟩⟩

-- A file is in the way of the tag, a directory in the place of its temporary file, or one
-- in its own place.
theorem tag_write_fails {tag : String} (hdot : tag ≠ ".") (hdots : tag ≠ "..") (d : Digest)
    (htag : ¬TakesTag tree repo tag) : ∃ err tree',
      (atomicWrite (manifestTagPath repo tag) (utf8 d.toString)).run Tree.handle tree =
        (.error err, tree') ∧ LeftAt tree repo (.tag tag) (utf8 d.toString) tree' := by
  by_cases hway : InTheWay tree ("tags" :: repoPath repo)
  · obtain ⟨above, inode, habove, hfile⟩ := hway
    obtain ⟨err, hrun⟩ := Tree.replaceFile_in_the_way (utf8 d.toString) habove hfile
    refine ⟨err, tree, hrun, .refl fun path => ?_⟩
    simp only [Leaves, hdot, hdots, if_false]
    exact fun h => h.2.1 ⟨above, inode, habove, hfile⟩
  by_cases htmp : tree.node (tmpPath (manifestTagPath repo tag)) = some .dir
  · obtain ⟨err, hrun⟩ := Tree.replaceFile_tmp_dir (utf8 d.toString) htmp
    refine ⟨err, tree, hrun, .refl fun path => ?_⟩
    simp only [Leaves, hdot, hdots, if_false]
    rintro ⟨rfl, -, hne⟩
    exact hne htmp
  have hdst : tree.node (manifestTagPath repo tag) = some .dir := by
    by_contra hne
    exact htag ⟨hdot, hdots, hne, htmp, mt (blocked_tag tag).mp hway⟩
  obtain ⟨err, tree', hrun, hwritten⟩ := Tree.replaceFile_onto_dir (utf8 d.toString) hdst htmp
  refine ⟨err, tree', hrun, .of_written hwritten fun path => ?_⟩
  simp only [Leaves, hdot, hdots, if_false]
  exact ⟨fun h => h.1, fun h => ⟨h, hway, h ▸ htmp⟩⟩

-- The last step of a push fails, with what is there left as it is.
theorem reference_fails (hrepo : tree.node (repoPath repo) = some .dir) {tag : String} (d : Digest)
    (htag : ¬TakesTag tree repo tag) : ∃ tree',
      (putReference repo (.tag tag) d).run Tree.handle tree = (.error .io, tree') ∧
        LeftAt tree repo (.tag tag) (utf8 d.toString) tree' := by
  by_cases hdot : tag = "."
  · subst hdot
    exact dot_reference_fails hrepo d
  by_cases hdots : tag = ".."
  · subst hdots
    refine ⟨(tree.createDirAll ("tags" :: repoPath repo)).2, ?_, ?_⟩
    · simp only [putReference, hdot, if_false, if_true]
      rw [Fallible.run_bind, Fallible.run_mapError, FileM.run_call, Tree.handle]
      cases (tree.createDirAll ("tags" :: repoPath repo)).1 <;> rfl
    · exact .of_createDirAll fun path => by simp [Leaves]
  obtain ⟨err, tree', hrun, hleft⟩ := tag_write_fails hdot hdots d htag
  refine ⟨tree', ?_, hleft⟩
  have herror : (Fallible.mapError fromIo (atomicWrite (manifestTagPath repo tag)
      (utf8 d.toString))).run Tree.handle tree = (.error .io, tree') := by
    rw [Fallible.run_mapError, hrun]
    rfl
  simp only [putReference, hdot, hdots, if_false]
  rw [Fallible.run_bind_of_error herror]

-- The file of the tag is replaced.
theorem reference_written {tag : String} (d : Digest) (htag : TakesTag tree repo tag) : ∃ tree',
    (putReference repo (.tag tag) d).run Tree.handle tree = (.ok d, tree') ∧
      Replaced (tmpPath (manifestTagPath repo tag)) (manifestTagPath repo tag) (utf8 d.toString)
        tree tree' := by
  obtain ⟨hdot, hdots, hdst, htmp, hfree⟩ := htag
  obtain ⟨tree', hrun, hreplaced⟩ := run_replaceFile (utf8 d.toString) htmp hdst hfree
  have hwrite : (Fallible.mapError fromIo (atomicWrite (manifestTagPath repo tag)
      (utf8 d.toString))).run Tree.handle tree = (.ok (), tree') :=
    Represents.run_fromIo_of_ok hrun
  refine ⟨tree', ?_, hreplaced⟩
  simp only [putReference, hdot, hdots, if_false]
  rw [Fallible.run_bind_of_ok hwrite]
  rfl

theorem reference_done {tag : String} (d : Digest) (htag : TakesTag tree repo tag) :
    ((putReference repo (.tag tag) d).run Tree.handle tree).1 = .ok d := by
  obtain ⟨tree', hrun, -⟩ := reference_written d htag
  rw [hrun]

end Reference

section Manifest

variable [Sha2] {allowed : Repo → Prop} {tree mid : Tree} {repo : Repo} {content : Bytes}

-- A push that gets through once its manifest is stored.
def Takes (tree : Tree) (repo : String) (content : Bytes) : Reference → Prop
  | .digest want => want = hashContent .sha256 content
  | .tag tag => TakesTag tree repo tag

-- The manifest is stored, and nothing of it can be seen at the tags.
section Stored

variable (h : Replaced (tmpPath (manifestDigestPath repo.name (hashContent .sha256 content)))
  (manifestDigestPath repo.name (hashContent .sha256 content)) content tree mid)

include h

theorem stored_dir {path : Path} (hpath : ¬path <:+ "digests" :: repoPath repo.name) :
    mid.node path = some .dir ↔ tree.node path = some .dir :=
  ⟨fun hdir => (h.dirs path hdir).resolve_right hpath, h.kept path⟩

theorem stored_inTheWay :
    InTheWay mid ("tags" :: repoPath repo.name) ↔ InTheWay tree ("tags" :: repoPath repo.name) := by
  have hsame : ∀ above, above <:+ "tags" :: repoPath repo.name →
      mid.fileAt above = tree.fileAt above := by
    intro above habove
    have hlen := habove.length_le
    apply h.others
    · rintro rfl
      simp [manifestDigestPath] at hlen
    · rintro rfl
      simp [manifestDigestPath, tmpPath_cons] at hlen
  constructor
  · rintro ⟨above, inode, habove, hfile⟩
    obtain ⟨inode', hnode, -⟩ := Tree.fileAt_eq_some.mp
      ((hsame above habove).symm.trans (Tree.fileAt_of_file hfile))
    exact ⟨above, inode', habove, hnode⟩
  · rintro ⟨above, inode, habove, hfile⟩
    obtain ⟨inode', hnode, -⟩ := Tree.fileAt_eq_some.mp
      ((hsame above habove).trans (Tree.fileAt_of_file hfile))
    exact ⟨above, inode', habove, hnode⟩

theorem stored_takesTag (tag : String) : TakesTag mid repo.name tag ↔ TakesTag tree repo.name tag := by
  have hlong : ∀ name, ¬name :: "tags" :: repoPath repo.name <:+ "digests" :: repoPath repo.name := by
    intro name hsuffix
    have hlen := hsuffix.length_le
    simp at hlen
  have hdst := stored_dir h (hlong tag)
  have htmp := stored_dir h (hlong (tmpName tag))
  unfold TakesTag Writable
  rw [blocked_tag, blocked_tag, stored_inTheWay h]
  exact and_congr_right' (and_congr_right' (and_congr (not_congr hdst)
    (and_congr_left' (not_congr htmp))))

theorem stored_leaves (reference : Reference) (path : Path) :
    Leaves mid repo.name reference path ↔ Leaves tree repo.name reference path := by
  cases reference with
  | digest d => exact Iff.rfl
  | tag tag =>
      have hlong : ¬tmpPath (manifestTagPath repo.name tag) <:+ "digests" :: repoPath repo.name := by
        intro hsuffix
        have hlen := hsuffix.length_le
        simp [manifestTagPath, tmpPath_cons] at hlen
      have hbeside : ¬tmpName "tags" :: repoPath repo.name <:+ "digests" :: repoPath repo.name := by
        intro hsuffix
        have heq := hsuffix.eq_of_length rfl
        exact absurd (List.cons.inj heq).1 (by decide)
      by_cases hdot : tag = "."
      · simp only [Leaves, hdot, if_true]
        refine and_congr_right fun heq => not_congr ?_
        rw [heq]
        exact stored_dir h hbeside
      · by_cases hdots : tag = ".."
        · simp [Leaves, hdots]
        · simp only [Leaves, hdot, hdots, if_false]
          refine and_congr_right fun heq => and_congr (not_congr (stored_inTheWay h)) (not_congr ?_)
          rw [heq]
          exact stored_dir h hlong

end Stored

-- After a push that was not taken: the manifest, what is left at the reference, and
-- all else as it was.
structure NotTaken (tree : Tree) (repo : Repo) (reference : Reference) (content : Bytes)
    (tree' : Tree) : Prop where
  stored : tree'.fileAt (manifestDigestPath repo.name (hashContent .sha256 content)) = some content
  left : ∀ path, Leaves tree repo.name reference path →
    tree'.fileAt path = some (utf8 (hashContent .sha256 content).toString)
  others : ∀ path, ¬Leaves tree repo.name reference path →
    path ≠ manifestDigestPath repo.name (hashContent .sha256 content) →
    path ≠ tmpPath (manifestDigestPath repo.name (hashContent .sha256 content)) →
      tree'.fileAt path = tree.fileAt path
  dirs : ∀ path, tree'.node path = some .dir → tree.node path = some .dir ∨
    path <:+ "tags" :: repoPath repo.name ∨ path <:+ "digests" :: repoPath repo.name
  kept : ∀ path, tree.node path = some .dir → tree'.node path = some .dir

omit [Sha2] in
theorem leaves_not_digest {tree : Tree} {reference : Reference} {path : Path} (repo' : String)
    (d : Digest) (h : Leaves tree repo.name reference path) : path ≠ manifestDigestPath repo' d := by
  rintro rfl
  cases reference with
  | digest d => exact h
  | tag tag =>
      by_cases hdot : tag = "."
      · simp only [Leaves, hdot, if_true] at h
        exact tmpName_ne (isTmp_digest d) (List.cons.inj h.1).1.symm
      · by_cases hdots : tag = ".."
        · simp [Leaves, hdots] at h
        · simp only [Leaves, hdot, hdots, if_false] at h
          exact tmpName_ne (isTmp_digest d) (List.cons.inj h.1).1.symm

-- The manifest is stored, and what comes of the reference is added to it.
theorem notTaken_of_left (hreplaced : Replaced
      (tmpPath (manifestDigestPath repo.name (hashContent .sha256 content)))
      (manifestDigestPath repo.name (hashContent .sha256 content)) content tree mid)
    {reference : Reference} {tree' : Tree}
    (hleft : LeftAt mid repo.name reference (utf8 (hashContent .sha256 content).toString) tree') :
    NotTaken tree repo reference content tree' where
  stored := by
    rw [hleft.others _ fun hleaves => leaves_not_digest _ _ hleaves rfl]
    exact hreplaced.content
  left path hpath := hleft.left path ((stored_leaves hreplaced _ path).mpr hpath)
  others path hpath hstored htmp := by
    rw [hleft.others _ (mt (stored_leaves hreplaced _ path).mp hpath)]
    exact hreplaced.others path hstored htmp
  dirs path hdir := by
    rcases hleft.dirs path hdir with hold | hmade
    · exact (hreplaced.dirs path hold).imp_right .inr
    · exact .inr (.inl hmade)
  kept path hdir := hleft.kept path (hreplaced.kept path hdir)

-- The directory of the repository is there then.
theorem stored_repo (hreplaced : Replaced
      (tmpPath (manifestDigestPath repo.name (hashContent .sha256 content)))
      (manifestDigestPath repo.name (hashContent .sha256 content)) content tree mid) :
    mid.node (repoPath repo.name) = some .dir := by
  obtain ⟨inode, hnode, -⟩ := Tree.fileAt_eq_some.mp hreplaced.content
  refine Tree.dir_above hnode (List.suffix_append [_, _] _) fun heq => ?_
  have hlen := congrArg List.length heq
  simp only [manifestDigestPath, List.length_cons] at hlen
  omega

theorem not_taken (hdirs : DirsOf allowed tree)
    (hway : ¬InTheWay tree ("digests" :: repoPath repo.name)) {reference : Reference}
    (h : ¬Takes tree repo.name content reference) : ∃ answer tree',
      (StorageOp.body tree (.manifestPut repo.name reference content)).run Tree.handle tree =
        (answer, tree') ∧
      (answer = .error .io ∨ answer = .ok (hashContent .sha256 content) ∧
        ∃ want, reference = .digest want ∧ want ≠ hashContent .sha256 content) ∧
      NotTaken tree repo reference content tree' := by
  obtain ⟨mid, hstore, hreplaced⟩ := run_putManifest content hdirs hway
  rw [body_manifestPut, Fallible.run_bind_of_ok hstore]
  cases reference with
  | digest want =>
      refine ⟨_, mid, rfl, .inr ⟨rfl, want, rfl, h⟩, ?_⟩
      exact ⟨hreplaced.content, nofun, fun path _ hpath htmp => hreplaced.others path hpath htmp,
        fun path hdir => (hreplaced.dirs path hdir).imp_right .inr, hreplaced.kept⟩
  | tag tag =>
      obtain ⟨tree', hrun, hleft⟩ := reference_fails (stored_repo hreplaced)
        (hashContent .sha256 content) (mt (stored_takesTag hreplaced tag).mp h)
      exact ⟨_, tree', hrun, .inl rfl, notTaken_of_left hreplaced hleft⟩

theorem taken (hdirs : DirsOf allowed tree)
    (hway : ¬InTheWay tree ("digests" :: repoPath repo.name)) {reference : Reference}
    (h : Takes tree repo.name content reference) :
    ((StorageOp.body tree (.manifestPut repo.name reference content)).run Tree.handle tree).1 =
      .ok (hashContent .sha256 content) := by
  obtain ⟨mid, hstore, hreplaced⟩ := run_putManifest content hdirs hway
  rw [body_manifestPut, Fallible.run_bind_of_ok hstore]
  cases reference with
  | digest want => rfl
  | tag tag => exact reference_done _ ((stored_takesTag hreplaced tag).mpr h)

end Manifest

end RspaceRegistry.Disk
