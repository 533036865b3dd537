import RspaceRegistry.Disk.Addressed
import RspaceRegistry.Files.Crash

namespace RspaceRegistry.Disk

open Calls Files Ordered

-- What becomes of a storage whose process is killed in the middle of its calls.

-- `FsStorage::new` over a root that is a directory: an error ends the loop.
def makeLayout : List Path → FileM Unit
  | [] => pure ()
  | dir :: rest => do
      match ← Fallible.attempt (FileM.call (.createDirAll dir)) with
      | .ok _ => makeLayout rest
      | .error _ => pure ()

def openRoot : FileM Unit := makeLayout [[], ["blobs"], ["manifests"], ["uploads"]]

section Looks

variable {α : Type} {tree tree' : Tree}

theorem looks_torn {op part : FileOp} (hop : Looks op) (h : Torn op part) : Looks part := by
  have hnew : ∀ inode, Tree.new.contents inode = [] := fun _ => rfl
  cases h with
  | @createDirAll path above habove =>
      have hroot : path = [] := by
        have hmade : (Tree.new.createDirAll path).1 = .ok () ∧
            (Tree.new.createDirAll path).2.node path = some .dir :=
          Tree.createDirAll_ok fun _ inode _ hfile =>
            Nat.not_lt_zero inode (Tree.new.allocated _ inode hfile)
        have hsame : (Tree.new.createDirAll path).2 = Tree.new := hop Tree.new
        have hdir := hmade.2
        rw [hsame] at hdir
        by_contra hne
        have hnone : Tree.new.node path = none := AList.lookup_insert_ne hne
        rw [hnone] at hdir
        cases hdir
      rw [hroot] at habove hop
      rw [List.suffix_nil.mp habove]
      exact hop
  | write inode bytes n =>
      have hempty : bytes = [] := by
        have hsame := congrArg (fun tree => Tree.contents tree inode) (hop Tree.new)
        simpa [Tree.handle, Tree.write, hnew] using hsame
      rw [hempty, List.take_nil, ← hempty]
      exact hop
  | append inode bytes n =>
      have hempty : bytes = [] := by
        have hsame := congrArg (fun tree => Tree.contents tree inode) (hop Tree.new)
        simpa [Tree.handle, Tree.append, hnew] using hsame
      rw [hempty, List.take_nil, ← hempty]
      exact hop

theorem left_looks {prog : Prog FileOp FileOp.Ans α} (hprog : prog.Uses Looks)
    (h : Left prog tree tree') : tree' = tree := by
  induction prog generalizing tree with
  | pure value => exact eq_of_left_pure h
  | call op next ih =>
      cases h with
      | stop _ _ => rfl
      | torn _ _ htorn => exact looks_torn hprog.1 htorn tree
      | call hnext => exact (ih _ (hprog.2 _) hnext).trans (hprog.1 tree)

-- Directories outlast a crash.
theorem left_dir {prog : Prog FileOp FileOp.Ans α} {path : Path} (h : Left prog tree tree')
    (hdir : tree.node path = some .dir) : tree'.node path = some .dir := by
  induction h with
  | stop _ _ => exact hdir
  | torn _ _ _ => exact Tree.handle_dir hdir
  | call _ ih => exact ih (Tree.handle_dir hdir)

theorem Changes.of_left {files made : Path → Prop} {prog : Prog FileOp FileOp.Ans α}
    (h : Left prog tree tree')
    (hfrozen : Tree.Frozen (fun path => ¬files path) (fun path => ¬made path) tree tree') :
    Changes files made tree tree' where
  others path hpath := (hfrozen.kept path hpath).fileAt
  dirs path hdir := by
    by_cases hmade : made path
    · exact .inr hmade
    · exact .inl ((hfrozen.dirs path hmade).mp hdir)
  kept _ hdir := left_dir h hdir

end Looks

-- The names that the listings leave out.
def Temporary (path : Path) : Prop := ∃ name parent, path = name :: parent ∧ isTmp name = true

section Calls

variable [Sha2]

-- What a call may have come to when it was cut short: nothing, all of it, a manifest
-- without its tag, a chunk up to some byte, or a blob whose session is still there.
inductive CutTo : StorageOp → Option StorageOp → Prop
  | nothing (op : StorageOp) : CutTo op none
  | whole (op : StorageOp) : CutTo op (some op)
  | untagged (repo tag : String) (content : Bytes) : CutTo (.manifestPut repo (.tag tag) content)
      (some (.manifestPut repo (.digest (hashContent .sha256 content)) content))
  | part (repo id : String) (chunk : Bytes) (n : Nat) :
      CutTo (.uploadAppend repo id chunk) (some (.uploadAppend repo id (chunk.take n)))
  | filed (repo id : String) (d : Digest) (bytes : Bytes) :
      CutTo (.uploadFinalize repo id d) (some (.blobWrite repo d bytes))

def afterwards (done : Option StorageOp) (tree : Tree) : Tree :=
  match done with
  | none => tree
  | some op => (fsStorage op tree).2

-- The temporary files of the call.
def Scratch (op : StorageOp) (path : Path) : Prop := op.Touches path ∧ Temporary path

-- The tree is what it is after the call or without it, but for temporary files and
-- directories.
def Cut (op : StorageOp) (tree tree' : Tree) : Prop :=
  ∃ done, CutTo op done ∧ Changes (Scratch op) op.Makes (afterwards done tree) tree'

section Cut

variable {op : StorageOp} {tree tree' : Tree}

abbrev FrozenBut (op : StorageOp) : Tree → Tree → Prop :=
  Tree.Frozen (fun path => ¬Scratch op path) fun path => ¬op.Makes path

theorem cut_nothing {α : Type} {prog : Prog FileOp FileOp.Ans α} (hleft : Left prog tree tree')
    (h : FrozenBut op tree tree') : Cut op tree tree' := ⟨none, .nothing op, .of_left hleft h⟩

theorem frozen_made {path : Path} {result : Except StorageError Unit} {made : Tree}
    (habove : ∀ above, above <:+ path → op.Makes above)
    (hmade : (Fallible.mapError fromIo (FileM.call (.createDirAll path))).run Tree.handle tree =
      (result, made)) : FrozenBut op tree made := by
  have hfirst : FrozenBut op tree ((Fallible.mapError fromIo
      (FileM.call (.createDirAll path))).run Tree.handle tree).2 :=
    (Tree.Frozen.createDirAll fun above h hkept => hkept (habove above h)).mapError _
  rwa [hmade] at hfirst

theorem cut_same (op : StorageOp) (tree : Tree) : Cut op tree tree :=
  ⟨none, .nothing op, .refl tree⟩

theorem cut_whole (h : tree' = (fsStorage op tree).2) : Cut op tree tree' :=
  ⟨some op, .whole op, h ▸ .refl _⟩

theorem cut_looks {α : Type} {prog : Prog FileOp FileOp.Ans α} (hprog : prog.Uses Looks)
    (h : Left prog tree tree') : Cut op tree tree' := by
  rw [left_looks hprog h]
  exact cut_same op tree

end Cut

section Bodies

variable {tree tree' : Tree}

theorem scratch_blob (repo : String) (d : Digest) (content : Bytes) :
    Scratch (.blobWrite repo d content) (tmpPath (blobPath d)) :=
  ⟨.inr rfl, _, _, rfl, isTmp_tmpName _⟩

theorem cut_blobWrite {repo : String} {d : Digest} {content : Bytes}
    (h : Left (blobWrite d content) tree tree') : Cut (.blobWrite repo d content) tree tree' := by
  by_cases hhash : hashContent d.algorithm content ≠ d
  · rw [blobWrite, if_pos hhash] at h
    rw [eq_of_left_pure h]
    exact cut_same _ tree
  · have hbody : blobWrite d content =
        Fallible.mapError fromIo (atomicWrite (blobPath d) content) := if_neg hhash
    have hleft := h
    rw [hbody, blobPath, atomicWrite_eq] at h
    have hcases : FrozenBut (.blobWrite repo d content) tree tree' ∨ tree' = _ :=
      Tree.Frozen.left_replaceFile (fun hkept => hkept (scratch_blob repo d content))
        (fun above habove hkept => hkept habove) (left_mapError h)
    rcases hcases with hfrozen | hdone
    · exact cut_nothing hleft hfrozen
    · refine cut_whole (hdone.trans ?_)
      show _ = ((blobWrite d content).run Tree.handle tree).2
      rw [hbody, Fallible.run_mapError]
      rfl

omit [Sha2] in
theorem run_remove (path : Path) (tree : Tree) :
    ((Fallible.mapError ioToStorage (FileM.call (.remove path))).run Tree.handle tree).2 =
      (tree.remove path).2 := by
  rw [Fallible.run_mapError]
  rfl

-- A file is removed or not.
theorem cut_remove {op : StorageOp} {path : Path}
    (hop : (fsStorage op tree).2 = (tree.remove path).2)
    (h : Left (Fallible.mapError ioToStorage (FileM.call (.remove path))) tree tree') :
    Cut op tree tree' := by
  rcases left_whole (fun part htorn => by cases htorn) (left_mapError h) with rfl | hdone
  · exact cut_same _ tree'
  · exact cut_whole (hdone.trans hop.symm)

theorem cut_uploadCreate {repo id : String} (h : Left (uploadCreate id) tree tree') :
    Cut (.uploadCreate repo id) tree tree' := by
  have hleft := h
  rcases left_andThen h with hdirs | ⟨_, made, hmade, h⟩
  · exact cut_nothing hleft
      (Tree.Frozen.left_createDirAll (fun above habove hkept => hkept habove) (left_mapError hdirs))
  have hrun : (fsStorage (.uploadCreate repo id) tree).2 = (made.create (uploadPath id)).2 := by
    show ((uploadCreate id).run Tree.handle tree).2 = _
    rw [uploadCreate, Fallible.run_bind_of_ok hmade, run_of_last, Fallible.run_mapError]
    rfl
  rcases left_whole (fun part htorn => by cases htorn) (left_mapError (left_of_last h)) with
    rfl | hdone
  · exact cut_nothing hleft (frozen_made (fun above habove => habove) hmade)
  · exact cut_whole (hdone.trans hrun.symm)

theorem run_opened {id : String} {chunk : Bytes} {inode : Nat}
    (h : tree.openAppend (uploadPath id) = .ok inode) (repo : String) :
    (fsStorage (.uploadAppend repo id chunk) tree).2 = tree.append inode chunk := by
  have hopen : (Fallible.mapError ioToStorage (FileM.call (.openAppend (uploadPath id)))).run
      Tree.handle tree = (.ok inode, tree) := by
    rw [Fallible.run_mapError, FileM.run_call, Tree.handle, h]
    rfl
  show ((uploadAppend id chunk).run Tree.handle tree).2 = _
  rw [uploadAppend, Fallible.run_bind_of_ok hopen]
  rfl

theorem cut_uploadAppend {repo id : String} {chunk : Bytes}
    (h : Left (uploadAppend id chunk) tree tree') :
    Cut (.uploadAppend repo id chunk) tree tree' := by
  rcases left_andThen h with hopen | ⟨inode, opened, hopen, hrest⟩
  · rw [left_looks (looks_call (.openAppend _) fun _ => rfl) (left_mapError hopen)]
    exact cut_same _ tree
  have hopened : opened = tree ∧ tree.openAppend (uploadPath id) = .ok inode := by
    rw [Fallible.run_mapError, FileM.run_call, Tree.handle] at hopen
    obtain ⟨hanswer, rfl⟩ := Prod.mk.inj hopen
    refine ⟨rfl, ?_⟩
    cases hresult : tree.openAppend (uploadPath id) with
    | error err =>
        rw [hresult] at hanswer
        cases hanswer
    | ok found =>
        rw [hresult] at hanswer
        rw [← Except.ok.inj hanswer]
  obtain ⟨hsame, hfile⟩ := hopened
  rw [hsame] at hrest
  rcases left_andThen hrest with hwrite | ⟨_, written, hwritten, hlast⟩
  · rcases left_fileOp (left_mapError hwrite) with rfl | ⟨part, htorn, heq⟩ | hdone
    · exact cut_same _ _
    · cases htorn with
      | append _ _ n =>
          refine ⟨_, .part repo id chunk n, ?_⟩
          rw [afterwards, run_opened hfile, heq]
          exact .refl _
    · exact cut_whole (hdone.trans (run_opened hfile repo).symm)
  · have hdone : tree.append inode chunk = written := by
      rw [Fallible.run_mapError] at hwritten
      exact (Prod.mk.inj hwritten).2
    refine cut_whole ((left_looks ?_ hlast).trans (hdone.symm.trans (run_opened hfile repo).symm))
    exact Fallible.Uses.bind (uses_mapError _ (looks_call (.len inode) fun _ => rfl))
      fun _ => Fallible.uses_pure _ _

omit [Sha2] in
-- On one file system a session moves into the place that was made for it.
theorem run_moved {id : String} {d : Digest} {made : Tree} (hlaid : Laid tree)
    (hsession : (tree.fileAt (uploadPath id)).isSome)
    (hmade : (Fallible.mapError fromIo (FileM.call (.createDirAll (blobPath d).tail))).run
      Tree.handle tree = (.ok (), made)) :
    (Fallible.mapError fromIo (Fallible.attempt
      (FileM.call (.rename (uploadPath id) (blobPath d))))).run Tree.handle made =
        (.ok (.ok ()), (made.rename (uploadPath id) (blobPath d)).2) := by
  obtain ⟨bytes, hbytes⟩ := Option.isSome_iff_exists.mp hsession
  obtain ⟨inode, hfile, -⟩ := Tree.fileAt_eq_some.mp hbytes
  have hnew : (tree.createDirAll (blobPath d).tail).2 = made := by
    rw [Fallible.run_mapError] at hmade
    exact (Prod.mk.inj hmade).2
  have hchanges : Changes (fun path => path = blobPath d ∨ path = uploadPath id)
      (· <:+ (blobPath d).tail) tree made := hnew ▸ changes_made d
  have hfile' : made.node (uploadPath id) = some (.file inode) := by
    rw [← hnew]
    exact ((Tree.createDirAll_frame _ (uploadPath id)) inode).1.mpr hfile
  have hparent : made.node (blobPath d).tail = some .dir := hnew ▸ (made_parent hlaid d).2
  have hrenamed := (filed_of_rename (hlaid.of_filing hchanges) hfile' rfl hparent).1
  rw [Fallible.run_mapError, Fallible.run_attempt]
  show ((Except.ok (made.rename (uploadPath id) (blobPath d)).1 :
    Except StorageError (Except IoError Unit)), (made.rename (uploadPath id) (blobPath d)).2) = _
  rw [hrenamed]

theorem cut_uploadFinalize {repo id : String} {d : Digest} (hlaid : Laid tree)
    (h : Left (uploadFinalize id d) tree tree') : Cut (.uploadFinalize repo id d) tree tree' := by
  have hleft := h
  rcases left_andThen h with hread | ⟨bytes, same, hread, hrest⟩
  · rw [left_looks (looks_read _) (left_mapError hread)]
    exact cut_same _ tree
  have hanswer : (tree.read (uploadPath id)).mapError ioToStorage = .ok bytes ∧ tree = same := by
    rw [Fallible.run_mapError, FileM.run_call, Tree.handle] at hread
    exact Prod.mk.inj hread
  obtain ⟨hok, rfl⟩ := hanswer
  have hsession : (tree.fileAt (uploadPath id)).isSome := by
    cases hfound : tree.read (uploadPath id) with
    | error err =>
        rw [hfound] at hok
        cases hok
    | ok found => rw [Tree.read_ok.mp hfound, Option.isSome_some]
  by_cases hhash : hashContent d.algorithm bytes ≠ d
  · simp only [if_pos hhash] at hrest
    rw [eq_of_left_pure hrest]
    exact cut_same _ tree
  simp only [if_neg hhash] at hrest
  rcases left_andThen hrest with hdirs | ⟨_, made, hmade, hrest⟩
  · exact cut_nothing hleft
      (Tree.Frozen.left_createDirAll (fun above habove hkept => hkept habove) (left_mapError hdirs))
  have hmove := run_moved hlaid hsession hmade
  have hrun : (fsStorage (.uploadFinalize repo id d) tree).2 =
      (made.rename (uploadPath id) (blobPath d)).2 := by
    show ((uploadFinalize id d).run Tree.handle tree).2 = _
    rw [uploadFinalize, Fallible.run_bind_of_ok hread]
    simp only
    rw [if_neg hhash, Fallible.run_bind_of_ok hmade, Fallible.run_bind_of_ok hmove]
    rfl
  rcases left_andThen hrest with hfirst | ⟨moved, after, hmoved, hlast⟩
  · rcases left_whole (fun part htorn => by cases htorn) (left_attempt (left_mapError hfirst)) with
      rfl | hdone
    · exact cut_nothing hleft (frozen_made (fun above habove => habove) hmade)
    · exact cut_whole (hdone.trans hrun.symm)
  · obtain ⟨hresult, rfl⟩ := Prod.mk.inj (hmove.symm.trans hmoved)
    obtain rfl := Except.ok.inj hresult
    exact cut_whole ((eq_of_left_pure hlast).trans hrun.symm)

section Put

variable {repo : String} {content : Bytes}

theorem scratch_manifest (reference : Reference) :
    Scratch (.manifestPut repo reference content)
      (tmpPath (manifestDigestPath repo (hashContent .sha256 content))) :=
  ⟨.inr (.inl rfl), _, _, rfl, isTmp_tmpName _⟩

-- Pushes that differ in their tags store the same manifest first.
theorem run_untagged (d : Digest) : (fsStorage (.manifestPut repo (.digest d) content) tree).2 =
    ((putManifest repo content).run Tree.handle tree).2 := by
  show ((StorageOp.body tree (.manifestPut repo (.digest d) content)).run Tree.handle tree).2 = _
  rw [body_manifestPut]
  rcases hrun : (putManifest repo content).run Tree.handle tree with ⟨result, mid⟩
  cases result with
  | error err => rw [Fallible.run_bind_of_error hrun]
  | ok _ =>
      rw [Fallible.run_bind_of_ok hrun]
      rfl

theorem left_putManifest {reference : Reference} (h : Left (putManifest repo content) tree tree') :
    FrozenBut (.manifestPut repo reference content) tree tree' ∨
      tree' = ((putManifest repo content).run Tree.handle tree).2 := by
  have hreplace := left_mapError h
  rw [manifestDigestPath, atomicWrite_eq] at hreplace
  refine (Tree.Frozen.left_replaceFile (fun hkept => hkept (scratch_manifest reference))
    (fun above habove hkept => hkept (.inl habove)) hreplace).imp_right fun hdone => ?_
  rw [hdone, putManifest, Fallible.run_mapError]
  rfl

omit [Sha2] in
theorem putReference_dot (digest : Digest) : putReference repo (.tag ".") digest =
    (do
      Fallible.mapError fromIo (FileM.call (.createDirAll (repoPath repo)))
      Fallible.mapError fromIo (writeFile (tmpName "tags" :: repoPath repo) (utf8 digest.toString))
      Fallible.fail .io) := rfl

theorem left_dot {digest : Digest} (h : Left (putReference repo (.tag ".") digest) tree tree') :
    FrozenBut (.manifestPut repo (.tag ".") content) tree tree' := by
  have habove : ∀ above, above <:+ repoPath repo →
      (StorageOp.manifestPut repo (.tag ".") content).Makes above :=
    fun above h => .inl (h.trans (List.suffix_cons _ _))
  have hscratch :
      Scratch (.manifestPut repo (.tag ".") content) (tmpName "tags" :: repoPath repo) :=
    ⟨.inr (.inr rfl), _, _, rfl, isTmp_tmpName _⟩
  rw [putReference_dot] at h
  rcases left_andThen h with hdirs | ⟨_, made, hmade, hrest⟩
  · exact Tree.Frozen.left_createDirAll (fun above h hkept => hkept (habove above h))
      (left_mapError hdirs)
  have htoMade := frozen_made habove hmade
  rcases left_andThen hrest with hwrite | ⟨_, written, hwritten, hlast⟩
  · exact htoMade.trans (Tree.Frozen.left_writeFile (fun hkept => hkept hscratch)
      (left_mapError hwrite))
  · have hnext : FrozenBut (.manifestPut repo (.tag ".") content) made ((Fallible.mapError fromIo
        (writeFile (tmpName "tags" :: repoPath repo) (utf8 digest.toString))).run
          Tree.handle made).2 :=
      (Tree.Frozen.writeFile _ fun hkept => hkept hscratch).mapError _
    rw [hwritten] at hnext
    rw [eq_of_left_pure hlast]
    exact htoMade.trans hnext

theorem left_dots {digest : Digest} (h : Left (putReference repo (.tag "..") digest) tree tree') :
    FrozenBut (.manifestPut repo (.tag "..") content) tree tree' := by
  have habove : ∀ above, above <:+ "tags" :: repoPath repo →
      (StorageOp.manifestPut repo (.tag "..") content).Makes above := fun above h => .inr h
  have hbody : putReference repo (.tag "..") digest = (do
      Fallible.mapError fromIo (FileM.call (.createDirAll ("tags" :: repoPath repo)))
      Fallible.fail .io) := rfl
  rw [hbody] at h
  rcases left_andThen h with hdirs | ⟨_, made, hmade, hlast⟩
  · exact Tree.Frozen.left_createDirAll (fun above h hkept => hkept (habove above h))
      (left_mapError hdirs)
  · rw [eq_of_left_pure hlast]
    exact frozen_made habove hmade

-- The tag is there as a whole or not at all.
theorem left_putReference {reference : Reference} {digest : Digest}
    (h : Left (putReference repo reference digest) tree tree') :
    FrozenBut (.manifestPut repo reference content) tree tree' ∨
      tree' = ((putReference repo reference digest).run Tree.handle tree).2 := by
  cases reference with
  | digest d => exact .inr (eq_of_left_pure h)
  | tag tag =>
      by_cases hdot : tag = "."
      · subst hdot
        exact .inl (left_dot h)
      by_cases hdots : tag = ".."
      · subst hdots
        exact .inl (left_dots h)
      have hbody : putReference repo (.tag tag) digest = (do
          Fallible.mapError fromIo (atomicWrite (manifestTagPath repo tag) (utf8 digest.toString))
          pure digest) := by
        rw [putReference, if_neg hdot, if_neg hdots]
      have hscratch : Scratch (.manifestPut repo (.tag tag) content)
          (tmpPath (manifestTagPath repo tag)) := by
        refine ⟨.inr (.inr ?_), _, _, rfl, isTmp_tmpName _⟩
        simp [PutTouches, hdot, hdots]
      rw [hbody] at h
      have hreplace := left_mapError (left_of_last h)
      rw [manifestTagPath, atomicWrite_eq] at hreplace
      refine (Tree.Frozen.left_replaceFile (fun hkept => hkept hscratch)
        (fun above habove hkept => hkept (.inr habove)) hreplace).imp_right fun hdone => ?_
      rw [hdone, hbody, run_of_last, Fallible.run_mapError]
      rfl

theorem cut_manifestPut {reference : Reference}
    (h : Left (StorageOp.body tree (.manifestPut repo reference content)) tree tree') :
    Cut (.manifestPut repo reference content) tree tree' := by
  have hleft := h
  have hbody := body_manifestPut repo reference content tree
  rw [hbody] at h
  rcases left_andThen h with hfirst | ⟨_, mid, hstored, hrest⟩
  · rcases left_putManifest hfirst with hfrozen | hdone
    · exact cut_nothing hleft hfrozen
    · cases reference with
      | digest d => exact cut_whole (hdone.trans (run_untagged d).symm)
      | tag tag =>
          refine ⟨_, .untagged repo tag content, ?_⟩
          rw [afterwards, run_untagged, hdone]
          exact .refl _
  · have hrun : (fsStorage (.manifestPut repo reference content) tree).2 =
        ((putReference repo reference (hashContent .sha256 content)).run Tree.handle mid).2 := by
      show ((StorageOp.body tree (.manifestPut repo reference content)).run Tree.handle tree).2 = _
      rw [hbody, Fallible.run_bind_of_ok hstored]
    rcases left_putReference hrest with hfrozen | hdone
    · cases reference with
      | digest d => exact cut_whole ((eq_of_left_pure hrest).trans hrun.symm)
      | tag tag =>
          refine ⟨_, .untagged repo tag content, ?_⟩
          rw [afterwards, run_untagged, hstored]
          exact .of_left hrest hfrozen
    · exact cut_whole (hdone.trans hrun.symm)

end Put

theorem cut_call {op : StorageOp} (hlaid : Laid tree) (h : Left (op.body tree) tree tree') :
    Cut op tree tree' := by
  cases op with
  | blobExists _ d => exact cut_looks (looks_blobExists d) h
  | blobRead _ d => exact cut_looks (uses_mapError _ (looks_read _)) h
  | blobWrite _ d content => exact cut_blobWrite h
  | blobDelete _ d => exact cut_remove (run_remove _ tree) h
  | uploadCreate _ id => exact cut_uploadCreate h
  | uploadStatus _ id => exact cut_looks (looks_uploadStatus id) h
  | uploadAppend _ id chunk => exact cut_uploadAppend h
  | uploadFinalize _ id d => exact cut_uploadFinalize hlaid h
  | uploadCancel _ id => exact cut_remove (run_remove _ tree) h
  | manifestGet repo reference =>
      simp only [StorageOp.body] at h
      split at h
      · exact cut_looks (looks_atDots repo) h
      · exact cut_looks (looks_manifestGet repo reference) h
  | manifestPut repo reference content => exact cut_manifestPut h
  | manifestDelete repo reference =>
      by_cases hdots : reference = .tag "." ∨ reference = .tag ".."
      · simp only [StorageOp.body, if_pos hdots] at h
        exact cut_looks (looks_atDots repo) h
      · have hbody : StorageOp.body tree (.manifestDelete repo reference) =
            manifestDelete repo reference := if_neg hdots
        rw [hbody] at h
        refine cut_remove ?_ h
        show ((StorageOp.body tree (.manifestDelete repo reference)).run Tree.handle tree).2 = _
        rw [hbody]
        exact run_remove _ tree
  | listRepos => exact cut_looks (looks_listRepos _) h
  | listTags repo => exact cut_looks (looks_listTags repo) h
  | listManifestDigests repo => exact cut_looks (looks_listManifestDigests repo) h

end Bodies

end Calls

end RspaceRegistry.Disk
