import RspaceRegistry.Disk.Storage
import RspaceRegistry.Files.Frozen

namespace RspaceRegistry.Disk

open Calls Files

-- What each call of the storage may change, and where.

section Straddling

-- `uploads/` and `blobs/` may lie on different file systems: a session is then not
-- renamed into a blob, and the error says so.
def straddling (apart : Option IoError) : Handler FileOp FileOp.Ans Tree
  | .rename src dst, tree =>
      match apart with
      | some err =>
          if ["uploads"] <:+ src then (.error err, tree) else Tree.handle (.rename src dst) tree
      | none => Tree.handle (.rename src dst) tree
  | op, tree => Tree.handle op tree

theorem straddling_session (err : IoError) {src : Path} (h : ["uploads"] <:+ src) (dst : Path)
    (tree : Tree) : straddling (some err) (.rename src dst) tree = (.error err, tree) := if_pos h

theorem straddling_none : straddling none = Tree.handle := by
  funext op tree
  cases op <;> rfl

theorem run_straddling {α : Type} (apart : Option IoError) {prog : Prog FileOp FileOp.Ans α}
    (h : prog.Uses fun op => ∀ src dst, op ≠ .rename src dst) (tree : Tree) :
    prog.run (straddling apart) tree = prog.run Tree.handle tree := by
  induction prog generalizing tree with
  | pure value => rfl
  | call op next ih =>
      have hstep : straddling apart op tree = Tree.handle op tree := by
        cases op with
        | rename src dst => exact absurd rfl (h.1 src dst)
        | _ => rfl
      rw [Prog.run_call, Prog.run_call, hstep]
      exact ih _ (h.2 _) _

-- Only `upload_finalize` moves a file out of the sessions.
def fsStorageOn [Sha2] (apart : Option IoError) : Handler StorageOp StorageOp.Ans Tree
  | .uploadFinalize _ id expected, tree =>
      (uploadFinalize id expected).run (straddling apart) tree
  | op, tree => fsStorage op tree

theorem fsStorageOn_none [Sha2] : fsStorageOn none = fsStorage := by
  funext op tree
  cases op with
  | uploadFinalize repo id expected =>
      show (uploadFinalize id expected).run (straddling none) tree =
        fsStorage (.uploadFinalize repo id expected) tree
      rw [straddling_none]
      rfl
  | _ => rfl

end Straddling

-- At most the files of the first kind come, go or change, and at most directories of
-- the second kind come.
structure Changes (files made : Path → Prop) (tree tree' : Tree) : Prop where
  others : ∀ path, ¬files path → tree'.fileAt path = tree.fileAt path
  dirs : ∀ path, tree'.node path = some .dir → tree.node path = some .dir ∨ made path
  kept : ∀ path, tree.node path = some .dir → tree'.node path = some .dir

namespace Changes

variable {files made : Path → Prop} {tree tree' tree'' : Tree}

theorem refl (tree : Tree) : Changes files made tree tree :=
  ⟨fun _ _ => rfl, fun _ h => .inl h, fun _ h => h⟩

theorem trans (h : Changes files made tree tree') (h' : Changes files made tree' tree'') :
    Changes files made tree tree'' where
  others path hpath := (h'.others path hpath).trans (h.others path hpath)
  dirs path hdir := (h'.dirs path hdir).elim (h.dirs path) .inr
  kept path hdir := h'.kept path (h.kept path hdir)

theorem handle (op : FileOp) (hfiles : ∀ path, tree.Touches op path → files path)
    (hmade : ∀ path above, op = .createDirAll path → above <:+ path → made above) :
    Changes files made tree (Tree.handle op tree).2 where
  others path hpath := (Tree.handle_frame (mt (hfiles path) hpath)).fileAt
  dirs path hdir := (Tree.dir_of_handle hdir).imp_right fun ⟨new, hop, habove⟩ =>
    hmade new path hop habove
  kept _ hdir := Tree.handle_dir hdir

-- Directories are never taken away.
theorem run_dir {α : Type} (prog : Prog FileOp FileOp.Ans α) {path : Path}
    (h : tree.node path = some .dir) : (prog.run Tree.handle tree).2.node path = some .dir := by
  induction prog generalizing tree with
  | pure value => exact h
  | call op next ih =>
      rw [Prog.run_call]
      exact ih _ (Tree.handle_dir h)

theorem of_frozen {α : Type} {prog : Prog FileOp FileOp.Ans α}
    (h : Tree.Frozen (fun path => ¬files path) (fun path => ¬made path) tree
      (prog.run Tree.handle tree).2) :
    Changes files made tree (prog.run Tree.handle tree).2 where
  others path hpath := (h.kept path hpath).fileAt
  dirs path hdir := by
    by_cases hmade : made path
    · exact .inr hmade
    · exact .inl ((h.dirs path hmade).mp hdir)
  kept _ hdir := run_dir prog hdir

end Changes

def tmpPath (path : Path) : Path := withExtension path "tmp"

theorem tmpPath_cons (name : String) (parent : Path) :
    tmpPath (name :: parent) = tmpName name :: parent := rfl

-- The names of a push beside the manifest's.
def PutTouches (repo : String) (reference : Reference) (path : Path) : Prop :=
  match reference with
  | .digest _ => False
  | .tag tag =>
      if tag = "." ∨ tag = ".." then path = tmpName "tags" :: repoPath repo
      else path = manifestTagPath repo tag ∨ path = tmpPath (manifestTagPath repo tag)

section Calls

variable [Sha2]

def StorageOp.Touches : StorageOp → Path → Prop
  | .blobWrite _ d _, path => path = blobPath d ∨ path = tmpPath (blobPath d)
  | .blobDelete _ d, path => path = blobPath d
  | .uploadCreate _ id, path | .uploadAppend _ id _, path | .uploadCancel _ id, path =>
      path = uploadPath id
  | .uploadFinalize _ id d, path => path = blobPath d ∨ path = uploadPath id
  | .manifestPut repo reference content, path =>
      let stored := manifestDigestPath repo (hashContent .sha256 content)
      path = stored ∨ path = tmpPath stored ∨ PutTouches repo reference path
  | .manifestDelete repo reference, path =>
      match reference with
      | .digest d => path = manifestDigestPath repo d
      | .tag tag => path = manifestTagPath repo tag
  | _, _ => False

def StorageOp.Makes : StorageOp → Path → Prop
  | .blobWrite _ d _, path | .uploadFinalize _ _ d, path => path <:+ (blobPath d).tail
  | .uploadCreate _ id, path => path <:+ (uploadPath id).tail
  | .manifestPut repo _ _, path => path <:+ "digests" :: repoPath repo ∨ path <:+ "tags" :: repoPath repo
  | _, _ => False

variable {names dirs : Path → Prop} {tree : Tree}

omit [Sha2] in
theorem frozen_atomicWrite {name : String} {parent : Path} (content : Bytes)
    (hpath : ¬names (name :: parent)) (htmp : ¬names (tmpPath (name :: parent)))
    (habove : ∀ above, above <:+ parent → ¬dirs above) :
    Tree.Frozen names dirs tree ((atomicWrite (name :: parent) content).run Tree.handle tree).2 :=
  Tree.Frozen.replaceFile content hpath htmp habove

omit [Sha2] in
theorem frozen_append {id : String} (chunk : Bytes) (h : ¬names (uploadPath id)) :
    Tree.Frozen names dirs tree ((uploadAppend id chunk).run Tree.handle tree).2 := by
  refine ((Tree.Frozen.look (.openAppend _) fun _ => rfl).mapError _).bind
    fun inode opened hopen => ?_
  have hfile : opened.node (uploadPath id) = some (.file inode) := by
    rw [Fallible.run_mapError, FileM.run_call, Tree.handle] at hopen
    obtain ⟨hanswer, rfl⟩ := Prod.mk.inj hopen
    cases hresult : tree.openAppend (uploadPath id) with
    | error err =>
        rw [hresult] at hanswer
        cases hanswer
    | ok found =>
        rw [hresult] at hanswer
        rw [← Except.ok.inj hanswer]
        exact Tree.openAppend_eq_ok.mp hresult
  refine ((Tree.Frozen.append chunk h hfile).mapError _).bind fun _ _ _ => ?_
  exact ((Tree.Frozen.look (.len inode) fun _ => rfl).mapError _).bind fun _ _ _ => .refl _

-- What a push does once the manifest is stored.
def putReference (repo : String) (reference : Reference) (digest : Digest) : DiskM Digest :=
  match reference with
  | .digest _ => pure digest
  | .tag tag =>
      if tag = "." then do
        Fallible.mapError fromIo (FileM.call (.createDirAll (repoPath repo)))
        Fallible.mapError fromIo (writeFile (tmpName "tags" :: repoPath repo) (utf8 digest.toString))
        Fallible.fail .io
      else if tag = ".." then do
        Fallible.mapError fromIo (FileM.call (.createDirAll ("tags" :: repoPath repo)))
        Fallible.fail .io
      else do
        Fallible.mapError fromIo (atomicWrite (manifestTagPath repo tag) (utf8 digest.toString))
        pure digest

def putManifest (repo : String) (content : Bytes) : DiskM Unit :=
  Fallible.mapError fromIo
    (atomicWrite (manifestDigestPath repo (hashContent .sha256 content)) content)

theorem body_manifestPut (repo : String) (reference : Reference) (content : Bytes) (tree : Tree) :
    StorageOp.body tree (.manifestPut repo reference content) =
      putManifest repo content >>= fun _ =>
        putReference repo reference (hashContent .sha256 content) := by
  cases reference with
  | digest d => rfl
  | tag tag =>
      by_cases hdot : tag = "."
      · subst hdot
        rfl
      · by_cases hdots : tag = ".."
        · subst hdots
          rfl
        · simp only [StorageOp.body, Reference.tag.injEq, hdot, hdots, or_self, if_false,
            putReference]
          rfl

omit [Sha2] in
theorem frozen_reference {repo : String} {reference : Reference} (digest : Digest)
    (hfiles : ∀ path, PutTouches repo reference path → ¬names path)
    (hmade : ∀ path, path <:+ "tags" :: repoPath repo → ¬dirs path) :
    Tree.Frozen names dirs tree ((putReference repo reference digest).run Tree.handle tree).2 := by
  cases reference with
  | digest d => exact .refl tree
  | tag tag =>
      simp only [putReference]
      split
      · rename_i hdot
        refine ((Tree.Frozen.createDirAll fun above h =>
          hmade above (h.trans (List.suffix_cons _ _))).mapError _).bind fun _ _ _ => ?_
        refine ((Tree.Frozen.writeFile _ (hfiles _ ?_)).mapError _).bind fun _ _ _ => .refl _
        simp [PutTouches, hdot]
      · split
        · exact ((Tree.Frozen.createDirAll hmade).mapError _).bind fun _ _ _ => .refl _
        · rename_i hdot hdots
          refine ((frozen_atomicWrite _ (hfiles _ ?_) (hfiles _ ?_) hmade).mapError _).bind
            fun _ _ _ => .refl _
          · simp [PutTouches, hdot, hdots, manifestTagPath]
          · simp [PutTouches, hdot, hdots, manifestTagPath]

theorem frozen_put {repo : String} {reference : Reference} (content : Bytes)
    (hfiles : ∀ path, (StorageOp.manifestPut repo reference content).Touches path → ¬names path)
    (hmade : ∀ path, (StorageOp.manifestPut repo reference content).Makes path → ¬dirs path) :
    Tree.Frozen names dirs tree
      ((StorageOp.body tree (.manifestPut repo reference content)).run Tree.handle tree).2 := by
  have hstored : Tree.Frozen names dirs tree ((putManifest repo content).run Tree.handle tree).2 :=
    (frozen_atomicWrite content (hfiles _ (.inl rfl)) (hfiles _ (.inr (.inl rfl)))
      fun above h => hmade above (.inl h)).mapError _
  rw [body_manifestPut]
  refine hstored.bind fun _ _ _ => ?_
  exact frozen_reference _ (fun path h => hfiles path (.inr (.inr h)))
    fun path h => hmade path (.inr h)

end Calls

section Looks

-- The calls that only look at the tree.
def Looks (op : FileOp) : Prop := ∀ tree, (Tree.handle op tree).2 = tree

variable {ε α : Type}

theorem looks_call (op : FileOp) (h : Looks op) : (FileM.call op).Uses Looks := ⟨h, fun _ => trivial⟩

theorem uses_mapError {ε' : Type} {prog : Fallible ε FileOp FileOp.Ans α} (f : ε → ε')
    (h : prog.Uses Looks) : (Fallible.mapError f prog).Uses Looks :=
  Prog.Uses.bind h fun _ => trivial

theorem looks_read (path : Path) : (FileM.call (.read path)).Uses Looks :=
  looks_call _ fun _ => rfl

theorem looks_readDir (path : Path) : (FileM.call (.readDir path)).Uses Looks :=
  looks_call _ fun _ => rfl

theorem looks_metadata (path : Path) : (FileM.call (.metadata path)).Uses Looks :=
  looks_call _ fun _ => rfl

theorem looks_blobExists (d : Digest) : (blobExists d).Uses Looks := by
  refine (uses_mapError _ (looks_metadata (blobPath d)).attempt).bind fun found => ?_
  rcases found with (_ | _) | _ <;> trivial

theorem looks_uploadStatus (id : String) : (uploadStatus id).Uses Looks :=
  (uses_mapError _ (looks_metadata (uploadPath id))).bind fun _ => trivial

theorem looks_atDots (repo : String) : (atDots repo : DiskM α).Uses Looks :=
  (uses_mapError _ (looks_metadata ("tags" :: repoPath repo))).bind fun _ => trivial

theorem looks_readToString (path : Path) : (readToString path).Uses Looks := by
  refine (looks_read path).bind fun bytes => ?_
  cases fromUtf8 bytes <;> trivial

theorem looks_manifestGet (repo : String) (reference : Reference) :
    (manifestGet repo reference).Uses Looks := by
  have hread : ∀ d, (Fallible.mapError ioToStorage
      (FileM.call (.read (manifestDigestPath repo d)))).Uses Looks :=
    fun d => uses_mapError _ (looks_read (manifestDigestPath repo d))
  cases reference with
  | digest d => exact hread d
  | tag tag =>
      refine (uses_mapError _ (looks_readToString (manifestTagPath repo tag))).bind fun s => ?_
      cases tagDigest s with
      | error err => trivial
      | ok d => exact hread d

theorem looks_listTags (repo : String) : (listTags repo).Uses Looks := by
  refine (uses_mapError _ (looks_readDir ("tags" :: repoPath repo)).attempt).bind fun found => ?_
  rcases found with err | _
  · cases err <;> trivial
  · trivial

theorem looks_listManifestDigests (repo : String) : (listManifestDigests repo).Uses Looks := by
  refine (uses_mapError _ (looks_readDir ("digests" :: repoPath repo)).attempt).bind fun found => ?_
  rcases found with err | _
  · cases err <;> trivial
  · trivial

theorem looks_walkChildren {walk : Path → List String → FileM (List String)}
    (h : ∀ dir out, (walk dir out).Uses Looks) (dir : Path) (children out : List String) :
    (walkChildren walk dir children out).Uses Looks := by
  induction children generalizing out with
  | nil => trivial
  | cons child rest ih => exact (h (child :: dir) out).bind ih

theorem looks_walkRepos (steps : Nat) (dir : Path) (out : List String) :
    (walkRepos steps dir out).Uses Looks := by
  induction steps generalizing dir out with
  | zero => trivial
  | succ steps ih =>
      refine (looks_readDir dir).attempt.bind fun found => ?_
      rcases found with err | entries
      · cases err <;> trivial
      · exact looks_walkChildren ih dir _ _

theorem looks_listRepos (steps : Nat) : (listRepos steps).Uses Looks :=
  (uses_mapError _ (looks_walkRepos steps ["manifests"] [])).bind fun _ => trivial

theorem run_looks {prog : Prog FileOp FileOp.Ans α} (h : prog.Uses Looks) (tree : Tree) :
    (prog.run Tree.handle tree).2 = tree := by
  induction prog generalizing tree with
  | pure value => rfl
  | call op next ih =>
      rw [Prog.run_call, ih _ (h.2 _), h.1 tree]

end Looks

end RspaceRegistry.Disk
