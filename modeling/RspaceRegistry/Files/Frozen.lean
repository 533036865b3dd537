import RspaceRegistry.Files.Atomic

namespace RspaceRegistry.Files

open Calls

namespace Tree

variable {tree tree' tree'' : Tree} {path : Path}

section Answers

-- What a read finds depends on the file there, or on what stands there or above
-- instead.
theorem read_eq (tree : Tree) (path : Path) : tree.read path =
    match tree.fileAt path with
    | some bytes => .ok bytes
    | none =>
        if tree.node path = some .dir then .error .isADirectory
        else if tree.Blocked path then .error .notADirectory
        else .error .notFound := by
  cases hnode : tree.node path with
  | none =>
      rw [fileAt_of_none hnode, read]
      by_cases hblocked : tree.Blocked path
      · simp [find_of_blocked hblocked, hblocked]
      · simp [find_of_none hnode hblocked, hblocked]
  | some node =>
      cases node with
      | dir => simp [read, fileAt, find_of_node hnode, hnode]
      | file inode => rw [read_file hnode, fileAt_of_file hnode]

theorem metadata_eq (tree : Tree) (path : Path) : tree.metadata path =
    match (tree.fileAt path).map List.length with
    | some len => .ok (some len)
    | none =>
        if tree.node path = some .dir then .ok none
        else if tree.Blocked path then .error .notADirectory
        else .error .notFound := by
  cases hnode : tree.node path with
  | none =>
      rw [fileAt_of_none hnode, metadata]
      by_cases hblocked : tree.Blocked path
      · simp [find_of_blocked hblocked, hblocked]
      · simp [find_of_none hnode hblocked, hblocked]
  | some node =>
      cases node with
      | dir => simp [metadata, fileAt, find_of_node hnode, hnode]
      | file inode => simp [metadata, fileAt_of_file hnode, find_of_node hnode]

theorem readDir_error (h : tree.node path ≠ some .dir) : tree.readDir path =
    .error (if (tree.fileAt path).isSome ∨ tree.Blocked path then .notADirectory else .notFound) := by
  rw [readDir]
  rcases file_or_none h with ⟨inode, hfile⟩ | hnone
  · simp [find_of_node hfile, fileAt_of_file hfile]
  · rw [fileAt_of_none hnone]
    by_cases hblocked : tree.Blocked path
    · simp [find_of_blocked hblocked, hblocked]
    · simp [find_of_none hnone hblocked, hblocked]

-- A created file is empty, and has its inode for itself.
theorem of_create {inode : Nat}
    (h : (FileM.call (.create path)).run Tree.handle tree = (.ok inode, tree')) :
    tree'.node path = some (.file inode) ∧ tree'.contents inode = [] ∧
      ∀ other, tree.node other = some (.file inode) → other = path := by
  have hcreate : tree.create path = (.ok inode, tree') := h
  have hplace : ∃ name parent, path = name :: parent ∧ tree.node parent = some .dir ∧
      tree.node path ≠ some .dir := by
    rw [create] at hcreate
    cases hentry : tree.entry path with
    | error err =>
        rw [hentry] at hcreate
        cases (Prod.mk.inj hcreate).1
    | ok node =>
        rw [hentry] at hcreate
        rcases entry_eq_ok hentry with ⟨-, rfl⟩ | ⟨name, parent, rfl, hparent, rfl⟩
        · cases (Prod.mk.inj hcreate).1
        · refine ⟨name, parent, rfl, hparent, fun hdir => ?_⟩
          rw [hdir] at hcreate
          cases (Prod.mk.inj hcreate).1
  obtain ⟨name, parent, rfl, hparent, hdir⟩ := hplace
  obtain ⟨inode', hcreated, hnode, hcontents, honly⟩ := create_ok hparent hdir
  rw [hcreate] at hcreated hnode hcontents
  obtain rfl : inode = inode' := Except.ok.inj hcreated
  refine ⟨(hnode _).trans (if_pos rfl), ?_, honly⟩
  rw [hcontents, Function.update_self]

theorem node_of_create {inode : Nat}
    (h : (FileM.call (.create path)).run Tree.handle tree = (.ok inode, tree')) :
    tree'.node path = some (.file inode) := (of_create h).1

-- On any tree a file is replaced as a whole or not at all.
theorem replaceFile_content {tmp : Path} (hne : path ≠ tmp) (content : List UInt8) :
    ((replaceFile tmp path content).run Tree.handle tree).2.fileAt path = tree.fileAt path ∨
      ((replaceFile tmp path content).run Tree.handle tree).2.fileAt path = some content := by
  have hmade : (tree.createDirAll path.tail).2.fileAt path = tree.fileAt path :=
    (createDirAll_frame path.tail path).fileAt
  rcases hdirs : (FileM.call (.createDirAll path.tail)).run Tree.handle tree with ⟨result, made⟩
  have hsame : made.fileAt path = tree.fileAt path := by
    rw [← hmade]
    exact congrArg (fun run => Tree.fileAt run.2 path) hdirs.symm
  cases result with
  | error err =>
      rw [replaceFile, Fallible.run_bind_of_error hdirs]
      exact .inl hsame
  | ok _ =>
      rw [replaceFile, Fallible.run_bind_of_ok hdirs]
      rcases hcreate : (FileM.call (.create tmp)).run Tree.handle made with ⟨result, opened⟩
      have hopened : opened.fileAt path = made.fileAt path := by
        rw [← (create_frame hne : Keeps made (made.create tmp).2 path).fileAt]
        exact congrArg (fun run => Tree.fileAt run.2 path) hcreate.symm
      cases result with
      | error err =>
          rw [Fallible.run_bind_of_error hcreate]
          exact .inl (hopened.trans hsame)
      | ok inode =>
          rw [Fallible.run_bind_of_ok hcreate]
          obtain ⟨hnode, hcontents, -⟩ := of_create hcreate
          show ((opened.write inode content).rename tmp path).2.fileAt path = _ ∨
            ((opened.write inode content).rename tmp path).2.fileAt path = _
          have hwritten : opened.write inode content = opened.store inode content := by
            rw [write, hcontents, List.drop_nil, List.append_nil]
          have hapart : opened.node path ≠ some (.file inode) :=
            fun hpath => hne (opened.single path tmp inode hpath hnode)
          rw [hwritten]
          rcases (opened.store inode content).rename_cases tmp path with
            hkept | ⟨moved, name, parent, hsrc, rfl, hparent, hdst⟩
          · rw [hkept, (store_frame hapart).fileAt]
            exact .inl (hopened.trans hsame)
          · refine .inr ?_
            rw [rename_fileAt hsrc hparent hdst]
            rw [store_node, hnode] at hsrc
            cases hsrc
            rw [store_contents, Function.update_self]

-- What writing a file changes.
structure Written (path : Path) (content : List UInt8) (tree tree' : Tree) : Prop where
  content : tree'.fileAt path = some content
  others : ∀ other, other ≠ path → tree'.fileAt other = tree.fileAt other
  dirs : ∀ other, tree'.node other = some .dir ↔ tree.node other = some .dir

theorem create_write {name : String} {parent : Path} (hparent : tree.node parent = some .dir)
    (hdir : tree.node (name :: parent) ≠ some .dir) (content : List UInt8) : ∃ inode created,
      tree.create (name :: parent) = (.ok inode, created) ∧
        created.node (name :: parent) = some (.file inode) ∧
        Written (name :: parent) content tree (created.write inode content) := by
  obtain ⟨inode, hanswer, hnode, hcontents, honly⟩ := create_ok hparent hdir
  have hself : (tree.create (name :: parent)).2.node (name :: parent) = some (.file inode) := by
    rw [hnode, if_pos rfl]
  refine ⟨inode, _, Prod.ext hanswer rfl, hself, ?_, fun other hother => ?_, fun other => ?_⟩
  · refine fileAt_eq_some.mpr ⟨inode, hself, ?_⟩
    rw [write, store_contents, Function.update_self, hcontents, Function.update_self,
      List.drop_nil, List.append_nil]
  · rw [write, (store_frame _).fileAt, (create_frame hother).fileAt]
    rw [hnode, if_neg hother]
    exact fun hfile => hother (honly other hfile)
  · rw [write, store_node, hnode]
    split
    · rename_i heq
      rw [heq]
      exact ⟨fun hnew => (by cases hnew), fun hold => absurd hold hdir⟩
    · exact Iff.rfl

-- The ways in which a file is not replaced.
section Failures

variable {base name : String} {parent : Path} (content : List UInt8)

theorem replaceFile_in_the_way {above : Path} {inode : Nat} (habove : above <:+ parent)
    (hfile : tree.node above = some (.file inode)) : ∃ err,
      (replaceFile (base :: parent) (name :: parent) content).run Tree.handle tree =
        (.error err, tree) := by
  obtain ⟨err, hdirs⟩ := createDirAll_error habove hfile
  have hrun : (FileM.call (.createDirAll parent)).run Tree.handle tree = (.error err, tree) := hdirs
  exact ⟨err, Fallible.run_bind_of_error hrun _⟩

theorem createDirAll_of_dir {path : Path} (h : tree.node path = some .dir) :
    tree.createDirAll path = (.ok (), tree) := by
  rw [createDirAll, find_of_node h]

theorem replaceFile_tmp_dir (htmp : tree.node (base :: parent) = some .dir) : ∃ err,
    (replaceFile (base :: parent) (name :: parent) content).run Tree.handle tree =
      (.error err, tree) := by
  have hparent : tree.node parent = some .dir :=
    dir_above htmp (List.suffix_cons _ _) (List.ne_cons_self)
  have hdirs : (FileM.call (.createDirAll parent)).run Tree.handle tree = (.ok (), tree) :=
    createDirAll_of_dir hparent
  have hcreate : (FileM.call (.create (base :: parent))).run Tree.handle tree =
      (.error .isADirectory, tree) := by
    rw [FileM.run_call, handle, create, entry_of_parent hparent, htmp]
  refine ⟨.isADirectory, ?_⟩
  rw [replaceFile, List.tail_cons, Fallible.run_bind_of_ok hdirs, Fallible.run_bind_of_error hcreate]

theorem replaceFile_onto_dir (hdst : tree.node (name :: parent) = some .dir)
    (htmp : tree.node (base :: parent) ≠ some .dir) : ∃ err tree',
      (replaceFile (base :: parent) (name :: parent) content).run Tree.handle tree =
        (.error err, tree') ∧ Written (base :: parent) content tree tree' := by
  have hparent : tree.node parent = some .dir :=
    dir_above hdst (List.suffix_cons _ _) (List.ne_cons_self)
  have hdirs : (FileM.call (.createDirAll parent)).run Tree.handle tree = (.ok (), tree) :=
    createDirAll_of_dir hparent
  obtain ⟨inode, created, hcreate, hself, hwritten⟩ := create_write hparent htmp content
  have hopen : (FileM.call (.create (base :: parent))).run Tree.handle tree =
      (.ok inode, created) := hcreate
  have hrename : (created.write inode content).rename (base :: parent) (name :: parent) =
      (.error .isADirectory, created.write inode content) := by
    have hsrc : (created.write inode content).node (base :: parent) = some (.file inode) := hself
    have hdst' := (hwritten.dirs (name :: parent)).mpr hdst
    have hparent' := (hwritten.dirs parent).mpr hparent
    rw [rename, find_of_node hsrc, entry_of_parent hparent', hdst']
  refine ⟨.isADirectory, created.write inode content, ?_, hwritten⟩
  rw [replaceFile, List.tail_cons, Fallible.run_bind_of_ok hdirs, Fallible.run_bind_of_ok hopen]
  exact hrename

end Failures

end Answers

section Keeps

theorem Keeps.trans (h : Keeps tree tree' path) (h' : Keeps tree' tree'' path) :
    Keeps tree tree'' path := fun inode =>
  ⟨(h' inode).1.trans (h inode).1,
    fun hnode => ((h' inode).2 ((h inode).1.mpr hnode)).trans ((h inode).2 hnode)⟩

end Keeps

-- At the names no file comes, goes or changes, and at those of the second kind no
-- directory comes or goes either.
structure Frozen (names dirs : Path → Prop) (tree tree' : Tree) : Prop where
  kept : ∀ path, names path → Keeps tree tree' path
  dirs : ∀ path, dirs path → (tree'.node path = some .dir ↔ tree.node path = some .dir)

namespace Frozen

variable {names dirs : Path → Prop}

theorem refl (tree : Tree) : Frozen names dirs tree tree :=
  ⟨fun path _ => .refl tree path, fun _ _ => Iff.rfl⟩

theorem trans (h : Frozen names dirs tree tree') (h' : Frozen names dirs tree' tree'') :
    Frozen names dirs tree tree'' :=
  ⟨fun path hpath => (h.kept path hpath).trans (h'.kept path hpath),
    fun path hpath => (h'.dirs path hpath).trans (h.dirs path hpath)⟩

section Programs

variable {ε ε' α β : Type}

theorem call (op : FileOp) (htouch : ∀ path, names path → ¬tree.Touches op path)
    (hmade : ∀ made, op = .createDirAll made → ∀ path, dirs path → ¬path <:+ made) :
    Frozen names dirs tree ((FileM.call op).run Tree.handle tree).2 := by
  rw [FileM.run_call]
  refine ⟨fun path hpath => handle_frame (htouch path hpath), fun path hpath => ?_⟩
  constructor
  · intro hdir
    rcases dir_of_handle hdir with hold | ⟨made, hop, habove⟩
    · exact hold
    · exact absurd habove (hmade made hop path hpath)
  · exact handle_dir

theorem bind {prog : Fallible ε FileOp FileOp.Ans α} {rest : α → Fallible ε FileOp FileOp.Ans β}
    (hp : Frozen names dirs tree (prog.run Tree.handle tree).2)
    (hr : ∀ value mid, prog.run Tree.handle tree = (.ok value, mid) →
      Frozen names dirs mid ((rest value).run Tree.handle mid).2) :
    Frozen names dirs tree ((prog >>= rest).run Tree.handle tree).2 := by
  rcases hrun : prog.run Tree.handle tree with ⟨result, mid⟩
  rw [hrun] at hp
  cases result with
  | error err =>
      rw [Fallible.run_bind_of_error hrun]
      exact hp
  | ok value =>
      rw [Fallible.run_bind_of_ok hrun]
      exact hp.trans (hr value mid hrun)

theorem mapError {prog : Fallible ε FileOp FileOp.Ans α} (f : ε → ε')
    (h : Frozen names dirs tree (prog.run Tree.handle tree).2) :
    Frozen names dirs tree ((Fallible.mapError f prog).run Tree.handle tree).2 := by
  rw [Fallible.run_mapError]
  exact h

theorem attempt {prog : Fallible ε FileOp FileOp.Ans α}
    (h : Frozen names dirs tree (prog.run Tree.handle tree).2) :
    Frozen names dirs tree ((Fallible.attempt prog).run Tree.handle tree).2 := by
  rw [Fallible.run_attempt]
  exact h

-- An operation that only looks.
theorem look (op : FileOp) (h : ∀ tree, (Tree.handle op tree).2 = tree) :
    Frozen names dirs tree ((FileM.call op).run Tree.handle tree).2 := by
  rw [FileM.run_call, h]
  exact .refl tree

theorem create (hpath : ¬names path) :
    Frozen names dirs tree ((FileM.call (.create path)).run Tree.handle tree).2 :=
  call _ (fun _ hother heq => hpath (heq ▸ hother)) nofun

theorem createDirAll (hpath : ∀ above, above <:+ path → ¬dirs above) :
    Frozen names dirs tree ((FileM.call (.createDirAll path)).run Tree.handle tree).2 := by
  refine call _ (fun _ _ => id) ?_
  rintro made hmade above hdirs habove
  cases hmade
  exact hpath above habove hdirs

-- Whatever is written goes to the file that the inode is of.
theorem write {inode : Nat} (bytes : List UInt8) (hpath : ¬names path)
    (hfile : tree.node path = some (.file inode)) :
    Frozen names dirs tree ((FileM.call (.write inode bytes)).run Tree.handle tree).2 :=
  call _ (fun other hother htouch => hpath (tree.single other path inode htouch hfile ▸ hother)) nofun

theorem append {inode : Nat} (bytes : List UInt8) (hpath : ¬names path)
    (hfile : tree.node path = some (.file inode)) :
    Frozen names dirs tree ((FileM.call (.append inode bytes)).run Tree.handle tree).2 :=
  call _ (fun other hother htouch => hpath (tree.single other path inode htouch hfile ▸ hother)) nofun

theorem rename {src dst : Path} (hsrc : ¬names src) (hdst : ¬names dst) :
    Frozen names dirs tree ((FileM.call (.rename src dst)).run Tree.handle tree).2 := by
  refine call _ ?_ nofun
  rintro other hother (rfl | rfl)
  · exact hsrc hother
  · exact hdst hother

theorem remove (hpath : ¬names path) :
    Frozen names dirs tree ((FileM.call (.remove path)).run Tree.handle tree).2 :=
  call _ (fun _ hother heq => hpath (heq ▸ hother)) nofun

end Programs

section Writes

theorem writeFile (bytes : List UInt8) (hpath : ¬names path) : Frozen names dirs tree
    ((FileM.call (.create path) >>= fun inode => FileM.call (.write inode bytes)).run Tree.handle
      tree).2 :=
  (create hpath).bind fun _ _ hcreate => write bytes hpath (node_of_create hcreate)

theorem replaceFile {tmp : Path} (content : List UInt8) (hpath : ¬names path) (htmp : ¬names tmp)
    (habove : ∀ above, above <:+ path.tail → ¬dirs above) : Frozen names dirs tree
      ((Files.replaceFile tmp path content).run Tree.handle tree).2 := by
  refine (createDirAll habove).bind fun _ _ _ => ?_
  refine (create htmp).bind fun inode new hcreate => ?_
  refine (write content htmp (node_of_create hcreate)).bind fun _ written _ => ?_
  refine (look (.sync inode) fun _ => rfl).bind fun _ _ _ => ?_
  exact rename htmp hpath

end Writes

end Frozen

-- The same bytes in files of the same names, and directories in the same places.
structure SameAt (names dirs : Path → Prop) (tree tree' : Tree) : Prop where
  files : ∀ path, names path → tree'.fileAt path = tree.fileAt path
  dirs : ∀ path, dirs path → (tree'.node path = some .dir ↔ tree.node path = some .dir)

-- Entries of one kind under one name.
def SameKind : Node → Node → Prop
  | .dir, .dir => True
  | .file _, .file _ => True
  | _, _ => False

namespace SameAt

variable {names dirs : Path → Prop}

theorem of_frozen (h : Frozen names dirs tree tree') : SameAt names dirs tree tree' :=
  ⟨fun path hpath => (h.kept path hpath).fileAt, h.dirs⟩

theorem symm (h : SameAt names dirs tree tree') : SameAt names dirs tree' tree :=
  ⟨fun path hpath => (h.files path hpath).symm, fun path hpath => (h.dirs path hpath).symm⟩

theorem trans (h : SameAt names dirs tree tree') (h' : SameAt names dirs tree' tree'') :
    SameAt names dirs tree tree'' :=
  ⟨fun path hpath => (h'.files path hpath).trans (h.files path hpath),
    fun path hpath => (h'.dirs path hpath).trans (h.dirs path hpath)⟩

theorem file_of_file (h : SameAt names dirs tree tree') (hpath : names path) {inode : Nat}
    (hfile : tree.node path = some (.file inode)) : ∃ inode, tree'.node path = some (.file inode) := by
  have hsame := h.files path hpath
  rw [fileAt_of_file hfile] at hsame
  obtain ⟨inode', hfile', -⟩ := fileAt_eq_some.mp hsame
  exact ⟨inode', hfile'⟩

theorem blocked (h : SameAt names dirs tree tree')
    (habove : ∀ above, above <:+ path → above ≠ path → names above) (hblocked : tree.Blocked path) :
    tree'.Blocked path := by
  obtain ⟨above, inode, hsuffix, hne, hfile⟩ := hblocked
  obtain ⟨inode', hfile'⟩ := h.file_of_file (habove above hsuffix hne) hfile
  exact ⟨above, inode', hsuffix, hne, hfile'⟩

theorem entry_of_entry (h : SameAt names dirs tree tree') (hnames : names path) (hdirs : dirs path)
    {node : Node} (hnode : tree.node path = some node) :
    ∃ node', tree'.node path = some node' ∧ SameKind node node' := by
  cases node with
  | dir => exact ⟨.dir, (h.dirs path hdirs).mpr hnode, trivial⟩
  | file inode =>
      obtain ⟨inode', hfile⟩ := h.file_of_file hnames hnode
      exact ⟨.file inode', hfile, trivial⟩

variable (h : SameAt names dirs tree tree')

include h

theorem blocked_iff (habove : ∀ above, above <:+ path → above ≠ path → names above) :
    tree'.Blocked path ↔ tree.Blocked path := ⟨h.symm.blocked habove, h.blocked habove⟩

theorem read_eq_of_file (habove : ∀ above, above <:+ path → above ≠ path → names above)
    (hpath : dirs path) (hfile : tree'.fileAt path = tree.fileAt path) :
    tree'.read path = tree.read path := by
  rw [read_eq, read_eq, hfile]
  simp only [h.dirs path hpath, h.blocked_iff habove]

theorem metadata_eq_of_length (habove : ∀ above, above <:+ path → above ≠ path → names above)
    (hpath : dirs path)
    (hlength : (tree'.fileAt path).map List.length = (tree.fileAt path).map List.length) :
    tree'.metadata path = tree.metadata path := by
  rw [metadata_eq, metadata_eq, hlength]
  simp only [h.dirs path hpath, h.blocked_iff habove]

-- The listings have entries of the same names and kinds, in whatever order.
theorem readDir_alike (habove : ∀ above, above <:+ path → names above) (hpath : dirs path)
    (hbelow : ∀ name, names (name :: path) ∧ dirs (name :: path)) :
    (∃ err, tree.readDir path = .error err ∧ tree'.readDir path = .error err) ∨
      ∃ entries entries', tree.readDir path = .ok entries ∧ tree'.readDir path = .ok entries' ∧
        (∀ name node, (name, node) ∈ entries → ∃ node', (name, node') ∈ entries' ∧ SameKind node node') ∧
        ∀ name node, (name, node) ∈ entries' → ∃ node', (name, node') ∈ entries ∧ SameKind node node' := by
  by_cases hdir : tree.node path = some .dir
  · obtain ⟨entries, hread, hmem⟩ := mem_readDir hdir
    obtain ⟨entries', hread', hmem'⟩ := mem_readDir ((h.dirs path hpath).mpr hdir)
    refine .inr ⟨entries, entries', hread, hread', ?_, ?_⟩
    · intro name node hentry
      obtain ⟨node', hnode', hkind⟩ :=
        h.entry_of_entry (hbelow name).1 (hbelow name).2 ((hmem name node).mp hentry)
      exact ⟨node', (hmem' name node').mpr hnode', hkind⟩
    · intro name node hentry
      obtain ⟨node', hnode', hkind⟩ :=
        h.symm.entry_of_entry (hbelow name).1 (hbelow name).2 ((hmem' name node).mp hentry)
      exact ⟨node', (hmem name node').mpr hnode', hkind⟩
  · have hdir' := mt (h.dirs path hpath).mp hdir
    have hblocked := h.blocked_iff fun above hsuffix _ => habove above hsuffix
    refine .inl ⟨_, readDir_error hdir, ?_⟩
    rw [readDir_error hdir', h.files path (habove path (List.suffix_refl path))]
    simp only [hblocked]

end SameAt

end Tree

end RspaceRegistry.Files
