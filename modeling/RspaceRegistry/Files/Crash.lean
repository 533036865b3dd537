import RspaceRegistry.Files.Frozen

namespace RspaceRegistry.Files

open Calls

-- A process that is killed between two file operations, or in the middle of one.

-- What has been done of an operation that was under way.
inductive Torn : FileOp → FileOp → Prop
  | createDirAll {path above : Path} (h : above <:+ path) :
      Torn (.createDirAll path) (.createDirAll above)
  | write (inode : Nat) (bytes : List UInt8) (n : Nat) :
      Torn (.write inode bytes) (.write inode (bytes.take n))
  | append (inode : Nat) (bytes : List UInt8) (n : Nat) :
      Torn (.append inode bytes) (.append inode (bytes.take n))

-- The trees in which the program may leave a tree behind.
inductive Left {α : Type} : Prog FileOp FileOp.Ans α → Tree → Tree → Prop
  | stop (prog : Prog FileOp FileOp.Ans α) (tree : Tree) : Left prog tree tree
  | torn {op part : FileOp} (next : op.Ans → Prog FileOp FileOp.Ans α) (tree : Tree)
      (h : Torn op part) : Left (.call op next) tree (Tree.handle part tree).2
  | call {op : FileOp} {next : op.Ans → Prog FileOp FileOp.Ans α} {tree tree' : Tree}
      (h : Left (next (Tree.handle op tree).1) (Tree.handle op tree).2 tree') :
      Left (.call op next) tree tree'

section Programs

variable {ε ε' α β : Type} {tree tree' : Tree}

theorem left_run (prog : Prog FileOp FileOp.Ans α) (tree : Tree) :
    Left prog tree (prog.run Tree.handle tree).2 := by
  induction prog generalizing tree with
  | pure value => exact .stop _ tree
  | call op next ih => exact .call (ih _ _)

theorem left_bind {prog : Prog FileOp FileOp.Ans α} {rest : α → Prog FileOp FileOp.Ans β}
    (h : Left (prog.bind rest) tree tree') : Left prog tree tree' ∨
      Left (rest (prog.run Tree.handle tree).1) (prog.run Tree.handle tree).2 tree' := by
  induction prog generalizing tree with
  | pure value => exact .inr h
  | call op next ih =>
      cases h with
      | stop _ _ => exact .inl (.stop _ _)
      | torn _ _ htorn => exact .inl (.torn _ _ htorn)
      | call hnext => exact (ih _ hnext).imp .call id

theorem eq_of_left_pure {value : α} (h : Left (.pure value) tree tree') : tree' = tree := by
  cases h
  rfl

theorem left_of_map {prog : Prog FileOp FileOp.Ans α} {f : α → β}
    (h : Left (prog.bind fun value => .pure (f value)) tree tree') : Left prog tree tree' := by
  rcases left_bind h with hprog | hpure
  · exact hprog
  · rw [eq_of_left_pure hpure]
    exact left_run prog tree

-- A program that stops in the middle stops in its first part, or after it.
theorem left_andThen {prog : Fallible ε FileOp FileOp.Ans α}
    {rest : α → Fallible ε FileOp FileOp.Ans β}
    (h : Left (prog >>= rest : Fallible ε FileOp FileOp.Ans β) tree tree') :
    Left prog tree tree' ∨ ∃ value mid, prog.run Tree.handle tree = (.ok value, mid) ∧
      Left (rest value) mid tree' := by
  rcases left_bind h with hprog | hrest
  · exact .inl hprog
  · rcases hrun : prog.run Tree.handle tree with ⟨result, mid⟩
    have hrun' : Prog.run Tree.handle prog tree = (result, mid) := hrun
    rw [hrun'] at hrest
    cases result with
    | error err =>
        have hlast := left_run prog tree
        rw [hrun'] at hlast
        rw [eq_of_left_pure hrest]
        exact .inl hlast
    | ok value => exact .inr ⟨value, mid, rfl, hrest⟩

-- Nothing happens in a returned value.
theorem left_of_last {prog : Fallible ε FileOp FileOp.Ans α} {f : α → β}
    (h : Left (prog >>= fun value => pure (f value) : Fallible ε FileOp FileOp.Ans β) tree tree') :
    Left prog tree tree' := by
  rcases left_andThen h with hprog | ⟨value, mid, hrun, hpure⟩
  · exact hprog
  · rw [eq_of_left_pure hpure]
    have hlast := left_run prog tree
    have hrun' : Prog.run Tree.handle prog tree = (.ok value, mid) := hrun
    rwa [hrun'] at hlast

theorem run_of_last (prog : Fallible ε FileOp FileOp.Ans α) (f : α → β) (tree : Tree) :
    ((prog >>= fun value => pure (f value) : Fallible ε FileOp FileOp.Ans β).run Tree.handle
      tree).2 = (prog.run Tree.handle tree).2 := by
  rcases hrun : prog.run Tree.handle tree with ⟨result, mid⟩
  cases result with
  | error err => rw [Fallible.run_bind_of_error hrun]
  | ok value =>
      rw [Fallible.run_bind_of_ok hrun]
      rfl

theorem left_mapError {prog : Fallible ε FileOp FileOp.Ans α} {f : ε → ε'}
    (h : Left (Fallible.mapError f prog) tree tree') : Left prog tree tree' := left_of_map h

theorem left_attempt {prog : Fallible ε FileOp FileOp.Ans α}
    (h : Left (Fallible.attempt prog) tree tree') : Left prog tree tree' := left_of_map h

theorem left_fileOp {op : FileOp} (h : Left (FileM.call op) tree tree') : tree' = tree ∨
    (∃ part, Torn op part ∧ tree' = (Tree.handle part tree).2) ∨
      tree' = (Tree.handle op tree).2 := by
  cases h with
  | stop _ _ => exact .inl rfl
  | torn _ _ htorn => exact .inr (.inl ⟨_, htorn, rfl⟩)
  | call hpure => exact .inr (.inr (eq_of_left_pure hpure))

-- Some operations are done or not.
theorem left_whole {op : FileOp} (hop : ∀ part, ¬Torn op part)
    (h : Left (FileM.call op) tree tree') : tree' = tree ∨ tree' = (Tree.handle op tree).2 := by
  rcases left_fileOp h with hsame | ⟨part, htorn, -⟩ | hdone
  · exact .inl hsame
  · exact absurd htorn (hop part)
  · exact .inr hdone

end Programs

namespace Tree.Frozen

variable {names dirs : Path → Prop} {tree tree' : Tree} {path : Path}

-- A part of an operation changes nothing that the operation would not.
theorem left {op : FileOp} (htouch : ∀ path, names path → ¬tree.Touches op path)
    (hmade : ∀ made, op = .createDirAll made → ∀ path, dirs path → ¬path <:+ made)
    (h : Left (FileM.call op) tree tree') : Frozen names dirs tree tree' := by
  rcases left_fileOp h with rfl | ⟨part, htorn, rfl⟩ | rfl
  · exact .refl tree'
  · refine Frozen.call part (fun path hpath => ?_) fun made heq path hpath habove => ?_
    · cases htorn with
      | createDirAll _ => exact id
      | write _ _ _ => exact htouch path hpath
      | append _ _ _ => exact htouch path hpath
    · cases htorn with
      | createDirAll hpart =>
          cases heq
          exact hmade _ rfl path hpath (habove.trans hpart)
      | write _ _ _ => cases heq
      | append _ _ _ => cases heq
  · exact Frozen.call op htouch hmade

theorem left_createDirAll (hpath : ∀ above, above <:+ path → ¬dirs above)
    (h : Left (FileM.call (.createDirAll path)) tree tree') : Frozen names dirs tree tree' := by
  refine left (fun _ _ => id) ?_ h
  rintro made heq above hdirs habove
  cases heq
  exact hpath above habove hdirs

theorem left_create (hpath : ¬names path) (h : Left (FileM.call (.create path)) tree tree') :
    Frozen names dirs tree tree' := by
  refine left (fun other hother htouch => ?_) (fun _ heq => ?_) h
  · have heq : other = path := htouch
    exact hpath (heq ▸ hother)
  · cases heq

theorem left_write {inode : Nat} {bytes : List UInt8} (hpath : ¬names path)
    (hfile : tree.node path = some (.file inode))
    (h : Left (FileM.call (.write inode bytes)) tree tree') : Frozen names dirs tree tree' := by
  refine left (fun other hother htouch => ?_) (fun _ heq => ?_) h
  · exact hpath (tree.single other path inode htouch hfile ▸ hother)
  · cases heq

theorem left_writeFile {bytes : List UInt8} (hpath : ¬names path)
    (h : Left (FileM.call (.create path) >>= fun inode =>
      FileM.call (.write inode bytes) : FileM Unit) tree tree') : Frozen names dirs tree tree' := by
  rcases left_andThen h with hcreate | ⟨inode, opened, hrun, hwrite⟩
  · exact left_create hpath hcreate
  · have hopened : Frozen names dirs tree opened := by
      have hfirst : Frozen names dirs tree ((FileM.call (.create path)).run handle tree).2 :=
        create hpath
      rwa [hrun] at hfirst
    exact hopened.trans (left_write hpath (node_of_create hrun) hwrite)

-- A file that is replaced is the old one until it is the new one.
theorem left_replaceFile {tmp : Path} {content : List UInt8} (htmp : ¬names tmp)
    (habove : ∀ above, above <:+ path.tail → ¬dirs above)
    (h : Left (Files.replaceFile tmp path content) tree tree') : Frozen names dirs tree tree' ∨
      tree' = ((Files.replaceFile tmp path content).run handle tree).2 := by
  rcases left_andThen h with hdirs | ⟨_, made, hmade, h⟩
  · exact .inl (left_createDirAll habove hdirs)
  have htoMade : Frozen names dirs tree made := by
    have hfirst : Frozen names dirs tree
      ((FileM.call (.createDirAll path.tail)).run handle tree).2 :=
      createDirAll habove
    rwa [hmade] at hfirst
  rcases left_andThen h with hcreate | ⟨inode, opened, hopen, h⟩
  · exact .inl (htoMade.trans (left_create htmp hcreate))
  have htoOpened : Frozen names dirs tree opened := by
    have hnext : Frozen names dirs made ((FileM.call (.create tmp)).run handle made).2 :=
      create htmp
    rw [hopen] at hnext
    exact htoMade.trans hnext
  have hnode := node_of_create hopen
  rcases left_andThen h with hwrite | ⟨_, written, hwritten, h⟩
  · exact .inl (htoOpened.trans (left_write htmp hnode hwrite))
  have htoWritten : Frozen names dirs tree written := by
    have hnext : Frozen names dirs opened
      ((FileM.call (.write inode content)).run handle opened).2 := write content htmp hnode
    rw [hwritten] at hnext
    exact htoOpened.trans hnext
  rcases left_andThen h with hsync | ⟨_, synced, hsynced, h⟩
  · rcases left_whole (fun part htorn => by cases htorn) hsync with rfl | rfl
    · exact .inl htoWritten
    · exact .inl htoWritten
  obtain rfl : written = synced := (Prod.mk.inj hsynced).2
  rcases left_whole (fun part htorn => by cases htorn) h with rfl | rfl
  · exact .inl htoWritten
  · refine .inr ?_
    rw [Files.replaceFile, Fallible.run_bind_of_ok hmade, Fallible.run_bind_of_ok hopen,
      Fallible.run_bind_of_ok hwritten, Fallible.run_bind_of_ok hsynced]
    rfl

end Tree.Frozen

namespace Tree

variable {tree tree' : Tree} {path : Path}

theorem fileAt_of_renamed {src dst : Path} {inode : Nat}
    (hsrc : tree.node src = some (.file inode)) (h : (tree.rename src dst).1 = .ok ()) :
    (tree.rename src dst).2.fileAt dst = some (tree.contents inode) := by
  rw [rename, find_of_node hsrc] at h
  cases hentry : tree.entry dst with
  | error err =>
      rw [hentry] at h
      cases h
  | ok node =>
      rcases entry_eq_ok hentry with ⟨-, rfl⟩ | ⟨name, parent, rfl, hparent, rfl⟩
      · rw [hentry] at h
        cases h
      · refine rename_fileAt hsrc hparent fun hdir => ?_
        rw [hentry, hdir] at h
        cases h

-- A file that was replaced is there.
theorem fileAt_of_replaced {tmp : Path} {content : List UInt8}
    (h : (replaceFile tmp path content).run handle tree = (.ok (), tree')) :
    tree'.fileAt path = some content := by
  obtain ⟨_, made, -, h⟩ := Fallible.run_bind_eq_ok h
  obtain ⟨inode, opened, hopen, h⟩ := Fallible.run_bind_eq_ok h
  obtain ⟨hnode, hcontents, -⟩ := of_create hopen
  obtain ⟨_, written, hwrite, h⟩ := Fallible.run_bind_eq_ok h
  obtain ⟨_, synced, hsync, h⟩ := Fallible.run_bind_eq_ok h
  have hsame : synced = written := (Prod.mk.inj hsync).2.symm
  have hwritten : opened.write inode content = written := (Prod.mk.inj hwrite).2
  have hrename : synced.rename tmp path = (.ok (), tree') := h
  have hfile : synced.node tmp = some (.file inode) := by
    rw [hsame, ← hwritten, write, store_node, hnode]
  have hbytes : synced.contents inode = content := by
    rw [hsame, ← hwritten, write, store_contents, Function.update_self, hcontents, List.drop_nil,
      List.append_nil]
  have hplace := fileAt_of_renamed hfile (congrArg Prod.fst hrename)
  rwa [hrename, hbytes] at hplace

end Tree

end RspaceRegistry.Files
