import Mathlib.Data.List.DropRight
import RspaceRegistry.Files.Crash

namespace RspaceRegistry.Files

open Calls

-- A disk that takes file names up to a length.

-- `NAME_MAX`, in bytes.
def nameMax : Nat := 255

def IsShort (name : String) : Prop := name.utf8ByteSize ≤ nameMax

-- A name can be given to a file.
def Fits (name : String) : Prop := IsShort name ∧ '\x00' ∉ name.toList

instance (name : String) : Decidable (IsShort name) := inferInstanceAs (Decidable (_ ≤ _))

instance (name : String) : Decidable (Fits name) := inferInstanceAs (Decidable (_ ∧ _))

def FitsPath (path : Path) : Prop := ∀ name ∈ path, Fits name

instance (path : Path) : Decidable (FitsPath path) := inferInstanceAs (Decidable (∀ _ ∈ _, _))

def FileOp.paths : FileOp → List Path
  | .createDirAll path | .create path | .openAppend path | .read path | .remove path
  | .readDir path | .metadata path => [path]
  | .rename src dst => [src, dst]
  | .write _ _ | .append _ _ | .sync _ | .len _ => []

def FileOp.Fits (op : FileOp) : Prop := ∀ path ∈ op.paths, FitsPath path

-- A path with a NUL character does not get to the file system.
def FileOp.hasNul (op : FileOp) : Bool :=
  op.paths.any fun path => path.any fun name => name.toList.contains '\x00'

-- The operations that make no other directories.
def MakesOnly (makes : Path → Prop) (op : FileOp) : Prop :=
  ∀ made, op = .createDirAll made → ∀ above, above <:+ made → makes above

namespace Tree

-- A name that is too long is met with an error by the directory that it is looked up in, if
-- the way there is free.
def tooLong (tree : Tree) : Path → Option IoError
  | [] => none
  | name :: parent =>
      match tooLong tree parent with
      | some err => some err
      | none =>
          if IsShort name then none
          else match tree.find parent with
            | .error err => some err
            | .ok (.file _) => some .notADirectory
            | .ok .dir => some .invalidFilename

-- Directories are made down to the one that is refused.
def limited : Handler FileOp FileOp.Ans Tree := fun op tree =>
  if op.hasNul then (.error .invalidInput, tree)
  else match op.paths.findSome? tree.tooLong with
    | none => Tree.handle op tree
    | some err =>
        match op with
        | .createDirAll path => (.error err, (tree.createDirAll (path.rtakeWhile fun name => Fits name)).2)
        | _ => (.error err, tree)

section Limited

variable {tree : Tree} {op : FileOp}

theorem tooLong_eq_none {path : Path} : tree.tooLong path = none ↔ ∀ name ∈ path, IsShort name := by
  induction path with
  | nil => simp [tooLong]
  | cons name parent ih =>
      rw [tooLong, List.forall_mem_cons]
      cases hparent : tree.tooLong parent with
      | some err =>
          rw [hparent] at ih
          simp only [reduceCtorEq, false_iff, not_and]
          exact fun _ hall => absurd (ih.mpr hall) (Option.some_ne_none _)
      | none =>
          have hall := ih.mp hparent
          by_cases hshort : IsShort name
          · exact ⟨fun _ => ⟨hshort, hall⟩, fun _ => if_pos hshort⟩
          · refine ⟨fun hnone => ?_, fun hboth => absurd hboth.1 hshort⟩
            simp only [if_neg hshort] at hnone
            split at hnone <;> cases hnone

theorem fits_iff (tree : Tree) : op.Fits ↔
    op.hasNul = false ∧ op.paths.findSome? tree.tooLong = none := by
  rw [FileOp.hasNul, List.findSome?_eq_none_iff]
  simp only [tooLong_eq_none, FileOp.Fits, FitsPath, Files.Fits, List.any_eq_false,
    Bool.not_eq_true, List.contains_eq_mem, decide_eq_true_eq]
  exact ⟨fun h => ⟨fun path hpath name hname => (h path hpath name hname).2,
      fun path hpath name hname => (h path hpath name hname).1⟩,
    fun h path hpath name hname => ⟨h.2 path hpath name hname, h.1 path hpath name hname⟩⟩

theorem limited_of_fits (h : op.Fits) (tree : Tree) : limited op tree = Tree.handle op tree := by
  obtain ⟨hnul, hshort⟩ := (fits_iff tree).mp h
  simp only [limited, hnul, hshort, Bool.false_eq_true, if_false]

-- What does not fit is refused, and at most some directories are made on the way.
theorem limited_refused (h : ¬op.Fits) (tree : Tree) : ∃ err, (limited op tree).1 = .error err ∧
    ((limited op tree).2 = tree ∨ ∃ path, op = .createDirAll path ∧
      (limited op tree).2 = (tree.createDirAll (path.rtakeWhile fun name => Files.Fits name)).2) := by
  by_cases hnul : op.hasNul
  · have hlimited : limited op tree = (.error .invalidInput, tree) := if_pos hnul
    rw [hlimited]
    exact ⟨_, rfl, .inl rfl⟩
  · cases hlong : op.paths.findSome? tree.tooLong with
    | none => exact absurd ((fits_iff tree).mpr ⟨eq_false_of_ne_true hnul, hlong⟩) h
    | some err =>
        simp only [limited, hnul, hlong]
        cases op with
        | createDirAll path => exact ⟨err, rfl, .inr ⟨path, rfl, rfl⟩⟩
        | create _ | openAppend _ | write _ _ | append _ _ | sync _ | len _ | read _ | rename _ _
        | remove _ | readDir _ | metadata _ => exact ⟨err, rfl, .inl rfl⟩

-- All of an operation is done, or some of it, with names that fit.
theorem limited_cases (op : FileOp) (tree : Tree) : (limited op tree).2 = tree ∨
    ∃ part : FileOp, part.Fits ∧ (part = op ∨ Torn op part) ∧
      (limited op tree).2 = (Tree.handle part tree).2 := by
  by_cases hfits : op.Fits
  · exact .inr ⟨op, hfits, .inl rfl, by rw [limited_of_fits hfits]⟩
  · obtain ⟨err, -, hsame | ⟨path, rfl, hmade⟩⟩ := limited_refused hfits tree
    · exact .inl hsame
    · refine .inr ⟨.createDirAll (path.rtakeWhile fun name => Files.Fits name), ?_,
        .inr (.createDirAll (List.rtakeWhile_suffix _ path)), hmade⟩
      intro other hother name hname
      obtain rfl := List.mem_singleton.mp hother
      simpa using List.mem_rtakeWhile_imp hname

-- Programs all of whose paths fit do not notice.
theorem run_limited {α : Type} {prog : Prog FileOp FileOp.Ans α} (h : prog.Uses FileOp.Fits)
    (tree : Tree) : prog.run limited tree = prog.run Tree.handle tree := by
  induction prog generalizing tree with
  | pure value => rfl
  | call op next ih =>
      rw [Prog.run, Prog.run, limited_of_fits h.1]
      exact ih _ (h.2 _) _

-- The names in the tree are such as files can have.
def NamesFit (tree : Tree) : Prop := ∀ path node, tree.node path = some node → FitsPath path

theorem fitsPath_of_suffix {path above : Path} (h : FitsPath path) (habove : above <:+ path) :
    FitsPath above := fun name hname => h name (habove.subset hname)

theorem NamesFit.handle (h : tree.NamesFit) (hop : op.Fits) : (Tree.handle op tree).2.NamesFit := by
  intro path node hnode
  cases op with
  | createDirAll made =>
      rcases tree.createDirAll_node made path with hsame | ⟨-, -, habove⟩
      · exact h path node (hsame.symm.trans hnode)
      · exact fitsPath_of_suffix (hop made List.mem_cons_self) habove
  | create new =>
      by_cases hpath : path = new
      · exact hpath ▸ hop new List.mem_cons_self
      · rcases tree.create_cases new with hsame | ⟨name, parent, rfl, hparent, hdir⟩
        · exact h path node ((congrArg (fun t : Tree => t.node path) hsame).symm.trans hnode)
        · obtain ⟨inode, -, hafter, -, -⟩ := create_ok hparent hdir
          have hold := (hafter path).symm.trans hnode
          rw [if_neg hpath] at hold
          exact h path node hold
  | rename src dst =>
      by_cases hpath : path = dst
      · exact hpath ▸ hop dst (List.mem_cons_of_mem _ List.mem_cons_self)
      · rcases tree.rename_cases src dst with hsame | ⟨inode, name, parent, hfile, rfl, hparent, hdir⟩
        · exact h path node ((congrArg (fun t : Tree => t.node path) hsame).symm.trans hnode)
        · rw [Tree.handle, rename_ok hfile hparent hdir] at hnode
          have hold := (move_node hfile hparent hdir path).symm.trans hnode
          rw [if_neg hpath] at hold
          split at hold
          · cases hold
          · exact h path node hold
  | remove old =>
      rcases tree.remove_cases old with hsame | ⟨inode, hfile, hremove⟩
      · exact h path node ((congrArg (fun t : Tree => t.node path) hsame).symm.trans hnode)
      · rw [Tree.handle, hremove] at hnode
        have hold := (removeName_node hfile path).symm.trans hnode
        split at hold
        · cases hold
        · exact h path node hold
  | write _ _ | append _ _ | openAppend _ | sync _ | len _ | read _ | readDir _ | metadata _ =>
      exact h path node hnode

theorem NamesFit.limited (h : tree.NamesFit) (op : FileOp) : (Tree.limited op tree).2.NamesFit := by
  rcases limited_cases op tree with hsame | ⟨part, hfits, -, hpart⟩
  · rwa [hsame]
  · rw [hpart]
    exact h.handle hfits

theorem NamesFit.run {α : Type} (h : tree.NamesFit) (prog : Prog FileOp FileOp.Ans α) :
    (prog.run Tree.limited tree).2.NamesFit := by
  induction prog generalizing tree with
  | pure value => exact h
  | call op next ih => exact ih _ (h.limited op)

-- Directories stay, and they come only above a path that is made a directory.
theorem run_limited_dir {α : Type} (prog : Prog FileOp FileOp.Ans α) {path : Path}
    (h : tree.node path = some .dir) : (prog.run limited tree).2.node path = some .dir := by
  induction prog generalizing tree with
  | pure value => exact h
  | call op next ih =>
      refine ih _ ?_
      rcases limited_cases op tree with hsame | ⟨part, -, -, hpart⟩
      · rwa [hsame]
      · rw [hpart]
        exact handle_dir h

theorem dir_of_run_limited {α : Type} {makes : Path → Prop} {prog : Prog FileOp FileOp.Ans α}
    (h : prog.Uses (MakesOnly makes)) {path : Path}
    (hdir : (prog.run limited tree).2.node path = some .dir) :
    tree.node path = some .dir ∨ makes path := by
  induction prog generalizing tree with
  | pure value => exact .inl hdir
  | call op next ih =>
      rcases ih _ (h.2 _) hdir with hmid | hmade
      · rcases limited_cases op tree with hsame | ⟨part, -, htorn, hpart⟩
        · exact .inl (hsame ▸ hmid)
        · rw [hpart] at hmid
          rcases dir_of_handle hmid with hold | ⟨made, rfl, habove⟩
          · exact .inl hold
          · rcases htorn with rfl | htorn
            · exact .inr (h.1 made rfl path habove)
            · cases htorn with
              | @createDirAll whole _ hsuffix =>
                  exact .inr (h.1 whole rfl path (habove.trans hsuffix))
      · exact .inr hmade

end Limited

section Replace

variable {tree : Tree} {base name : String} {parent : Path} (content : List UInt8)

theorem limited_createDirAll (hparent : FitsPath parent) :
    (FileM.call (.createDirAll parent)).run limited tree = tree.createDirAll parent := by
  have hfits : FileOp.Fits (.createDirAll parent) := by
    intro path hpath
    rwa [List.mem_singleton.mp hpath]
  exact limited_of_fits hfits tree

theorem limited_create (hparent : FitsPath parent) (hbase : Files.Fits base) :
    (FileM.call (.create (base :: parent))).run limited tree = tree.create (base :: parent) := by
  have hfits : FileOp.Fits (.create (base :: parent)) := by
    intro path hpath
    rw [List.mem_singleton.mp hpath]
    exact List.forall_mem_cons.mpr ⟨hbase, hparent⟩
  exact limited_of_fits hfits tree

-- A file is not written at all if its temporary name does not fit.
theorem replaceFile_tmp_refused (hparent : FitsPath parent) (hbase : ¬Files.Fits base) :
    ∃ err, (replaceFile (base :: parent) (name :: parent) content).run limited tree =
      (.error err, (tree.createDirAll parent).2) := by
  rw [replaceFile, List.tail_cons, Fallible.run_bind, limited_createDirAll hparent]
  rcases hmade : tree.createDirAll parent with ⟨answer, made⟩
  cases answer with
  | error err => exact ⟨err, rfl⟩
  | ok _ =>
      have hnot : ¬FileOp.Fits (.create (base :: parent)) := by
        intro hfits
        exact hbase (hfits _ List.mem_cons_self _ List.mem_cons_self)
      obtain ⟨err, hanswer, hsame | ⟨path, hop, -⟩⟩ := limited_refused hnot made
      · have hcreate : (FileM.call (.create (base :: parent))).run limited made = (.error err, made) :=
          Prod.ext hanswer hsame
        exact ⟨err, Fallible.run_bind_of_error hcreate _⟩
      · cases hop

-- It stays under the temporary name if only its own does not fit.
section Refused

variable (hparent : FitsPath parent) (hbase : Files.Fits base)

include hparent

theorem replaceFile_limited_in_the_way {above : Path} {inode : Nat} (habove : above <:+ parent)
    (hfile : tree.node above = some (.file inode)) : ∃ err,
      (replaceFile (base :: parent) (name :: parent) content).run limited tree =
        (.error err, tree) := by
  obtain ⟨err, hdirs⟩ := createDirAll_error habove hfile
  exact ⟨err, Fallible.run_bind_of_error ((limited_createDirAll hparent).trans hdirs) _⟩

include hbase

theorem replaceFile_limited_tmp_dir (htmp : tree.node (base :: parent) = some .dir) : ∃ err,
    (replaceFile (base :: parent) (name :: parent) content).run limited tree =
      (.error err, tree) := by
  have hdir : tree.node parent = some .dir :=
    dir_above htmp (List.suffix_cons _ _) (List.ne_cons_self)
  have hdirs : (FileM.call (.createDirAll parent)).run limited tree = (.ok (), tree) :=
    (limited_createDirAll hparent).trans (createDirAll_of_dir hdir)
  have hcreate : (FileM.call (.create (base :: parent))).run limited tree =
      (.error .isADirectory, tree) := by
    rw [limited_create hparent hbase, create, entry_of_parent hdir, htmp]
  refine ⟨.isADirectory, ?_⟩
  rw [replaceFile, List.tail_cons, Fallible.run_bind_of_ok hdirs, Fallible.run_bind_of_error hcreate]

theorem replaceFile_dst_refused (hname : ¬Files.Fits name)
    (hclear : ∀ above inode, above <:+ parent → tree.node above ≠ some (.file inode))
    (htmp : tree.node (base :: parent) ≠ some .dir) : ∃ err tree',
      (replaceFile (base :: parent) (name :: parent) content).run limited tree =
        (.error err, tree') ∧
      Written (base :: parent) content (tree.createDirAll parent).2 tree' := by
  obtain ⟨hok, hdir⟩ := createDirAll_ok hclear
  have hmadeTmp : (tree.createDirAll parent).2.node (base :: parent) ≠ some .dir := by
    intro hdir
    rcases tree.createDirAll_node parent (base :: parent) with hsame | ⟨-, -, habove⟩
    · exact htmp (hsame.symm.trans hdir)
    · exact Nat.lt_irrefl _ habove.length_le
  have hdirs : (FileM.call (.createDirAll parent)).run limited tree =
      (.ok (), (tree.createDirAll parent).2) := (limited_createDirAll hparent).trans (Prod.ext hok rfl)
  obtain ⟨inode, created, hcreate, -, hwritten⟩ := create_write hdir hmadeTmp content
  have hopen : (FileM.call (.create (base :: parent))).run limited (tree.createDirAll parent).2 =
      (.ok inode, created) := (limited_create hparent hbase).trans hcreate
  have hnot : ¬FileOp.Fits (.rename (base :: parent) (name :: parent)) := by
    intro hfits
    exact hname (hfits _ (List.mem_cons_of_mem _ List.mem_cons_self) _ List.mem_cons_self)
  obtain ⟨err, hanswer, hsame | ⟨path, hop, -⟩⟩ := limited_refused hnot (created.write inode content)
  · refine ⟨err, created.write inode content, ?_, hwritten⟩
    rw [replaceFile, List.tail_cons, Fallible.run_bind_of_ok hdirs, Fallible.run_bind_of_ok hopen]
    exact Prod.ext hanswer hsame
  · cases hop

end Refused

end Replace

end Tree

end RspaceRegistry.Files
