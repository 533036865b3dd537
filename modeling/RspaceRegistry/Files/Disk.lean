import RspaceRegistry.Calls.Run
import RspaceRegistry.Files.Tree

namespace RspaceRegistry.Files

open Calls

-- The file operations of `tokio::fs` as one party issues them, one at a time. An
-- open file is its inode. A file that was just created is written from its start,
-- a file opened for appending at its end.
inductive FileOp
  | createDirAll (path : Path)
  | create (path : Path)
  | openAppend (path : Path)
  | write (inode : Nat) (bytes : List UInt8)
  | append (inode : Nat) (bytes : List UInt8)
  | sync (inode : Nat)
  | len (inode : Nat)
  | read (path : Path)
  | rename (src dst : Path)
  | remove (path : Path)
  | readDir (path : Path)
  | metadata (path : Path)
deriving DecidableEq

abbrev FileOp.Value : FileOp → Type
  | .create _ => Nat
  | .openAppend _ => Nat
  | .len _ => Nat
  | .read _ => List UInt8
  | .readDir _ => List (String × Node)
  | .metadata _ => Option Nat
  | .createDirAll _ | .write .. | .append .. | .sync _ | .rename .. | .remove _ => Unit

abbrev FileOp.Ans (op : FileOp) : Type := Except IoError op.Value

namespace Tree

variable (tree : Tree)

def createDirAll (path : Path) : Except IoError Unit × Tree :=
  match tree.find path with
  | .ok .dir => (.ok (), tree)
  | .ok (.file _) => (.error .alreadyExists, tree)
  | .error .notFound => (.ok (), tree.makeDirs path)
  | .error err => (.error err, tree)

-- `File::create` empties a file that is already there.
def create (path : Path) : Except IoError Nat × Tree :=
  match tree.entry path with
  | .error err => (.error err, tree)
  | .ok (some .dir) => (.error .isADirectory, tree)
  | .ok (some (.file inode)) => (.ok inode, tree.store inode [])
  | .ok none => (.ok tree.next, tree.addFile path)

def openAppend (path : Path) : Except IoError Nat :=
  match tree.find path with
  | .error err => .error err
  | .ok .dir => .error .isADirectory
  | .ok (.file inode) => .ok inode

-- Bytes written from the start of a file go over those that are there.
def write (inode : Nat) (bytes : List UInt8) : Tree :=
  tree.store inode (bytes ++ (tree.contents inode).drop bytes.length)

def append (inode : Nat) (bytes : List UInt8) : Tree :=
  tree.store inode (tree.contents inode ++ bytes)

def read (path : Path) : Except IoError (List UInt8) :=
  match tree.find path with
  | .error err => .error err
  | .ok .dir => .error .isADirectory
  | .ok (.file inode) => .ok (tree.contents inode)

-- Only files are renamed here, and never onto a directory.
def rename (src dst : Path) : Except IoError Unit × Tree :=
  match tree.find src with
  | .error err => (.error err, tree)
  | .ok .dir => (.error .isADirectory, tree)
  | .ok (.file inode) =>
      match tree.entry dst with
      | .error err => (.error err, tree)
      | .ok (some .dir) => (.error .isADirectory, tree)
      | .ok _ => (.ok (), tree.move src inode dst)

def remove (path : Path) : Except IoError Unit × Tree :=
  match tree.find path with
  | .error err => (.error err, tree)
  | .ok .dir => (.error .isADirectory, tree)
  | .ok (.file inode) => (.ok (), tree.removeName path inode)

-- The entries of a directory: name and kind.
def readDir (path : Path) : Except IoError (List (String × Node)) :=
  match tree.find path with
  | .error err => .error err
  | .ok (.file _) => .error .notADirectory
  | .ok .dir => .ok (tree.nodes.entries.filterMap fun entry =>
      match entry.1 with
      | [] => none
      | name :: parent => if parent = path then some (name, entry.2) else none)

-- The length of a file; that of a directory is up to the file system.
def metadata (path : Path) : Except IoError (Option Nat) :=
  match tree.find path with
  | .error err => .error err
  | .ok .dir => .ok none
  | .ok (.file inode) => .ok (some (tree.contents inode).length)

-- The answers of a disk that does not fail.
def handle : Handler FileOp FileOp.Ans Tree
  | .createDirAll path, tree => tree.createDirAll path
  | .create path, tree => tree.create path
  | .openAppend path, tree => (tree.openAppend path, tree)
  | .write inode bytes, tree => (.ok (), tree.write inode bytes)
  | .append inode bytes, tree => (.ok (), tree.append inode bytes)
  | .sync _, tree => (.ok (), tree)
  | .len inode, tree => (.ok (tree.contents inode).length, tree)
  | .read path, tree => (tree.read path, tree)
  | .rename src dst, tree => tree.rename src dst
  | .remove path, tree => tree.remove path
  | .readDir path, tree => (tree.readDir path, tree)
  | .metadata path, tree => (tree.metadata path, tree)

end Tree

-- Bodies that return an `io::Result`.
abbrev FileM := Fallible IoError FileOp FileOp.Ans

namespace FileM

def call (op : FileOp) : FileM op.Value := Prog.call op .pure

@[simp] theorem run_call (op : FileOp) (tree : Tree) :
    (call op).run Tree.handle tree = Tree.handle op tree := rfl

end FileM

namespace Tree

variable {tree : Tree}

section Answers

theorem createDirAll_ok {path : Path} (hclear : ∀ above inode, above <:+ path →
    tree.node above ≠ some (.file inode)) :
    (tree.createDirAll path).1 = .ok () ∧ (tree.createDirAll path).2.node path = some .dir := by
  rw [createDirAll]
  cases hnode : tree.node path with
  | none =>
      have hfree : ¬tree.Blocked path := fun ⟨above, inode, habove, _, h⟩ => hclear above inode habove h
      rw [find_of_none hnode hfree]
      exact ⟨rfl, makeDirs_made hclear⟩
  | some node =>
      cases node with
      | dir =>
          rw [find_of_node hnode]
          exact ⟨rfl, hnode⟩
      | file inode => exact absurd hnode (hclear path inode (List.suffix_refl path))

-- No directory comes where a file stands in the way.
theorem createDirAll_error {path above : Path} {inode : Nat} (habove : above <:+ path)
    (hfile : tree.node above = some (.file inode)) :
    ∃ err, tree.createDirAll path = (.error err, tree) := by
  rw [createDirAll]
  by_cases heq : above = path
  · rw [find_of_node (heq ▸ hfile)]
    exact ⟨_, rfl⟩
  · rw [find_of_blocked ⟨above, inode, habove, heq, hfile⟩]
    exact ⟨_, rfl⟩

@[simp] theorem createDirAll_contents (path : Path) :
    (tree.createDirAll path).2.contents = tree.contents := by
  rw [createDirAll]
  split <;> simp

-- No file comes or goes, and a directory comes only where nothing was.
theorem createDirAll_node (tree : Tree) (path other : Path) :
    (tree.createDirAll path).2.node other = tree.node other ∨
      (tree.createDirAll path).2.node other = some .dir ∧ tree.node other = none ∧
        other <:+ path := by
  rw [createDirAll]
  split
  · exact .inl rfl
  · exact .inl rfl
  · exact makeDirs_node path other
  · exact .inl rfl

-- A file is created under an existing directory, in the place of another or not.
theorem create_ok {name : String} {parent : Path} (hparent : tree.node parent = some .dir)
    (hdir : tree.node (name :: parent) ≠ some .dir) :
    ∃ inode, (tree.create (name :: parent)).1 = .ok inode ∧
      (∀ path, (tree.create (name :: parent)).2.node path =
        if path = name :: parent then some (.file inode) else tree.node path) ∧
      (tree.create (name :: parent)).2.contents = Function.update tree.contents inode [] ∧
      ∀ path, tree.node path = some (.file inode) → path = name :: parent := by
  rw [create, entry_of_parent hparent]
  cases hnode : tree.node (name :: parent) with
  | none =>
      refine ⟨tree.next, rfl, fun path => addFile_node hparent hnode path,
        addFile_contents hparent hnode, ?_⟩
      intro path hpath
      exact absurd (tree.allocated path tree.next hpath) (Nat.lt_irrefl _)
  | some node =>
      cases node with
      | dir => exact absurd hnode hdir
      | file inode =>
          refine ⟨inode, rfl, ?_, rfl, fun path hpath => tree.single _ _ inode hpath hnode⟩
          intro path
          by_cases heq : path = name :: parent
          · rw [if_pos heq, heq]
            exact hnode
          · rw [if_neg heq]
            rfl

theorem rename_ok {src parent : Path} {name : String} {inode : Nat}
    (hsrc : tree.node src = some (.file inode)) (hparent : tree.node parent = some .dir)
    (hdst : tree.node (name :: parent) ≠ some .dir) :
    tree.rename src (name :: parent) = (.ok (), tree.move src inode (name :: parent)) := by
  rw [rename, find_of_node hsrc, entry_of_parent hparent]
  cases hnode : tree.node (name :: parent) with
  | none => rfl
  | some node =>
      cases node with
      | dir => exact absurd hnode hdst
      | file other => rfl

-- The content moves with the file.
theorem rename_fileAt {src parent : Path} {name : String} {inode : Nat}
    (hsrc : tree.node src = some (.file inode)) (hparent : tree.node parent = some .dir)
    (hdst : tree.node (name :: parent) ≠ some .dir) :
    (tree.rename src (name :: parent)).2.fileAt (name :: parent) = some (tree.contents inode) := by
  rw [rename_ok hsrc hparent hdst, fileAt_eq_some]
  refine ⟨inode, ?_, congrFun (tree.move_contents src inode _) inode⟩
  rw [move_node hsrc hparent hdst, if_pos rfl]

theorem read_file {path : Path} {inode : Nat} (h : tree.node path = some (.file inode)) :
    tree.read path = .ok (tree.contents inode) := by
  rw [read, find_of_node h]

theorem read_ok {path : Path} {bytes : List UInt8} :
    tree.read path = .ok bytes ↔ tree.fileAt path = some bytes := by
  rw [fileAt_eq_some, read]
  constructor
  · intro h
    split at h <;> cases h
    rename_i inode hfind
    exact ⟨inode, find_eq_ok.mp hfind, rfl⟩
  · rintro ⟨inode, hnode, rfl⟩
    rw [find_of_node hnode]

-- Where no directory stands and no file is above, there is a file or nothing.
theorem file_or_none {path : Path} (hdir : tree.node path ≠ some .dir) :
    (∃ inode, tree.node path = some (.file inode)) ∨ tree.node path = none := by
  cases hnode : tree.node path with
  | none => exact .inr rfl
  | some node =>
      cases node with
      | dir => exact absurd hnode hdir
      | file inode => exact .inl ⟨inode, rfl⟩

theorem fileAt_of_none {path : Path} (h : tree.node path = none) : tree.fileAt path = none := by
  rw [fileAt, h]

theorem read_clear {path : Path} (hdir : tree.node path ≠ some .dir) (hfree : ¬tree.Blocked path) :
    tree.read path = (tree.fileAt path).elim (.error .notFound) .ok := by
  rcases file_or_none hdir with ⟨inode, hfile⟩ | hnone
  · rw [read_file hfile, fileAt_of_file hfile]
    rfl
  · rw [read, find_of_none hnone hfree, fileAt_of_none hnone]
    rfl

theorem remove_file {path : Path} {inode : Nat} (h : tree.node path = some (.file inode)) :
    tree.remove path = (.ok (), tree.removeName path inode) := by
  rw [remove, find_of_node h]

theorem remove_none {path : Path} (h : tree.node path = none) (hfree : ¬tree.Blocked path) :
    tree.remove path = (.error .notFound, tree) := by
  rw [remove, find_of_none h hfree]

theorem mem_readDir {path : Path} (h : tree.node path = some .dir) :
    ∃ entries, tree.readDir path = .ok entries ∧
      ∀ name node, (name, node) ∈ entries ↔ tree.node (name :: path) = some node := by
  rw [readDir, find_of_node h]
  refine ⟨_, rfl, fun name node => ?_⟩
  rw [List.mem_filterMap, Tree.node, ← Option.mem_def, AList.mem_lookup_iff]
  constructor
  · rintro ⟨⟨full, kind⟩, hentry, heq⟩
    cases full with
    | nil => cases heq
    | cons last parent =>
        simp only at heq
        split at heq
        · rename_i hparent
          obtain ⟨rfl, rfl⟩ := Prod.mk.inj (Option.some.inj heq)
          rwa [← hparent]
        · cases heq
  · exact fun hentry => ⟨⟨name :: path, node⟩, hentry, if_pos rfl⟩

theorem openAppend_eq_ok {path : Path} {inode : Nat} :
    tree.openAppend path = .ok inode ↔ tree.node path = some (.file inode) := by
  rw [openAppend, ← find_eq_ok]
  cases tree.find path with
  | error err => simp
  | ok node => cases node <;> simp

end Answers

section Cases

-- An entry is looked at in a directory, or it is the root itself.
theorem entry_eq_ok {path : Path} {node : Option Node} (h : tree.entry path = .ok node) :
    path = [] ∧ node = some .dir ∨ ∃ name parent, path = name :: parent ∧
      tree.node parent = some .dir ∧ tree.node path = node := by
  cases path with
  | nil => exact .inl ⟨rfl, (Except.ok.inj h).symm⟩
  | cons name parent =>
      rw [entry] at h
      split at h <;> cases h
      rename_i hparent
      exact .inr ⟨name, parent, rfl, find_eq_ok.mp hparent, rfl⟩

variable (tree)

-- Creating a file succeeds as described above, or changes nothing.
theorem create_cases (path : Path) : (tree.create path).2 = tree ∨ ∃ name parent,
    path = name :: parent ∧ tree.node parent = some .dir ∧ tree.node path ≠ some .dir := by
  rw [create]
  cases hentry : tree.entry path with
  | error err => exact .inl rfl
  | ok node =>
      rcases entry_eq_ok hentry with ⟨-, rfl⟩ | ⟨name, parent, hpath, hparent, rfl⟩
      · exact .inl rfl
      · by_cases hdir : tree.node path = some .dir
        · rw [hdir]
          exact .inl rfl
        · exact .inr ⟨name, parent, hpath, hparent, hdir⟩

theorem rename_cases (src dst : Path) : (tree.rename src dst).2 = tree ∨ ∃ inode name parent,
    tree.node src = some (.file inode) ∧ dst = name :: parent ∧ tree.node parent = some .dir ∧
      tree.node dst ≠ some .dir := by
  rw [rename]
  cases hsrc : tree.find src with
  | error err => exact .inl rfl
  | ok node =>
      cases node with
      | dir => exact .inl rfl
      | file inode =>
          cases hentry : tree.entry dst with
          | error err => exact .inl rfl
          | ok node =>
              rcases entry_eq_ok hentry with ⟨-, rfl⟩ | ⟨name, parent, hdst, hparent, rfl⟩
              · exact .inl rfl
              · by_cases hdir : tree.node dst = some .dir
                · rw [hdir]
                  exact .inl rfl
                · exact .inr ⟨inode, name, parent, find_eq_ok.mp hsrc, hdst, hparent, hdir⟩

theorem remove_cases (path : Path) : (tree.remove path).2 = tree ∨ ∃ inode,
    tree.node path = some (.file inode) ∧
      tree.remove path = (.ok (), tree.removeName path inode) := by
  rw [remove]
  cases hfind : tree.find path with
  | error err => exact .inl rfl
  | ok node =>
      cases node with
      | dir => exact .inl rfl
      | file inode => exact .inr ⟨inode, find_eq_ok.mp hfind, rfl⟩

end Cases

section Frame

-- The names an operation gives or takes, and the files it writes to.
def Touches (tree : Tree) : FileOp → Path → Prop
  | .create path, other => other = path
  | .write inode _, other => tree.node other = some (.file inode)
  | .append inode _, other => tree.node other = some (.file inode)
  | .rename src dst, other => other = src ∨ other = dst
  | .remove path, other => other = path
  | _, _ => False

-- A file elsewhere keeps its name and its bytes, and no file appears elsewhere.
def Keeps (tree tree' : Tree) (path : Path) : Prop :=
  ∀ inode, (tree'.node path = some (.file inode) ↔ tree.node path = some (.file inode)) ∧
    (tree.node path = some (.file inode) → tree'.contents inode = tree.contents inode)

theorem Keeps.refl (tree : Tree) (path : Path) : Keeps tree tree path :=
  fun _ => ⟨Iff.rfl, fun _ => rfl⟩

theorem Keeps.fileAt {tree tree' : Tree} {path : Path} (h : Keeps tree tree' path) :
    tree'.fileAt path = tree.fileAt path := by
  apply Option.ext
  intro bytes
  rw [fileAt_eq_some, fileAt_eq_some]
  constructor
  · rintro ⟨inode, hnode, rfl⟩
    have hold := (h inode).1.mp hnode
    exact ⟨inode, hold, ((h inode).2 hold).symm⟩
  · rintro ⟨inode, hnode, rfl⟩
    exact ⟨inode, (h inode).1.mpr hnode, (h inode).2 hnode⟩

theorem create_frame {path other : Path} (h : other ≠ path) :
    Keeps tree (tree.create path).2 other := by
  rcases tree.create_cases path with hsame | ⟨name, parent, rfl, hparent, hdir⟩
  · rw [hsame]
    exact .refl tree other
  · obtain ⟨new, -, hnode, hcontents, honly⟩ := create_ok hparent hdir
    intro inode
    rw [hnode, if_neg h, hcontents]
    refine ⟨Iff.rfl, fun hother => Function.update_of_ne ?_ _ _⟩
    rintro rfl
    exact h (honly other hother)

theorem rename_frame {src dst other : Path} (hsrc : other ≠ src) (hdst : other ≠ dst) :
    Keeps tree (tree.rename src dst).2 other := by
  rcases tree.rename_cases src dst with hsame | ⟨inode, name, parent, hfile, rfl, hparent, hdir⟩
  · rw [hsame]
    exact .refl tree other
  · rw [rename_ok hfile hparent hdir]
    intro inode'
    rw [move_node hfile hparent hdir, if_neg hdst, if_neg hsrc, move_contents]
    exact ⟨Iff.rfl, fun _ => rfl⟩

theorem removeName_frame {path other : Path} {inode : Nat}
    (hfile : tree.node path = some (.file inode)) (h : other ≠ path) :
    Keeps tree (tree.removeName path inode) other := by
  intro inode'
  rw [removeName_node hfile, if_neg h, removeName_contents]
  exact ⟨Iff.rfl, fun _ => rfl⟩

theorem removeName_dir {path other : Path} {inode : Nat}
    (hfile : tree.node path = some (.file inode)) :
    (tree.removeName path inode).node other = some .dir ↔ tree.node other = some .dir := by
  rw [removeName_node hfile]
  split
  · rename_i heq
    rw [heq, hfile]
    simp
  · rfl

theorem remove_frame {path other : Path} (h : other ≠ path) :
    Keeps tree (tree.remove path).2 other := by
  rcases tree.remove_cases path with hsame | ⟨inode, hfile, hremove⟩
  · rw [hsame]
    exact .refl tree other
  · rw [hremove]
    exact removeName_frame hfile h

theorem makeDirs_frame (path other : Path) : Keeps tree (tree.makeDirs path) other :=
  fun _ => ⟨makeDirs_file, fun _ => by rw [makeDirs_contents]⟩

theorem createDirAll_frame (path other : Path) : Keeps tree (tree.createDirAll path).2 other := by
  intro inode
  refine ⟨?_, fun _ => by rw [createDirAll_contents]⟩
  rcases tree.createDirAll_node path other with heq | ⟨hdir, hnone, -⟩
  · rw [heq]
  · rw [hdir, hnone]
    simp

theorem store_frame {inode : Nat} {bytes : List UInt8} {other : Path}
    (h : tree.node other ≠ some (.file inode)) : Keeps tree (tree.store inode bytes) other := by
  intro inode'
  refine ⟨Iff.rfl, fun hother => Function.update_of_ne ?_ _ _⟩
  rintro rfl
  exact h hother

theorem handle_frame {op : FileOp} {path : Path} (h : ¬tree.Touches op path) :
    Keeps tree (tree.handle op).2 path := by
  cases op with
  | createDirAll made => exact createDirAll_frame made path
  | create new => exact create_frame h
  | write inode bytes => exact store_frame h
  | append inode bytes => exact store_frame h
  | rename src dst => exact rename_frame (fun heq => h (.inl heq)) fun heq => h (.inr heq)
  | remove old => exact remove_frame h
  | openAppend _ => exact .refl tree path
  | sync _ => exact .refl tree path
  | len _ => exact .refl tree path
  | read _ => exact .refl tree path
  | readDir _ => exact .refl tree path
  | metadata _ => exact .refl tree path

-- Directories are never taken away.
theorem handle_dir {op : FileOp} {path : Path} (h : tree.node path = some .dir) :
    (tree.handle op).2.node path = some .dir := by
  cases op with
  | createDirAll made =>
      rcases tree.createDirAll_node made path with heq | ⟨hdir, -, -⟩
      · exact heq.trans h
      · exact hdir
  | create new =>
      rcases tree.create_cases new with hsame | ⟨name, parent, rfl, hparent, hdir⟩
      · exact (congrArg (fun t : Tree => t.node path) hsame).trans h
      · obtain ⟨inode, -, hnode, -, -⟩ := create_ok hparent hdir
        refine (hnode path).trans ?_
        rw [if_neg]
        · exact h
        · rintro rfl
          exact hdir h
  | rename src dst =>
      rcases tree.rename_cases src dst with hsame | ⟨inode, name, parent, hfile, rfl, hparent, hdir⟩
      · exact (congrArg (fun t : Tree => t.node path) hsame).trans h
      · have hsrc : path ≠ src := by
          rintro rfl
          rw [h] at hfile
          cases hfile
        have hdst : path ≠ name :: parent := by
          rintro rfl
          exact hdir h
        simp only [handle, rename_ok hfile hparent hdir, move_node hfile hparent hdir, if_neg hsrc,
          if_neg hdst, h]
  | remove old =>
      rcases tree.remove_cases old with hsame | ⟨inode, hfile, hremove⟩
      · exact (congrArg (fun t : Tree => t.node path) hsame).trans h
      · rw [handle, hremove]
        exact (removeName_dir hfile).mpr h
  | write _ _ | append _ _ | openAppend _ | sync _ | len _ | read _ | readDir _ | metadata _ => exact h

-- And they come only above a path that is made a directory.
theorem dir_of_handle {op : FileOp} {path : Path}
    (h : (tree.handle op).2.node path = some .dir) :
    tree.node path = some .dir ∨ ∃ made, op = .createDirAll made ∧ path <:+ made := by
  cases op with
  | createDirAll made =>
      rcases tree.createDirAll_node made path with heq | ⟨-, -, habove⟩
      · exact .inl (heq.symm.trans h)
      · exact .inr ⟨made, rfl, habove⟩
  | create new =>
      refine .inl ?_
      rcases tree.create_cases new with hsame | ⟨name, parent, rfl, hparent, hdir⟩
      · exact hsame ▸ h
      · obtain ⟨inode, -, hnode, -, -⟩ := create_ok hparent hdir
        have hafter := (hnode path).symm.trans h
        split at hafter
        · cases hafter
        · exact hafter
  | rename src dst =>
      refine .inl ?_
      rcases tree.rename_cases src dst with hsame | ⟨inode, name, parent, hfile, rfl, hparent, hdir⟩
      · exact hsame ▸ h
      · simp only [handle, rename_ok hfile hparent hdir, move_node hfile hparent hdir] at h
        split at h
        · cases h
        · split at h
          · cases h
          · exact h
  | remove old =>
      refine .inl ?_
      rcases tree.remove_cases old with hsame | ⟨inode, hfile, hremove⟩
      · exact hsame ▸ h
      · rw [handle, hremove] at h
        exact (removeName_dir hfile).mp h
  | write _ _ | append _ _ | openAppend _ | sync _ | len _ | read _ | readDir _ | metadata _ => exact .inl h

end Frame

end Tree

end RspaceRegistry.Files
