import Mathlib.Data.List.AList

namespace RspaceRegistry.Files

-- A path below the root, its innermost component first: the parent of a path is
-- its tail, and what lies above a path are its suffixes.
abbrev Path := List String

inductive Node
  | dir
  | file (inode : Nat)
deriving DecidableEq, Repr

-- The kinds of `io::Error` that reading and writing end in, of which a healthy disk
-- knows those before `invalidInput`.
inductive IoError
  | notFound
  | notADirectory
  | isADirectory
  | alreadyExists
  | invalidData
  | invalidInput
  | invalidFilename
  | crossesDevices
  | storageFull
  | other
deriving DecidableEq, Repr

-- A directory tree without links. A name leads to an inode, and the bytes of an
-- inode outlive its name: an open file keeps writing to them.
structure Tree where
  nodes : AList fun _ : Path => Node
  contents : Nat → List UInt8
  next : Nat
  rooted : nodes.lookup [] = some .dir
  nested : ∀ name parent, name :: parent ∈ nodes → nodes.lookup parent = some .dir
  allocated : ∀ path inode, nodes.lookup path = some (.file inode) → inode < next
  single : ∀ path path' inode, nodes.lookup path = some (.file inode) →
    nodes.lookup path' = some (.file inode) → path = path'

namespace Tree

variable (tree : Tree)

def node (path : Path) : Option Node := tree.nodes.lookup path

-- A path is resolved from the root down, and the first component that is not a
-- directory decides.
def find : Path → Except IoError Node
  | [] => .ok .dir
  | name :: parent =>
      match find parent with
      | .error err => .error err
      | .ok (.file _) => .error .notADirectory
      | .ok .dir =>
          match tree.node (name :: parent) with
          | none => .error .notFound
          | some node => .ok node

-- What stands at a name that is about to be created or replaced.
def entry : Path → Except IoError (Option Node)
  | [] => .ok (some .dir)
  | name :: parent =>
      match tree.find parent with
      | .error err => .error err
      | .ok (.file _) => .error .notADirectory
      | .ok .dir => .ok (tree.node (name :: parent))

-- The bytes at a path, where there is a file.
def fileAt (path : Path) : Option (List UInt8) :=
  match tree.node path with
  | some (.file inode) => some (tree.contents inode)
  | _ => none

-- Some file stands where the path needs a directory.
def Blocked (path : Path) : Prop :=
  ∃ above inode, above <:+ path ∧ above ≠ path ∧ tree.node above = some (.file inode)

def new : Tree where
  nodes := AList.insert [] .dir ∅
  contents _ := []
  next := 0
  rooted := AList.lookup_insert _
  nested name parent h := by
    rcases (AList.mem_insert _).mp h with h | h
    · cases h
    · exact absurd h (AList.notMem_empty _)
  allocated path inode h := by
    by_cases hp : path = []
    · rw [hp, AList.lookup_insert] at h
      cases h
    · rw [AList.lookup_insert_ne hp] at h
      cases h
  single path path' inode h := by
    by_cases hp : path = []
    · rw [hp, AList.lookup_insert] at h
      cases h
    · rw [AList.lookup_insert_ne hp] at h
      cases h

def store (inode : Nat) (bytes : List UInt8) : Tree :=
  { tree with contents := Function.update tree.contents inode bytes }

-- Put a new name under a directory. It must not replace a directory, nor give a
-- file a second name.
def link (name : String) (parent : Path) (node : Node) (hparent : tree.node parent = some .dir)
    (hfree : tree.node (name :: parent) ≠ some .dir)
    (hnode : ∀ inode, node = .file inode → inode < tree.next ∧
      ∀ path, tree.node path = some (.file inode) → path = name :: parent) : Tree where
  nodes := tree.nodes.insert (name :: parent) node
  contents := tree.contents
  next := tree.next
  rooted := by
    rw [AList.lookup_insert_ne (by simp)]
    exact tree.rooted
  nested n p hmem := by
    rcases (AList.mem_insert _).mp hmem with h | h
    · obtain ⟨rfl, rfl⟩ := List.cons.inj h
      rw [AList.lookup_insert_ne (by simp)]
      exact hparent
    · have hdir := tree.nested n p h
      rw [AList.lookup_insert_ne]
      · exact hdir
      · rintro rfl
        exact hfree hdir
  allocated path inode h := by
    by_cases hpath : path = name :: parent
    · subst hpath
      rw [AList.lookup_insert] at h
      exact (hnode inode (Option.some.inj h)).1
    · rw [AList.lookup_insert_ne hpath] at h
      exact tree.allocated path inode h
  single path path' inode h h' := by
    by_cases hpath : path = name :: parent <;> by_cases hpath' : path' = name :: parent
    · exact hpath.trans hpath'.symm
    · rw [hpath, AList.lookup_insert] at h
      rw [AList.lookup_insert_ne hpath'] at h'
      exact hpath.trans ((hnode inode (Option.some.inj h)).2 path' h').symm
    · rw [hpath', AList.lookup_insert] at h'
      rw [AList.lookup_insert_ne hpath] at h
      exact ((hnode inode (Option.some.inj h')).2 path h).trans hpath'.symm
    · rw [AList.lookup_insert_ne hpath] at h
      rw [AList.lookup_insert_ne hpath'] at h'
      exact tree.single path path' inode h h'

-- Take the name of a file away.
def unlink (path : Path) (inode : Nat) (h : tree.node path = some (.file inode)) : Tree where
  nodes := tree.nodes.erase path
  contents := tree.contents
  next := tree.next
  rooted := by
    rw [AList.lookup_erase_ne]
    · exact tree.rooted
    · rintro rfl
      rw [node, tree.rooted] at h
      cases h
  nested n p hmem := by
    have hdir := tree.nested n p (AList.mem_erase.mp hmem).2
    rw [AList.lookup_erase_ne]
    · exact hdir
    · rintro rfl
      rw [node, hdir] at h
      cases h
  allocated p i hi := by
    by_cases hp : p = path
    · rw [hp, AList.lookup_erase] at hi
      cases hi
    · rw [AList.lookup_erase_ne hp] at hi
      exact tree.allocated p i hi
  single p p' i hi hi' := by
    by_cases hp : p = path
    · rw [hp, AList.lookup_erase] at hi
      cases hi
    · by_cases hp' : p' = path
      · rw [hp', AList.lookup_erase] at hi'
        cases hi'
      · rw [AList.lookup_erase_ne hp] at hi
        rw [AList.lookup_erase_ne hp'] at hi'
        exact tree.single p p' i hi hi'

theorem unlink_node_self {path : Path} {inode : Nat} (h : tree.node path = some (.file inode)) :
    (tree.unlink path inode h).node path = none := AList.lookup_erase _ _

theorem unlink_node {path other : Path} {inode : Nat} (h : tree.node path = some (.file inode))
    (hother : other ≠ path) : (tree.unlink path inode h).node other = tree.node other :=
  AList.lookup_erase_ne hother

theorem node_of_unlink {path other : Path} {inode : Nat} {node : Node}
    (h : tree.node path = some (.file inode))
    (hother : (tree.unlink path inode h).node other = some node) :
    tree.node other = some node := by
  by_cases heq : other = path
  · rw [heq, unlink_node_self] at hother
    cases hother
  · rwa [unlink_node _ h heq] at hother

-- The next free inode, still without a name.
def allocate : Tree :=
  { tree with
    contents := Function.update tree.contents tree.next []
    next := tree.next + 1
    allocated := fun path inode h => Nat.lt_succ_of_lt (tree.allocated path inode h) }

@[simp] theorem allocate_node : tree.allocate.node = tree.node := rfl

def mkdir (name : String) (parent : Path) : Tree :=
  if h : tree.node parent = some .dir ∧ tree.node (name :: parent) = none then
    tree.link name parent .dir h.1 (by simp [h.2]) nofun
  else tree

def makeDirs : Path → Tree
  | [] => tree
  | name :: parent => (makeDirs parent).mkdir name parent

-- A new empty file.
def addFile : Path → Tree
  | [] => tree
  | name :: parent =>
      if h : tree.node parent = some .dir ∧ tree.node (name :: parent) = none then
        tree.allocate.link name parent (.file tree.next)
          (by rw [allocate_node, h.1])
          (by rw [allocate_node, h.2]; nofun)
          (by
            intro inode hinode
            obtain rfl := Node.file.inj hinode
            refine ⟨Nat.lt_succ_self _, fun path hpath => ?_⟩
            exact absurd (tree.allocated path tree.next hpath) (Nat.lt_irrefl _))
      else tree

def removeName (path : Path) (inode : Nat) : Tree :=
  if h : tree.node path = some (.file inode) then tree.unlink path inode h else tree

-- A file gets another name, which it takes from the file that had it.
def move (src : Path) (inode : Nat) : Path → Tree
  | [] => tree
  | name :: parent =>
      if h : tree.node src = some (.file inode) ∧ tree.node parent = some .dir ∧
          tree.node (name :: parent) ≠ some .dir then
        (tree.unlink src inode h.1).link name parent (.file inode)
          ((tree.unlink_node h.1 (by
            rintro rfl
            exact nomatch h.2.1.symm.trans h.1)).trans h.2.1)
          (fun hdir => h.2.2 (tree.node_of_unlink h.1 hdir))
          (by
            intro i hi
            obtain rfl := Node.file.inj hi
            refine ⟨tree.allocated src inode h.1, fun path hpath => ?_⟩
            have hsame := tree.single path src inode (tree.node_of_unlink h.1 hpath) h.1
            rw [hsame, tree.unlink_node_self h.1] at hpath
            cases hpath)
      else tree

section Resolve

variable {tree}

theorem find_eq_ok {path : Path} {node : Node} :
    tree.find path = .ok node ↔ tree.node path = some node := by
  induction path generalizing node with
  | nil =>
      rw [Tree.node, tree.rooted, find]
      simp
  | cons name parent ih =>
      rw [find]
      constructor
      · intro h
        split at h <;> try cases h
        split at h <;> try cases h
        assumption
      · intro h
        have hmem : name :: parent ∈ tree.nodes := by
          rw [← AList.lookup_isSome, ← Tree.node, h]
          rfl
        simp only [ih.mpr (tree.nested name parent hmem), h]

theorem find_of_node {path : Path} {node : Node} (h : tree.node path = some node) :
    tree.find path = .ok node := find_eq_ok.mpr h

-- Whether the way is free is a matter of the parent.
theorem blocked_cons {name : String} {parent : Path} : tree.Blocked (name :: parent) ↔
    ∃ above inode, above <:+ parent ∧ tree.node above = some (.file inode) := by
  constructor
  · rintro ⟨above, inode, habove, hne, hfile⟩
    exact ⟨above, inode, (List.suffix_cons_iff.mp habove).resolve_left hne, hfile⟩
  · rintro ⟨above, inode, habove, hfile⟩
    refine ⟨above, inode, habove.trans (List.suffix_cons name parent), ?_, hfile⟩
    rintro rfl
    exact Nat.lt_irrefl _ habove.length_le

-- Nothing is found where no file is in the way.
theorem find_of_none {path : Path} (h : tree.node path = none) (hclear : ¬tree.Blocked path) :
    tree.find path = .error .notFound := by
  induction path with
  | nil =>
      rw [Tree.node, tree.rooted] at h
      cases h
  | cons name parent ih =>
      rw [blocked_cons] at hclear
      rw [find]
      cases hparent : tree.node parent with
      | none =>
          rw [ih hparent]
          rintro ⟨above, inode, habove, -, hfile⟩
          exact hclear ⟨above, inode, habove, hfile⟩
      | some found =>
          cases found with
          | dir => simp only [find_of_node hparent, h]
          | file inode => exact absurd ⟨parent, inode, List.suffix_refl parent, hparent⟩ hclear

theorem find_of_blocked {path : Path} (h : tree.Blocked path) :
    tree.find path = .error .notADirectory := by
  induction path with
  | nil =>
      obtain ⟨above, inode, habove, hne, -⟩ := h
      exact absurd (List.suffix_nil.mp habove) hne
  | cons name parent ih =>
      obtain ⟨above, inode, habove, hfile⟩ := blocked_cons.mp h
      rw [find]
      by_cases heq : above = parent
      · rw [find_of_node (heq ▸ hfile)]
      · rw [ih ⟨above, inode, habove, heq, hfile⟩]

theorem blocked_iff {path : Path} :
    tree.Blocked path ↔ tree.find path = .error .notADirectory := by
  refine ⟨find_of_blocked, fun h => ?_⟩
  by_contra hfree
  cases hnode : tree.node path with
  | none =>
      rw [find_of_none hnode hfree] at h
      cases h
  | some node =>
      rw [find_of_node hnode] at h
      cases h

instance (path : Path) : Decidable (tree.Blocked path) := decidable_of_iff' _ blocked_iff

theorem entry_of_parent {name : String} {parent : Path} (h : tree.node parent = some .dir) :
    tree.entry (name :: parent) = .ok (tree.node (name :: parent)) := by
  rw [entry, find_of_node h]

-- Directories are above everything that exists.
theorem dir_above {path above : Path} {node : Node} (h : tree.node path = some node)
    (habove : above <:+ path) (hne : above ≠ path) : tree.node above = some .dir := by
  induction path generalizing node with
  | nil => exact absurd (List.suffix_nil.mp habove) hne
  | cons name parent ih =>
      have hmem : name :: parent ∈ tree.nodes := by
        rw [← AList.lookup_isSome, ← Tree.node, h]
        rfl
      have hparent := tree.nested name parent hmem
      rcases List.suffix_cons_iff.mp habove with heq | hsuffix
      · exact absurd heq hne
      · by_cases hparent' : above = parent
        · rwa [hparent']
        · exact ih hparent hsuffix hparent'

theorem fileAt_of_file {path : Path} {inode : Nat} (h : tree.node path = some (.file inode)) :
    tree.fileAt path = some (tree.contents inode) := by
  rw [fileAt, h]

theorem fileAt_eq_some {path : Path} {bytes : List UInt8} :
    tree.fileAt path = some bytes ↔
      ∃ inode, tree.node path = some (.file inode) ∧ tree.contents inode = bytes := by
  rw [fileAt]
  cases tree.node path with
  | none => simp
  | some node => cases node <;> simp

end Resolve

section Changes

variable {tree}

@[simp] theorem store_node (inode : Nat) (bytes : List UInt8) :
    (tree.store inode bytes).node = tree.node := rfl

@[simp] theorem store_contents (inode : Nat) (bytes : List UInt8) :
    (tree.store inode bytes).contents = Function.update tree.contents inode bytes := rfl

theorem link_node (name : String) (parent : Path) (node : Node)
    (hparent : tree.node parent = some .dir) (hfree : tree.node (name :: parent) ≠ some .dir)
    (hnode : ∀ inode, node = .file inode → inode < tree.next ∧
      ∀ path, tree.node path = some (.file inode) → path = name :: parent) (path : Path) :
    (tree.link name parent node hparent hfree hnode).node path =
      if path = name :: parent then some node else tree.node path := by
  split
  · rename_i heq
    rw [heq]
    exact AList.lookup_insert _
  · rename_i hne
    exact AList.lookup_insert_ne hne

@[simp] theorem mkdir_contents (name : String) (parent : Path) :
    (tree.mkdir name parent).contents = tree.contents := by
  rw [mkdir]
  split <;> rfl

theorem mkdir_node (name : String) (parent path : Path) :
    (tree.mkdir name parent).node path =
      if path = name :: parent ∧ tree.node parent = some .dir ∧ tree.node (name :: parent) = none
      then some .dir else tree.node path := by
  rw [mkdir]
  split
  · rename_i h
    rw [link_node]
    simp only [h, and_self, and_true]
  · rename_i h
    rw [if_neg fun hpath => h hpath.2]

@[simp] theorem makeDirs_contents (path : Path) :
    (tree.makeDirs path).contents = tree.contents := by
  induction path with
  | nil => rfl
  | cons name parent ih => rw [makeDirs, mkdir_contents, ih]

-- Making directories adds some above the path and changes nothing else.
theorem makeDirs_node (path other : Path) :
    (tree.makeDirs path).node other = tree.node other ∨
      (tree.makeDirs path).node other = some .dir ∧ tree.node other = none ∧ other <:+ path := by
  induction path with
  | nil => exact .inl rfl
  | cons name parent ih =>
      rw [makeDirs, mkdir_node]
      split
      · rename_i h
        obtain ⟨rfl, -, hnone⟩ := h
        rcases ih with ih | ⟨ih, -, -⟩
        · exact .inr ⟨rfl, ih.symm.trans hnone, List.suffix_refl _⟩
        · rw [ih] at hnone
          cases hnone
      · exact ih.imp_right fun h => ⟨h.1, h.2.1, h.2.2.trans (List.suffix_cons name parent)⟩

theorem makeDirs_kept {path other : Path} {node : Node} (h : tree.node other = some node) :
    (tree.makeDirs path).node other = some node := by
  rcases makeDirs_node path other with heq | ⟨-, hnone, -⟩
  · exact heq.trans h
  · rw [h] at hnone
    cases hnone

theorem makeDirs_file {path other : Path} {inode : Nat} :
    (tree.makeDirs path).node other = some (.file inode) ↔
      tree.node other = some (.file inode) := by
  constructor
  · intro h
    rcases makeDirs_node path other with heq | ⟨hdir, -, -⟩
    · exact heq.symm.trans h
    · rw [hdir] at h
      cases h
  · exact makeDirs_kept

-- The directory is there where no file is in the way.
theorem makeDirs_made {path : Path} (hclear : ∀ above inode, above <:+ path →
    tree.node above ≠ some (.file inode)) : (tree.makeDirs path).node path = some .dir := by
  induction path with
  | nil => exact tree.rooted
  | cons name parent ih =>
      have hparent := ih fun above inode h => hclear above inode (h.trans (List.suffix_cons ..))
      rw [makeDirs, mkdir_node]
      split
      · rfl
      · rename_i h
        cases hnode : (tree.makeDirs parent).node (name :: parent) with
        | none => exact absurd ⟨rfl, hparent, hnode⟩ h
        | some node =>
            cases node with
            | dir => rfl
            | file inode => exact absurd (makeDirs_file.mp hnode) (hclear _ _ (List.suffix_refl _))

section AddFile

variable {name : String} {parent : Path} (hparent : tree.node parent = some .dir)
  (hfree : tree.node (name :: parent) = none)

include hparent hfree

theorem addFile_node (path : Path) : (tree.addFile (name :: parent)).node path =
    if path = name :: parent then some (.file tree.next) else tree.node path := by
  rw [addFile, dif_pos ⟨hparent, hfree⟩, link_node, allocate_node]

theorem addFile_contents : (tree.addFile (name :: parent)).contents =
    Function.update tree.contents tree.next [] := by
  rw [addFile, dif_pos ⟨hparent, hfree⟩]
  rfl

end AddFile

theorem removeName_node {path : Path} {inode : Nat} (h : tree.node path = some (.file inode))
    (other : Path) : (tree.removeName path inode).node other =
      if other = path then none else tree.node other := by
  rw [removeName, dif_pos h]
  split
  · rename_i heq
    rw [heq]
    exact tree.unlink_node_self h
  · rename_i hne
    exact tree.unlink_node h hne

@[simp] theorem removeName_contents (path : Path) (inode : Nat) :
    (tree.removeName path inode).contents = tree.contents := by
  rw [removeName]
  split <;> rfl

theorem move_node {src parent : Path} {inode : Nat} {name : String}
    (hsrc : tree.node src = some (.file inode)) (hparent : tree.node parent = some .dir)
    (hdst : tree.node (name :: parent) ≠ some .dir) (path : Path) :
    (tree.move src inode (name :: parent)).node path =
      if path = name :: parent then some (.file inode)
      else if path = src then none else tree.node path := by
  rw [move, dif_pos ⟨hsrc, hparent, hdst⟩, link_node]
  split
  · rfl
  · split
    · rename_i heq
      rw [heq]
      exact tree.unlink_node_self hsrc
    · rename_i hne
      exact tree.unlink_node hsrc hne

@[simp] theorem move_contents (src : Path) (inode : Nat) (dst : Path) :
    (tree.move src inode dst).contents = tree.contents := by
  cases dst with
  | nil => rfl
  | cons name parent =>
      rw [move]
      split <;> rfl

end Changes

end Tree

end RspaceRegistry.Files
