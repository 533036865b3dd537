import RspaceRegistry.Disk.Addressed
import RspaceRegistry.Places.Slot
import RspaceRegistry.Stores.Flat

namespace RspaceRegistry.Stores

open Calls Disk Files Ordered

-- The directories with their files, and what backends over them hold.

abbrev Trees : Type := RootId → Tree

section Disks

variable [Sha2]

-- For each directory whether, at the moment, it keeps sessions on another file system.
def onTrees (apart : RootId → Option IoError) (root : RootId) : Store Trees := fun op trees =>
  ((fsStore (apart root) op (trees root)).1,
    Function.update trees root (fsStore (apart root) op (trees root)).2)

def Sound (trees : Trees) : Prop := ∀ root, Disk.Sound (trees root)

variable {apart : RootId → Option IoError} {trees : Trees}

theorem onTrees_same {root : RootId} {op : StoreOp} {answer : op.Ans}
    (h : fsStore (apart root) op (trees root) = (answer, trees root)) :
    onTrees apart root op trees = (answer, trees) := by
  rw [onTrees, h, Function.update_eq_self]

theorem onTrees_other {root other : RootId} (h : other ≠ root) (op : StoreOp) :
    (onTrees apart root op trees).2 other = trees other := Function.update_of_ne h _ _

theorem onTrees_self (root : RootId) (op : StoreOp) :
    (onTrees apart root op trees).2 root = (fsStore (apart root) op (trees root)).2 :=
  Function.update_self _ _ _

theorem Sound.onTrees (h : Sound trees) (root : RootId) (op : StoreOp) :
    Sound (onTrees apart root op trees).2 := by
  intro other
  by_cases heq : other = root
  · rw [heq, onTrees_self]
    exact (h root).call ⟨op, apart root⟩
  · rw [onTrees_other heq]
    exact h other

-- What a call means for the shelf of its directory.
def serveShelf (op : StoreOp) (s : Shelf) : Shelf :=
  match op with
  | .request op => (s.serve op).2
  | .blobSize _ _ | .listAllBlobs => s

theorem shelf_onTrees (h : Sound trees) (root : RootId) (op : StoreOp) (other : RootId) :
    shelf ((onTrees apart root op trees).2 other) =
      if other = root then serveShelf op (shelf (trees root)) else shelf (trees other) := by
  split
  · rename_i heq
    rw [heq, onTrees_self]
    cases op with
    | request op => exact (serves_call (apart root) (h root).toLaid op).1
    | blobSize repo d =>
        show shelf ((blobSize d).run Tree.handle (trees root)).2 = _
        rw [run_blobSize (h root).toLaid]
        rfl
    | listAllBlobs =>
        obtain ⟨listing, hrun, -⟩ := run_listAllBlobs (h root).toLaid
        show shelf (listAllBlobs.run Tree.handle (trees root)).2 = _
        rw [hrun]
        rfl
  · rename_i hne
    rw [onTrees_other hne]

def SameShelves (trees trees' : Trees) : Prop := ∀ root, shelf (trees' root) = shelf (trees root)

theorem steps_sound (op : StoreOp) (root : RootId) :
    Steps Sound (fun _ _ => True) (onTrees apart root op) :=
  fun _ h => ⟨h.onTrees root op, trivial⟩

end Disks

section Held

variable [Sha2]

def blobSlot (trees : Trees) (d : Digest) : Places.Slot RootId Bytes :=
  fun root => (shelf (trees root)).blobs d

-- The blob as a read through the directories finds it.
def blobIn (trees : Trees) (roots : List RootId) (d : Digest) : Option Bytes :=
  Places.first roots (blobSlot trees d)

variable (apart : RootId → Option IoError) {trees : Trees} (h : Sound trees)

include h

theorem run_exists (repo : String) (d : Digest) (roots : List RootId) :
    existsInAny (roots.map fun root => onTrees apart root (.request (.blobExists repo d))) trees =
      (.ok (blobIn trees roots d).isSome, trees) := by
  induction roots with
  | nil => rfl
  | cons root rest ih =>
      have hfirst : onTrees apart root (.request (.blobExists repo d)) trees =
          (.ok ((shelf (trees root)).blobs d).isSome, trees) :=
        onTrees_same (run_blobExists (h root).toLaid d)
      rw [List.map_cons, existsInAny, hfirst, blobIn, Places.first, List.findSome?_cons, blobSlot]
      cases (shelf (trees root)).blobs d with
      | none => exact ih
      | some bytes => rfl

theorem run_size (repo : String) (d : Digest) (roots : List RootId) :
    readFallthrough (roots.map fun root => onTrees apart root (.blobSize repo d)) trees =
      (orNotFound ((blobIn trees roots d).map List.length), trees) := by
  induction roots with
  | nil => rfl
  | cons root rest ih =>
      have hfirst : onTrees apart root (.blobSize repo d) trees =
          ((orNotFound ((shelf (trees root)).blobs d)).map List.length, trees) :=
        onTrees_same (run_blobSize (h root).toLaid d)
      rw [List.map_cons, readFallthrough, hfirst, blobIn, Places.first, List.findSome?_cons, blobSlot]
      cases (shelf (trees root)).blobs d with
      | none => exact ih
      | some bytes => rfl

theorem run_read (repo : String) (d : Digest) (roots : List RootId) :
    readFallthrough (roots.map fun root => onTrees apart root (.request (.blobRead repo d))) trees =
      (orNotFound (blobIn trees roots d), trees) := by
  induction roots with
  | nil => rfl
  | cons root rest ih =>
      have hfirst : onTrees apart root (.request (.blobRead repo d)) trees =
          (orNotFound ((shelf (trees root)).blobs d), trees) :=
        onTrees_same (run_blobRead (h root).toLaid d)
      rw [List.map_cons, readFallthrough, hfirst, blobIn, Places.first, List.findSome?_cons, blobSlot]
      cases (shelf (trees root)).blobs d with
      | none => exact ih
      | some bytes => rfl

-- A backend has a blob if one of its directories has it.

omit h [Sha2] in
theorem blobIn_isSome (roots : List RootId) (d : Digest) : (blobIn trees roots d).isSome ↔
    ∃ root ∈ roots, ((shelf (trees root)).blobs d).isSome := Places.first_isSome

omit h [Sha2] in
theorem blobIn_readOrder (b : Backend) (d : Digest) :
    (blobIn trees b.readOrder d).isSome ↔ (blobIn trees b.leaves d).isSome := by
  simp only [blobIn_isSome, b.mem_readOrder]

theorem serve_exists (b : Backend) (repo : String) (d : Digest) :
    b.serve (onTrees apart) (.request (.blobExists repo d)) trees =
      (.ok (blobIn trees b.readOrder d).isSome, trees) := by
  rw [b.serve_blobExists, run_exists apart h, Bool.eq_iff_iff.mpr (blobIn_readOrder b d)]

theorem serve_size (b : Backend) (repo : String) (d : Digest) :
    b.serve (onTrees apart) (.blobSize repo d) trees =
      (orNotFound ((blobIn trees b.readOrder d).map List.length), trees) := by
  rw [b.serve_blobSize, run_size apart h]

theorem serve_read (b : Backend) (repo : String) (d : Digest) :
    b.serve (onTrees apart) (.request (.blobRead repo d)) trees =
      (orNotFound (blobIn trees b.readOrder d), trees) := by
  rw [b.serve_blobRead, run_read apart h]

theorem serve_list (b : Backend) : ∃ listing,
    b.serve (onTrees apart) .listAllBlobs trees = (.ok listing, trees) ∧
      ∀ d, d ∈ listing ↔ (blobIn trees b.readOrder d).isSome := by
  have hlists : ∀ root ∈ b.leaves, ∃ values, onTrees apart root .listAllBlobs trees =
      (.ok values, trees) ∧ ∀ d, d ∈ values ↔ ((shelf (trees root)).blobs d).isSome := by
    intro root _
    obtain ⟨values, hrun, hmem⟩ := run_listAllBlobs (h root).toLaid
    exact ⟨values, onTrees_same hrun, hmem⟩
  obtain ⟨listing, hrun, hmem⟩ := unionInto_lists hlists .empty
  refine ⟨listing, by rw [b.serve_listAllBlobs]; exact hrun, fun d => ?_⟩
  rw [hmem, blobIn_readOrder, blobIn_isSome]
  simp

theorem serve_sound (b : Backend) (op : StoreOp) : Sound (b.serve (onTrees apart) op trees).2 :=
  (b.steps_serve (fun _ => trivial) (fun _ _ _ _ _ => trivial)
    (fun root _ => steps_sound op root) trees h).1

omit h in
-- A backend works on its own directories.
theorem serve_others (b : Backend) (op : StoreOp) {root : RootId} (hroot : root ∉ b.leaves) :
    (b.serve (onTrees apart) op trees).2 root = trees root := by
  have hsteps : Steps (fun _ => True) (fun trees trees' : Trees => trees' root = trees root)
      (b.serve (onTrees apart) op) := by
    refine b.steps_serve ?_ ?_ ?_
    · exact fun _ => rfl
    · exact fun _ _ _ h h' => Eq.trans h' h
    · intro leaf hleaf trees _
      refine ⟨trivial, onTrees_other ?_ op⟩
      rintro rfl
      exact hroot hleaf
  exact (hsteps trees trivial).2

theorem serve_primary (b : Backend) {op : StoreOp} (hop : ForPrimary op) (root : RootId) :
    shelf ((b.serve (onTrees apart) op trees).2 root) =
      if root = b.head then serveShelf op (shelf (trees b.head)) else shelf (trees root) := by
  rw [b.serve_head (onTrees apart) hop, shelf_onTrees h]

omit h in
theorem serveShelf_delete (repo : String) (d : Digest) (s : Shelf) :
    serveShelf (.request (.blobDelete repo d)) s = s.drop d := by
  rw [serveShelf, Shelf.serve]
  cases hblob : s.blobs d with
  | some bytes => rfl
  | none =>
      show s = { s with blobs := Function.update s.blobs d none }
      rw [← hblob, Function.update_eq_self]

theorem run_deletes (repo : String) (d : Digest) (roots : List RootId) (root : RootId) :
    shelf ((roots.foldl (fun trees root =>
      (onTrees apart root (.request (.blobDelete repo d)) trees).2) trees) root) =
        if root ∈ roots then (shelf (trees root)).drop d else shelf (trees root) := by
  induction roots generalizing trees with
  | nil => rfl
  | cons first rest ih =>
      rw [List.foldl_cons, ih (h.onTrees first _), shelf_onTrees h, serveShelf_delete]
      by_cases hfirst : root = first
      · subst hfirst
        have htwice : ((shelf (trees root)).drop d).drop d = (shelf (trees root)).drop d := by
          simp only [Shelf.drop, Function.update_idem]
        rw [if_pos rfl, if_pos List.mem_cons_self, htwice, ite_self]
      · simp only [List.mem_cons, hfirst, false_or, if_false]

theorem serve_delete (b : Backend) (repo : String) (d : Digest) (root : RootId) :
    shelf ((b.serve (onTrees apart) (.request (.blobDelete repo d)) trees).2 root) =
      if root ∈ b.leaves then (shelf (trees root)).drop d else shelf (trees root) := by
  rw [b.serve_blobDelete, run_deletes apart h]

-- What the primary makes of a call, the backend makes of it.
theorem serve_answer (b : Backend) {op : StorageOp} (hop : ForPrimary (.request op))
    {answer : op.Ans} {s : Shelf} (hserve : (shelf (trees b.head)).serve op = (some answer, s)) :
    (b.serve (onTrees apart) (.request op) trees).1 = answer ∧
      ∀ root, shelf ((b.serve (onTrees apart) (.request op) trees).2 root) =
        if root = b.head then s else shelf (trees root) := by
  constructor
  · rw [b.serve_head (onTrees apart) hop]
    exact (serves_call (apart b.head) (h b.head).toLaid op).2 answer (by rw [hserve])
  · intro root
    rw [serve_primary apart h b hop, serveShelf, hserve]

end Held

end RspaceRegistry.Stores
