import RspaceRegistry.FsStorage

namespace RspaceRegistry

-- A directory that an `FsStorage` is opened on. Two handles on one directory
-- share everything in it.
abbrev RootId := Nat

mutual

-- An `Arc<dyn Storage>`: the allocation `arc` tells it from every other handle,
-- also from one on the same directory. A `MultiStore` has its primary among its
-- partitions by construction.
inductive Backend
  | fs (arc : Nat) (root : RootId)
  | multi (arc : Nat) (before : Partitions) (name : String) (primary : Backend)
      (after : Partitions)
deriving DecidableEq

inductive Partitions
  | nil
  | cons (name : String) (storage : Backend) (rest : Partitions)
deriving DecidableEq

end

structure Partition where
  name : String
  storage : Backend
deriving DecidableEq

namespace Partitions

def toList : Partitions → List Partition
  | .nil => []
  | .cons name storage rest => ⟨name, storage⟩ :: rest.toList

def ofList : List Partition → Partitions
  | [] => .nil
  | p :: rest => .cons p.name p.storage (ofList rest)

end Partitions

namespace Backend

def arc : Backend → Nat
  | .fs arc _ => arc
  | .multi arc _ _ _ _ => arc

-- `Arc::ptr_eq`
def ptrEq (first second : Backend) : Bool := first = second

end Backend

mutual

-- The directories in the order of the partitions, which is the order of
-- deletes, listings and `blob_exists`.
def Backend.leaves : Backend → List RootId
  | .fs _ root => [root]
  | .multi _ before _ primary after => before.leaves ++ primary.leaves ++ after.leaves

def Partitions.leaves : Partitions → List RootId
  | .nil => []
  | .cons _ storage rest => storage.leaves ++ rest.leaves

end

mutual

-- The directories in the order in which a read falls through them.
def Backend.readOrder : Backend → List RootId
  | .fs _ root => [root]
  | .multi _ before _ primary after => primary.readOrder ++ (before.readOrder ++ after.readOrder)

def Partitions.readOrder : Partitions → List RootId
  | .nil => []
  | .cons _ storage rest => storage.readOrder ++ rest.readOrder

end

namespace Backend

-- The directory that takes the writes.
def head : Backend → RootId
  | .fs _ root => root
  | .multi _ _ _ primary _ => primary.head

theorem readOrder_eq_cons : (b : Backend) → ∃ rest, b.readOrder = b.head :: rest
  | .fs _ _ => ⟨[], rfl⟩
  | .multi _ before _ primary after => by
      obtain ⟨rest, hrest⟩ := primary.readOrder_eq_cons
      refine ⟨rest ++ (before.readOrder ++ after.readOrder), ?_⟩
      rw [readOrder, hrest]
      rfl

end Backend

mutual

theorem Backend.mem_readOrder (root : RootId) :
    (b : Backend) → (root ∈ b.readOrder ↔ root ∈ b.leaves)
  | .fs _ _ => Iff.rfl
  | .multi _ before _ primary after => by
      simp only [Backend.readOrder, Backend.leaves, List.mem_append, before.mem_readOrder root,
        primary.mem_readOrder root, after.mem_readOrder root]
      tauto

theorem Partitions.mem_readOrder (root : RootId) :
    (ps : Partitions) → (root ∈ ps.readOrder ↔ root ∈ ps.leaves)
  | .nil => Iff.rfl
  | .cons _ storage rest => by
      simp only [Partitions.readOrder, Partitions.leaves, List.mem_append,
        storage.mem_readOrder root, rest.mem_readOrder root]

end

theorem Backend.head_mem_readOrder (b : Backend) : b.head ∈ b.readOrder := by
  obtain ⟨rest, h⟩ := b.readOrder_eq_cons
  rw [h]
  exact List.mem_cons_self

theorem Backend.head_mem_leaves (b : Backend) : b.head ∈ b.leaves :=
  (b.mem_readOrder b.head).mp b.head_mem_readOrder

end RspaceRegistry
