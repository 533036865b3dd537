import RspaceRegistry.Storage

namespace RspaceRegistry

open Calls Fallible Ordered

-- The children of a `MultiStore`, in the order of its partitions.
structure MultiStore where
  before : List Storage
  primary : Storage
  after : List Storage

namespace MultiStore

-- `HashSet::insert` answers false at the second partition of one name.
def duplicateName : List Partition → List String → Option String
  | [], _ => none
  | p :: rest, seen => if p.name ∈ seen then some p.name else duplicateName rest (p.name :: seen)

def new (arc : Nat) (partitions : List Partition) (primary : String) :
    Except StorageError Backend :=
  if partitions.isEmpty then .error (.invalid "MultiStore needs at least one partition")
  else
    match duplicateName partitions [] with
    | some name => .error (.invalid ("duplicate partition name: " ++ name))
    | none =>
        match partitions.span (·.name != primary) with
        | (_, []) =>
            .error (.invalid ("primary partition " ++ primary.quote ++ " not in list"))
        | (before, p :: after) =>
            .ok (.multi arc (.ofList before) p.name p.storage (.ofList after))

variable {α β : Type}

def partitions (m : MultiStore) : List Storage := m.before ++ m.primary :: m.after

def secondaries (m : MultiStore) : List Storage := m.before ++ m.after

-- One step of a read: only `NotFound` goes on to the rest.
def orOnNotFound (rest : StoreM α) : Except StorageError α → StoreM α
  | .ok value => pure value
  | .error .notFound => rest
  | .error err => fail err

def fallThrough (first rest : StoreM α) : StoreM α := do
  let result ← attempt first
  orOnNotFound rest result

def readSecondaries (f : β → StoreM α) : List β → StoreM α
  | [] => fail .notFound
  | s :: rest => fallThrough (f s) (readSecondaries f rest)

def readFallthrough (m : MultiStore) (f : Storage → StoreM α) : StoreM α :=
  fallThrough (f m.primary) (readSecondaries f m.secondaries)

def orAlso (rest : StoreM Bool) (found : Bool) : StoreM Bool :=
  if found then pure true else rest

def existsInAny (f : β → StoreM Bool) : List β → StoreM Bool
  | [] => pure false
  | s :: rest => do
      let found ← f s
      orAlso (existsInAny f rest) found

-- How one partition's answer counts for the delete of the whole.
def tally (next : Bool → Option StorageError → StoreM Unit) (deletedAny : Bool)
    (lastErr : Option StorageError) : Except StorageError Unit → StoreM Unit
  | .ok () => next true lastErr
  | .error .notFound => next deletedAny lastErr
  | .error err => next deletedAny (some err)

def deleteFromAll (f : β → StoreM Unit) : List β → Bool → Option StorageError → StoreM Unit
  | [], true, _ => pure ()
  | [], false, some err => fail err
  | [], false, none => fail .notFound
  | s :: rest, deletedAny, lastErr => do
      let result ← attempt (f s)
      tally (deleteFromAll f rest) deletedAny lastErr result

def unionInto [LinearOrder α] (f : β → StoreM (BTreeSet α)) :
    List β → BTreeSet α → StoreM (BTreeSet α)
  | [], set => pure set
  | s :: rest, set => do
      let values ← f s
      unionInto f rest (set.extend values.toList)

def listUnion [LinearOrder α] (f : β → StoreM (BTreeSet α)) (list : List β) :
    StoreM (BTreeSet α) :=
  unionInto f list .empty

def storage (m : MultiStore) : Storage where
  blobExists repo digest := existsInAny (·.blobExists repo digest) m.partitions
  blobSize repo digest := m.readFallthrough (·.blobSize repo digest)
  blobRead repo digest := m.readFallthrough (·.blobRead repo digest)
  blobWrite repo expected content := m.primary.blobWrite repo expected content
  blobDelete repo digest := deleteFromAll (·.blobDelete repo digest) m.partitions false none
  manifestGet repo reference := m.readFallthrough (·.manifestGet repo reference)
  manifestPut repo reference content := m.primary.manifestPut repo reference content
  manifestDelete repo reference :=
    deleteFromAll (·.manifestDelete repo reference) m.partitions false none
  listRepos := listUnion (·.listRepos) m.partitions
  listTags repo := listUnion (·.listTags repo) m.partitions
  listManifestDigests repo := listUnion (·.listManifestDigests repo) m.partitions
  listAllBlobs := listUnion (·.listAllBlobs) m.partitions

end MultiStore

mutual

-- The methods behind a handle.
def Backend.storage : Backend → Storage
  | .fs _ root => FsStorage.storage root
  | .multi _ before _ primary after =>
      MultiStore.storage ⟨before.storages, primary.storage, after.storages⟩

def Partitions.storages : Partitions → List Storage
  | .nil => []
  | .cons _ storage rest => storage.storage :: rest.storages

end

end RspaceRegistry
