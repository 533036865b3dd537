import RspaceRegistry.Disk.Programs

namespace RspaceRegistry.Disk

open Calls Files Ordered

-- The rest of `FsStorage` that requests reach, and all of it as one party that
-- answers the calls of a handler.

-- `fs::try_exists`
def blobExists (d : Digest) : DiskM Bool := do
  match ← Fallible.mapError fromIo (Fallible.attempt (FileM.call (.metadata (blobPath d)))) with
  | .ok _ => pure true
  | .error .notFound => pure false
  | .error _ => Fallible.fail .io

def blobRead (d : Digest) : DiskM Bytes :=
  Fallible.mapError ioToStorage (FileM.call (.read (blobPath d)))

def blobDelete (d : Digest) : DiskM Unit :=
  Fallible.mapError ioToStorage (FileM.call (.remove (blobPath d)))

-- The session gets the identifier that was drawn for it.
def uploadCreate (id : String) : DiskM UploadStatus := do
  Fallible.mapError fromIo (FileM.call (.createDirAll (uploadPath id).tail))
  let _ ← Fallible.mapError fromIo (FileM.call (.create (uploadPath id)))
  pure ⟨id, 0⟩

-- No directory stands below `uploads`, so its length is never asked for.
def uploadStatus (id : String) : DiskM UploadStatus := do
  let len ← Fallible.mapError ioToStorage (FileM.call (.metadata (uploadPath id)))
  pure ⟨id, len.getD 0⟩

def uploadCancel (id : String) : DiskM Unit :=
  Fallible.mapError ioToStorage (FileM.call (.remove (uploadPath id)))

-- A path that ends in `.` or `..` leads to a directory, which is not read and not
-- removed as a file is, or to nothing.
def atDots {α : Type} (repo : String) : DiskM α := do
  let _ ← Fallible.mapError ioToStorage (FileM.call (.metadata ("tags" :: repoPath repo)))
  Fallible.fail .io

-- The digests that the names of the files in the listing are.
def digestsOf (entries : List (String × Node)) : BTreeSet Digest :=
  BTreeSet.empty.extend (entries.filterMap fun entry =>
    match entry.2 with
    | .dir => none
    | .file _ => if isTmp entry.1 then none else (Digest.fromStr entry.1).toOption)

def listManifestDigests (repo : String) : DiskM (BTreeSet Digest) := do
  match ← Fallible.mapError fromIo
      (Fallible.attempt (FileM.call (.readDir ("digests" :: repoPath repo)))) with
  | .ok entries => pure (digestsOf entries)
  | .error .notFound => pure BTreeSet.empty
  | .error _ => Fallible.fail .io

-- A directory is a repository if it has a directory `tags` or `digests`.
def isRepo (entries : List (String × Node)) : Bool :=
  entries.any fun entry => entry.2 = .dir && (entry.1 = "tags" || entry.1 = "digests")

def childDirs (entries : List (String × Node)) : List String :=
  entries.filterMap fun entry =>
    match entry.2 with
    | .dir => if entry.1 = "tags" ∨ entry.1 = "digests" then none else some entry.1
    | .file _ => none

-- The path below `manifests`, with slashes.
def relativeName (dir : Path) : String :=
  String.ofList (("/".intercalate dir.dropLast.reverse).toList.map fun c =>
    if c = '\\' then '/' else c)

def walkChildren (walk : Path → List String → FileM (List String)) (dir : Path) :
    List String → List String → FileM (List String)
  | [], out => pure out
  | child :: rest, out => do
      let out ← walk (child :: dir) out
      walkChildren walk dir rest out

-- The walk goes down one level at a time: started with more steps than the tree has
-- levels, the first case is never reached.
def walkRepos : Nat → Path → List String → FileM (List String)
  | 0, _, out => pure out
  | steps + 1, dir, out => do
      match ← Fallible.attempt (FileM.call (.readDir dir)) with
      | .error .notFound => pure out
      | .error err => Fallible.fail err
      | .ok entries =>
          let found := if isRepo entries ∧ relativeName dir ≠ "" then [relativeName dir] else []
          walkChildren (walkRepos steps) dir (childDirs entries) (out ++ found)

def listRepos (steps : Nat) : DiskM (BTreeSet String) := do
  let out ← Fallible.mapError fromIo (walkRepos steps ["manifests"] [])
  pure (BTreeSet.empty.extend out)

-- The calls of the `Storage` trait that the handlers of requests make. The random
-- identifier of a new session comes with the call.
inductive StorageOp
  | blobExists (repo : String) (digest : Digest)
  | blobRead (repo : String) (digest : Digest)
  | blobWrite (repo : String) (expected : Digest) (content : Bytes)
  | blobDelete (repo : String) (digest : Digest)
  | uploadCreate (repo : String) (drawn : String)
  | uploadStatus (repo : String) (id : String)
  | uploadAppend (repo : String) (id : String) (chunk : Bytes)
  | uploadFinalize (repo : String) (id : String) (expected : Digest)
  | uploadCancel (repo : String) (id : String)
  | manifestGet (repo : String) (reference : Reference)
  | manifestPut (repo : String) (reference : Reference) (content : Bytes)
  | manifestDelete (repo : String) (reference : Reference)
  | listRepos
  | listTags (repo : String)
  | listManifestDigests (repo : String)
deriving DecidableEq

abbrev StorageOp.Value : StorageOp → Type
  | .blobExists _ _ => Bool
  | .blobRead _ _ | .manifestGet _ _ => Bytes
  | .uploadCreate _ _ | .uploadStatus _ _ | .uploadAppend _ _ _ => UploadStatus
  | .manifestPut _ _ _ => Digest
  | .listRepos | .listTags _ => BTreeSet String
  | .listManifestDigests _ => BTreeSet Digest
  | .blobWrite _ _ _ | .blobDelete _ _ | .uploadFinalize _ _ _ | .uploadCancel _ _
  | .manifestDelete _ _ => Unit

abbrev StorageOp.Ans (op : StorageOp) : Type := Except StorageError op.Value

-- The repository that a call names.
def StorageOp.repo : StorageOp → Option String
  | .blobExists repo _ | .blobRead repo _ | .blobWrite repo _ _ | .blobDelete repo _
  | .uploadCreate repo _ | .uploadStatus repo _ | .uploadAppend repo _ _
  | .uploadFinalize repo _ _ | .uploadCancel repo _ | .manifestGet repo _
  | .manifestPut repo _ _ | .manifestDelete repo _ | .listTags repo
  | .listManifestDigests repo => some repo
  | .listRepos => none

section

variable [Sha2]

-- A push to the tag `.` fails at the rename onto the directory itself, next to which
-- the temporary file stays; one to `..` fails when that is created as a file.
def putAtDots (repo : String) (reference : Reference) (content : Bytes) : DiskM Digest := do
  let digest := hashContent .sha256 content
  Fallible.mapError fromIo (atomicWrite (manifestDigestPath repo digest) content)
  if reference = .tag "." then do
    Fallible.mapError fromIo (FileM.call (.createDirAll (repoPath repo)))
    Fallible.mapError fromIo (writeFile (tmpName "tags" :: repoPath repo) (utf8 digest.toString))
  else Fallible.mapError fromIo (FileM.call (.createDirAll ("tags" :: repoPath repo)))
  Fallible.fail .io

-- `FsStorage` ignores the repository of a blob or a session.
def StorageOp.body (tree : Tree) : (op : StorageOp) → DiskM op.Value
  | .blobExists _ digest => Disk.blobExists digest
  | .blobRead _ digest => Disk.blobRead digest
  | .blobWrite _ expected content => Disk.blobWrite expected content
  | .blobDelete _ digest => Disk.blobDelete digest
  | .uploadCreate _ drawn => Disk.uploadCreate drawn
  | .uploadStatus _ id => Disk.uploadStatus id
  | .uploadAppend _ id chunk => Disk.uploadAppend id chunk
  | .uploadFinalize _ id expected => Disk.uploadFinalize id expected
  | .uploadCancel _ id => Disk.uploadCancel id
  | .manifestGet repo reference =>
      if reference = .tag "." ∨ reference = .tag ".." then atDots repo
      else Disk.manifestGet repo reference
  | .manifestPut repo reference content =>
      if reference = .tag "." ∨ reference = .tag ".." then putAtDots repo reference content
      else Disk.manifestPut repo reference content
  | .manifestDelete repo reference =>
      if reference = .tag "." ∨ reference = .tag ".." then atDots repo
      else Disk.manifestDelete repo reference
  | .listRepos => Disk.listRepos (tree.nodes.entries.length + 1)
  | .listTags repo => Disk.listTags repo
  | .listManifestDigests repo => Disk.listManifestDigests repo

-- One call at a time, on a tree without faults.
def fsStorage : Handler StorageOp StorageOp.Ans Tree :=
  fun op tree => (op.body tree).run Tree.handle tree

end

end RspaceRegistry.Disk
