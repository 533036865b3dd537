import RspaceRegistry.Disk.Paths
import RspaceRegistry.Files.Atomic
import RspaceRegistry.Ordered.BTreeSet

namespace RspaceRegistry.Disk

open Calls Files Ordered

-- The bodies of `FsStorage`, one file operation at a time.

abbrev DiskM := Fallible StorageError FileOp FileOp.Ans

-- `Reference` as the storage takes it: any text may be a tag.
inductive Reference
  | tag (tag : String)
  | digest (digest : Digest)
deriving DecidableEq

structure UploadStatus where
  id : String
  offset : Nat
deriving DecidableEq

def ioToStorage : IoError → StorageError
  | .notFound => .notFound
  | _ => .io

-- `From<io::Error>`, which `?` applies.
def fromIo (_ : IoError) : StorageError := .io

def atomicWrite (path : Path) (content : Bytes) : FileM Unit := do
  match path with
  | [] => pure ()
  | _ :: parent => FileM.call (.createDirAll parent)
  let tmp := withExtension path "tmp"
  let file ← FileM.call (.create tmp)
  FileM.call (.write file content)
  FileM.call (.sync file)
  FileM.call (.rename tmp path)

theorem atomicWrite_eq (name : String) (parent : Path) (content : Bytes) :
    atomicWrite (name :: parent) content =
      replaceFile (tmpName name :: parent) (name :: parent) content := rfl

-- `fs::write`
def writeFile (path : Path) (bytes : Bytes) : FileM Unit := do
  let file ← FileM.call (.create path)
  FileM.call (.write file bytes)

-- `fs::read_to_string`
def readToString (path : Path) : FileM String := do
  let bytes ← FileM.call (.read path)
  match fromUtf8 bytes with
  | some s => pure s
  | none => Fallible.fail .invalidData

section Content

variable [Sha2]

def blobWrite (expected : Digest) (content : Bytes) : DiskM Unit :=
  let actual := hashContent expected.algorithm content
  if actual ≠ expected then Fallible.fail (.digestMismatch expected actual)
  else Fallible.mapError fromIo (atomicWrite (blobPath expected) content)

def manifestPut (repo : String) (reference : Reference) (content : Bytes) : DiskM Digest := do
  let digest := hashContent .sha256 content
  Fallible.mapError fromIo (atomicWrite (manifestDigestPath repo digest) content)
  match reference with
  | .digest _ => pure digest
  | .tag tag => do
      Fallible.mapError fromIo (atomicWrite (manifestTagPath repo tag) (utf8 digest.toString))
      pure digest

-- The file is moved into place, or copied where that fails.
def uploadFinalize (id : String) (expected : Digest) : DiskM Unit := do
  let bytes ← Fallible.mapError ioToStorage (FileM.call (.read (uploadPath id)))
  let actual := hashContent expected.algorithm bytes
  if actual ≠ expected then Fallible.fail (.digestMismatch expected actual)
  else
    let dest := blobPath expected
    Fallible.mapError fromIo (FileM.call (.createDirAll dest.tail))
    match ← Fallible.mapError fromIo (Fallible.attempt (FileM.call (.rename (uploadPath id) dest))) with
    | .ok () => pure ()
    | .error _ =>
        Fallible.mapError fromIo (writeFile dest bytes)
        let _ ← Fallible.mapError fromIo (Fallible.attempt (FileM.call (.remove (uploadPath id))))
        pure ()

end Content

def uploadAppend (id : String) (chunk : Bytes) : DiskM UploadStatus := do
  let file ← Fallible.mapError ioToStorage (FileM.call (.openAppend (uploadPath id)))
  Fallible.mapError fromIo (FileM.call (.append file chunk))
  let offset ← Fallible.mapError fromIo (FileM.call (.len file))
  pure ⟨id, offset⟩

-- The digest that the text of a tag file stands for.
def tagDigest (s : String) : Except StorageError Digest :=
  match Digest.fromStr (trim s) with
  | .ok digest => .ok digest
  | .error err => .error (.internal ("bad stored tag: " ++ err.message))

def manifestGet (repo : String) (reference : Reference) : DiskM Bytes := do
  let digest ← match reference with
    | .digest digest => pure digest
    | .tag tag => do
        let s ← Fallible.mapError ioToStorage (readToString (manifestTagPath repo tag))
        Prog.pure (tagDigest s)
  Fallible.mapError ioToStorage (FileM.call (.read (manifestDigestPath repo digest)))

def manifestDelete (repo : String) (reference : Reference) : DiskM Unit :=
  let path := match reference with
    | .digest digest => manifestDigestPath repo digest
    | .tag tag => manifestTagPath repo tag
  Fallible.mapError ioToStorage (FileM.call (.remove path))

-- The names of the files in the listing that are no temporary ones.
def tagsOf (entries : List (String × Node)) : BTreeSet String :=
  BTreeSet.empty.extend (entries.filterMap fun entry =>
    match entry.2 with
    | .dir => none
    | .file _ => if isTmp entry.1 then none else some entry.1)

def listTags (repo : String) : DiskM (BTreeSet String) := do
  match ← Fallible.mapError fromIo (Fallible.attempt (FileM.call (.readDir ("tags" :: repoPath repo)))) with
  | .ok entries => pure (tagsOf entries)
  | .error .notFound => pure BTreeSet.empty
  | .error _ => Fallible.fail .io

-- Reading leaves the tree as it is.
theorem run_readToString (path : Path) (tree : Tree) :
    (readToString path).run Tree.handle tree =
      ((tree.read path).bind fun bytes => (fromUtf8 bytes).elim (.error .invalidData) .ok, tree) := by
  rw [readToString, Fallible.run_bind, FileM.run_call]
  simp only [Tree.handle]
  cases tree.read path with
  | error err => rfl
  | ok bytes =>
      simp only [Fallible.andThen, Except.bind]
      cases fromUtf8 bytes <;> rfl

theorem run_manifestGet_digest (repo : String) (d : Digest) (tree : Tree) :
    (manifestGet repo (.digest d)).run Tree.handle tree =
      ((tree.read (manifestDigestPath repo d)).mapError ioToStorage, tree) := by
  rw [manifestGet, pure_bind, Fallible.run_mapError, FileM.run_call]
  rfl

theorem run_manifestGet_tag (repo tag : String) (tree : Tree) :
    (manifestGet repo (.tag tag)).run Tree.handle tree =
      ((((tree.read (manifestTagPath repo tag)).bind fun bytes =>
        (fromUtf8 bytes).elim (.error .invalidData) .ok).mapError ioToStorage).bind fun s =>
          (tagDigest s).bind fun d =>
            (tree.read (manifestDigestPath repo d)).mapError ioToStorage, tree) := by
  rw [manifestGet, Fallible.run_bind, Fallible.run_mapError, run_readToString]
  simp only
  cases hread : (tree.read (manifestTagPath repo tag)).bind fun bytes =>
      (fromUtf8 bytes).elim (.error .invalidData) Except.ok with
  | error err => rfl
  | ok s =>
      simp only [Fallible.andThen, Except.mapError, Except.bind]
      cases tagDigest s with
      | error err => rfl
      | ok d => rfl

end RspaceRegistry.Disk
