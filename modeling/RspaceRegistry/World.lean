import RspaceRegistry.RepoRouter
import RspaceRegistry.Calls.Run

namespace RspaceRegistry

open Calls Ordered

-- The `Storage` calls on one directory. The `repo` argument of the blob calls
-- is left out: a single-root backend ignores it.
inductive FsCall
  | blobExists (digest : Digest)
  | blobSize (digest : Digest)
  | blobRead (digest : Digest)
  | blobWrite (expected : Digest) (content : Bytes)
  | blobDelete (digest : Digest)
  | manifestGet (repo : RepoName) (reference : Reference)
  | manifestPut (repo : RepoName) (reference : Reference) (content : Bytes)
  | manifestDelete (repo : RepoName) (reference : Reference)
  | listRepos
  | listTags (repo : RepoName)
  | listManifestDigests (repo : RepoName)
  | listAllBlobs

namespace FsCall

abbrev Value : FsCall → Type
  | .blobExists _ => Bool
  | .blobSize _ => Nat
  | .blobRead _ => Bytes
  | .blobWrite _ _ => Unit
  | .blobDelete _ => Unit
  | .manifestGet _ _ => Bytes
  | .manifestPut _ _ _ => Digest
  | .manifestDelete _ _ => Unit
  | .listRepos => BTreeSet RepoName
  | .listTags _ => BTreeSet TagName
  | .listManifestDigests _ => BTreeSet Digest
  | .listAllBlobs => BTreeSet Digest

variable [Sha2]

def exec : (call : FsCall) → FsStorage → Except StorageError call.Value × FsStorage
  | .blobExists digest, fs => (.ok (fs.blobExists digest), fs)
  | .blobSize digest, fs => (fs.blobSize digest, fs)
  | .blobRead digest, fs => (fs.blobRead digest, fs)
  | .blobWrite expected content, fs => fs.blobWrite expected content
  | .blobDelete digest, fs => fs.blobDelete digest
  | .manifestGet repo reference, fs => (fs.manifestGet repo reference, fs)
  | .manifestPut repo reference content, fs => fs.manifestPut repo reference content
  | .manifestDelete repo reference, fs => fs.manifestDelete repo reference
  | .listRepos, fs => (.ok fs.listRepos, fs)
  | .listTags repo, fs => (.ok (fs.listTags repo), fs)
  | .listManifestDigests repo, fs => (.ok (fs.listManifestDigests repo), fs)
  | .listAllBlobs, fs => (.ok fs.listAllBlobs, fs)

-- What an I/O fault may leave behind. Files appear by a rename, so only a put
-- has traces: the directories, or the manifest file without the tag file.
inductive Fault : FsCall → FsStorage → FsStorage → Prop
  | nothing (call : FsCall) (fs : FsStorage) : Fault call fs fs
  | directory (repo : RepoName) (reference : Reference) (content : Bytes) (fs : FsStorage) :
      Fault (.manifestPut repo reference content) fs (fs.makeRepoDir repo)
  | manifest (repo : RepoName) (tag : TagName) (content : Bytes) (fs : FsStorage) :
      Fault (.manifestPut repo (.tag tag) content) fs (fs.insertManifest repo content)

end FsCall

-- What the registry's code asks of its surroundings: a call on a directory, a
-- look at the rules under their lock, or a new allocation.
inductive Op
  | fs (root : RootId) (call : FsCall)
  | backendFor (repo : String)
  | backendForPattern (pattern : String)
  | upsert (pattern : String) (backend : Backend)
  | distinctBackends
  | newArc

namespace Op

abbrev Ans : Op → Type
  | .fs _ call => Except StorageError call.Value
  | .backendFor _ => Backend
  | .backendForPattern _ => Option Backend
  | .upsert _ _ => Bool
  | .distinctBackends => List Backend
  | .newArc => Nat

def isFs : Op → Bool
  | .fs _ _ => true
  | _ => false

end Op

-- Everything the registry's processes share. No handle that the rules hold has
-- an address the allocator could hand out again.
structure World [Sha2] where
  roots : RootId → FsStorage
  router : RepoRouter
  nextArc : Nat
  arcs_allocated : ∀ rule ∈ router.rules, rule.backend.arc < nextArc

namespace RepoRouter

theorem mem_upsertRules (pattern : String) (backend : Backend) (rules : List RouteRule)
    (rule : RouteRule) (h : rule ∈ (upsertRules pattern backend rules).2) :
    rule ∈ rules ∨ rule.backend = backend := by
  induction rules with
  | nil =>
      rw [upsertRules, List.mem_singleton] at h
      exact .inr (h ▸ rfl)
  | cons head tail ih =>
      rw [upsertRules] at h
      split at h
      · rcases List.mem_cons.mp h with rfl | h
        · exact .inr rfl
        · exact .inl (List.mem_cons_of_mem _ h)
      · rcases List.mem_cons.mp h with rfl | h
        · exact .inl List.mem_cons_self
        · exact (ih h).imp_left (List.mem_cons_of_mem _)

end RepoRouter

namespace World

variable [Sha2]

def setRoot (w : World) (root : RootId) (fs : FsStorage) : World :=
  { w with roots := Function.update w.roots root fs }

def upsert (w : World) (pattern : String) (backend : Backend) : World where
  roots := w.roots
  router := (w.router.upsert pattern backend).2
  nextArc := max w.nextArc (backend.arc + 1)
  arcs_allocated := by
    intro rule hr
    rcases RepoRouter.mem_upsertRules pattern backend w.router.rules rule hr with hr | hr
    · have := w.arcs_allocated rule hr
      omega
    · rw [hr]
      omega

def newArc (w : World) : World where
  roots := w.roots
  router := w.router
  nextArc := w.nextArc + 1
  arcs_allocated := fun rule hr => (w.arcs_allocated rule hr).trans (Nat.lt_succ_self _)

-- The answers when nothing fails.
def handle : Handler Op Op.Ans World
  | .fs root call, w =>
      ((call.exec (w.roots root)).1, w.setRoot root (call.exec (w.roots root)).2)
  | .backendFor repo, w => (w.router.resolve repo, w)
  | .backendForPattern pattern, w => (w.router.backendForPattern pattern, w)
  | .upsert pattern backend, w =>
      ((w.router.upsert pattern backend).1, w.upsert pattern backend)
  | .distinctBackends, w => (w.router.distinctBackends, w)
  | .newArc, w => (w.nextArc, w.newArc)

-- The answers when any call on a directory may fail. A fault is never reported
-- as a missing file.
inductive Faulty : (op : Op) → World → op.Ans → World → Prop
  | regular (op : Op) (w : World) : Faulty op w (handle op w).1 (handle op w).2
  | fault (root : RootId) (call : FsCall) (w : World) (fs : FsStorage) (err : StorageError)
      (hf : call.Fault (w.roots root) fs) (hne : err ≠ .notFound) :
      Faulty (.fs root call) w (.error err) (w.setRoot root fs)

theorem faulty_of_handle (op : Op) (w : World) (answer : op.Ans) (w' : World)
    (h : handle.sem op w answer w') : Faulty op w answer w' := by
  obtain ⟨rfl, rfl⟩ := Prod.mk.inj (h : handle op w = (answer, w')).symm
  exact .regular op w

end World

abbrev StoreM := Fallible StorageError Op Op.Ans

namespace StoreM

def fs (root : RootId) (call : FsCall) : StoreM call.Value := Prog.call (.fs root call) .pure

def backendFor (repo : String) : StoreM Backend :=
  Prog.call (.backendFor repo) fun backend => .pure (.ok backend)

def backendForPattern (pattern : String) : StoreM (Option Backend) :=
  Prog.call (.backendForPattern pattern) fun backend => .pure (.ok backend)

def upsert (pattern : String) (backend : Backend) : StoreM Bool :=
  Prog.call (.upsert pattern backend) fun added => .pure (.ok added)

def distinctBackends : StoreM (List Backend) :=
  Prog.call .distinctBackends fun backends => .pure (.ok backends)

def newArc : StoreM Nat := Prog.call .newArc fun arc => .pure (.ok arc)

end StoreM

end RspaceRegistry
