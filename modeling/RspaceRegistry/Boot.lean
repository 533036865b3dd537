import RspaceRegistry.Flags
import RspaceRegistry.OciError
import RspaceRegistry.RepoRouter.Upsert
import RspaceRegistry.Stores.Events

namespace RspaceRegistry.Boot

open Cuts Stores

-- How the flags of the command line become stores, and what becomes of the rules that
-- are changed afterwards.

structure Cli where
  data : String := "/var/lib/rspace_registry"
  partitions : List String := []
  primary : Option String := none
  repoRoots : List String := []
  repoClasses : List String := []
  quotas : List String := []
  quotaClasses : List String := []
  quotaCacheTtl : String := "30s"

structure RepoClass where
  name : String
  pattern : String
  root : String

structure StorageSetup where
  storage : Registry
  multi : Option Backend
  router : Option RepoRouter
  quota : Option (List Quota × Nat)
  classes : List RepoClass

-- `none` is a panic. Of the chain of an error the outermost message is kept.
abbrev BootM := ExceptT String Option

def splitOnce (raw : String) : Option (String × String) :=
  (cutOnce '=' raw.toList).map fun parts => (String.ofList parts.1, String.ofList parts.2)

-- The flags that are written `key=value`.
def keyed (option key value raw : String) : BootM (String × String) :=
  match splitOnce raw with
  | none => throw ("--" ++ option ++ " " ++ raw.quote ++ " must be " ++ key ++ "=" ++ value)
  | some (front, back) =>
      if front = "" then throw ("--" ++ option ++ " " ++ raw.quote ++ " has empty " ++ key)
      else pure (front, back)

-- One pass over the flags of an option, with a number for each.
def collect {α : Type} (f : Nat → String → BootM α) : Nat → List String → BootM (List α)
  | _, [] => pure []
  | arc, raw :: rest => do
      let first ← f arc raw
      let others ← collect f (arc + 1) rest
      pure (first :: others)

def quotaFlag (option key : String) (pattern : String → String) (raw : String) : BootM Quota := do
  let (front, size) ← keyed option key "size" raw
  let bytes ← ExceptT.mk (Flags.parseSize size)
  pure ⟨pattern front, UInt64.ofNat bytes⟩

def parseQuotas (quotas quotaClasses : List String) : BootM (List Quota) := do
  let classes ← collect (fun _ => quotaFlag "quota-class" "name" (· ++ "/*")) 0 quotaClasses
  let patterns ← collect (fun _ => quotaFlag "quota" "pattern" id) 0 quotas
  pure (classes ++ patterns)

-- The constructors refuse with `Invalid` only.
def accept {α : Type} : Except StorageError α → BootM α
  | .ok value => pure value
  | .error (.invalid message) => throw ("invalid argument: " ++ message)
  | .error _ => throw "storage"

section Setup

-- What `FsStorage::new` answers for a path: the directory, or the text of its error.
variable (openVolume : String → Except String RootId)

-- A directory behind a new `Arc`.
def opened (context : String) (arc : Nat) (path : String) : BootM Backend :=
  match openVolume path with
  | .ok root => pure (.fs arc root)
  | .error _ => throw context

def repoClass (arc : Nat) (raw : String) : BootM (RouteRule × RepoClass) := do
  let (name, path) ← keyed "repo-class" "name" "/path" raw
  if '/' ∈ name.toList ∨ '*' ∈ name.toList then
    throw ("--repo-class name " ++ name.quote ++ " must be a bare class name (no '/' or '*')")
  else do
    let backend ← opened openVolume ("opening repo class " ++ name ++ "=" ++ path) arc path
    pure (⟨name ++ "/*", backend⟩, ⟨name, name ++ "/*", path⟩)

def repoRoot (arc : Nat) (raw : String) : BootM RouteRule := do
  let (pattern, path) ← keyed "repo-root" "pattern" "/path" raw
  let backend ← opened openVolume ("opening repo root " ++ pattern ++ "=" ++ path) arc path
  pure ⟨pattern, backend⟩

def partition (arc : Nat) (raw : String) : BootM Partition := do
  let (name, path) ← keyed "partition" "name" "/path" raw
  let storage ← opened openVolume ("opening partition " ++ name ++ "=" ++ path) arc path
  pure ⟨name, storage⟩

variable (overflowChecks : Bool)

-- The quotas wrap the router, if there are any.
def withQuotas (cli : Cli) (router : RepoRouter) (classes : List RepoClass) :
    BootM StorageSetup := do
  let quotas ← parseQuotas cli.quotas cli.quotaClasses
  if quotas = [] then pure ⟨.routed router, none, some router, none, classes⟩
  else do
    let ttl ← ExceptT.mk (Flags.parseDuration overflowChecks cli.quotaCacheTtl)
    pure ⟨.quota router quotas ttl, none, some router, some (quotas, ttl), classes⟩

def buildRouted (cli : Cli) : BootM StorageSetup := do
  let classes ← collect (repoClass openVolume) 0 cli.repoClasses
  let roots ← collect (repoRoot openVolume) cli.repoClasses.length cli.repoRoots
  let router ← accept (RepoRouter.new (classes.map Prod.fst ++ roots))
  withQuotas overflowChecks cli router (classes.map Prod.snd)

def primaryName (primary : Option String) (parsed : List Partition) : BootM String :=
  match primary, parsed with
  | some name, _ => pure name
  | none, [only] => pure only.name
  | none, _ => throw "--primary required when more than one --partition is declared"

def buildPartitioned (cli : Cli) : BootM StorageSetup := do
  let parsed ← collect (partition openVolume) 0 cli.partitions
  let primary ← primaryName cli.primary parsed
  let multi ← accept (MultiStore.new cli.partitions.length parsed primary)
  pure ⟨.plain multi, some multi, none, none, []⟩

def Cli.Routed (cli : Cli) : Prop := cli.repoRoots ≠ [] ∨ cli.repoClasses ≠ []

instance (cli : Cli) : Decidable cli.Routed := inferInstanceAs (Decidable (_ ∨ _))

def buildStorage (cli : Cli) : BootM StorageSetup :=
  if cli.Routed then buildRouted openVolume overflowChecks cli
  else if cli.partitions ≠ [] then buildPartitioned openVolume cli
  else do
    let storage ← opened openVolume ("opening data dir " ++ cli.data) 0 cli.data
    pure ⟨.plain storage, none, none, none, []⟩

end Setup

structure RepoRootRequest where
  pattern : String
  root : String

structure RepoRootResponse where
  pattern : String
  root : String
  added : Bool
  ruleCount : Nat

-- `POST /admin/repo-root`
def repoRootUpsert (openVolume : String → Except String RootId) (arc : Nat)
    (body : RepoRootRequest) (router : RepoRouter) :
    Except OciError RepoRootResponse × RepoRouter :=
  if body.pattern = "" then
    (.error ((OciError.new .blobUploadInvalid "pattern must be non-empty").withStatus 400), router)
  else
    match openVolume body.root with
    | .error err =>
        (.error ((OciError.new .unsupported
          ("opening root " ++ body.root ++ ": " ++ err)).withStatus 500), router)
    | .ok root =>
        let (added, router) := router.upsert body.pattern (.fs arc root)
        (.ok ⟨body.pattern, body.root, added, router.rules.length⟩, router)

-- The command line with the flag of a pattern pointed elsewhere: the first one that has
-- the pattern, or else a new `--repo-root`.

def frontOf (raw : String) : String := String.ofList (firstSegment '=' raw.toList)

def pointFirst (key : String → String) (pattern path : String) : List String → Option (List String)
  | [] => none
  | raw :: rest =>
      if key (frontOf raw) = pattern then some ((frontOf raw ++ "=" ++ path) :: rest)
      else (pointFirst key pattern path rest).map (raw :: ·)

def Cli.pointAt (cli : Cli) (pattern path : String) : Cli :=
  match pointFirst (· ++ "/*") pattern path cli.repoClasses with
  | some repoClasses => { cli with repoClasses }
  | none =>
      match pointFirst id pattern path cli.repoRoots with
      | some repoRoots => { cli with repoRoots }
      | none => { cli with repoRoots := cli.repoRoots ++ [pattern ++ "=" ++ path] }

-- A request to the running registry, and the same change of the flags if it was accepted.
def posted (openVolume : String → Except String RootId) (live : RepoRouter × Cli)
    (post : Nat × RepoRootRequest) : RepoRouter × Cli :=
  match repoRootUpsert openVolume post.1 post.2 live.1 with
  | (.ok _, router) => (router, live.2.pointAt post.2.pattern post.2.root)
  | (.error _, router) => (router, live.2)

end RspaceRegistry.Boot
