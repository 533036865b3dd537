import RspaceRegistry.Digest
import RspaceRegistry.RepoName

namespace RspaceRegistry

inductive Reference
  | tag (tag : TagName)
  | digest (digest : Digest)
deriving DecidableEq

-- `Io` keeps no payload here: nothing in the core looks into it.
inductive StorageError
  | notFound
  | digestMismatch (expected got : Digest)
  | invalid (message : String)
  | quotaExceeded (message : String)
  | io
  | internal (message : String)
deriving DecidableEq

end RspaceRegistry
