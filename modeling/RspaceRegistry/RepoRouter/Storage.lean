import RspaceRegistry.Multi

namespace RspaceRegistry.RepoRouter

open MultiStore

-- Every method looks the repository up under the lock first and then works on
-- the backend it was handed, whatever happens to the rules in between.
def storage : RspaceRegistry.Storage where
  blobExists repo digest := do (← StoreM.backendFor repo).storage.blobExists repo digest
  blobSize repo digest := do (← StoreM.backendFor repo).storage.blobSize repo digest
  blobRead repo digest := do (← StoreM.backendFor repo).storage.blobRead repo digest
  blobWrite repo expected content := do
    (← StoreM.backendFor repo).storage.blobWrite repo expected content
  blobDelete repo digest := do (← StoreM.backendFor repo).storage.blobDelete repo digest
  manifestGet repo reference := do
    (← StoreM.backendFor repo.text).storage.manifestGet repo reference
  manifestPut repo reference content := do
    (← StoreM.backendFor repo.text).storage.manifestPut repo reference content
  manifestDelete repo reference := do
    (← StoreM.backendFor repo.text).storage.manifestDelete repo reference
  listRepos := do listUnion (·.storage.listRepos) (← StoreM.distinctBackends)
  listTags repo := do (← StoreM.backendFor repo.text).storage.listTags repo
  listManifestDigests repo := do
    (← StoreM.backendFor repo.text).storage.listManifestDigests repo
  listAllBlobs := do listUnion (·.storage.listAllBlobs) (← StoreM.distinctBackends)

end RspaceRegistry.RepoRouter
