import RspaceRegistry.World

namespace RspaceRegistry

open Ordered

-- The methods of the `Storage` trait that take part in storing and moving
-- content. Blob calls take the repository as a plain text: the collector probes
-- with the empty one.
structure Storage where
  blobExists : String → Digest → StoreM Bool
  blobSize : String → Digest → StoreM Nat
  blobRead : String → Digest → StoreM Bytes
  blobWrite : String → Digest → Bytes → StoreM Unit
  blobDelete : String → Digest → StoreM Unit
  manifestGet : RepoName → Reference → StoreM Bytes
  manifestPut : RepoName → Reference → Bytes → StoreM Digest
  manifestDelete : RepoName → Reference → StoreM Unit
  listRepos : StoreM (BTreeSet RepoName)
  listTags : RepoName → StoreM (BTreeSet TagName)
  listManifestDigests : RepoName → StoreM (BTreeSet Digest)
  listAllBlobs : StoreM (BTreeSet Digest)

def FsStorage.storage (root : RootId) : Storage where
  blobExists _ digest := StoreM.fs root (.blobExists digest)
  blobSize _ digest := StoreM.fs root (.blobSize digest)
  blobRead _ digest := StoreM.fs root (.blobRead digest)
  blobWrite _ expected content := StoreM.fs root (.blobWrite expected content)
  blobDelete _ digest := StoreM.fs root (.blobDelete digest)
  manifestGet repo reference := StoreM.fs root (.manifestGet repo reference)
  manifestPut repo reference content := StoreM.fs root (.manifestPut repo reference content)
  manifestDelete repo reference := StoreM.fs root (.manifestDelete repo reference)
  listRepos := StoreM.fs root .listRepos
  listTags repo := StoreM.fs root (.listTags repo)
  listManifestDigests repo := StoreM.fs root (.listManifestDigests repo)
  listAllBlobs := StoreM.fs root .listAllBlobs

end RspaceRegistry
