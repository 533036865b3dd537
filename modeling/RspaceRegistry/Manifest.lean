import RspaceRegistry.Digest

namespace RspaceRegistry

-- A JSON text as the parser hands it to a typed `Deserialize`: members in
-- their order, repeated keys included, and numbers by the three kinds that
-- `serde_json` tells apart.
inductive Json
  | null
  | bool (value : Bool)
  | posInt (value : UInt64)
  | negInt (value : Int64)
  | float
  | str (value : String)
  | arr (items : List Json)
  | obj (members : List (String × Json))

-- The `serde_json` crate: the value of a text that `from_slice::<Value>` accepts.
class SerdeJson where
  fromSlice : Bytes → Option Json

namespace Json

def asString : Json → Option String
  | .str value => some value
  | _ => none

def asU64 : Json → Option UInt64
  | .posInt value => some value
  | _ => none

def asMap : Json → Option (List (String × Json))
  | .obj members => some members
  | _ => none

def asDigest : Json → Option Digest
  | .str value => (Digest.fromStr value).toOption
  | _ => none

-- `Option<T>`: `null` is `None`, anything else has to be a `T`.
def asOption {α : Type} (decode : Json → Option α) : Json → Option (Option α)
  | .null => some none
  | value => (decode value).map some

-- `Vec<T>`: every element has to decode.
def asVec {α : Type} (decode : Json → Option α) : Json → Option (List α)
  | .arr items => items.mapM decode
  | _ => none

def occurrences (key : String) (members : List (String × Json)) : List Json :=
  (members.filter fun member => member.1 == key).map Prod.snd

-- A field of a derived struct in its map form. A second occurrence of a known
-- key is an error; a missing one is the default, if there is one.
def field {α : Type} (decode : Json → Option α) (missing : Option α) (key : String)
    (members : List (String × Json)) : Option α :=
  match occurrences key members with
  | [] => missing
  | [value] => decode value
  | _ => none

-- The same field in the sequence form that a derived struct accepts as well.
def item {α : Type} (decode : Json → Option α) (missing : Option α) (index : Nat)
    (items : List Json) : Option α :=
  match items[index]? with
  | none => missing
  | some value => decode value

end Json

structure Descriptor where
  mediaType : String
  digest : Digest
  size : UInt64
  artifactType : Option String
  annotations : Option (List (String × Json))

def Descriptor.deserialize : Json → Option Descriptor
  | .obj members => do
      let mediaType ← Json.field Json.asString none "mediaType" members
      let digest ← Json.field Json.asDigest none "digest" members
      let size ← Json.field Json.asU64 (some 0) "size" members
      let artifactType ← Json.field (Json.asOption Json.asString) (some none) "artifactType" members
      let annotations ← Json.field (Json.asOption Json.asMap) (some none) "annotations" members
      return { mediaType, digest, size, artifactType, annotations }
  | .arr items => do
      let mediaType ← Json.item Json.asString none 0 items
      let digest ← Json.item Json.asDigest none 1 items
      let size ← Json.item Json.asU64 (some 0) 2 items
      let artifactType ← Json.item (Json.asOption Json.asString) (some none) 3 items
      let annotations ← Json.item (Json.asOption Json.asMap) (some none) 4 items
      if items.length ≤ 5 then return { mediaType, digest, size, artifactType, annotations }
      else none
  | _ => none

structure Manifest where
  mediaType : Option String
  artifactType : Option String
  config : Option Descriptor
  layers : List Descriptor
  manifests : List Descriptor
  subject : Option Descriptor
  annotations : Option (List (String × Json))

namespace Manifest

def deserialize : Json → Option Manifest
  | .obj members => do
      let mediaType ← Json.field (Json.asOption Json.asString) (some none) "mediaType" members
      let artifactType ← Json.field (Json.asOption Json.asString) (some none) "artifactType" members
      let config ← Json.field (Json.asOption Descriptor.deserialize) (some none) "config" members
      let layers ← Json.field (Json.asVec Descriptor.deserialize) (some []) "layers" members
      let manifests ← Json.field (Json.asVec Descriptor.deserialize) (some []) "manifests" members
      let subject ← Json.field (Json.asOption Descriptor.deserialize) (some none) "subject" members
      let annotations ← Json.field (Json.asOption Json.asMap) (some none) "annotations" members
      return { mediaType, artifactType, config, layers, manifests, subject, annotations }
  | .arr items => do
      let mediaType ← Json.item (Json.asOption Json.asString) (some none) 0 items
      let artifactType ← Json.item (Json.asOption Json.asString) (some none) 1 items
      let config ← Json.item (Json.asOption Descriptor.deserialize) (some none) 2 items
      let layers ← Json.item (Json.asVec Descriptor.deserialize) (some []) 3 items
      let manifests ← Json.item (Json.asVec Descriptor.deserialize) (some []) 4 items
      let subject ← Json.item (Json.asOption Descriptor.deserialize) (some none) 5 items
      let annotations ← Json.item (Json.asOption Json.asMap) (some none) 6 items
      if items.length ≤ 7 then
        return { mediaType, artifactType, config, layers, manifests, subject, annotations }
      else none
  | _ => none

def configDigests (m : Manifest) : List Digest := (m.config.map (·.digest)).toList

def layerDigests (m : Manifest) : List Digest := m.layers.map (·.digest)

def childDigests (m : Manifest) : List Digest := m.manifests.map (·.digest)

def subjectDigests (m : Manifest) : List Digest := (m.subject.map (·.digest)).toList

def referencedDigests (m : Manifest) : List Digest :=
  m.configDigests ++ m.layerDigests ++ m.childDigests ++ m.subjectDigests

-- The part of them that the copiers treat as blobs: index entries are walked
-- as manifests instead.
def blobDigests (m : Manifest) : List Digest :=
  m.configDigests ++ m.layerDigests ++ m.subjectDigests

end Manifest

def parseManifestRefs [SerdeJson] (bytes : Bytes) : Option Manifest :=
  (SerdeJson.fromSlice bytes).bind Manifest.deserialize

end RspaceRegistry
