import RspaceRegistry.Disk.Storage
import RspaceRegistry.Http.Gate
import RspaceRegistry.Manifest

namespace RspaceRegistry.Http

open Calls Disk Ordered

-- The `uuid` crate: `Uuid::parse_str`, and the form in which an identifier prints.
class UuidCrate where
  parseStr : String → Option String

-- The entry of a manifest in a list of referrers.
structure ReferrerEntry where
  mediaType : String
  digest : Digest
  size : Nat
  artifactType : Option String
  annotations : Option (List (String × Json))

inductive Body
  | empty
  | braces
  | bytes (content : Bytes)
  | repositories (names : List String)
  | tags (name : String) (tags : List String)
  | referrers (entries : List ReferrerEntry)
  | token (token : Text) (expiresIn : Nat)
  | error (code : OciCode) (message : String)

structure Response where
  status : Nat
  headers : List (String × String)
  body : Body

def OciError.response (err : OciError) : Response := ⟨err.status, [], .error err.code err.message⟩

-- The decoded pairs of the query string, of which the last with a key counts.
abbrev Query := List (String × String)

def Query.get (query : Query) (key : String) : Option String := query.reverse.lookup key

-- `str::parse::<usize>`
def parseUsize (s : String) : Option Nat :=
  let digits := match s.toList with
    | '+' :: rest => rest
    | chars => chars
  if digits = [] ∨ !digits.all Char.isDigit then none
  else
    let n := digits.foldl (fun n c => 10 * n + (c.toNat - '0'.toNat)) 0
    if n < 2 ^ 64 then some n else none

structure Request extends Arrival where
  query : Query
  contentType : Option String
  body : Bytes
  drawn : String

abbrev HandlerM := Fallible OciError StorageOp StorageOp.Ans

-- `From<StorageError>`, which `?` applies.
def fromStorage : StorageError → OciError
  | .notFound => .new .blobUnknown "not found"
  | .digestMismatch expected got =>
      .new .digestInvalid ("digest mismatch: expected " ++ expected.toString ++ ", got " ++
        got.toString)
  | .invalid message => .new .blobUploadInvalid message
  | .quotaExceeded message => (OciError.new .denied message).withStatus 413
  | .io => (OciError.new .unsupported "io: ").withStatus 500
  | .internal message => (OciError.new .unsupported message).withStatus 500

def ask (op : StorageOp) : Fallible StorageError StorageOp StorageOp.Ans op.Value :=
  Prog.call op Prog.pure

-- `storage.call(..).await?`
def call (op : StorageOp) : HandlerM op.Value := Fallible.mapError fromStorage (ask op)

-- The same with `NotFound` under another name.
def callOr (op : StorageOp) (code : OciCode) (message : String) : HandlerM op.Value :=
  Fallible.mapError (fun err => if err = .notFound then .new code message else fromStorage err)
    (ask op)

def lift {α : Type} (result : Except OciError α) : HandlerM α := Prog.pure result

def parseReference (s : String) : Disk.Reference :=
  match Digest.fromStr s with
  | .ok digest => .digest digest
  | .error _ => .tag s

def parseDigest (s : String) : Except OciError Digest :=
  (Digest.fromStr s).mapError fun err => .new .digestInvalid ("invalid digest: " ++ err.message)

def parseUuid [UuidCrate] (s : String) : Except OciError String :=
  match UuidCrate.parseStr s with
  | some id => .ok id
  | none => .error (.new .blobUploadInvalid "invalid upload uuid")

-- `HeaderValue::from_str`, of a text without bytes outside ASCII.
def headerValue (s : String) : Option String :=
  if s.toList.all fun c => c = '\t' || (0x20 ≤ c.toNat && c.toNat < 0x7f) then some s else none

def versionCheck : Response :=
  ⟨200, [("docker-distribution-api-version", "registry/2.0")], .braces⟩

-- A page of a sorted listing, and the header that leads to the next one.
def page (entries : List String) (url : String) (n : Option Nat) (last : Option String) :
    List String × List (String × String) :=
  let rest := match last with
    | some after => entries.filter fun entry => after < entry
    | none => entries
  match n with
  | none => (rest, [])
  | some limit =>
      let shown := rest.take limit
      if rest.length ≤ limit then (shown, [])
      else
        match shown.getLast? with
        | none => (shown, [])
        | some final =>
            let link := "<" ++ url ++ "?n=" ++ toString limit ++ "&last=" ++ final ++
              ">; rel=\"next\""
            (shown, (headerValue link).toList.map fun value => ("link", value))

def catalog (n : Option Nat) (last : Option String) : HandlerM Response := do
  let repos ← call .listRepos
  let (shown, headers) := page repos.toList "/v2/_catalog" n last
  pure ⟨200, headers, .repositories shown⟩

-- A repository without tags has to be listed.
def requireListed (repo : String) (tags : BTreeSet String) : HandlerM Unit :=
  if tags.toList = [] then do
    let repos ← call .listRepos
    if repo ∈ repos then pure () else Fallible.fail (.new .nameUnknown "repository not found")
  else pure ()

def tagsList (repo : String) (n : Option Nat) (last : Option String) : HandlerM Response := do
  lift (validateRepoName repo)
  let tags ← call (.listTags repo)
  requireListed repo tags
  let (shown, headers) := page tags.toList ("/v2/" ++ repo ++ "/tags/list") n last
  pure ⟨200, headers, .tags repo shown⟩

def ociManifestMediaType : String := "application/vnd.oci.image.manifest.v1+json"

def ociIndexMediaType : String := "application/vnd.oci.image.index.v1+json"

def manifestMediaTypes : List String :=
  [ociManifestMediaType, ociIndexMediaType, "application/vnd.docker.distribution.manifest.v2+json",
    "application/vnd.docker.distribution.manifest.list.v2+json"]

-- `Value::get`: of repeated members the last is kept.
def Json.get (value : Json) (key : String) : Option Json :=
  match value with
  | .obj members => (Json.occurrences key members).getLast?
  | _ => none

section Content

variable [SerdeJson]

def manifestMediaType (bytes : Bytes) (hinted : Option String) : String :=
  let known := fun s : Option String => s.filter (· ∈ manifestMediaTypes)
  match known hinted with
  | some hint => hint
  | none =>
      let named := ((SerdeJson.fromSlice bytes).bind fun value =>
        Json.get value "mediaType").bind Json.asString
      match known named with
      | some name => name
      | none =>
          match parseManifestRefs bytes with
          | some m => if m.manifests.isEmpty then ociManifestMediaType else ociIndexMediaType
          | none => ociManifestMediaType

variable [Sha2]

def manifestGet (repo reference : String) (headOnly : Bool) : HandlerM Response := do
  lift (validateRepoName repo)
  let bytes ← callOr (.manifestGet repo (parseReference reference)) .manifestUnknown
    "manifest unknown"
  let digest := hashContent .sha256 bytes
  pure ⟨200,
    [("content-type", manifestMediaType bytes none), ("docker-content-digest", digest.toString),
      ("content-length", toString bytes.length)],
    if headOnly then .empty else .bytes bytes⟩

def manifestPut (repo reference : String) (contentType : Option String) (body : Bytes) :
    HandlerM Response := do
  lift (validateRepoName repo)
  if (SerdeJson.fromSlice body).isNone then
    Fallible.fail (.new .manifestInvalid "not valid JSON")
  let r := parseReference reference
  let digest ← call (.manifestPut repo r body)
  match r with
  | .digest want =>
      if want ≠ digest then
        Fallible.fail (.new .digestInvalid ("path digest " ++ want.toString ++
          " does not match computed " ++ digest.toString))
  | .tag _ => pure ()
  pure ⟨201,
    [("location", "/v2/" ++ repo ++ "/manifests/" ++ digest.toString),
      ("docker-content-digest", digest.toString),
      ("content-type", manifestMediaType body contentType)],
    .empty⟩

omit [SerdeJson] [Sha2] in
def manifestDelete (repo reference : String) : HandlerM Response := do
  lift (validateRepoName repo)
  callOr (.manifestDelete repo (parseReference reference)) .manifestUnknown "manifest unknown"
  pure ⟨202, [], .empty⟩

end Content

def blobGet (repo digest : String) (headOnly : Bool) : HandlerM Response := do
  lift (validateRepoName repo)
  let digest ← lift (parseDigest digest)
  let bytes ← callOr (.blobRead repo digest) .blobUnknown "blob unknown"
  pure ⟨200,
    [("content-type", "application/octet-stream"), ("docker-content-digest", digest.toString),
      ("content-length", toString bytes.length)],
    if headOnly then .empty else .bytes bytes⟩

def blobDelete (repo digest : String) : HandlerM Response := do
  lift (validateRepoName repo)
  let digest ← lift (parseDigest digest)
  callOr (.blobDelete repo digest) .blobUnknown "blob unknown"
  pure ⟨202, [], .empty⟩

def blobLocation (repo : String) (digest : Digest) : List (String × String) :=
  [("location", "/v2/" ++ repo ++ "/blobs/" ++ digest.toString),
    ("docker-content-digest", digest.toString)]

def sessionHeaders (repo id range : String) : List (String × String) :=
  [("location", "/v2/" ++ repo ++ "/blobs/uploads/" ++ id), ("docker-upload-uuid", id),
    ("range", range)]

def mountDigest (mount : Option String) : Option Digest :=
  mount.bind fun s => (Digest.fromStr s).toOption

def mountSource (from? : Option String) : Option String :=
  from?.filter fun source => validateRepoName source = .ok ()

def copyFrom (repo : String) (digest : Digest) (from? : Option String) :
    HandlerM (Option Response) :=
  match mountSource from? with
  | none => pure none
  | some source => do
      match ← Fallible.attempt (call (.blobRead source digest)) with
      | .error _ => pure none
      | .ok bytes =>
          call (.blobWrite repo digest bytes)
          pure (some ⟨201, blobLocation repo digest, .empty⟩)

-- The mount of a blob from another repository; whatever stands in its way leads on
-- to an upload.
def mountFrom (repo : String) (mount from? : Option String) : HandlerM (Option Response) :=
  match mountDigest mount with
  | none => pure none
  | some digest => do
      if ← call (.blobExists repo digest) then pure (some ⟨201, blobLocation repo digest, .empty⟩)
      else copyFrom repo digest from?

def uploadStart (repo : String) (digest mount from? : Option String) (body : Bytes)
    (drawn : String) : HandlerM Response := do
  lift (validateRepoName repo)
  match ← mountFrom repo mount from? with
  | some mounted => pure mounted
  | none =>
      match digest with
      | some s => do
          let digest ← lift (parseDigest s)
          call (.blobWrite repo digest body)
          pure ⟨201, blobLocation repo digest, .empty⟩
      | none => do
          let session ← call (.uploadCreate repo drawn)
          pure ⟨202, sessionHeaders repo session.id "0-0", .empty⟩

section Upload

variable [UuidCrate]

def uploadStatus (repo uuid : String) : HandlerM Response := do
  lift (validateRepoName repo)
  let id ← lift (parseUuid uuid)
  let status ← callOr (.uploadStatus repo id) .blobUploadUnknown "no such upload"
  let range := if status.offset = 0 then "0-0" else "0-" ++ toString (status.offset - 1)
  pure ⟨204, sessionHeaders repo id range, .empty⟩

def uploadChunk (repo uuid : String) (body : Bytes) : HandlerM Response := do
  lift (validateRepoName repo)
  let id ← lift (parseUuid uuid)
  let status ← callOr (.uploadAppend repo id body) .blobUploadUnknown "no such upload"
  pure ⟨202, sessionHeaders repo id ("0-" ++ toString (status.offset - 1)), .empty⟩

-- A mismatch reads as `From<StorageError>` has it.
def uploadFinish (repo uuid : String) (digest : Option String) (body : Bytes) :
    HandlerM Response := do
  lift (validateRepoName repo)
  let id ← lift (parseUuid uuid)
  match digest with
  | none => Fallible.fail (.new .digestInvalid "missing ?digest= on finalise")
  | some s => do
      let digest ← lift (parseDigest s)
      if body ≠ [] then
        let _ ← callOr (.uploadAppend repo id body) .blobUploadUnknown "no such upload"
      callOr (.uploadFinalize repo id digest) .blobUploadUnknown "no such upload"
      pure ⟨201, blobLocation repo digest, .empty⟩

def uploadCancel (repo uuid : String) : HandlerM Response := do
  lift (validateRepoName repo)
  let id ← lift (parseUuid uuid)
  callOr (.uploadCancel repo id) .blobUploadUnknown "no such upload"
  pure ⟨204, [], .empty⟩

end Upload

section Referrers

variable [SerdeJson]

-- The entries found so far, and whether the filter left one out.
def collectReferrers (repo : String) (subject : Digest) (filter : Option String) :
    List Digest → List ReferrerEntry → Bool → HandlerM (List ReferrerEntry × Bool)
  | [], matched, filtered => pure (matched, filtered)
  | d :: rest, matched, filtered => do
      match ← Fallible.mapError fromStorage
          (Fallible.attempt (ask (.manifestGet repo (.digest d)))) with
      | .error .notFound => collectReferrers repo subject filter rest matched filtered
      | .error err => Fallible.fail (fromStorage err)
      | .ok bytes =>
          match parseManifestRefs bytes with
          | none => collectReferrers repo subject filter rest matched filtered
          | some m =>
              if m.subject.map (·.digest) ≠ some subject then
                collectReferrers repo subject filter rest matched filtered
              else if filter.isSome ∧ m.artifactType ≠ filter then
                collectReferrers repo subject filter rest matched true
              else
                collectReferrers repo subject filter rest
                  (matched ++
                    [⟨manifestMediaType bytes none, d, bytes.length, m.artifactType,
                      m.annotations⟩]) filtered

def referrers (repo digest : String) (filter : Option String) : HandlerM Response := do
  lift (validateRepoName repo)
  let subject ← lift (parseDigest digest)
  let digests ← call (.listManifestDigests repo)
  let (matched, filtered) ← collectReferrers repo subject filter digests.toList [] false
  pure ⟨200,
    ("content-type", ociIndexMediaType) ::
      (if filtered then [("oci-filters-applied", "artifactType")] else []),
    .referrers matched⟩

end Referrers

section Dispatch

variable [Sha2] [SerdeJson] [UuidCrate]

-- The handlers that work for a repository, and the catalog.
def program (r : Request) : Call → Option (HandlerM Response)
  | .catalog => some (catalog ((r.query.get "n").bind parseUsize) (r.query.get "last"))
  | .tagsList repo => some (tagsList (String.ofList repo) ((r.query.get "n").bind parseUsize)
      (r.query.get "last"))
  | .uploadStart repo => some (uploadStart (String.ofList repo) (r.query.get "digest")
      (r.query.get "mount") (r.query.get "from") r.body r.drawn)
  | .uploadStatus repo uuid => some (uploadStatus (String.ofList repo) (String.ofList uuid))
  | .uploadChunk repo uuid => some (uploadChunk (String.ofList repo) (String.ofList uuid) r.body)
  | .uploadFinish repo uuid => some (uploadFinish (String.ofList repo) (String.ofList uuid)
      (r.query.get "digest") r.body)
  | .uploadCancel repo uuid => some (uploadCancel (String.ofList repo) (String.ofList uuid))
  | .manifestGet repo reference headOnly =>
      some (manifestGet (String.ofList repo) (String.ofList reference) headOnly)
  | .manifestPut repo reference => some (manifestPut (String.ofList repo) (String.ofList reference)
      r.contentType r.body)
  | .manifestDelete repo reference =>
      some (manifestDelete (String.ofList repo) (String.ofList reference))
  | .blobGet repo digest headOnly =>
      some (blobGet (String.ofList repo) (String.ofList digest) headOnly)
  | .blobDelete repo digest => some (blobDelete (String.ofList repo) (String.ofList digest))
  | .referrers repo digest => some (referrers (String.ofList repo) (String.ofList digest)
      (r.query.get "artifactType"))
  | _ => none

end Dispatch

end RspaceRegistry.Http
