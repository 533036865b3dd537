import RspaceRegistry.Http.Push

namespace RspaceRegistry.Http

open Calls Files Disk

-- The media type under which a manifest is accepted, and the one under which it is served.

section Decided

variable [SerdeJson] {body : Bytes} {hint : String} {contentType : Option String}

-- `mediaType` of the document, if that is known.
def embeddedType (body : Bytes) : Option String :=
  (((SerdeJson.fromSlice body).bind fun value => Json.get value "mediaType").bind
    Json.asString).filter (· ∈ manifestMediaTypes)

def ListsManifests (body : Bytes) : Prop :=
  ∃ m, parseManifestRefs body = some m ∧ m.manifests ≠ []

-- What the document says of its type by itself.
def SaysOf (body : Bytes) (mediaType : String) : Prop :=
  embeddedType body = some mediaType ∨ embeddedType body = none ∧
    (mediaType = ociIndexMediaType ∧ ListsManifests body ∨
      mediaType = ociManifestMediaType ∧ ¬ListsManifests body)

theorem mediaType_hinted (h : hint ∈ manifestMediaTypes) :
    manifestMediaType body (some hint) = hint := by
  simp [manifestMediaType, Option.filter, h]

theorem mediaType_unhinted (h : ∀ hint, contentType = some hint → hint ∉ manifestMediaTypes) :
    manifestMediaType body contentType = manifestMediaType body none := by
  cases contentType with
  | none => rfl
  | some hint => simp [manifestMediaType, Option.filter, h hint rfl]

-- What is left to the shape of the document.
def sniffedType (body : Bytes) : String :=
  match parseManifestRefs body with
  | some m => if m.manifests.isEmpty then ociManifestMediaType else ociIndexMediaType
  | none => ociManifestMediaType

theorem sniffed_eq (mediaType : String) :
    sniffedType body = mediaType ↔
      mediaType = ociIndexMediaType ∧ ListsManifests body ∨
        mediaType = ociManifestMediaType ∧ ¬ListsManifests body := by
  by_cases hlists : ListsManifests body
  · have hindex : sniffedType body = ociIndexMediaType := by
      obtain ⟨m, hparsed, hne⟩ := hlists
      simp [sniffedType, hparsed, hne]
    simp [hindex, hlists, eq_comm]
  · have hmanifest : sniffedType body = ociManifestMediaType := by
      unfold sniffedType
      cases hparsed : parseManifestRefs body with
      | none => rfl
      | some m =>
          have hempty : m.manifests = [] := by
            by_contra hne
            exact hlists ⟨m, hparsed, hne⟩
          simp [hempty]
    simp [hmanifest, hlists, eq_comm]

theorem mediaType_says (mediaType : String) :
    manifestMediaType body none = mediaType ↔ SaysOf body mediaType := by
  have hsaid : manifestMediaType body none = (embeddedType body).getD (sniffedType body) := by
    unfold manifestMediaType embeddedType
    simp only [Option.filter_none]
    split <;> rename_i hnamed <;> rw [hnamed] <;> rfl
  rw [hsaid, SaysOf]
  cases embeddedType body with
  | some name => simp
  | none => simp [sniffed_eq]

end Decided

section Served

variable {σ : Type} [SerdeJson] [Sha2]

-- The calls that the storage answers in turn.
def after (storage : Handler StorageOp StorageOp.Ans σ) (ops : List StorageOp) (s : σ) : σ :=
  ops.foldl (fun s op => (storage op s).2) s

-- The answer to a push has the media type of every later answer to a read of that manifest.
def ServedAsAccepted (storage : Handler StorageOp StorageOp.Ans σ) (body : Bytes)
    (contentType : Option String) : Prop :=
  ∀ s name reference response s',
    (manifestPut name reference contentType body).run storage s = (.ok response, s') →
    ∀ ops other headOnly reply last,
      (storage (.manifestGet name (parseReference other)) (after storage ops s')).1 = .ok body →
      (manifestGet name other headOnly).run storage (after storage ops s') = (.ok reply, last) →
        reply.header "content-type" = response.header "content-type"

variable {body : Bytes} {contentType : Option String}

-- The header of the push, where it counts, is what the document says.
def HintAgrees (body : Bytes) (contentType : Option String) : Prop :=
  ∀ hint, contentType = some hint → hint ∈ manifestMediaTypes → SaysOf body hint

omit [Sha2] in
theorem agrees_iff : HintAgrees body contentType ↔
    manifestMediaType body contentType = manifestMediaType body none := by
  by_cases hknown : ∃ hint, contentType = some hint ∧ hint ∈ manifestMediaTypes
  · obtain ⟨hint, rfl, hmem⟩ := hknown
    rw [mediaType_hinted hmem, eq_comm, mediaType_says]
    constructor
    · exact fun hagrees => hagrees hint rfl hmem
    · rintro hsays other heq -
      exact Option.some.inj heq ▸ hsays
  · have hunknown : ∀ hint, contentType = some hint → hint ∉ manifestMediaTypes :=
      fun hint heq hmem => hknown ⟨hint, heq, hmem⟩
    rw [mediaType_unhinted hunknown]
    exact iff_of_true (fun hint heq hmem => absurd hmem (hunknown hint heq)) rfl

theorem served_of_agrees (storage : Handler StorageOp StorageOp.Ans σ)
    (h : HintAgrees body contentType) : ServedAsAccepted storage body contentType := by
  intro s name reference response s' hput ops other headOnly reply last hget hrun
  obtain ⟨hname, d, -, -, rfl⟩ := put_reply hput
  have hreply := get_reply hname headOnly (Prod.ext hget rfl)
  rw [hreply] at hrun
  rw [← Except.ok.inj (Prod.mk.inj hrun).1]
  show some (manifestMediaType body none) = some (manifestMediaType body contentType)
  rw [agrees_iff.mp h]

-- Pushed by its digest to an empty repository, the manifest can be read.
theorem agrees_of_served (hjson : (SerdeJson.fromSlice body).isSome)
    (h : ServedAsAccepted fsStorage body contentType) : HintAgrees body contentType := by
  have hvalue : ¬(SerdeJson.fromSlice body).isNone := by
    simpa [Option.isSome_iff_ne_none] using hjson
  obtain ⟨response, tree', hput, hstored⟩ := push_by_digest grown_new
    (nothing_in_the_way ("digests" :: repoPath repoA.name)) hvalue rfl contentType
  have hget := get_of_answer (answer_digest_after hstored)
  have hreply := get_reply repoA.valid false (Prod.ext hget rfl)
  have hsame := h _ _ _ _ _ hput [] _ false _ _ hget hreply
  obtain ⟨-, d, -, -, rfl⟩ := put_reply hput
  have htypes : some (manifestMediaType body none) = some (manifestMediaType body contentType) := hsame
  exact agrees_iff.mpr (Option.some.inj htypes).symm

-- A manifest is served under the type it was accepted under exactly when a known
-- Content-Type at the push was the type that the document says.
theorem served_as_accepted_iff (hjson : (SerdeJson.fromSlice body).isSome)
    (contentType : Option String) :
    (ServedAsAccepted fsStorage body contentType ↔ HintAgrees body contentType) ∧
    ((∀ (σ : Type) (storage : Handler StorageOp StorageOp.Ans σ),
      ServedAsAccepted storage body contentType) ↔ HintAgrees body contentType) := by
  have hfs : ServedAsAccepted fsStorage body contentType ↔ HintAgrees body contentType :=
    ⟨agrees_of_served hjson, served_of_agrees fsStorage⟩
  refine ⟨hfs, fun hall => hfs.mp (hall _ _), fun hagrees σ storage => ?_⟩
  exact served_of_agrees storage hagrees

end Served

section

attribute [local instance] Sample.sha2 Sample.serdeJson

theorem accepted_as_said :
    (SerdeJson.fromSlice Sample.braces).isSome ∧
      ServedAsAccepted fsStorage Sample.braces (some ociManifestMediaType) := by
  have hagrees : HintAgrees Sample.braces (some ociManifestMediaType) := by
    rintro hint heq -
    obtain rfl := Option.some.inj heq
    rw [← mediaType_says]
    decide
  exact ⟨by decide, ((served_as_accepted_iff (by decide) _).1).mpr hagrees⟩

-- An empty document pushed as an index is served as a manifest.
theorem served_as_other :
    ¬(∀ body, (SerdeJson.fromSlice body).isSome → ∀ contentType,
      ServedAsAccepted fsStorage body contentType) ∧
    ¬ServedAsAccepted fsStorage Sample.braces (some ociIndexMediaType) := by
  have hother : ¬ServedAsAccepted fsStorage Sample.braces (some ociIndexMediaType) := by
    intro hserved
    have hagrees := agrees_iff.mp (agrees_of_served (by decide) hserved)
    exact absurd hagrees (by decide)
  exact ⟨fun hall => hother (hall _ (by decide) _), hother⟩

end

end RspaceRegistry.Http
