import RspaceRegistry.Gc.Theorems
import RspaceRegistry.Handlers
import RspaceRegistry.Sample

namespace RspaceRegistry

namespace Json

def members (key : String) : Json → List Json
  | .obj members => occurrences key members
  | _ => []

def elements : Json → List Json
  | .arr items => items
  | _ => []

def ownDigests (descriptor : Json) : List Digest :=
  (descriptor.members "digest").filterMap asDigest

-- The digests that a text names by its shape alone, whatever else is in it.
def namedDigests (body : Json) : List Digest :=
  (body.members "config" ++ (body.members "layers").flatMap elements ++
    (body.members "manifests").flatMap elements ++ body.members "subject").flatMap ownDigests

theorem field_cases {α : Type} {decode : Json → Option α} {missing : Option α} {key : String}
    {members : List (String × Json)} {value : α}
    (h : field decode missing key members = some value) :
    occurrences key members = [] ∨
      ∃ j, occurrences key members = [j] ∧ decode j = some value := by
  unfold field at h
  split at h
  · rename_i hnil
    exact .inl hnil
  · rename_i j hone
    exact .inr ⟨j, hone, h⟩
  · cases h

theorem mem_of_mapM {α : Type} {decode : Json → Option α} {items : List Json} {values : List α}
    (h : items.mapM decode = some values) (j : Json) (hj : j ∈ items) :
    ∃ value ∈ values, decode j = some value := by
  induction items generalizing values with
  | nil => cases hj
  | cons head tail ih =>
      rw [List.mapM_cons] at h
      obtain ⟨first, hfirst, h⟩ := Option.bind_eq_some_iff.mp h
      obtain ⟨rest, hrest, h⟩ := Option.bind_eq_some_iff.mp h
      cases h
      rcases List.mem_cons.mp hj with rfl | hj
      · exact ⟨first, List.mem_cons_self, hfirst⟩
      · obtain ⟨value, hv, hd⟩ := ih hrest hj
        exact ⟨value, List.mem_cons_of_mem _ hv, hd⟩

end Json

open Json

theorem Descriptor.digest_of_deserialize {j : Json} {descriptor : Descriptor}
    (h : Descriptor.deserialize j = some descriptor) (d : Digest) (hd : d ∈ j.ownDigests) :
    d = descriptor.digest := by
  cases j with
  | obj fields =>
      simp only [deserialize, Option.bind_eq_bind, Option.bind_eq_some_iff] at h
      obtain ⟨mediaType, _, digest, hdigest, size, _, artifactType, _, annotations, _, h⟩ := h
      cases h
      simp only [ownDigests, members, List.mem_filterMap] at hd
      obtain ⟨value, hv, hvd⟩ := hd
      rcases field_cases hdigest with hnil | ⟨only, hone, hdecode⟩
      · rw [hnil] at hv
        cases hv
      · rw [hone, List.mem_singleton] at hv
        rw [hv, hdecode] at hvd
        exact (Option.some.inj hvd).symm
  | _ => cases hd

namespace Manifest

theorem mem_optional {members : List (String × Json)} {key : String} {o : Option Descriptor}
    (h : field (asOption Descriptor.deserialize) (some none) key members = some o) {j : Json}
    (hj : j ∈ occurrences key members) (d : Digest) (hd : d ∈ j.ownDigests) :
    d ∈ (o.map (·.digest)).toList := by
  rcases field_cases h with hnil | ⟨only, hone, hdecode⟩
  · rw [hnil] at hj
    cases hj
  · rw [hone, List.mem_singleton] at hj
    subst hj
    unfold asOption at hdecode
    split at hdecode
    · cases hd
    · obtain ⟨descriptor, hdescriptor, rfl⟩ := Option.map_eq_some_iff.mp hdecode
      rw [Descriptor.digest_of_deserialize hdescriptor d hd]
      exact List.mem_singleton_self _

theorem mem_listed {members : List (String × Json)} {key : String} {ds : List Descriptor}
    (h : field (asVec Descriptor.deserialize) (some []) key members = some ds) {j : Json}
    (hj : j ∈ (occurrences key members).flatMap elements) (d : Digest) (hd : d ∈ j.ownDigests) :
    d ∈ ds.map (·.digest) := by
  rcases field_cases h with hnil | ⟨only, hone, hdecode⟩
  · rw [hnil] at hj
    cases hj
  · rw [hone, List.flatMap_singleton] at hj
    cases only with
    | arr items =>
        obtain ⟨descriptor, hmem, hdescriptor⟩ := mem_of_mapM hdecode j hj
        rw [Descriptor.digest_of_deserialize hdescriptor d hd]
        exact List.mem_map_of_mem hmem
    | _ => cases hj

-- A typed parse that succeeds leaves nothing out.
theorem named_referenced {body : Json} {m : Manifest} (h : deserialize body = some m)
    (d : Digest) (hd : d ∈ body.namedDigests) : d ∈ m.referencedDigests := by
  obtain ⟨j, hj, hjd⟩ := List.mem_flatMap.mp hd
  cases body with
  | obj fields =>
      simp only [deserialize, Option.bind_eq_bind, Option.bind_eq_some_iff] at h
      obtain ⟨_, _, _, _, config, hconfig, layers, hlayers, manifests, hmanifests, subject,
        hsubject, annotations, _, h⟩ := h
      cases h
      simp only [members, List.mem_append] at hj
      simp only [referencedDigests, List.mem_append]
      rcases hj with ((hj | hj) | hj) | hj
      · exact .inl (.inl (.inl (mem_optional hconfig hj d hjd)))
      · exact .inl (.inl (.inr (mem_listed hlayers hj d hjd)))
      · exact .inl (.inr (mem_listed hmanifests hj d hjd))
      · exact .inr (mem_optional hsubject hj d hjd)
  | _ => cases hj

end Manifest

namespace Gc

open Calls Fallible

section

variable [Sha2] [SerdeJson]

-- A collection of the root leaves the blob as it was.
def Keeps (root : RootId) (w : World) (d : Digest) : Prop :=
  ∀ content, (w.roots root).blobRead d = .ok content →
    (((run (FsStorage.storage root)).run World.handle w).2.roots root).blobRead d = .ok content

-- Protected by another text than the given one: as the digest of a stored
-- manifest, or by name in one that parses.
def ProtectedByOther (fs : FsStorage) (body : Bytes) (d : Digest) : Prop :=
  ∃ repo digest content, fs.manifestGet repo (.digest digest) = .ok content ∧
    (d = digest ∨ content ≠ body ∧ d ∈ references content)

theorem keeps_iff (arc : Nat) (root : RootId) (w : World) (d : Digest) : Keeps root w d ↔
    (w.roots root).blobRead d = .error .notFound ∨ Marked (.fs arc root) w.volumes d := by
  obtain ⟨report, w', hrun, _, hvol, _⟩ := run_gc (.fs arc root) w
  have hafter : (w'.roots root).contents.blob d =
      ((w.volumes root).keepBlobs (Marked (.fs arc root) w.volumes)).blob d := by
    have hroot : root ∈ (Backend.fs arc root).leaves := List.mem_singleton_self root
    have h := congrFun hvol root
    rw [Volumes.onRoots_of_mem hroot] at h
    exact congrArg (·.blob d) h
  have hstorage : (Backend.fs arc root).storage = FsStorage.storage root := rfl
  have hblob : (w.volumes root).blob d = (w.roots root).contents.blob d := rfl
  rw [hstorage] at hrun
  unfold Keeps
  rw [hrun]
  simp only [FsStorage.blobRead_eq, hafter, Contents.keepBlobs, orNotFound_eq_ok, hblob]
  by_cases hmarked : Marked (.fs arc root) w.volumes d
  · simp [hmarked]
  · cases (w.roots root).contents.blob d <;> simp [hmarked]

-- A stored text protects the blobs that it names if it parses as a manifest;
-- where it does not, they depend on somebody else.
theorem named_blob_kept_iff (root : RootId) (w : World) (repo : RepoName) (digest : Digest)
    (body : Bytes) (json : Json) (d : Digest)
    (hstored : (w.roots root).manifestGet repo (.digest digest) = .ok body)
    (haccepted : SerdeJson.fromSlice body = some json) (hnamed : d ∈ json.namedDigests) :
    Keeps root w d ↔ (w.roots root).blobRead d = .error .notFound ∨
      (parseManifestRefs body).isSome ∨ ProtectedByOther (w.roots root) body d := by
  have hread : ∀ repo digest content,
      (Backend.fs 0 root).read w.volumes repo (.digest digest) = some content ↔
        (w.roots root).manifestGet repo (.digest digest) = .ok content := by
    intro repo digest content
    rw [FsStorage.manifestGet_eq, orNotFound_eq_ok, Backend.read_fs]
    rfl
  have hbody : ∀ m, parseManifestRefs body = some m → d ∈ references body := by
    intro m hm
    have hd : Manifest.deserialize json = some m := by
      rw [parseManifestRefs, haccepted] at hm
      exact hm
    rw [references, hm]
    exact Manifest.named_referenced hd d hnamed
  rw [keeps_iff 0]
  refine or_congr_right ?_
  constructor
  · rintro ⟨repo', digest', content, hc, h⟩
    have hc' := (hread repo' digest' content).mp hc
    rcases h with h | h
    · exact .inr ⟨repo', digest', content, hc', .inl h⟩
    · by_cases hsame : content = body
      · left
        rw [references, hsame] at h
        cases hm : parseManifestRefs body with
        | none =>
            rw [hm] at h
            cases h
        | some m => rfl
      · exact .inr ⟨repo', digest', content, hc', .inr ⟨hsame, h⟩⟩
  · rintro (hparse | ⟨repo', digest', content, hc, h⟩)
    · obtain ⟨m, hm⟩ := Option.isSome_iff_exists.mp hparse
      exact ⟨repo, digest, body, (hread repo digest body).mpr hstored, .inr (hbody m hm)⟩
    · exact ⟨repo', digest', content, (hread repo' digest' content).mpr hc, h.imp_right (·.2)⟩

end

section

attribute [local instance] Sample.sha2 Sample.serdeJson

-- A config without a `mediaType`, put through the handler, and its blob.
def untypedPushed : World :=
  ((Handlers.manifestPut (FsStorage.storage 0) Sample.dataX (.tag Sample.v1)
    Sample.untyped).run World.handle
      { roots := fun _ => (FsStorage.new.blobWrite (hashContent .sha256 Sample.x) Sample.x).2
        router := .single (.fs 0 0)
        nextArc := 1
        arcs_allocated := Sample.arcs_one }).2

theorem untyped_outcome : hashContent .sha256 Sample.x ∈ Sample.untypedJson.namedDigests ∧
    (untypedPushed.roots 0).manifestGet Sample.dataX (.tag Sample.v1) = .ok Sample.untyped ∧
    (untypedPushed.roots 0).manifestGet Sample.dataX (.digest (sha256Digest Sample.untyped)) =
      .ok Sample.untyped ∧
    (untypedPushed.roots 0).blobRead (hashContent .sha256 Sample.x) = .ok Sample.x ∧
    (((run (FsStorage.storage 0)).run World.handle untypedPushed).2.roots 0).blobRead
      (hashContent .sha256 Sample.x) = .error .notFound := by
  decide +kernel

theorem untyped_named : ∃ json, SerdeJson.fromSlice Sample.untyped = some json ∧
    hashContent .sha256 Sample.x ∈ json.namedDigests :=
  ⟨Sample.untypedJson, if_pos rfl, untyped_outcome.1⟩

theorem untyped_config_swept :
    (untypedPushed.roots 0).manifestGet Sample.dataX (.tag Sample.v1) = .ok Sample.untyped ∧
      (∃ json, SerdeJson.fromSlice Sample.untyped = some json ∧
        hashContent .sha256 Sample.x ∈ json.namedDigests) ∧
      ¬Keeps 0 untypedPushed (hashContent .sha256 Sample.x) := by
  obtain ⟨-, hstored, -, hbefore, hafter⟩ := untyped_outcome
  refine ⟨hstored, untyped_named, ?_⟩
  intro h
  rw [h Sample.x hbefore] at hafter
  cases hafter

theorem untyped_blob_kept_iff :
    Keeps 0 untypedPushed (hashContent .sha256 Sample.x) ↔
      (untypedPushed.roots 0).blobRead (hashContent .sha256 Sample.x) = .error .notFound ∨
        (parseManifestRefs Sample.untyped).isSome ∨
          ProtectedByOther (untypedPushed.roots 0) Sample.untyped (hashContent .sha256 Sample.x) := by
  obtain ⟨json, haccepted, hnamed⟩ := untyped_named
  exact named_blob_kept_iff 0 untypedPushed Sample.dataX (sha256Digest Sample.untyped)
    Sample.untyped json (hashContent .sha256 Sample.x) untyped_outcome.2.2.1 haccepted hnamed

end

end Gc

end RspaceRegistry
