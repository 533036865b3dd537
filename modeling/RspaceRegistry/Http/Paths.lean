import RspaceRegistry.Disk.Paths
import RspaceRegistry.Http.Dispatch
import RspaceRegistry.RepoName.Components

namespace RspaceRegistry.Http

open Cuts

-- The paths below `/v2/` by which a client asks for an endpoint.
def Endpoint.paths : Endpoint → List Text
  | .tags repo => [repo ++ "/tags/list".toList]
  | .uploads repo => [repo ++ "/blobs/uploads".toList, repo ++ "/blobs/uploads/".toList]
  | .upload repo uuid => [repo ++ "/blobs/uploads/".toList ++ uuid]
  | .manifest repo reference => [repo ++ "/manifests/".toList ++ reference]
  | .blob repo digest => [repo ++ "/blobs/".toList ++ digest]
  | .referrers repo digest => [repo ++ "/referrers/".toList ++ digest]

-- One path segment.
def Segment (text : Text) : Prop := text ≠ [] ∧ '/' ∉ text

instance (text : Text) : Decidable (Segment text) := inferInstanceAs (Decidable (_ ∧ _))

def IsDigest (text : Text) : Prop := ∃ d, Digest.fromStr (String.ofList text) = .ok d

-- What a client puts into the path. Identifiers of uploads and references are any
-- segment.
def Endpoint.Proper : Endpoint → Prop
  | .tags repo | .uploads repo => validateRepoName (String.ofList repo) = .ok ()
  | .upload repo last | .manifest repo last =>
      validateRepoName (String.ofList repo) = .ok () ∧ Segment last
  | .blob repo digest | .referrers repo digest =>
      validateRepoName (String.ofList repo) = .ok () ∧ IsDigest digest

theorem Endpoint.Proper.repo_ok {e : Endpoint} (h : e.Proper) :
    validateRepoName (String.ofList e.repo) = .ok () := by
  cases e with
  | tags repo => exact h
  | uploads repo => exact h
  | upload repo uuid => exact h.1
  | manifest repo reference => exact h.1
  | blob repo digest => exact h.1
  | referrers repo digest => exact h.1

theorem segment_of_isDigest {text : Text} (h : IsDigest text) :
    Segment text ∧ text ≠ "uploads".toList := by
  obtain ⟨d, hd⟩ := h
  have htext : text = d.algorithm.name.toList ++ ':' :: d.hex.toList := by
    rw [← String.toList_ofList (l := text), ← Disk.toString_of_fromStr hd]
    simp [Digest.toString]
  have hcolon : ':' ∈ text := by simp [htext]
  refine ⟨⟨List.ne_nil_of_mem hcolon, ?_⟩, ?_⟩
  · rw [htext]
    intro hslash
    rcases List.mem_append.mp hslash with hname | hhex
    · cases halg : d.algorithm <;> rw [halg] at hname <;> revert hname <;> decide
    · rcases List.mem_cons.mp hhex with heq | hhex
      · cases heq
      · exact absurd (List.all_eq_true.mp d.valid.2 _ hhex) (by decide)
  · rintro rfl
    revert hcolon
    decide

section Segments

variable {front segment last : Text}

-- Which pattern takes a path shows in its last two segments.

theorem stripTwoSuffix_iff {text marker back : Text} :
    stripTwoSuffix text (marker ++ ['/']) = some (front, back) ↔
      text = front ++ marker ++ '/' :: back ∧ front ≠ [] ∧ Segment back := by
  rw [stripTwoSuffix, Option.bind_eq_some_iff]
  constructor
  · rintro ⟨parts, hcut, hsome⟩
    split at hsome
    · cases hsome
    · rename_i hparts
      obtain rfl := Option.some.inj hsome
      obtain ⟨hfront, hback, hslash⟩ : front ≠ [] ∧ back ≠ [] ∧ '/' ∉ back := by
        simpa only [not_or] using hparts
      refine ⟨?_, hfront, hback, hslash⟩
      rw [cutLast_eq_some hcut]
      simp
  · rintro ⟨rfl, hfront, hback, hslash⟩
    refine ⟨(front, back), cutLast_of_notMem hslash, ?_⟩
    rw [if_neg]
    simp only [not_or]
    exact ⟨hfront, hback, hslash⟩

theorem stripSuffix_iff {text suffix : Text} :
    stripSuffix text suffix = some front ↔ text = front ++ suffix ∧ front ≠ [] := by
  rw [stripSuffix, Option.bind_eq_some_iff]
  constructor
  · rintro ⟨whole, hdrop, hne⟩
    unfold nonEmpty at hne
    split at hne
    · cases hne
    · rename_i hnil
      obtain rfl := Option.some.inj hne
      exact ⟨dropSuffix_eq_some.mp hdrop, hnil⟩
  · rintro ⟨htext, hne⟩
    exact ⟨front, dropSuffix_eq_some.mpr htext, by rw [nonEmpty, if_neg hne]⟩

theorem stripTwoSuffix_eq_none (pre : Text) {segment' : Text} (hlast : '/' ∉ last)
    (hsegment : '/' ∉ segment) (hsegment' : '/' ∉ segment') (hne : segment ≠ segment') :
    stripTwoSuffix (front ++ '/' :: segment ++ '/' :: last) (pre ++ '/' :: segment' ++ ['/']) =
      none := by
  rw [Option.eq_none_iff_forall_ne_some]
  rintro ⟨whole, back⟩ h
  obtain ⟨htext, -, -, hback⟩ := stripTwoSuffix_iff.mp h
  obtain ⟨hfront, -⟩ := lastSegment_inj hlast hback htext
  rw [← List.append_assoc] at hfront
  exact hne (lastSegment_inj hsegment hsegment' hfront).2

theorem stripSuffix_eq_none (segment' last' : Text) (hlast : '/' ∉ last)
    (hsegment : '/' ∉ segment) (hlast' : '/' ∉ last') (hsegment' : '/' ∉ segment')
    (hne : segment ≠ segment' ∨ last ≠ last') :
    stripSuffix (front ++ '/' :: segment ++ '/' :: last) ('/' :: segment' ++ '/' :: last') =
      none := by
  rw [Option.eq_none_iff_forall_ne_some]
  intro whole h
  obtain ⟨htext, -⟩ := stripSuffix_iff.mp h
  rw [← List.append_assoc] at htext
  obtain ⟨hfront, heq⟩ := lastSegment_inj hlast hlast' htext
  exact hne.elim (absurd (lastSegment_inj hsegment hsegment' hfront).2) (absurd heq)

-- A last segment keeps the trailing slash away.
theorem dropSuffix_slash (h : Segment last) :
    ((front ++ '/' :: last).dropSuffix? "/".toList).getD (front ++ '/' :: last) =
      front ++ '/' :: last := by
  cases hdrop : (front ++ '/' :: last).dropSuffix? "/".toList with
  | none => rfl
  | some whole =>
      exfalso
      have htext : front ++ '/' :: last = whole ++ '/' :: [] := dropSuffix_eq_some.mp hdrop
      exact h.1 (lastSegment_inj h.2 (by simp) htext).2

end Segments

section Patterns

variable {repo last : Text}

-- The patterns in the order in which they are tried, for a path that ends in a
-- segment of this name and a last one.

theorem tagsPattern_none {segment : Text} (hsegment : '/' ∉ segment) (hlast : '/' ∉ last)
    (h : segment ≠ "tags".toList ∨ last ≠ "list".toList) :
    stripSuffix (repo ++ '/' :: segment ++ '/' :: last) "/tags/list".toList = none :=
  stripSuffix_eq_none "tags".toList "list".toList hlast hsegment (by decide) (by decide) h

theorem uploadsPattern_none {segment : Text} (hsegment : '/' ∉ segment) (hlast : Segment last)
    (h : segment ≠ "blobs".toList ∨ last ≠ "uploads".toList) :
    stripSuffix (((repo ++ '/' :: segment ++ '/' :: last).dropSuffix? "/".toList).getD
      (repo ++ '/' :: segment ++ '/' :: last)) "/blobs/uploads".toList = none := by
  rw [dropSuffix_slash hlast]
  exact stripSuffix_eq_none "blobs".toList "uploads".toList hlast.2 hsegment (by decide) (by decide)
    h

theorem uploadPattern_none {segment : Text} (hsegment : '/' ∉ segment) (hlast : '/' ∉ last)
    (h : segment ≠ "uploads".toList) :
    stripTwoSuffix (repo ++ '/' :: segment ++ '/' :: last) "/blobs/uploads/".toList = none :=
  stripTwoSuffix_eq_none "/blobs".toList hlast hsegment (by decide : '/' ∉ "uploads".toList) h

theorem markerPattern_none {segment : Text} (segment' : Text) (hsegment : '/' ∉ segment)
    (hlast : '/' ∉ last) (hsegment' : '/' ∉ segment') (h : segment ≠ segment') :
    stripTwoSuffix (repo ++ '/' :: segment ++ '/' :: last) ('/' :: segment' ++ ['/']) = none :=
  stripTwoSuffix_eq_none [] hlast hsegment hsegment' h

theorem markerPattern_some (marker : Text) (hrepo : repo ≠ []) (hlast : Segment last) :
    stripTwoSuffix (repo ++ marker ++ '/' :: last) (marker ++ ['/']) = some (repo, last) :=
  stripTwoSuffix_iff.mpr ⟨rfl, hrepo, hlast⟩

theorem endpoint_tags (hrepo : repo ≠ []) :
    endpoint (repo ++ '/' :: "tags".toList ++ '/' :: "list".toList) = some (.tags repo) := by
  have htags : stripSuffix (repo ++ '/' :: "tags".toList ++ '/' :: "list".toList)
      "/tags/list".toList = some repo := by
    rw [stripSuffix_iff, List.append_assoc]
    exact ⟨rfl, hrepo⟩
  rw [endpoint, htags]
  rfl

theorem endpoint_uploads (hrepo : repo ≠ []) :
    endpoint (repo ++ '/' :: "blobs".toList ++ '/' :: "uploads".toList) = some (.uploads repo) := by
  have huploads : stripSuffix (repo ++ '/' :: "blobs".toList ++ '/' :: "uploads".toList)
      "/blobs/uploads".toList = some repo := by
    rw [stripSuffix_iff, List.append_assoc]
    exact ⟨rfl, hrepo⟩
  rw [endpoint, tagsPattern_none (by decide) (by decide) (.inl (by decide)),
    dropSuffix_slash (by decide), huploads]
  rfl

-- The trailing slash is taken off for this pattern only.
theorem endpoint_uploads_slash (hrepo : repo ≠ []) :
    endpoint (repo ++ '/' :: "blobs".toList ++ '/' :: "uploads/".toList) = some (.uploads repo) := by
  have htext : repo ++ '/' :: "blobs".toList ++ '/' :: "uploads/".toList =
      repo ++ '/' :: "blobs".toList ++ '/' :: "uploads".toList ++ "/".toList := by
    simp
  have htags : stripSuffix (repo ++ '/' :: "blobs".toList ++ '/' :: "uploads/".toList)
      "/tags/list".toList = none := by
    rw [Option.eq_none_iff_forall_ne_some]
    intro front h
    have hends := congrArg List.getLast? (stripSuffix_iff.mp h).1
    rw [List.getLast?_append_of_ne_nil _ (by decide),
      List.getLast?_append_of_ne_nil _ (by decide)] at hends
    revert hends
    decide
  have hdrop : (repo ++ '/' :: "blobs".toList ++ '/' :: "uploads/".toList).dropSuffix?
      "/".toList = some (repo ++ '/' :: "blobs".toList ++ '/' :: "uploads".toList) :=
    dropSuffix_eq_some.mpr htext
  have huploads : stripSuffix (repo ++ '/' :: "blobs".toList ++ '/' :: "uploads".toList)
      "/blobs/uploads".toList = some repo := by
    rw [stripSuffix_iff, List.append_assoc]
    exact ⟨rfl, hrepo⟩
  rw [endpoint, htags, hdrop, Option.getD_some, huploads]
  rfl

theorem endpoint_upload (hrepo : repo ≠ []) (hlast : Segment last) :
    endpoint (repo ++ "/blobs".toList ++ '/' :: "uploads".toList ++ '/' :: last) =
      some (.upload repo last) := by
  have hupload : stripTwoSuffix (repo ++ "/blobs".toList ++ '/' :: "uploads".toList ++ '/' :: last)
      "/blobs/uploads/".toList = some (repo, last) := by
    rw [List.append_assoc repo]
    exact markerPattern_some ("/blobs".toList ++ '/' :: "uploads".toList) hrepo hlast
  rw [endpoint, tagsPattern_none (by decide) hlast.2 (.inl (by decide)),
    uploadsPattern_none (by decide) hlast (.inl (by decide)), hupload]
  rfl

theorem endpoint_manifest (hrepo : repo ≠ []) (hlast : Segment last) :
    endpoint (repo ++ '/' :: "manifests".toList ++ '/' :: last) = some (.manifest repo last) := by
  have hmanifest : stripTwoSuffix (repo ++ '/' :: "manifests".toList ++ '/' :: last)
      "/manifests/".toList = some (repo, last) := markerPattern_some _ hrepo hlast
  rw [endpoint, tagsPattern_none (by decide) hlast.2 (.inl (by decide)),
    uploadsPattern_none (by decide) hlast (.inl (by decide)),
    uploadPattern_none (by decide) hlast.2 (by decide), hmanifest]
  rfl

-- A segment `uploads` would start an upload.
theorem endpoint_blob (hrepo : repo ≠ []) (hlast : Segment last) (h : last ≠ "uploads".toList) :
    endpoint (repo ++ '/' :: "blobs".toList ++ '/' :: last) = some (.blob repo last) := by
  have hmanifest : stripTwoSuffix (repo ++ '/' :: "blobs".toList ++ '/' :: last)
      "/manifests/".toList = none :=
    markerPattern_none "manifests".toList (by decide) hlast.2 (by decide) (by decide)
  have hblob : stripTwoSuffix (repo ++ '/' :: "blobs".toList ++ '/' :: last)
      "/blobs/".toList = some (repo, last) := markerPattern_some _ hrepo hlast
  rw [endpoint, tagsPattern_none (by decide) hlast.2 (.inl (by decide)),
    uploadsPattern_none (by decide) hlast (.inr h),
    uploadPattern_none (by decide) hlast.2 (by decide), hmanifest, hblob]
  rfl

theorem endpoint_referrers (hrepo : repo ≠ []) (hlast : Segment last) :
    endpoint (repo ++ '/' :: "referrers".toList ++ '/' :: last) = some (.referrers repo last) := by
  have hmanifest : stripTwoSuffix (repo ++ '/' :: "referrers".toList ++ '/' :: last)
      "/manifests/".toList = none :=
    markerPattern_none "manifests".toList (by decide) hlast.2 (by decide) (by decide)
  have hblob : stripTwoSuffix (repo ++ '/' :: "referrers".toList ++ '/' :: last)
      "/blobs/".toList = none :=
    markerPattern_none "blobs".toList (by decide) hlast.2 (by decide) (by decide)
  have hreferrers : stripTwoSuffix (repo ++ '/' :: "referrers".toList ++ '/' :: last)
      "/referrers/".toList = some (repo, last) := markerPattern_some _ hrepo hlast
  rw [endpoint, tagsPattern_none (by decide) hlast.2 (.inl (by decide)),
    uploadsPattern_none (by decide) hlast (.inl (by decide)),
    uploadPattern_none (by decide) hlast.2 (by decide), hmanifest, hblob, hreferrers]
  rfl

end Patterns

theorem endpoint_paths {e : Endpoint} (h : e.Proper) {path : Text} (hpath : path ∈ e.paths) :
    endpoint path = some e := by
  have hrepo : e.repo ≠ [] := by
    intro hnil
    have hok := h.repo_ok
    rw [hnil] at hok
    exact (validateRepoName_ok hok).1 rfl
  cases e with
  | tags repo =>
      rw [List.mem_singleton.mp hpath]
      have hends := endpoint_tags hrepo
      rwa [List.append_assoc] at hends
  | uploads repo =>
      rcases List.mem_pair.mp hpath with rfl | rfl
      · have hends := endpoint_uploads hrepo
        rwa [List.append_assoc] at hends
      · have hends := endpoint_uploads_slash hrepo
        rwa [List.append_assoc] at hends
  | upload repo uuid =>
      rw [List.mem_singleton.mp hpath, List.append_assoc]
      have hends := endpoint_upload hrepo h.2
      rwa [List.append_assoc, List.append_assoc] at hends
  | manifest repo reference =>
      rw [List.mem_singleton.mp hpath, List.append_assoc]
      have hends := endpoint_manifest hrepo h.2
      rwa [List.append_assoc] at hends
  | blob repo digest =>
      obtain ⟨hsegment, huploads⟩ := segment_of_isDigest h.2
      rw [List.mem_singleton.mp hpath, List.append_assoc]
      have hends := endpoint_blob hrepo hsegment huploads
      rwa [List.append_assoc] at hends
  | referrers repo digest =>
      rw [List.mem_singleton.mp hpath, List.append_assoc]
      have hends := endpoint_referrers hrepo (segment_of_isDigest h.2).1
      rwa [List.append_assoc] at hends

theorem slash_mem_paths {e : Endpoint} {path : Text} (hpath : path ∈ e.paths) : '/' ∈ path := by
  cases e with
  | uploads repo => rcases List.mem_pair.mp hpath with rfl | rfl <;> simp
  | tags repo => simp [List.mem_singleton.mp hpath]
  | upload repo last => simp [List.mem_singleton.mp hpath]
  | manifest repo last => simp [List.mem_singleton.mp hpath]
  | blob repo last => simp [List.mem_singleton.mp hpath]
  | referrers repo last => simp [List.mem_singleton.mp hpath]

-- The router takes a path apart into what a client built it from, and hands it to
-- the handler of the method.
theorem dispatch_paths (state : AppState) (method : Method) {e : Endpoint} (h : e.Proper)
    {path : Text} (hpath : path ∈ e.paths) :
    dispatch state method ("/v2/".toList ++ path) =
      (e.handler method).elim .methodNotAllowed .call := by
  have hslash := slash_mem_paths hpath
  have htoken : "/v2/".toList ++ path ≠ "/token".toList := by
    intro heq
    exact absurd (List.cons.inj (List.cons.inj heq).2).1 (by decide)
  have hroot : ¬("/v2/".toList ++ path = "/v2".toList ∨ "/v2/".toList ++ path = "/v2/".toList) := by
    rintro (heq | heq)
    · exact absurd (congrArg List.length heq) (by simp)
    · have hnil : path = [] := List.append_cancel_left (heq.trans (List.append_nil _).symm)
      rw [hnil] at hslash
      cases hslash
  have hcatalog : path ≠ "_catalog".toList := by
    rintro rfl
    revert hslash
    decide
  have hdrop : ("/v2/".toList ++ path).dropPrefix? "/v2/".toList = some path :=
    dropPrefix_eq_some.mpr rfl
  simp only [dispatch, if_neg htoken, if_neg hroot, hdrop, if_neg hcatalog, endpoint_paths h hpath]

-- A repository whose name is made of the markers.
theorem dispatch_paths_markers :
    dispatch ⟨false, false, false, false, false⟩ .put
        "/v2/tags/list/blobs/uploads/manifests/manifests/list".toList =
      .call (.manifestPut "tags/list/blobs/uploads/manifests".toList "list".toList) :=
  dispatch_paths ⟨false, false, false, false, false⟩ .put
    (show (Endpoint.manifest "tags/list/blobs/uploads/manifests".toList "list".toList).Proper from
      ⟨by decide +kernel, by decide⟩) List.mem_cons_self

end RspaceRegistry.Http
