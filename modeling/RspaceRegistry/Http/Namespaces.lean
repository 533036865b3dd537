import Mathlib.Data.Option.Basic
import RspaceRegistry.Http.Dispatch
import RspaceRegistry.RepoName.Components

namespace RspaceRegistry.Http

open Cuts

-- Where a repository belongs: the namespace that its first segment names.
def repoNamespace (cfg : K8sAuthConfig) (repo : Text) : Option Text :=
  if '/' ∈ repo then some (firstSegment '/' repo) else cfg.defaultNamespace

-- The first marker of the list that stands anywhere in the path stands right
-- behind its first segment.
def MarkerFirst (rest : Text) : Prop :=
  ∃ marker ∈ markers.find? (· <:+: rest), marker <+: behindFirst '/' rest

instance (rest : Text) : Decidable (MarkerFirst rest) :=
  inferInstanceAs (Decidable (∃ marker ∈ _, _))

section Endpoint

theorem stripSuffix_eq_some {s suffix repo : Text} (h : stripSuffix s suffix = some repo) :
    s = repo ++ suffix := by
  obtain ⟨front, hdrop, hfront⟩ := Option.bind_eq_some_iff.mp h
  rw [nonEmpty] at hfront
  split at hfront
  · cases hfront
  · obtain rfl := Option.some.inj hfront
    exact dropSuffix_eq_some.mp hdrop

theorem stripTwoSuffix_eq_some {s marker repo back : Text}
    (h : stripTwoSuffix s marker = some (repo, back)) : s = repo ++ marker ++ back ∧ '/' ∉ back := by
  obtain ⟨parts, hcut, hparts⟩ := Option.bind_eq_some_iff.mp h
  split at hparts
  · cases hparts
  · rename_i hgood
    obtain rfl := Option.some.inj hparts
    exact ⟨cutLast_eq_some hcut, fun hmem => hgood (.inr (.inr hmem))⟩

-- What stands behind the repository name in a path that is not a list of tags.
def IsTail (tail : Text) : Prop :=
  ∃ marker ∈ "/blobs/uploads/".toList :: markers, ∃ back, '/' ∉ back ∧ tail = marker ++ back

theorem isTail_of_cut {rest marker : Text} {parts : Text × Text}
    (h : stripTwoSuffix rest marker = some parts)
    (hmem : marker ∈ "/blobs/uploads/".toList :: markers) :
    ∃ tail, rest = parts.1 ++ tail ∧ IsTail tail := by
  obtain ⟨hrest, hback⟩ := stripTwoSuffix_eq_some h
  exact ⟨marker ++ parts.2, by rw [hrest, List.append_assoc], marker, hmem, _, hback, rfl⟩

-- An upload is started at the marker, or at the marker and a slash.
theorem isTail_of_start {rest repo : Text}
    (h : stripSuffix ((rest.dropSuffix? "/".toList).getD rest) "/blobs/uploads".toList = some repo) :
    ∃ tail, rest = repo ++ tail ∧ IsTail tail := by
  have hfront := stripSuffix_eq_some h
  cases hslash : rest.dropSuffix? "/".toList with
  | none =>
      rw [hslash, Option.getD_none] at hfront
      exact ⟨_, hfront, "/blobs/uploads".toList, by decide, [], by simp, (List.append_nil _).symm⟩
  | some front =>
      rw [hslash, Option.getD_some] at hfront
      rw [dropSuffix_eq_some.mp hslash, hfront]
      exact ⟨"/blobs/uploads/".toList, List.append_assoc _ _ _, _, List.mem_cons_self, [], by simp,
        (List.append_nil _).symm⟩

theorem endpoint_eq_some {rest : Text} {e : Endpoint} (h : endpoint rest = some e) :
    rest = e.repo ++ "/tags/list".toList ∧ e = .tags e.repo ∨
      stripSuffix rest "/tags/list".toList = none ∧ ∃ tail, rest = e.repo ++ tail ∧ IsTail tail := by
  simp only [endpoint, Option.orElse_eq_some, Option.map_eq_some_iff, Option.map_eq_none_iff] at h
  rcases h with ⟨repo, hrepo, rfl⟩ | ⟨hnotags, h⟩
  · exact .inl ⟨stripSuffix_eq_some hrepo, rfl⟩
  · refine .inr ⟨hnotags, ?_⟩
    rcases h with ⟨repo, hrepo, rfl⟩ | ⟨-, ⟨parts, hparts, rfl⟩ | ⟨-, ⟨parts, hparts, rfl⟩ |
      ⟨-, ⟨parts, hparts, rfl⟩ | ⟨-, parts, hparts, rfl⟩⟩⟩⟩
    · exact isTail_of_start hrepo
    all_goals exact isTail_of_cut hparts (by decide)

end Endpoint

section Markers

theorem count_markers {marker : Text} (h : marker ∈ markers) : marker.count '/' = 2 := by
  revert marker
  decide

theorem marker_cons {marker : Text} (h : marker ∈ markers) : ∃ next rest,
    marker = '/' :: next :: rest ∧ next ≠ 'u' := by
  have hall : ∀ marker ∈ markers, marker.head? = some '/' ∧ (marker.drop 1).head? ≠ some 'u' ∧
      2 ≤ marker.length := by decide
  obtain ⟨hhead, hnext, hlength⟩ := hall marker h
  match marker, hhead, hnext, hlength with
  | _ :: next :: rest, hhead, hnext, _ =>
      obtain rfl := Option.some.inj hhead
      exact ⟨next, rest, rfl, fun heq => hnext (congrArg some heq)⟩

theorem IsTail.cons {tail : Text} (h : IsTail tail) : ∃ rest, tail = '/' :: rest := by
  obtain ⟨start, hstart, back, -, rfl⟩ := h
  rcases List.mem_cons.mp hstart with rfl | hmem
  · exact ⟨_, rfl⟩
  · obtain ⟨next, rest, rfl, -⟩ := marker_cons hmem
    exact ⟨_, rfl⟩

-- A marker in the tail of a path stands at its start: there is no room for its
-- two slashes elsewhere, and `/uploads/` is no marker.
theorem prefix_of_tail {tail marker : Text} (htail : IsTail tail) (hmarker : marker ∈ markers)
    (hoccurs : marker <:+: tail) : marker <+: tail := by
  obtain ⟨start, hstart, back, hback, rfl⟩ := htail
  obtain ⟨front, last, heq⟩ := hoccurs
  have hcount := congrArg (List.count '/') heq
  simp only [List.count_append, count_markers hmarker, List.count_eq_zero.mpr hback] at hcount
  cases front with
  | nil => exact ⟨last, heq⟩
  | cons first front =>
      exfalso
      rcases List.mem_cons.mp hstart with rfl | hstart
      · have hfirst : first = '/' := (List.cons.inj heq).1
        have hrest : front ++ marker ++ last = "blobs".toList ++ '/' :: ("uploads/".toList ++ back) :=
          (List.cons.inj heq).2
        have hfront : '/' ∉ front := by
          rw [hfirst, List.count_cons_self] at hcount
          have hthree : "/blobs/uploads/".toList.count '/' = 3 := by decide
          rw [← List.count_eq_zero]
          omega
        obtain ⟨next, rest, rfl, hnext⟩ := marker_cons hmarker
        rw [List.append_assoc, List.cons_append] at hrest
        have hbehind := congrArg (behindFirst '/') hrest
        rw [(firstSegment_append_cons hfront).2, (firstSegment_append_cons (by decide)).2] at hbehind
        exact hnext (List.cons.inj (List.cons.inj hbehind).2).1
      · obtain ⟨next, rest, rfl, -⟩ := marker_cons hstart
        have hfirst : first = '/' := (List.cons.inj heq).1
        rw [hfirst, List.count_cons_self, count_markers hstart] at hcount
        omega

-- Some marker stands in the path, and it cuts off the repository of the operation.
theorem repoFromRest_eq {rest repo tail : Text} (hrest : rest = repo ++ tail) (htail : IsTail tail) :
    ∃ marker ∈ markers.find? (· <:+: rest), ∃ front back,
      cutFirst marker rest = some (front, back) ∧ repoFromRest rest = nonEmpty front := by
  have hsome : (markers.find? (· <:+: rest)).isSome := by
    rw [List.find?_isSome]
    obtain ⟨start, hstart, back, -, rfl⟩ := htail
    have hmarker : ∃ marker ∈ markers, marker <+: start := by
      rcases List.mem_cons.mp hstart with rfl | hmem
      · exact ⟨"/blobs/uploads".toList, by decide, by decide⟩
      · exact ⟨start, hmem, List.prefix_rfl⟩
    obtain ⟨marker, hmem, hbegins⟩ := hmarker
    refine ⟨marker, hmem, decide_eq_true ?_⟩
    rw [hrest]
    exact (hbegins.isInfix.trans (List.prefix_append start back).isInfix).trans
      (List.suffix_append repo _).isInfix
  obtain ⟨marker, hfound⟩ := Option.isSome_iff_exists.mp hsome
  have hoccurs : marker <:+: rest := by simpa using List.find?_some hfound
  obtain ⟨⟨front, back⟩, hcut⟩ := Option.isSome_iff_exists.mp (cutFirst_isSome.mpr hoccurs)
  refine ⟨marker, hfound, front, back, hcut, ?_⟩
  rw [repoFromRest, findSome_cutFirst, hfound, Option.bind_some, hcut]

end Markers

section Agreement

variable {cfg : K8sAuthConfig} {action : Action}

-- The namespace of an operation is that of its repository.
theorem namespaceFor_repo {repo : Text} (h : repo.head? ≠ some '/') :
    namespaceFor cfg ⟨action, nonEmpty repo⟩ = repoNamespace cfg repo := by
  by_cases hempty : repo = []
  · rw [hempty]
    rfl
  · simp only [namespaceFor, nonEmpty, if_neg hempty, cutOnce_eq, repoNamespace]
    by_cases hslash : '/' ∈ repo
    · have hns : firstSegment '/' repo ≠ [] := by
        intro hnil
        cases repo with
        | nil => exact hempty rfl
        | cons first rest =>
            rw [firstSegment, List.takeWhile_cons] at hnil
            split at hnil
            · cases hnil
            · rename_i hfirst
              exact h (congrArg some (by simpa using hfirst))
      simp only [if_pos hslash, hns, ne_eq, not_false_eq_true, if_true]
    · simp only [if_neg hslash]

theorem validRepo_head {repo : Text} (h : validateRepoName (String.ofList repo) = .ok ()) :
    ∃ first rest, repo = first :: rest ∧ first ≠ '/' := by
  obtain ⟨hne, hparts⟩ := validateRepoName_ok h
  cases repo with
  | nil => exact absurd rfl hne
  | cons first rest =>
      refine ⟨first, rest, rfl, ?_⟩
      rintro rfl
      have hmem : "" ∈ components (String.ofList ('/' :: rest)) := by
        rw [components, String.toList_ofList, List.splitOn_cons_eq_if_modifyHead]
        exact List.mem_cons_self
      exact validateComponent_nonempty (hparts "" hmem) rfl

theorem repoNamespace_of_prefix {repo rest : Text} (h : repo <+: rest) :
    repoNamespace cfg repo = if '/' ∈ repo then some (firstSegment '/' rest)
      else cfg.defaultNamespace := by
  obtain ⟨back, rfl⟩ := h
  rw [repoNamespace]
  split
  · rename_i hslash
    rw [firstSegment_append_of_mem hslash]
  · rfl

-- Below `/v2/`, and when the path is not a list of tags.
theorem namespaceFor_rest {rest repo tail : Text} (hrest : rest = repo ++ tail) (htail : IsTail tail)
    (hvalid : validateRepoName (String.ofList repo) = .ok ()) :
    namespaceFor cfg ⟨action, repoFromRest rest⟩ =
      if '/' ∈ repo ∧ ¬MarkerFirst rest then some (firstSegment '/' repo)
      else cfg.defaultNamespace := by
  obtain ⟨marker, hfound, front, back, hcut, hrepo⟩ := repoFromRest_eq hrest htail
  obtain ⟨first, others, hcons, hslash⟩ := validRepo_head hvalid
  have hfront : front <+: rest := by
    rw [(cutFirst_eq_some.mp hcut).1, List.append_assoc]
    exact List.prefix_append _ _
  have hhead : front.head? ≠ some '/' := by
    cases front with
    | nil => nofun
    | cons head front =>
        rw [hrest, hcons] at hfront
        rw [(List.cons_prefix_cons.mp hfront).1]
        exact fun heq => hslash (Option.some.inj heq)
  obtain ⟨next, last, rfl, -⟩ := marker_cons (List.mem_of_find?_eq_some hfound)
  have hfirst : MarkerFirst rest ↔ '/' ∉ front := by
    rw [sep_notMem_iff hcut, MarkerFirst]
    constructor
    · rintro ⟨marker, hmarker, hbehind⟩
      rw [Option.mem_def, hfound] at hmarker
      obtain rfl := Option.some.inj hmarker
      exact hbehind
    · exact fun hbehind => ⟨_, hfound, hbehind⟩
  have hone : '/' ∉ repo → '/' ∉ front := by
    intro hrepo
    have hoccurs : '/' :: next :: last <:+: tail := by
      apply infix_of_append hrepo
      rw [← hrest]
      exact cutFirst_isSome.mp (hcut ▸ rfl)
    have hbehind : behindFirst '/' rest = tail := by
      obtain ⟨start, rfl⟩ := htail.cons
      rw [hrest, (firstSegment_append_cons hrepo).2]
    rw [sep_notMem_iff hcut, hbehind]
    exact prefix_of_tail htail (List.mem_of_find?_eq_some hfound) hoccurs
  rw [hrepo, namespaceFor_repo hhead, repoNamespace_of_prefix hfront]
  by_cases hmem : '/' ∈ front
  · have hslashes : '/' ∈ repo := by
      by_contra hrepo
      exact hone hrepo hmem
    have hsegment : firstSegment '/' rest = firstSegment '/' repo := by
      rw [hrest, firstSegment_append_of_mem hslashes]
    rw [if_pos hmem, if_pos ⟨hslashes, fun h => hfirst.mp h hmem⟩, hsegment]
  · rw [if_neg hmem, if_neg fun h => h.2 (hfirst.mpr hmem)]

end Agreement

-- The path names something below a repository, and the first marker of the list
-- that stands in it stands right behind its first segment.
def CutShort (path : Text) : Prop :=
  ∃ rest ∈ path.dropPrefix? "/v2/".toList,
    rest.dropSuffix? "/tags/list".toList = none ∧ MarkerFirst rest

instance (path : Text) : Decidable (CutShort path) :=
  inferInstanceAs (Decidable (∃ rest ∈ _, _))

-- The namespace that is asked for is the first segment of the repository, unless
-- there is no other or the path is cut behind it.
theorem namespaceFor_call {state : AppState} (cfg : K8sAuthConfig) {method : Method}
    {path repo : Text} {call : Call} (hcall : dispatch state method path = .call call)
    (hrepo : call.repo = some repo) (hvalid : validateRepoName (String.ofList repo) = .ok ()) :
    namespaceFor cfg (classify method path) =
      if '/' ∈ repo ∧ ¬CutShort path then some (firstSegment '/' repo)
      else cfg.defaultNamespace := by
  rcases dispatch_eq_call hcall with ⟨rfl, -⟩ | ⟨rfl, -⟩ | ⟨hadmin, -⟩ | ⟨rfl, -⟩ |
    ⟨rest, e, rfl, hne, hcatalog, hend, hhandler⟩
  · cases hrepo
  · cases hrepo
  · rw [Call.repo_of_isAdmin hadmin] at hrepo
    cases hrepo
  · cases hrepo
  · rw [(Endpoint.handler_repo hhandler).1] at hrepo
    obtain rfl := Option.some.inj hrepo
    have hdrop : ("/v2/".toList ++ rest).dropPrefix? "/v2/".toList = some rest :=
      dropPrefix_eq_some.mpr rfl
    obtain ⟨first, others, hcons, hslash⟩ := validRepo_head hvalid
    have hshort : CutShort ("/v2/".toList ++ rest) ↔
        rest.dropSuffix? "/tags/list".toList = none ∧ MarkerFirst rest := by
      rw [CutShort, hdrop]
      simp
    rw [classify_below hne hcatalog]
    simp only [hshort]
    rcases endpoint_eq_some hend with ⟨htags, -⟩ | ⟨hnotags, tail, hrest, htail⟩
    · have hsuffix : rest.dropSuffix? "/tags/list".toList = some e.repo :=
        dropSuffix_eq_some.mpr htags
      have hhead : e.repo.head? ≠ some '/' := by
        rw [hcons]
        exact fun heq => hslash (Option.some.inj heq)
      rw [hsuffix, namespaceFor_repo hhead, repoNamespace]
      simp
    · have hsuffix : rest.dropSuffix? "/tags/list".toList = none := by
        rw [stripSuffix, Option.bind_eq_none_iff] at hnotags
        rw [Option.eq_none_iff_forall_ne_some]
        intro front hfront
        have hempty := hnotags front hfront
        rw [nonEmpty] at hempty
        split at hempty
        · rename_i hnil
          have hlist := dropSuffix_eq_some.mp hfront
          rw [hnil, hrest, hcons] at hlist
          exact hslash (List.cons.inj hlist).1
        · cases hempty
      rw [hsuffix, namespaceFor_rest hrest htail hvalid]
      simp

-- The namespace that is asked for is that of the repository that is handled,
-- unless a path with more than one segment before the handler is cut behind the
-- first one, and that is not the default namespace.
theorem namespaces_agree_iff {state : AppState} (cfg : K8sAuthConfig) {method : Method}
    {path repo : Text} {call : Call} (hcall : dispatch state method path = .call call)
    (hrepo : call.repo = some repo) (hvalid : validateRepoName (String.ofList repo) = .ok ()) :
    namespaceFor cfg (classify method path) = repoNamespace cfg repo ↔
      ('/' ∈ repo → CutShort path → cfg.defaultNamespace = some (firstSegment '/' repo)) := by
  rw [namespaceFor_call cfg hcall hrepo hvalid, repoNamespace]
  by_cases hslash : '/' ∈ repo
  · by_cases hshort : CutShort path
    · simp [hslash, hshort]
    · simp [hslash, hshort]
  · simp [hslash]

-- All parts of the application, and no namespace for what has none of its own.
def fullState : AppState := ⟨true, true, true, true, true⟩

def strictConfig : K8sAuthConfig :=
  ⟨"rspace.io".toList, "repositories".toList, none, 120, false⟩

theorem nested_repo_agrees :
    namespaceFor strictConfig (classify .get "/v2/team/web/manifests/v1".toList) =
      repoNamespace strictConfig "team/web".toList := by
  have hcall : dispatch fullState .get "/v2/team/web/manifests/v1".toList =
      .call (.manifestGet "team/web".toList "v1".toList false) := by decide +kernel
  exact (namespaces_agree_iff strictConfig hcall rfl (by decide)).mpr
    fun _ hshort => absurd hshort (by decide +kernel)

-- A repository with a component `manifests` is authorized as its first segment.
theorem namespaces_disagree : ¬∀ (state : AppState) (cfg : K8sAuthConfig) (method : Method)
    (path repo : Text) (call : Call), dispatch state method path = .call call →
      call.repo = some repo → validateRepoName (String.ofList repo) = .ok () →
        namespaceFor cfg (classify method path) = repoNamespace cfg repo := by
  intro h
  have hcall : dispatch fullState .put "/v2/team/manifests/x/manifests/v1".toList =
      .call (.manifestPut "team/manifests/x".toList "v1".toList) := by decide +kernel
  have hsame := h fullState strictConfig .put _ _ _ hcall rfl (by decide +kernel)
  exact absurd hsame (by decide +kernel)

end RspaceRegistry.Http
