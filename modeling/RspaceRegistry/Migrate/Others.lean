import RspaceRegistry.Migrate.Reads
import RspaceRegistry.RepoRouter.Reads
import RspaceRegistry.Sample

namespace RspaceRegistry.Migrate

open Calls Fallible Places

section

variable [Sha2] [SerdeJson]

-- Everything that a client reads of a repository is the same in both worlds.
structure ReadsAsBefore (w w' : World) (repo : RepoName) : Prop where
  manifest : ∀ reference, w'.manifestGet repo reference = w.manifestGet repo reference
  tags : w'.listTags repo = w.listTags repo
  blob : ∀ reference content, w.manifestGet repo reference = .ok content →
    ∀ d ∈ blobReferences content, w'.blobRead repo d = w.blobRead repo d

section Conditions

variable (w : World) (pattern : String) (old newBackend : Backend) (drain : Bool)

-- Who keeps a blob below the old backend from being swept: the repositories
-- that stay.
def MarkedByStaying (d : Digest) : Prop :=
  ∃ repo, ¬Moved w pattern old repo ∧ ∃ digest content,
    old.read w.volumes repo (.digest digest) = some content ∧
      (d = digest ∨ d ∈ Gc.references content)

-- A directory has the blob once the run is over: it had it or it is where the
-- backfill puts it, and the drain does not sweep it.
def HoldsAfter (root : RootId) (d : Digest) : Prop :=
  (((w.volumes root).blob d).isSome ∨ root = newBackend.head ∧ newBackend.blob w.volumes d = none ∧
    (old.blob w.volumes d).isSome ∧
      ∃ moved, Moved w pattern old moved ∧ Referenced old w.volumes moved d) ∧
  (drain = true → root ∈ old.leaves → MarkedByStaying w pattern old d)

-- The backend that serves a repository after the run.
def servedBy (repo : RepoName) : Backend :=
  if w.router.RoutedThrough pattern repo.text then newBackend else w.router.resolve repo.text

-- What has to hold of a repository that the rule does not route by a match, for
-- the run to leave it alone.
structure LeftAlone (repo : RepoName) : Prop where
  fallback : w.router.RoutedThrough pattern repo.text →
    (∀ reference, newBackend.read w.volumes repo reference = old.read w.volumes repo reference) ∧
      ∀ tag, newBackend.HasTag w.volumes repo tag ↔ old.HasTag w.volumes repo tag
  pinned : drain = true → Moved w pattern old repo →
    ∀ d, old.read w.volumes repo (.digest d) = none
  blob : ∀ reference content, w.manifestGet repo reference = .ok content →
    ∀ d ∈ blobReferences content,
      ((∃ root ∈ (servedBy w pattern newBackend repo).leaves,
          HoldsAfter w pattern old newBackend drain root d) ↔
        w.blobRead repo d ≠ .error .notFound)

end Conditions

section Finished

variable {w w' : World} {pattern : String} {old newBackend : Backend} {drain : Bool}
  {repos : List RepoName} {v : Volumes}
  (hmem : ∀ repo, repo ∈ repos ↔ Moved w pattern old repo)
  (hfinished : Finished pattern old newBackend drain repos w w' v)

include hmem hfinished

theorem marked_iff_staying (d : Digest) :
    MarkedByOthers old repos v d ↔ MarkedByStaying w pattern old d := by
  have hread : ∀ repo, ¬Moved w pattern old repo → ∀ reference,
      old.read v repo reference = old.read w.volumes repo reference :=
    fun repo hstays reference => congrArg (first old.readOrder)
      (hfinished.copied.readAt_other (fun hr => hstays ((hmem repo).mp hr)) reference)
  unfold MarkedByOthers MarkedByStaying
  refine exists_congr fun repo => ?_
  rw [hmem]
  refine and_congr_right fun hstays => ?_
  simp only [hread repo hstays]

theorem isSome_backfilled (root : RootId) (d : Digest) : ((v root).blob d).isSome ↔
    ((w.volumes root).blob d).isSome ∨ root = newBackend.head ∧ newBackend.blob w.volumes d = none ∧
      (old.blob w.volumes d).isSome ∧
        ∃ moved, Moved w pattern old moved ∧ Referenced old w.volumes moved d := by
  have hmoved : (∃ moved, Moved w pattern old moved ∧ Referenced old w.volumes moved d) ↔
      ∃ moved ∈ repos, Referenced old w.volumes moved d := by
    simp only [hmem]
  rw [hmoved]
  by_cases href : ∃ moved ∈ repos, Referenced old w.volumes moved d
  · have hat : (v root).blob d = fillSlot old newBackend (w.volumes.blobAt d) root :=
      congrFun (hfinished.copied.blob d href) root
    rw [hat, isSome_fill newBackend.head_mem_readOrder]
    simp only [href, and_true]
    rfl
  · have hat : (v root).blob d = (w.volumes root).blob d :=
      congrFun (hfinished.copied.otherBlob d href) root
    rw [hat]
    simp only [href, and_false, or_false]

theorem holdsAfter_iff (root : RootId) (d : Digest) :
    ((w'.volumes root).blob d).isSome ↔ HoldsAfter w pattern old newBackend drain root d := by
  rw [HoldsAfter, ← isSome_backfilled hmem hfinished, ← marked_iff_staying hmem hfinished]
  cases hdrain : drain with
  | false =>
      rw [hfinished.kept hdrain]
      simp
  | true =>
      have hdrained := hfinished.drained hdrain
      by_cases hmarked : MarkedByOthers old repos v d
      · have hat : (w'.volumes root).blob d = (v root).blob d :=
          congrFun (hdrained.marked d hmarked) root
        rw [hat]
        simp [hmarked]
      · have hat : (w'.volumes root).blob d = clear old.leaves (v.blobAt d) root :=
          congrFun (hdrained.swept d hmarked) root
        rw [hat]
        by_cases hroot : root ∈ old.leaves
        · rw [clear_of_mem hroot]
          simp [hroot, hmarked]
        · rw [clear_of_not_mem hroot]
          simp only [hroot, false_implies, implies_true, and_true]
          rfl

omit hmem in
theorem resolve_after {k : Nat} (hkey : w.router.keyIndex pattern = some k) (repo : RepoName) :
    w'.router.resolve repo.text = servedBy w pattern newBackend repo := by
  rw [hfinished.router]
  by_cases hthrough : w.router.RoutedThrough pattern repo.text
  · rw [servedBy, if_pos hthrough]
    exact RepoRouter.resolve_upsert_through hkey hthrough
  · rw [servedBy, if_neg hthrough]
    exact RepoRouter.resolve_upsert_other hkey hthrough

-- Of a repository that stays, only its route may change.

section Staying

variable {repo : RepoName} (hstays : ¬Moved w pattern old repo)

include hstays

theorem read_staying (b : Backend) (reference : Reference) :
    b.read w'.volumes repo reference = b.read w.volumes repo reference := by
  have hr : repo ∉ repos := fun hr => hstays ((hmem repo).mp hr)
  have hcopied := hfinished.copied.readAt_other hr reference
  cases hdrain : drain with
  | false => rw [hfinished.kept hdrain, Backend.read, hcopied, Backend.read]
  | true =>
      rw [Backend.read, (hfinished.drained hdrain).readAt_other hr reference, hcopied, Backend.read]

theorem hasTag_staying (b : Backend) (tag : TagName) :
    b.HasTag w'.volumes repo tag ↔ b.HasTag w.volumes repo tag := by
  have hr : repo ∉ repos := fun hr => hstays ((hmem repo).mp hr)
  rw [← hfinished.copied.hasTag_other hr b tag]
  cases hdrain : drain with
  | false => rw [hfinished.kept hdrain]
  | true =>
      have ht : ∀ root, (w'.volumes root).tag repo tag = (v root).tag repo tag :=
        congrFun ((hfinished.drained hdrain).otherTag repo tag hr)
      simp only [Backend.HasTag, ht]

end Staying

-- A repository that is moved although its route stays is read from the old
-- backend before and after: it is there until it is drained.

section Pinned

variable {repo : RepoName} (hmoved : Moved w pattern old repo)

include hmoved

theorem read_drained (hdrain : drain = true) (reference : Reference) :
    old.read w'.volumes repo reference = none := by
  have hr := (hmem repo).mpr hmoved
  rw [Backend.read, (hfinished.drained hdrain).readAt_moved hr]
  exact first_clear_of_subset fun root hroot => (old.mem_readOrder root).mp hroot

theorem hasTag_drained (hdrain : drain = true) (tag : TagName) :
    ¬old.HasTag w'.volumes repo tag := by
  rintro ⟨root, hroot, hsome⟩
  have ht := congrFun ((hfinished.drained hdrain).tag repo ((hmem repo).mpr hmoved) tag) root
  rw [clear_of_mem hroot] at ht
  have hnone : (w'.volumes root).tag repo tag = none := ht
  rw [hnone] at hsome
  cases hsome

variable (hcoh : w.volumes.Coherent repo) (hresolve : TagsResolve old w.volumes repo)

include hcoh hresolve

theorem read_pinned (hdrain : drain = false) (reference : Reference) :
    old.read w'.volumes repo reference = old.read w.volumes repo reference := by
  rw [hfinished.kept hdrain]
  exact hfinished.copied.read_src ((hmem repo).mpr hmoved) w.volumes_wellFormed hcoh hresolve reference

omit hcoh in
theorem hasTag_pinned (hdrain : drain = false) (tag : TagName) :
    old.HasTag w'.volumes repo tag ↔ old.HasTag w.volumes repo tag := by
  rw [hfinished.kept hdrain, hfinished.copied.hasTag ((hmem repo).mpr hmoved) old hresolve]
  exact ⟨fun h => h.elim id And.right, .inl⟩

omit hmem hfinished hmoved [SerdeJson] in
-- Without a manifest there is nothing to read and no tag.
theorem nothing_of_no_digest (hnone : ∀ d, old.read w.volumes repo (.digest d) = none) :
    (∀ reference, old.read w.volumes repo reference = none) ∧
      ∀ tag, ¬old.HasTag w.volumes repo tag := by
  have hread : ∀ reference, old.read w.volumes repo reference = none := by
    intro reference
    cases hr : old.read w.volumes repo reference with
    | none => rfl
    | some content =>
        cases reference with
        | digest d =>
            rw [hnone d] at hr
            cases hr
        | tag tag =>
            have htarget := read_target old w hcoh hr
            rw [hnone] at htarget
            cases htarget
  refine ⟨hread, ?_⟩
  intro tag htag
  have hsome := hresolve tag htag
  rw [hread] at hsome
  cases hsome

end Pinned

section Iff

variable {k : Nat} (hkey : w.router.keyIndex pattern = some k)
  (hrule : w.router.backendForPattern pattern = some old)
  {repo : RepoName} (hother : ¬w.router.RoutedBy pattern repo.text)

include hkey hother

omit hmem hfinished [SerdeJson] in
-- Who is moved without being routed by the rule is so by a rule of its own, on
-- the same handle.
theorem not_through_of_moved (hmoved : Moved w pattern old repo) :
    ¬w.router.RoutedThrough pattern repo.text := by
  intro hthrough
  exact hother ((w.router.routedBy_iff_through hkey).mpr ⟨hmoved.2.1, hthrough⟩)

variable (hcoh : w.volumes.Coherent repo)
  (hresolve : ∀ repo ∈ repos, TagsResolve old w.volumes repo)

include hrule hcoh hresolve

theorem manifests_left_alone_iff :
    ((∀ reference, w'.manifestGet repo reference = w.manifestGet repo reference) ∧
        w'.listTags repo = w.listTags repo) ↔
      (w.router.RoutedThrough pattern repo.text →
        (∀ reference,
          newBackend.read w.volumes repo reference = old.read w.volumes repo reference) ∧
          ∀ tag, newBackend.HasTag w.volumes repo tag ↔ old.HasTag w.volumes repo tag) ∧
      (drain = true → Moved w pattern old repo → ∀ d, old.read w.volumes repo (.digest d) = none) := by
  have hafter := resolve_after hfinished hkey repo
  simp only [World.listTags_eq_iff, World.manifestGet_eq, orNotFound_injective.eq_iff, hafter]
  by_cases hmoved : Moved w pattern old repo
  · have hnot := not_through_of_moved hkey hother hmoved
    have hres := hresolve repo ((hmem repo).mpr hmoved)
    rw [servedBy, if_neg hnot, hmoved.2.2]
    cases hdrain : drain with
    | false =>
        refine iff_of_true ⟨?_, ?_⟩ ⟨fun h => absurd h hnot, by simp⟩
        · exact read_pinned hmem hfinished hmoved hcoh hres hdrain
        · exact hasTag_pinned hmem hfinished hmoved hres hdrain
    | true =>
        have hread := read_drained hmem hfinished hmoved hdrain
        have htag := hasTag_drained hmem hfinished hmoved hdrain
        simp only [hread, htag, false_iff]
        constructor
        · rintro ⟨hsame, _⟩
          exact ⟨fun h => absurd h hnot, fun _ _ d => (hsame (.digest d)).symm⟩
        · rintro ⟨_, hnone⟩
          obtain ⟨hnothing, hno⟩ := nothing_of_no_digest hcoh hres (hnone trivial hmoved)
          exact ⟨fun reference => (hnothing reference).symm, hno⟩
  · simp only [read_staying hmem hfinished hmoved, hasTag_staying hmem hfinished hmoved, hmoved,
      false_implies, implies_true, and_true]
    by_cases hthrough : w.router.RoutedThrough pattern repo.text
    · rw [servedBy, if_pos hthrough, w.router.resolve_of_routedThrough hrule hthrough]
      simp [hthrough]
    · rw [servedBy, if_neg hthrough]
      simp [hthrough]

omit hrule hother hcoh hresolve in
variable (repo) in
theorem blob_left_alone_iff (hfree : w.volumes.CollisionFree) (d : Digest) :
    w'.blobRead repo d = w.blobRead repo d ↔
      ((∃ root ∈ (servedBy w pattern newBackend repo).leaves,
          HoldsAfter w pattern old newBackend drain root d) ↔
        w.blobRead repo d ≠ .error .notFound) := by
  have hafter := resolve_after hfinished hkey repo
  have hholds : (∃ root ∈ (servedBy w pattern newBackend repo).leaves,
      HoldsAfter w pattern old newBackend drain root d) ↔
        ((servedBy w pattern newBackend repo).blob w'.volumes d).isSome := by
    rw [Backend.blob_isSome]
    simp only [holdsAfter_iff hmem hfinished]
  rw [hholds, World.blobRead_eq, World.blobRead_eq, hafter, orNotFound_injective.eq_iff,
    ne_eq, orNotFound_eq_notFound]
  cases hnew : (servedBy w pattern newBackend repo).blob w'.volumes d with
  | none =>
      cases hbefore : (w.router.resolve repo.text).blob w.volumes d with
      | none => simp
      | some content => simp
  | some content' =>
      cases hbefore : (w.router.resolve repo.text).blob w.volumes d with
      | none => simp
      | some content =>
          obtain ⟨root, _, hat⟩ := Backend.exists_of_blob hbefore
          obtain ⟨root', _, hat'⟩ := Backend.exists_of_blob hnew
          have haddr := (w.volumes_wellFormed root).blob_addressed d content hat
          have haddr' := (w'.volumes_wellFormed root').blob_addressed d content' hat'
          have hsame := hfree d.algorithm content' content
            (hfinished.stores content' ⟨root', .inl ⟨d, hat'⟩⟩) ⟨root, .inl ⟨d, hat⟩⟩
            (haddr'.trans haddr.symm)
          simp [hsame]

end Iff

end Finished

end

section

attribute [local instance] Sample.sha2 Sample.serdeJson

-- An image that a longer rule pins to the volume of the catch-all.
def pinned : World where
  roots := Sample.stored.roots
  router := ⟨[⟨"*", .fs 0 0⟩, ⟨"data/x", .fs 0 0⟩], List.cons_ne_nil _ _⟩
  nextArc := 2
  arcs_allocated := by decide

def pinnedAfter : World := ((run "*" (.fs 1 1) true).run World.handle pinned).2

theorem pinned_outcome : ((run "*" (.fs 1 1) true).run World.handle pinned).1 =
      .ok { MigrateReport.empty with reposMigrated := 1, manifestsCopied := 1, cutover := true } ∧
    ¬pinned.router.RoutedBy "*" Sample.dataX.text ∧
    pinned.manifestGet Sample.dataX (.tag Sample.v1) = .ok Sample.braces ∧
    pinnedAfter.manifestGet Sample.dataX (.tag Sample.v1) = .error .notFound := by
  decide +kernel

theorem pinned_run : (run "*" (.fs 1 1) true).run World.handle pinned =
    (.ok { MigrateReport.empty with reposMigrated := 1, manifestsCopied := 1, cutover := true },
      pinnedAfter) :=
  run_eq_mk pinned_outcome.1 rfl

end

end RspaceRegistry.Migrate
