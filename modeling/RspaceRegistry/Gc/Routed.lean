import RspaceRegistry.Gc.Exact
import RspaceRegistry.RepoRouter.Reads
import RspaceRegistry.RepoRouter.Theorems

namespace RspaceRegistry

open Calls Fallible Ordered

namespace RepoRouter

theorem mem_distinct (rules : List RouteRule) (out : List Backend) (b : Backend) :
    b ∈ distinct rules out ↔ b ∈ out ∨ ∃ rule ∈ rules, rule.backend = b := by
  induction rules generalizing out with
  | nil => simp [distinct]
  | cons rule rest ih =>
      have hany : out.any rule.backend.ptrEq = true ↔ rule.backend ∈ out := by
        simp [List.any_eq_true, Backend.ptrEq]
      rw [distinct, List.exists_mem_cons_iff]
      split
      · rename_i hin
        rw [ih]
        constructor
        · exact Or.imp_right .inr
        · rintro (h | rfl | h)
          · exact .inl h
          · exact .inl (hany.mp hin)
          · exact .inr h
      · rw [ih, List.mem_append, List.mem_singleton, or_assoc]
        exact or_congr_right (or_congr_left eq_comm)

theorem mem_distinctBackends (r : RepoRouter) (b : Backend) :
    b ∈ r.distinctBackends ↔ ∃ rule ∈ r.rules, rule.backend = b := by
  rw [distinctBackends, mem_distinct]
  simp

theorem resolve_mem_distinctBackends (r : RepoRouter) (repo : String) :
    r.resolve repo ∈ r.distinctBackends :=
  (r.mem_distinctBackends _).mpr (r.mem_of_resolve repo)

end RepoRouter

namespace Gc

section

variable [Sha2]

-- The repositories that a listing over the router shows.
def listedRepos (w : World) : BTreeSet RepoName :=
  BTreeSet.empty.extend (w.router.distinctBackends.flatMap fun b =>
    b.leaves.flatMap fun root => (w.roots root).listRepos.toList)

-- The backend that the sweep deletes a digest through: that of the first listed
-- repository whose route holds it, or where the empty name is routed to.
def probed (w : World) (d : Digest) : Backend :=
  w.router.resolve (((listedRepos w).toList.find? fun repo =>
    ((w.router.resolve repo.text).blob w.volumes d).isSome).elim "" (·.text))

variable [SerdeJson]

-- What the mark phase reaches: it reads each repository's manifests where the
-- repository is routed to.
def RoutedMarked (w : World) (d : Digest) : Prop :=
  ∃ repo : RepoName, ∃ digest content,
    (w.router.resolve repo.text).read w.volumes repo (.digest digest) = some content ∧
      (d = digest ∨ d ∈ references content)

variable (w : World)

omit [SerdeJson] in
theorem run_listUnion_backends {α : Type} [LinearOrder α] {m : Storage → StoreM (BTreeSet α)}
    {shows : Backend → α → Prop} (hm : ∀ b : Backend, ∃ set,
      (m b.storage).run World.handle w = (.ok set, w) ∧ ∀ value, value ∈ set ↔ shows b value)
    (backends : List Backend) (set : BTreeSet α) : ∃ union,
      (MultiStore.unionInto (fun b => m b.storage) backends set).run World.handle w =
        (.ok union, w) ∧
      ∀ value, value ∈ union ↔ value ∈ set ∨ ∃ b ∈ backends, shows b value := by
  induction backends generalizing set with
  | nil =>
      refine ⟨set, rfl, ?_⟩
      intro value
      simp
  | cons b rest ih =>
      obtain ⟨found, hrun, hfound⟩ := hm b
      obtain ⟨union, hunion, hmem⟩ := ih (set.extend found.toList)
      refine ⟨union, ?_, ?_⟩
      · rw [MultiStore.unionInto, run_bind_of_ok hrun]
        exact hunion
      · intro value
        rw [hmem, BTreeSet.mem_extend, BTreeSet.mem_toList, hfound, List.exists_mem_cons_iff]
        tauto

omit [SerdeJson] in
theorem run_distinctBackends :
    StoreM.distinctBackends.run World.handle w = (.ok w.router.distinctBackends, w) := rfl

omit [SerdeJson] in
theorem mem_listedRepos (repo : RepoName) : repo ∈ listedRepos w ↔
    ∃ b ∈ w.router.distinctBackends, b.HasRepo w.volumes repo := by
  unfold listedRepos
  rw [BTreeSet.mem_extend]
  simp only [BTreeSet.not_mem_empty, or_false, List.mem_flatMap]
  rfl

omit [SerdeJson] in
theorem run_listRepos_routed :
    RepoRouter.storage.listRepos.run World.handle w = (.ok (listedRepos w), w) := by
  obtain ⟨repos, hrun, hmem⟩ := run_listUnion_backends w
    (fun b => b.run_listRepos w) w.router.distinctBackends .empty
  have hsame : repos = listedRepos w := by
    apply BTreeSet.ext
    intro repo
    rw [hmem, mem_listedRepos]
    simp
  unfold RepoRouter.storage
  rw [run_bind_of_ok (run_distinctBackends w), ← hsame]
  exact hrun

omit [SerdeJson] in
theorem run_listAllBlobs_routed : ∃ blobs,
    RepoRouter.storage.listAllBlobs.run World.handle w = (.ok blobs, w) ∧
      ∀ d, d ∈ blobs ↔ ∃ b ∈ w.router.distinctBackends, (b.blob w.volumes d).isSome := by
  obtain ⟨blobs, hrun, hmem⟩ := run_listUnion_backends w
    (fun b => b.run_listAllBlobs w) w.router.distinctBackends .empty
  refine ⟨blobs, ?_, ?_⟩
  · unfold RepoRouter.storage
    rw [run_bind_of_ok (run_distinctBackends w)]
    exact hrun
  · intro d
    rw [hmem]
    simp

omit [SerdeJson] in
theorem run_locateOwner_routed (d : Digest) (repos : List RepoName) :
    (locateOwner RepoRouter.storage d repos).run World.handle w = (.ok (repos.find? fun repo =>
      ((w.router.resolve repo.text).blob w.volumes d).isSome), w) := by
  induction repos with
  | nil => rfl
  | cons repo rest ih =>
      have hexists : (RepoRouter.storage.blobExists repo.text d).run World.handle w =
          (.ok ((w.router.resolve repo.text).blob w.volumes d).isSome, w) := by
        unfold RepoRouter.storage
        rw [run_bind_of_ok (w.run_backendFor repo.text), Backend.run_blobExists]
      rw [locateOwner, run_attempt_bind hexists, List.find?_cons]
      cases ((w.router.resolve repo.text).blob w.volumes d).isSome with
      | true => rfl
      | false => exact ih

-- What a sweep through the router leaves of each directory.
def RoutedSwept (w : World) (reachable : BTreeSet Digest) (blobs : List Digest)
    (v v' : Volumes) : Prop :=
  ∀ root, v' root = (v root).removeBlobs
    (blobs.filter fun d => d ∉ reachable ∧ root ∈ (probed w d).leaves)

omit [SerdeJson] in
theorem RoutedSwept.cons {reachable : BTreeSet Digest} {blob : Digest} {rest : List Digest}
    {v v₁ v' : Volumes} (hblob : blob ∉ reachable)
    (hvol : v₁ = v.onRoots (probed w blob).leaves fun c => c.setBlob blob none)
    (h : RoutedSwept w reachable rest v₁ v') : RoutedSwept w reachable (blob :: rest) v v' := by
  intro root
  rw [h root, hvol]
  by_cases hr : root ∈ (probed w blob).leaves
  · rw [Volumes.onRoots_of_mem hr, List.filter_cons_of_pos (by simp [hblob, hr])]
    ext1
    · funext d
      by_cases hd : d = blob <;> simp [Contents.removeBlobs, Contents.setBlob, hd]
    all_goals rfl
  · rw [Volumes.onRoots_of_not_mem hr, List.filter_cons_of_neg (by simp [hr])]

omit [SerdeJson] in
-- The rules and the places of the digests that are still to be swept are as they
-- were at the start, so each digest is probed for as if it were the first.
theorem run_sweep_routed (reachable : BTreeSet Digest) (blobs : List Digest) (report : GcReport)
    (w₁ : World) (hnodup : blobs.Nodup) (hsame : World.SameRules w w₁)
    (hplaces : ∀ d ∈ blobs, w₁.volumes.blobAt d = w.volumes.blobAt d) : ∃ report' w',
      (sweep RepoRouter.storage (listedRepos w).toList reachable blobs report).run World.handle w₁ =
        (.ok report', w') ∧ World.SameRules w₁ w' ∧
      RoutedSwept w reachable blobs w₁.volumes w'.volumes := by
  induction blobs generalizing report w₁ with
  | nil => exact ⟨report, w₁, rfl, .refl w₁, fun root => rfl⟩
  | cons blob rest ih =>
      obtain ⟨hblob, hrest⟩ := List.nodup_cons.mp hnodup
      have hplacesRest : ∀ d ∈ rest, w₁.volumes.blobAt d = w.volumes.blobAt d :=
        fun d hd => hplaces d (List.mem_cons_of_mem blob hd)
      by_cases hmarked : blob ∈ reachable
      · obtain ⟨report', w', hrun, hsame', hswept⟩ := ih report w₁ hrest hsame hplacesRest
        refine ⟨report', w', ?_, hsame', ?_⟩
        · rw [sweep, if_pos hmarked]
          exact hrun
        · intro root
          rw [List.filter_cons_of_neg (by simp [hmarked])]
          exact hswept root
      · have howner := run_locateOwner_routed w₁ blob (listedRepos w).toList
        have hfind : ((listedRepos w).toList.find? fun repo =>
            ((w₁.router.resolve repo.text).blob w₁.volumes blob).isSome) =
            (listedRepos w).toList.find? fun repo =>
              ((w.router.resolve repo.text).blob w.volumes blob).isSome := by
          have hhere := hplaces blob List.mem_cons_self
          unfold Backend.blob
          rw [hsame.router, hhere]
        rw [hfind] at howner
        have hprobe : ∀ {α : Type} (method : Backend → String → StoreM α) (repo : String),
            (StoreM.backendFor repo >>= fun b => method b repo).run World.handle w₁ =
              (method (w.router.resolve repo) repo).run World.handle w₁ := by
          intro α method repo
          rw [run_bind_of_ok (w₁.run_backendFor repo), hsame.router]
        have hbackend : ∀ owner : Option RepoName,
            w.router.resolve ((owner.map (·.text)).getD "") = w.router.resolve (owner.elim "" (·.text)) := by
          intro owner
          cases owner <;> rfl
        obtain ⟨o, w₂, hdelete, _, hsame₂, hvol₂⟩ := (probed w blob).run_blobDelete w₁
          ((((listedRepos w).toList.find? fun repo =>
            ((w.router.resolve repo.text).blob w.volumes blob).isSome).map (·.text)).getD "") blob
        have hplaces₂ : ∀ d ∈ rest, w₂.volumes.blobAt d = w.volumes.blobAt d := by
          intro d hd
          have hne : d ≠ blob := fun he => hblob (he ▸ hd)
          rw [hvol₂]
          refine (Volumes.slot_onRoots_same w₁.volumes _ _ (fun c => c.blob d)
            (by simp [Contents.setBlob, hne])).trans ?_
          exact hplacesRest d hd
        have hnext : ∀ report, ∃ report' w',
            (sweep RepoRouter.storage (listedRepos w).toList reachable rest report).run World.handle w₂ =
              (.ok report', w') ∧ World.SameRules w₁ w' ∧
            RoutedSwept w reachable (blob :: rest) w₁.volumes w'.volumes := by
          intro report
          obtain ⟨report', w', hrun, hsame', hswept⟩ :=
            ih report w₂ hrest (hsame.trans hsame₂) hplaces₂
          exact ⟨report', w', hrun, hsame₂.trans hsame', hswept.cons w hmarked hvol₂⟩
        have hsize := (probed w blob).run_blobSize w₁
          ((((listedRepos w).toList.find? fun repo =>
            ((w.router.resolve repo.text).blob w.volumes blob).isSome).map (·.text)).getD "") blob
        unfold probed at hsize hdelete
        rw [← hbackend] at hsize hdelete
        rw [← hprobe (fun b repo => b.storage.blobSize repo blob)] at hsize
        rw [← hprobe (fun b repo => b.storage.blobDelete repo blob)] at hdelete
        rw [sweep, if_neg hmarked, run_bind_of_ok howner]
        unfold RepoRouter.storage at hnext ⊢
        rw [run_attempt_bind hsize, run_attempt_bind hdelete]
        cases o with
        | none => exact hnext _
        | some value => exact hnext _

-- The collector over the router: every unmarked digest goes from the one backend
-- that the sweep probes for it, and from no other place.
theorem run_gc_routed : ∃ report w', (run RepoRouter.storage).run World.handle w = (.ok report, w') ∧
    World.SameRules w w' ∧ ∀ root d,
      ((w'.volumes root).blob d = none ↔ (w.volumes root).blob d = none ∨
        root ∈ (probed w d).leaves ∧ ¬RoutedMarked w d) ∧
      ∀ content, (w'.volumes root).blob d = some content → (w.volumes root).blob d = some content := by
  have hget : ∀ repo d, (RepoRouter.storage.manifestGet repo (.digest d)).run World.handle w =
      (orNotFound ((w.router.resolve repo.text).read w.volumes repo (.digest d)), w) := by
    intro repo d
    unfold RepoRouter.storage
    rw [run_bind_of_ok (w.run_backendFor repo.text), Backend.run_manifestGet]
  have hlist : ∀ repo, ∃ digests,
      (RepoRouter.storage.listManifestDigests repo).run World.handle w = (.ok digests, w) ∧
        ∀ d, d ∈ digests ↔
          ((w.router.resolve repo.text).read w.volumes repo (.digest d)).isSome := by
    intro repo
    obtain ⟨digests, hrun, hmem⟩ := (w.router.resolve repo.text).run_listManifestDigests w repo
    refine ⟨digests, ?_, hmem⟩
    unfold RepoRouter.storage
    rw [run_bind_of_ok (w.run_backendFor repo.text)]
    exact hrun
  obtain ⟨reachable, report, hmark, _, hmemMark⟩ := run_markRepos w hget hlist
    (listedRepos w).toList .empty { GcReport.empty with reposScanned := (listedRepos w).toList.length }
  obtain ⟨blobs, hblobs, hmemBlobs⟩ := run_listAllBlobs_routed w
  obtain ⟨report', w', hsweep, hsame, hswept⟩ := run_sweep_routed w reachable blobs.toList
    { report with reachableBlobs := reachable.toList.length } w blobs.nodup (.refl w) fun _ _ => rfl
  have hreachable : ∀ d, d ∈ reachable ↔ RoutedMarked w d := by
    intro d
    rw [hmemMark]
    constructor
    · rintro (h | ⟨repo, _, digest, content, hc, h⟩)
      · exact absurd h (BTreeSet.not_mem_empty d)
      · exact ⟨repo, digest, content, hc, h⟩
    · rintro ⟨repo, digest, content, hc, h⟩
      obtain ⟨root, hroot, hc'⟩ := Backend.exists_of_read hc
      have hrepo := (w.volumes_wellFormed root).manifest_listed repo digest content hc'
      have hlisted : repo ∈ listedRepos w := (mem_listedRepos w repo).mpr
        ⟨_, w.router.resolve_mem_distinctBackends repo.text, root, hroot, hrepo⟩
      exact .inr ⟨repo, hlisted, digest, content, hc, h⟩
  refine ⟨report', w', ?_, hsame, ?_⟩
  · rw [run, run_bind_of_ok (run_listRepos_routed w), run_bind_of_ok hmark, run_bind_of_ok hblobs]
    exact hsweep
  · intro root d
    have hblob : (w'.volumes root).blob d =
        if d ∈ blobs.toList.filter (fun d => d ∉ reachable ∧ root ∈ (probed w d).leaves) then none
        else (w.volumes root).blob d := by
      rw [hswept root]
      rfl
    have hgone : d ∈ blobs.toList.filter (fun d => d ∉ reachable ∧ root ∈ (probed w d).leaves) ↔
        d ∈ blobs ∧ ¬RoutedMarked w d ∧ root ∈ (probed w d).leaves := by
      rw [List.mem_filter, decide_eq_true_iff, hreachable]
      rfl
    rw [hblob]
    constructor
    · split
      · rename_i hd
        obtain ⟨_, hmarked, hr⟩ := hgone.mp hd
        exact iff_of_true rfl (.inr ⟨hr, hmarked⟩)
      · rename_i hd
        constructor
        · exact .inl
        · rintro (h | ⟨hr, hmarked⟩)
          · exact h
          · -- a blob on a probed backend is listed, so it would have been swept
            apply Option.not_isSome_iff_eq_none.mp
            intro hheld
            have hlisted : d ∈ blobs := (hmemBlobs d).mpr ⟨probed w d,
              w.router.resolve_mem_distinctBackends _, (Backend.blob_isSome _ _ d).mpr ⟨root, hr, hheld⟩⟩
            exact hd (hgone.mpr ⟨hlisted, hmarked, hr⟩)
    · intro content
      split
      · rintro ⟨⟩
      · exact id

end

end Gc

end RspaceRegistry
