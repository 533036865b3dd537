import RspaceRegistry.Stores.Layer
import RspaceRegistry.Stores.Manifests

namespace RspaceRegistry.Stores

open Calls Disk Files Ordered

-- The listings that the handlers page through. They change nothing, and the names of
-- repositories are of the characters that their components have.

def NameLike (name : String) : Prop := ∀ c ∈ name.toList, isNameChar c = true ∨ c = '/'

section Listings

variable [Sha2] (apart : RootId → Option IoError) {trees : Trees}

omit [Sha2] in
theorem nameLike_listed {tree : Tree} (h : Disk.Grown tree) {name : String}
    (hlisted : Listed tree name) : NameLike name := by
  obtain ⟨-, hmarked⟩ := listed_components h.dirs hlisted
  intro c hc
  have hdir := dir_of_marked hmarked _ (List.suffix_refl _)
  rw [← intercalate_components name] at hc
  rcases mem_intercalate hc with hslash | ⟨part, hpart, hmem⟩
  · exact .inr (by simpa using hslash)
  · refine .inl (h.dirs.chars hdir (List.suffix_append _ _) (List.mem_append_left _ ?_) c hmem)
    exact List.mem_reverse.mpr hpart

theorem onTrees_listRepos (h : Grown trees) (root : RootId) :
    (onTrees apart root (.request .listRepos) trees).2 = trees ∧
      ∀ names, (onTrees apart root (.request .listRepos) trees).1 = .ok names →
        ∀ name ∈ names, NameLike name := by
  obtain ⟨listing, hrun, hmem⟩ := run_listRepos (h.grown root).root
  have hsame : onTrees apart root (.request .listRepos) trees = (.ok listing, trees) :=
    onTrees_same hrun
  rw [hsame]
  refine ⟨rfl, fun names hnames name hname => ?_⟩
  obtain rfl := Except.ok.inj hnames
  exact nameLike_listed (h.grown root) ((hmem name).mp hname)

theorem onTrees_listTags (root : RootId) (repo : String) :
    (onTrees apart root (.request (.listTags repo)) trees).2 = trees := by
  have hkept : (fsStore (apart root) (.request (.listTags repo)) (trees root)).2 = trees root :=
    run_looks (looks_listTags repo) (trees root)
  show Function.update trees root _ = trees
  rw [hkept, Function.update_eq_self]

theorem backend_listRepos (h : Grown trees) (b : Backend) :
    (b.serve (onTrees apart) (.request .listRepos) trees).2 = trees ∧
      ∀ names, (b.serve (onTrees apart) (.request .listRepos) trees).1 = .ok names →
        ∀ name ∈ names, NameLike name := by
  rw [b.serve_listRepos]
  exact unionInto_all (fun root _ => onTrees_listRepos apart h root) (by simp)

theorem backend_listTags (b : Backend) (repo : String) :
    (b.serve (onTrees apart) (.request (.listTags repo)) trees).2 = trees := by
  have hkept : ∀ root ∈ b.leaves,
      (onTrees apart root (.request (.listTags repo)) trees).2 = trees ∧
        ∀ tags : BTreeSet String, (onTrees apart root (.request (.listTags repo)) trees).1 = .ok tags →
          ∀ tag ∈ tags, True :=
    fun root _ => ⟨onTrees_listTags apart root repo, fun _ _ _ _ => trivial⟩
  rw [b.serve_listTags]
  exact (unionInto_all hkept fun _ _ => trivial).1

end Listings

namespace Layer

variable [Sha2] (layer : Layer) (m : Moment) {s : QuotaState Trees}

theorem storage_listRepos (h : Grown s.store) :
    (layer.storage m .listRepos s).2 = s ∧
      ∀ names, (layer.storage m .listRepos s).1 = .ok names → ∀ name ∈ names, NameLike name := by
  have hpassed : ∀ {method : Method Trees (BTreeSet String)}, (method s.store).2 = s.store ∧
      (∀ names, (method s.store).1 = .ok names → ∀ name ∈ names, NameLike name) →
      (passOn method s).2 = s ∧
        ∀ names, (passOn method s).1 = .ok names → ∀ name ∈ names, NameLike name := by
    rintro method ⟨hkept, hnames⟩
    refine ⟨?_, hnames⟩
    show { s with store := (method s.store).2 } = s
    rw [hkept]
  have hrouted : ∀ router : RepoRouter,
      (router.serve (onTrees m.apart) (.request .listRepos) s.store).2 = s.store ∧
        ∀ names, (router.serve (onTrees m.apart) (.request .listRepos) s.store).1 = .ok names →
          ∀ name ∈ names, NameLike name := by
    intro router
    have hunion : router.serve (onTrees m.apart) (.request .listRepos) =
        listUnion (router.distinctBackends.map fun b =>
          b.serve (onTrees m.apart) (.request .listRepos)) := by
      rw [RepoRouter.serve, each, List.map_map]
      rfl
    rw [hunion]
    exact unionInto_all (fun b _ => backend_listRepos m.apart h b) (by simp)
  cases layer with
  | fs root => exact hpassed (onTrees_listRepos m.apart h root)
  | routed router => exact hpassed (hrouted router)
  | quota router quotas ttl => exact hpassed (hrouted router)

theorem storage_listTags (repo : String) : (layer.storage m (.listTags repo) s).2 = s := by
  have hpassed : (passOn ((layer.home repo).serve (onTrees m.apart) (.request (.listTags repo))) s).2 =
      s := by
    show { s with store := _ } = s
    rw [backend_listTags]
  cases layer with
  | fs root => exact hpassed
  | routed router => exact hpassed
  | quota router quotas ttl => exact hpassed

end Layer

end RspaceRegistry.Stores
