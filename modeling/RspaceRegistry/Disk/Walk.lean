import RspaceRegistry.Disk.Effects

namespace RspaceRegistry.Disk

open Calls Files Ordered

-- What the walk over `manifests` finds in a tree.

-- The names that the walk does not go into.
def Unmarked (names : List String) : Prop := "tags" ∉ names ∧ "digests" ∉ names

-- One of the two directories that make a repository.
def Marked (tree : Tree) (dir : Path) : Prop :=
  tree.node ("tags" :: dir) = some .dir ∨ tree.node ("digests" :: dir) = some .dir

-- What a walk from the directory adds to its result, if it goes down so many levels.
def Found (tree : Tree) (steps : Nat) (dir : Path) (name : String) : Prop :=
  ∃ front, front.length < steps ∧ Unmarked front ∧ Marked tree (front ++ dir) ∧
    relativeName (front ++ dir) = name ∧ name ≠ ""

section Walk

variable {tree : Tree} {dir : Path}

theorem unmarked_snoc {front : List String} {child : String} :
    Unmarked (front ++ [child]) ↔ Unmarked front ∧ child ≠ "tags" ∧ child ≠ "digests" := by
  simp only [Unmarked, List.mem_append, List.mem_singleton]
  grind

-- The walk passes through directories only.
theorem dir_of_marked {front : List String} (h : Marked tree (front ++ dir)) :
    ∀ above, above <:+ front ++ dir → tree.node above = some .dir := by
  intro above habove
  have hne : ∀ kind, above ≠ kind :: (front ++ dir) := by
    intro kind heq
    have hlen := habove.length_le
    rw [heq] at hlen
    simp at hlen
  rcases h with h | h
  · exact Tree.dir_above h (habove.trans (List.suffix_cons _ _)) (hne _)
  · exact Tree.dir_above h (habove.trans (List.suffix_cons _ _)) (hne _)

section Entries

variable {entries : List (String × Node)}
variable (hentries : ∀ name node, (name, node) ∈ entries ↔ tree.node (name :: dir) = some node)

include hentries

theorem isRepo_iff : isRepo entries = true ↔ Marked tree dir := by
  rw [isRepo, List.any_eq_true, Marked, ← hentries, ← hentries]
  constructor
  · rintro ⟨⟨name, node⟩, hmem, hentry⟩
    simp only [Bool.and_eq_true, decide_eq_true_eq, Bool.or_eq_true] at hentry
    obtain ⟨rfl, rfl | rfl⟩ := hentry
    · exact .inl hmem
    · exact .inr hmem
  · rintro (hmem | hmem)
    · exact ⟨_, hmem, rfl⟩
    · exact ⟨_, hmem, rfl⟩

theorem mem_childDirs {child : String} : child ∈ childDirs entries ↔
    tree.node (child :: dir) = some .dir ∧ child ≠ "tags" ∧ child ≠ "digests" := by
  rw [childDirs, List.mem_filterMap, ← hentries]
  constructor
  · rintro ⟨⟨name, node⟩, hmem, hentry⟩
    cases node with
    | file inode => cases hentry
    | dir =>
        simp only at hentry
        split at hentry
        · cases hentry
        · rename_i hkind
          obtain rfl := Option.some.inj hentry
          exact ⟨hmem, not_or.mp hkind⟩
  · rintro ⟨hmem, hkind⟩
    exact ⟨_, hmem, if_neg (not_or.mpr hkind)⟩

end Entries

-- The children one after the other, if the walk does its work in each.
theorem run_walkChildren {steps : Nat}
    (hwalk : ∀ path, tree.node path = some .dir → ∀ out, ∃ found,
      (walkRepos steps path out).run Tree.handle tree = (.ok found, tree) ∧
        ∀ name, name ∈ found ↔ name ∈ out ∨ Found tree steps path name)
    {children : List String} (hdirs : ∀ child ∈ children, tree.node (child :: dir) = some .dir)
    (out : List String) : ∃ found,
      (walkChildren (walkRepos steps) dir children out).run Tree.handle tree = (.ok found, tree) ∧
        ∀ name, name ∈ found ↔ name ∈ out ∨
          ∃ child ∈ children, Found tree steps (child :: dir) name := by
  induction children generalizing out with
  | nil => exact ⟨out, rfl, by simp⟩
  | cons child rest ih =>
      obtain ⟨mid, hrun, hmid⟩ := hwalk (child :: dir) (hdirs child List.mem_cons_self) out
      obtain ⟨found, hrest, hfound⟩ := ih (fun other hother =>
        hdirs other (List.mem_cons_of_mem child hother)) mid
      refine ⟨found, ?_, fun name => ?_⟩
      · rw [walkChildren, Fallible.run_bind_of_ok hrun, hrest]
      · rw [hfound, hmid]
        simp only [List.mem_cons, exists_eq_or_imp, or_assoc]

-- One level of the walk: the directory itself, and what its children lead to.
theorem found_succ {steps : Nat} {name : String} : Found tree (steps + 1) dir name ↔
    (Marked tree dir ∧ relativeName dir = name ∧ name ≠ "") ∨
      ∃ child, (tree.node (child :: dir) = some .dir ∧ child ≠ "tags" ∧ child ≠ "digests") ∧
        Found tree steps (child :: dir) name := by
  constructor
  · rintro ⟨front, hlen, hfree, hmarked, hname⟩
    rcases List.eq_nil_or_concat' front with rfl | ⟨rest, child, rfl⟩
    · exact .inl ⟨hmarked, hname⟩
    · rw [List.append_assoc, List.singleton_append] at hmarked hname
      obtain ⟨hrest, hchild⟩ := unmarked_snoc.mp hfree
      refine .inr ⟨child, ⟨?_, hchild⟩, rest, ?_, hrest, hmarked, hname⟩
      · exact dir_of_marked hmarked _ (List.suffix_append _ _)
      · simp only [List.length_append, List.length_singleton] at hlen
        omega
  · rintro (⟨hmarked, hname⟩ | ⟨child, ⟨-, hchild⟩, rest, hlen, hrest, hmarked, hname⟩)
    · exact ⟨[], Nat.succ_pos _, ⟨List.not_mem_nil, List.not_mem_nil⟩, hmarked, hname⟩
    · refine ⟨rest ++ [child], ?_, unmarked_snoc.mpr ⟨hrest, hchild⟩, ?_⟩
      · simp only [List.length_append, List.length_singleton]
        omega
      · rw [List.append_assoc, List.singleton_append]
        exact ⟨hmarked, hname⟩

theorem run_walkRepos (steps : Nat) (hdir : tree.node dir = some .dir) (out : List String) :
    ∃ found, (walkRepos steps dir out).run Tree.handle tree = (.ok found, tree) ∧
      ∀ name, name ∈ found ↔ name ∈ out ∨ Found tree steps dir name := by
  induction steps generalizing dir out with
  | zero => exact ⟨out, rfl, fun name => by simp [Found]⟩
  | succ steps ih =>
      obtain ⟨entries, hread, hentries⟩ := Tree.mem_readDir hdir
      have hattempt : (FileM.call (.readDir dir)).run Tree.handle tree = (.ok entries, tree) := by
        rw [FileM.run_call, Tree.handle, hread]
      have hchildren : ∀ child ∈ childDirs entries,
          tree.node (child :: dir) = some .dir ∧ child ≠ "tags" ∧ child ≠ "digests" :=
        fun child hchild => (mem_childDirs hentries).mp hchild
      obtain ⟨found, hrun, hfound⟩ := run_walkChildren (fun path hpath out => ih hpath out)
        (fun child hchild => (hchildren child hchild).1)
        (out ++ if isRepo entries ∧ relativeName dir ≠ "" then [relativeName dir] else [])
      refine ⟨found, ?_, fun name => ?_⟩
      · rw [walkRepos, Fallible.run_attempt_bind hattempt]
        exact hrun
      · rw [hfound, found_succ, List.mem_append, or_assoc]
        refine or_congr_right (or_congr ?_ (exists_congr fun child => and_congr_left' ?_))
        · rw [← isRepo_iff hentries]
          split
          · rename_i hhere
            rw [List.mem_singleton]
            exact ⟨fun h => ⟨hhere.1, h.symm, h ▸ hhere.2⟩, fun h => h.2.1.symm⟩
          · rename_i hnot
            refine ⟨fun h => absurd h List.not_mem_nil, fun h => absurd ⟨h.1, ?_⟩ hnot⟩
            rw [h.2.1]
            exact h.2.2
        · exact mem_childDirs hentries

-- Every level of a path has its own entry.
theorem length_le_entries {path : Path} (h : tree.node path = some .dir) :
    path.length < tree.nodes.entries.length := by
  have hnodup : ((List.range (path.length + 1)).map path.drop).Nodup := by
    refine List.Nodup.map_on (fun i hi j hj heq => ?_) List.nodup_range
    have hlen := congrArg List.length heq
    rw [List.mem_range] at hi hj
    simp only [List.length_drop] at hlen
    omega
  have hsub : (List.range (path.length + 1)).map path.drop ⊆ tree.nodes.keys := by
    intro above habove
    obtain ⟨i, -, rfl⟩ := List.mem_map.mp habove
    have hdir : tree.node (path.drop i) = some .dir := by
      by_cases heq : path.drop i = path
      · rw [heq, h]
      · exact Tree.dir_above h (List.drop_suffix i path) heq
    exact AList.lookup_isSome.mp (by rw [show tree.nodes.lookup (path.drop i) = _ from hdir]; rfl)
  have hle := hnodup.length_le_of_subset hsub
  rw [List.length_map, List.length_range, AList.keys, List.keys, List.length_map] at hle
  exact hle

-- The names that the listing has.
def Listed (tree : Tree) (name : String) : Prop :=
  ∃ front, Unmarked front ∧ Marked tree (front ++ ["manifests"]) ∧
    relativeName (front ++ ["manifests"]) = name ∧ name ≠ ""

theorem run_listRepos (hroot : tree.node ["manifests"] = some .dir) : ∃ listing,
    (listRepos (tree.nodes.entries.length + 1)).run Tree.handle tree = (.ok listing, tree) ∧
      ∀ name, name ∈ listing ↔ Listed tree name := by
  obtain ⟨found, hrun, hfound⟩ := run_walkRepos (tree.nodes.entries.length + 1) hroot []
  have hrun' : (Fallible.mapError fromIo (walkRepos (tree.nodes.entries.length + 1) ["manifests"]
      [])).run Tree.handle tree = (.ok found, tree) := by
    rw [Fallible.run_mapError, hrun]
    rfl
  refine ⟨BTreeSet.empty.extend found, ?_, fun name => ?_⟩
  · rw [listRepos, Fallible.run_bind_of_ok hrun']
    rfl
  · rw [BTreeSet.mem_extend, hfound]
    constructor
    · rintro ((hnil | ⟨front, -, hfront⟩) | hempty)
      · cases hnil
      · exact ⟨front, hfront⟩
      · exact absurd hempty (BTreeSet.not_mem_empty name)
    · rintro ⟨front, hfree, hmarked, hname⟩
      refine .inl (.inr ⟨front, ?_, hfree, hmarked, hname⟩)
      have hdir := dir_of_marked hmarked _ (List.suffix_refl _)
      have hlen := length_le_entries hdir
      simp only [List.length_append, List.length_singleton] at hlen
      omega

end Walk

end RspaceRegistry.Disk
