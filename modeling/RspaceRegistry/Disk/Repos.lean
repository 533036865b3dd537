import RspaceRegistry.Disk.Addressed
import RspaceRegistry.Disk.Maps
import RspaceRegistry.Disk.Walk

namespace RspaceRegistry.Disk

open Calls Files Ordered

-- Which repositories are listed after pushes and deletes of manifests.

-- A reference as requests bring it: a tag is the last segment of a path.
structure Segment where
  reference : Reference
  single : ∀ tag, reference = .tag tag → tag ≠ "" ∧ '/' ∉ tag.toList

inductive ManifestOp
  | put (repo : Repo) (target : Segment) (content : Bytes)
  | delete (repo : Repo) (target : Segment)

def ManifestOp.op : ManifestOp → StorageOp
  | .put repo target content => .manifestPut repo.name target.reference content
  | .delete repo target => .manifestDelete repo.name target.reference

def HoldsManifest (tree : Tree) (repo : Repo) : Prop :=
  ∃ d, (tree.fileAt (manifestDigestPath repo.name d)).isSome

-- A file stands where the path leads through or to.
def InTheWay (tree : Tree) (path : Path) : Prop :=
  ∃ above inode, above <:+ path ∧ tree.node above = some (.file inode)

-- Below `manifests` lie the directories of such repositories only.
def DirsOf (allowed : Repo → Prop) (tree : Tree) : Prop :=
  ∀ path, tree.node path = some .dir → ["manifests"] <:+ path → path = ["manifests"] ∨
    ∃ repo, allowed repo ∧
      (path <:+ "tags" :: repoPath repo.name ∨ path <:+ "digests" :: repoPath repo.name)

section Names

variable {allowed : Repo → Prop} {tree : Tree} {path : Path}

theorem Repo.name_chars (repo : Repo) {name : String} (h : name ∈ repoPath repo.name) :
    ∀ c ∈ name.toList, isNameChar c = true := by
  rcases List.mem_append.mp h with hpart | hlast
  · exact validateComponent_chars ((validateRepoName_ok repo.valid).2 _ (List.mem_reverse.mp hpart))
  · rw [List.mem_singleton.mp hlast]
    exact List.all_eq_true.mp (by decide)

theorem DirsOf.chars (h : DirsOf allowed tree) (hdir : tree.node path = some .dir)
    (hpath : ["manifests"] <:+ path) {name : String} (hname : name ∈ path) :
    ∀ c ∈ name.toList, isNameChar c = true := by
  have hkind : ∀ (repo : Repo) (kind : String), (∀ c ∈ kind.toList, isNameChar c = true) →
      path <:+ kind :: repoPath repo.name → ∀ c ∈ name.toList, isNameChar c = true := by
    intro repo kind hkind hsuffix
    rcases List.mem_cons.mp (hsuffix.subset hname) with rfl | hrest
    · exact hkind
    · exact repo.name_chars hrest
  rcases h path hdir hpath with rfl | ⟨repo, -, hsuffix | hsuffix⟩
  · rw [List.mem_singleton.mp hname]
    exact List.all_eq_true.mp (by decide)
  · exact hkind repo "tags" (List.all_eq_true.mp (by decide)) hsuffix
  · exact hkind repo "digests" (List.all_eq_true.mp (by decide)) hsuffix

-- Names of directories have no colon, those of manifests have one.
theorem DirsOf.digest_not_dir (h : DirsOf allowed tree) (repo : String) (d : Digest) :
    tree.node (manifestDigestPath repo d) ≠ some .dir ∧
      tree.node (tmpPath (manifestDigestPath repo d)) ≠ some .dir := by
  constructor
  · intro hdir
    have hchars := h.chars hdir (below_manifests [_, _] repo) List.mem_cons_self ':'
    rw [Digest.toString, String.toList_append, String.toList_append] at hchars
    exact absurd (hchars (by simp)) (by decide)
  · intro hdir
    have hchars := h.chars hdir (below_manifests [_, _] repo) List.mem_cons_self ':'
    have htmp : fileStem d.toString ++ "." ++ "tmp" = d.toString ++ ".tmp" := tmpName_digest d
    rw [htmp, String.toList_append, Digest.toString, String.toList_append,
      String.toList_append] at hchars
    exact absurd (hchars (by simp)) (by decide)

theorem DirsOf.mono {allowed' : Repo → Prop} {tree' : Tree} (h : DirsOf allowed tree)
    (hallowed : ∀ repo, allowed repo → allowed' repo)
    (hdirs : ∀ path, tree'.node path = some .dir → tree.node path = some .dir ∨
      ∃ repo, allowed' repo ∧
        (path <:+ "tags" :: repoPath repo.name ∨ path <:+ "digests" :: repoPath repo.name)) :
    DirsOf allowed' tree' := by
  intro path hdir hpath
  rcases hdirs path hdir with hold | hnew
  · exact (h path hold hpath).imp_right fun ⟨repo, hrepo, hsuffix⟩ =>
      ⟨repo, hallowed repo hrepo, hsuffix⟩
  · exact .inr hnew

end Names

section Listing

variable {tree : Tree}

theorem suffix_of_append {front other back : List String} (h : front ++ back <:+ other ++ back) :
    front <:+ other := by
  obtain ⟨rest, hrest⟩ := h
  rw [← List.append_assoc] at hrest
  exact ⟨rest, List.append_cancel_right hrest⟩

-- The names of the directories have no slashes of either kind.
theorem relativeName_eq {front : List String} (h : ∀ part ∈ front, '\\' ∉ part.toList) :
    relativeName (front ++ ["manifests"]) = "/".intercalate front.reverse := by
  have hsame : ∀ c ∈ ("/".intercalate front.reverse).toList, (if c = '\\' then '/' else c) = c := by
    intro c hc
    apply if_neg
    rintro rfl
    rcases mem_intercalate hc with hslash | ⟨part, hpart, hmem⟩
    · exact absurd hslash (by decide)
    · exact h part (List.mem_reverse.mp hpart) hmem
  rw [relativeName, List.dropLast_concat, List.map_congr_left hsame, List.map_id', String.ofList_toList]

theorem relativeName_repo (repo : Repo) : relativeName (repoPath repo.name) = repo.name := by
  have hchars : ∀ part ∈ (components repo.name).reverse, '\\' ∉ part.toList := by
    intro part hpart hmem
    have hvalid := repo.name_chars (List.mem_append_left _ hpart)
    exact absurd (hvalid _ hmem) (by decide)
  rw [repoPath, relativeName_eq hchars, List.reverse_reverse, intercalate_components]

variable {allowed : Repo → Prop}

-- A listed name has the components that the walk went through.
theorem listed_components (h : DirsOf allowed tree) {name : String} (hlisted : Listed tree name) :
    Unmarked (components name) ∧ Marked tree (repoPath name) := by
  obtain ⟨front, hfree, hmarked, rfl, hne⟩ := hlisted
  have hdir := dir_of_marked hmarked _ (List.suffix_refl _)
  have hchars : ∀ part ∈ front, ∀ c ∈ part.toList, isNameChar c = true := fun part hpart =>
    h.chars hdir (List.suffix_append _ _) (List.mem_append_left _ hpart)
  have hno : ∀ c, isNameChar c = false → ∀ part ∈ front, c ∉ part.toList := by
    intro c hc part hpart hmem
    rw [hchars part hpart c hmem] at hc
    cases hc
  have hparts : front.reverse ≠ [] := by
    intro hnil
    rw [relativeName_eq (hno _ (by decide)), hnil] at hne
    exact hne rfl
  have hcomponents : components (relativeName (front ++ ["manifests"])) = front.reverse := by
    rw [relativeName_eq (hno _ (by decide))]
    exact components_intercalate hparts fun part hpart =>
      hno _ (by decide) part (List.mem_reverse.mp hpart)
  rw [repoPath, hcomponents, List.reverse_reverse]
  refine ⟨?_, hmarked⟩
  simpa only [Unmarked, List.mem_reverse] using hfree

theorem listed_of_marked (repo : Repo) (hfree : Unmarked (components repo.name))
    (hmarked : Marked tree (repoPath repo.name)) : Listed tree repo.name := by
  refine ⟨(components repo.name).reverse, ?_, hmarked, relativeName_repo repo, ?_⟩
  · simpa only [Unmarked, List.mem_reverse] using hfree
  · exact (validateRepoName_ok repo.valid).1

end Listing

-- The listing is in order, without duplicates, and has the repositories that hold a
-- manifest.
def ListsExactly [Sha2] (tree : Tree) : Prop :=
  ∃ listing, fsStorage .listRepos tree = (.ok listing, tree) ∧
    listing.toList.Pairwise (· < ·) ∧
    ∀ name, name ∈ listing.toList ↔ ∃ repo : Repo, repo.name = name ∧ HoldsManifest tree repo

-- What makes the listing exact: no name has the walk's own components, and no
-- directory is left behind empty.
structure Counted (tree : Tree) : Prop where
  root : tree.node ["manifests"] = some .dir
  dirs : DirsOf (fun repo => Unmarked (components repo.name) ∧ HoldsManifest tree repo) tree
  held : ∀ repo, HoldsManifest tree repo → Unmarked (components repo.name)

section Exact

variable [Sha2] {tree : Tree}

omit [Sha2] in
theorem marked_of_holds {repo : Repo} (h : HoldsManifest tree repo) :
    Marked tree (repoPath repo.name) := by
  obtain ⟨d, hsome⟩ := h
  obtain ⟨bytes, hfile⟩ := Option.isSome_iff_exists.mp hsome
  obtain ⟨inode, hnode, -⟩ := Tree.fileAt_eq_some.mp hfile
  exact .inr (Tree.dir_above hnode (List.suffix_cons _ _) (List.ne_cons_self))

theorem lists_of_listed (hroot : tree.node ["manifests"] = some .dir) : ListsExactly tree ↔
    ∀ name, Listed tree name ↔ ∃ repo : Repo, repo.name = name ∧ HoldsManifest tree repo := by
  obtain ⟨listing, hrun, hmem⟩ := run_listRepos hroot
  constructor
  · rintro ⟨listing', hrun', -, hmem'⟩ name
    have hsame : fsStorage .listRepos tree = (.ok listing, tree) := hrun
    rw [hsame] at hrun'
    obtain rfl := Except.ok.inj (Prod.mk.inj hrun').1
    rw [← hmem, ← hmem', BTreeSet.mem_toList]
  · intro h
    refine ⟨listing, hrun, listing.sorted, fun name => ?_⟩
    rw [BTreeSet.mem_toList, hmem, h]

omit [Sha2] in
-- A marked directory is that of a repository.
theorem DirsOf.repo_of_marked {allowed : Repo → Prop} (h : DirsOf allowed tree)
    (hallowed : ∀ repo, allowed repo → Unmarked (components repo.name)) {name : String}
    (hmarked : Marked tree (repoPath name)) : ∃ repo : Repo, allowed repo ∧ repo.name = name := by
  have hof : ∀ kind, (kind = "tags" ∨ kind = "digests") →
      tree.node (kind :: repoPath name) = some .dir →
        ∃ repo : Repo, allowed repo ∧ repo.name = name := by
    intro kind hkind hdir
    have hbelow : ["manifests"] <:+ kind :: repoPath name := List.suffix_append (kind :: _) _
    rcases h _ hdir hbelow with hroot | ⟨repo, hrepo, hsuffix⟩
    · have hlen := congrArg List.length hroot
      simp [repoPath] at hlen
    · refine ⟨repo, hrepo, ?_⟩
      have hof : ∀ kind', kind :: repoPath name <:+ kind' :: repoPath repo.name →
          repo.name = name := by
        intro kind' hsuffix
        rcases List.suffix_cons_iff.mp hsuffix with heq | hdeep
        · exact (repoPath_injective (List.cons.inj heq).2).symm
        · have hinside : kind :: (components name).reverse ++ ["manifests"] <:+
              (components repo.name).reverse ++ ["manifests"] := hdeep
          have hmem := (suffix_of_append hinside).subset List.mem_cons_self
          rw [List.mem_reverse] at hmem
          rcases hkind with rfl | rfl
          · exact absurd hmem (hallowed repo hrepo).1
          · exact absurd hmem (hallowed repo hrepo).2
      exact hsuffix.elim (hof _) (hof _)
  exact hmarked.elim (hof _ (.inl rfl)) (hof _ (.inr rfl))

theorem Counted.exact (h : Counted tree) : ListsExactly tree := by
  refine (lists_of_listed h.root).mpr fun name => ⟨fun hlisted => ?_, ?_⟩
  · obtain ⟨repo, ⟨-, hholds⟩, hname⟩ :=
      h.dirs.repo_of_marked (fun _ => And.left) (listed_components h.dirs hlisted).2
    exact ⟨repo, hname, hholds⟩
  · rintro ⟨repo, rfl, hholds⟩
    exact listed_of_marked repo (h.held repo hholds) (marked_of_holds hholds)

-- A repository that the walk does not get to.
theorem not_exact_of_missing {allowed : Repo → Prop} (hroot : tree.node ["manifests"] = some .dir)
    (hdirs : DirsOf allowed tree) {repo : Repo} (hholds : HoldsManifest tree repo)
    (hmarked : ¬Unmarked (components repo.name)) : ¬ListsExactly tree := by
  rw [lists_of_listed hroot]
  intro hexact
  exact hmarked (listed_components hdirs ((hexact repo.name).mpr ⟨repo, rfl, hholds⟩)).1

-- A directory that nothing is left in.
theorem not_exact_of_phantom (hroot : tree.node ["manifests"] = some .dir) {repo : Repo}
    (hfree : Unmarked (components repo.name)) (hmarked : Marked tree (repoPath repo.name))
    (hempty : ¬HoldsManifest tree repo) : ¬ListsExactly tree := by
  rw [lists_of_listed hroot]
  intro hexact
  obtain ⟨other, hname, hholds⟩ := (hexact repo.name).mp (listed_of_marked repo hfree hmarked)
  obtain ⟨name, valid⟩ := other
  subst hname
  exact hempty hholds

end Exact

section Steps

variable [Sha2] {tree : Tree} {repo : Repo} (reference : Reference) (content : Bytes)

-- What a push or a delete leaves.
def ManifestOp.after (op : ManifestOp) (tree : Tree) : Tree := (fsStorage op.op tree).2

theorem run_putManifest_blocked (h : InTheWay tree ("digests" :: repoPath repo.name)) : ∃ err,
    (putManifest repo.name content).run Tree.handle tree = (.error err, tree) := by
  obtain ⟨above, inode, habove, hfile⟩ := h
  obtain ⟨err, hwrite⟩ := Tree.replaceFile_in_the_way content habove hfile
  refine ⟨fromIo err, ?_⟩
  have hrun : (atomicWrite (manifestDigestPath repo.name (hashContent .sha256 content)) content).run
      Tree.handle tree = (.error err, tree) := hwrite
  rw [putManifest, Fallible.run_mapError, hrun]
  rfl

theorem put_blocked (h : InTheWay tree ("digests" :: repoPath repo.name)) : ∃ err,
    (StorageOp.body tree (.manifestPut repo.name reference content)).run Tree.handle tree =
      (.error err, tree) := by
  obtain ⟨err, hrun⟩ := run_putManifest_blocked content h
  exact ⟨err, by rw [body_manifestPut, Fallible.run_bind_of_error hrun]⟩

theorem run_putManifest {allowed : Repo → Prop} (hdirs : DirsOf allowed tree)
    (h : ¬InTheWay tree ("digests" :: repoPath repo.name)) : ∃ stored,
      (putManifest repo.name content).run Tree.handle tree = (.ok (), stored) ∧
        Replaced (tmpPath (manifestDigestPath repo.name (hashContent .sha256 content)))
          (manifestDigestPath repo.name (hashContent .sha256 content)) content tree stored := by
  have hfree : ¬tree.Blocked (manifestDigestPath repo.name (hashContent .sha256 content)) := by
    rw [manifestDigestPath, Tree.blocked_cons]
    exact h
  obtain ⟨hdigest, htmp⟩ := hdirs.digest_not_dir repo.name (hashContent .sha256 content)
  obtain ⟨stored, hrun, hreplaced⟩ := run_replaceFile content htmp hdigest hfree
  exact ⟨stored, Represents.run_fromIo_of_ok hrun, hreplaced⟩

structure Put (repo : Repo) (content : Bytes) (tree tree' : Tree) : Prop where
  stored : (tree'.fileAt (manifestDigestPath repo.name (hashContent .sha256 content))) = some content
  others : ∀ (other : Repo) d, manifestDigestPath other.name d ≠
    manifestDigestPath repo.name (hashContent .sha256 content) →
      tree'.fileAt (manifestDigestPath other.name d) = tree.fileAt (manifestDigestPath other.name d)
  dirs : ∀ path, tree'.node path = some .dir → tree.node path = some .dir ∨
    path <:+ "tags" :: repoPath repo.name ∨ path <:+ "digests" :: repoPath repo.name
  kept : ∀ path, tree.node path = some .dir → tree'.node path = some .dir

theorem put_stores {allowed : Repo → Prop} (hdirs : DirsOf allowed tree)
    (h : ¬InTheWay tree ("digests" :: repoPath repo.name)) :
    Put repo content tree
      ((StorageOp.body tree (.manifestPut repo.name reference content)).run Tree.handle tree).2 := by
  obtain ⟨stored, hstore, hreplaced⟩ := run_putManifest content hdirs h
  rw [body_manifestPut, Fallible.run_bind_of_ok hstore]
  generalize hafter : ((putReference repo.name reference (hashContent .sha256 content)).run
    Tree.handle stored).2 = after
  have hchanges : Changes (PutTouches repo.name reference) (· <:+ "tags" :: repoPath repo.name)
      stored after := by
    rw [← hafter]
    refine .of_frozen (frozen_reference _ (fun path h => not_not_intro h) fun path h => not_not_intro h)
  refine ⟨?_, fun other d hne => ?_, fun path hdir => ?_, fun path hdir => ?_⟩
  · rw [hchanges.others _ manifest_not_reference]
    exact hreplaced.content
  · rw [hchanges.others _ manifest_not_reference]
    exact hreplaced.others _ hne (manifest_not_tmp _ _)
  · rcases hchanges.dirs path hdir with hold | hnew
    · exact (hreplaced.dirs path hold).imp_right .inr
    · exact .inr (.inl hnew)
  · exact hchanges.kept path (hreplaced.kept path hdir)

variable {content}

theorem Counted.put (h : Counted tree) {tree' : Tree} (hput : Put repo content tree tree')
    (hfree : Unmarked (components repo.name)) : Counted tree' := by
  have hholds : HoldsManifest tree' repo := ⟨_, by rw [hput.stored]; rfl⟩
  have hkept : ∀ other, HoldsManifest tree other → HoldsManifest tree' other := by
    rintro other ⟨d, hsome⟩
    by_cases heq : manifestDigestPath other.name d =
        manifestDigestPath repo.name (hashContent .sha256 content)
    · exact ⟨d, by rw [heq, hput.stored]; rfl⟩
    · exact ⟨d, by rw [hput.others other d heq]; exact hsome⟩
  refine ⟨hput.kept _ h.root, ?_, ?_⟩
  · refine h.dirs.mono (fun other hother => ⟨hother.1, hkept other hother.2⟩) fun path hdir => ?_
    exact (hput.dirs path hdir).imp_right fun hnew => ⟨repo, ⟨hfree, hholds⟩, hnew⟩
  · rintro other ⟨d, hsome⟩
    by_cases heq : manifestDigestPath other.name d =
        manifestDigestPath repo.name (hashContent .sha256 content)
    · have hname : components other.name = components repo.name := by
        rw [(digestPath_inj.mp heq).1]
      rw [hname]
      exact hfree
    · rw [hput.others other d heq] at hsome
      exact h.held other ⟨d, hsome⟩

omit [Sha2] in
theorem remove_dirs (path : Path) {other : Path} :
    (tree.remove path).2.node other = some .dir ↔ tree.node other = some .dir := by
  rcases tree.remove_cases path with hsame | ⟨inode, hfile, hremove⟩
  · rw [hsame]
  · rw [hremove]
    exact Tree.removeName_dir hfile

-- A file goes that is not the last manifest of a repository.
omit [Sha2] in
theorem Counted.remove (h : Counted tree) {path : Path}
    (hleft : ∀ other, HoldsManifest tree other → HoldsManifest (tree.remove path).2 other) :
    Counted (tree.remove path).2 := by
  have hholds : ∀ other, HoldsManifest (tree.remove path).2 other → HoldsManifest tree other := by
    rintro other ⟨d, hsome⟩
    rcases remove_content tree path (manifestDigestPath other.name d) with hsame | hgone
    · exact ⟨d, hsame ▸ hsome⟩
    · rw [hgone] at hsome
      cases hsome
  refine ⟨(remove_dirs path).mpr h.root, ?_, fun other hother => h.held other (hholds other hother)⟩
  exact h.dirs.mono (fun other hother => ⟨hother.1, hleft other hother.2⟩) fun other hdir =>
    .inl ((remove_dirs path).mp hdir)

-- When the listing stays exact.
def KeepsListing (tree : Tree) : ManifestOp → Prop
  | .put repo _ _ => Unmarked (components repo.name) ∨ InTheWay tree ("digests" :: repoPath repo.name)
  | .delete repo target =>
      match target.reference with
      | .tag _ => True
      | .digest d => (tree.fileAt (manifestDigestPath repo.name d)).isSome →
          ∃ other, other ≠ d ∧ (tree.fileAt (manifestDigestPath repo.name other)).isSome

theorem Counted.step (h : Counted tree) (op : ManifestOp) (hop : KeepsListing tree op) :
    Counted (op.after tree) := by
  cases op with
  | put repo target content =>
      by_cases hway : InTheWay tree ("digests" :: repoPath repo.name)
      · obtain ⟨err, hrun⟩ := put_blocked target.reference content hway
        have hsame : (ManifestOp.put repo target content).after tree = tree :=
          congrArg Prod.snd hrun
        rw [hsame]
        exact h
      · exact h.put (put_stores target.reference content h.dirs hway) (hop.resolve_right hway)
  | delete repo target =>
      obtain ⟨reference, hsingle⟩ := target
      rcases delete_content tree repo.name reference with hsame | ⟨path, htouch, hremoved⟩
      · have hafter : (ManifestOp.delete repo ⟨reference, hsingle⟩).after tree = tree := hsame
        rw [hafter]
        exact h
      · have hafter : (ManifestOp.delete repo ⟨reference, hsingle⟩).after tree =
            (tree.remove path).2 := hremoved
        rw [hafter]
        refine h.remove fun other ⟨d, hsome⟩ => ?_
        by_cases heq : manifestDigestPath other.name d = path
        · cases reference with
          | tag tag => exact absurd (htouch.symm.trans heq.symm) (tagPath_ne_digestPath _ _ _ _)
          | digest d' =>
              obtain ⟨hname, rfl⟩ := digestPath_inj.mp (heq.trans htouch)
              rw [hname] at hsome
              obtain ⟨rest, hne, hrest⟩ := hop hsome
              have hpath : manifestDigestPath other.name rest ≠ path := by
                rw [← heq, Ne, digestPath_inj]
                exact fun hboth => hne hboth.2
              exact ⟨rest, by rw [(Tree.remove_frame hpath).fileAt, hname]; exact hrest⟩
        · exact ⟨d, by rw [(Tree.remove_frame heq).fileAt]; exact hsome⟩

-- Where it does not, the listing is wrong from there on.
theorem Counted.not_exact (h : Counted tree) (op : ManifestOp) (hop : ¬KeepsListing tree op) :
    ¬ListsExactly (op.after tree) := by
  cases op with
  | put repo target content =>
      obtain ⟨hmarked, hway⟩ := not_or.mp hop
      have hput : Put repo content tree ((ManifestOp.put repo target content).after tree) :=
        put_stores target.reference content h.dirs hway
      have hdirs : DirsOf (fun _ => True) ((ManifestOp.put repo target content).after tree) :=
        h.dirs.mono (fun _ _ => trivial) fun path hdir =>
          (hput.dirs path hdir).imp_right fun hnew => ⟨repo, trivial, hnew⟩
      have hholds : HoldsManifest ((ManifestOp.put repo target content).after tree) repo :=
        ⟨_, by rw [hput.stored]; rfl⟩
      exact not_exact_of_missing (hput.kept _ h.root) hdirs hholds hmarked
  | delete repo target =>
      obtain ⟨reference, hsingle⟩ := target
      cases reference with
      | tag tag => exact absurd trivial hop
      | digest d =>
          obtain ⟨hsome, hlast⟩ := Classical.not_imp.mp hop
          obtain ⟨bytes, hfile⟩ := Option.isSome_iff_exists.mp hsome
          obtain ⟨inode, hnode, -⟩ := Tree.fileAt_eq_some.mp hfile
          have hafter : (ManifestOp.delete repo ⟨.digest d, hsingle⟩).after tree =
              (tree.remove (manifestDigestPath repo.name d)).2 := rfl
          have hholds : HoldsManifest tree repo := ⟨d, hsome⟩
          rw [hafter]
          refine not_exact_of_phantom ((remove_dirs _).mpr h.root) (h.held repo hholds)
            ((marked_of_holds hholds).imp (remove_dirs _).mpr (remove_dirs _).mpr) ?_
          rintro ⟨other, hother⟩
          by_cases heq : other = d
          · rw [heq, Tree.remove_file hnode, Tree.fileAt_of_none] at hother
            · cases hother
            · rw [Tree.removeName_node hnode, if_pos rfl]
          · have hpath : manifestDigestPath repo.name other ≠ manifestDigestPath repo.name d := by
              rw [Ne, digestPath_inj]
              exact fun hboth => heq hboth.2
            rw [(Tree.remove_frame hpath).fileAt] at hother
            exact hlast ⟨other, heq, hother⟩

end Steps

section Runs

variable [Sha2]

-- The listing is exact before the run and after each of its steps.
def ExactThroughout : List ManifestOp → Tree → Prop
  | [], tree => ListsExactly tree
  | op :: rest, tree => ListsExactly tree ∧ ExactThroughout rest (op.after tree)

def KeepingThroughout : List ManifestOp → Tree → Prop
  | [], _ => True
  | op :: rest, tree => KeepsListing tree op ∧ KeepingThroughout rest (op.after tree)

theorem Counted.throughout {tree : Tree} (h : Counted tree) (ops : List ManifestOp) :
    ExactThroughout ops tree ↔ KeepingThroughout ops tree := by
  induction ops generalizing tree with
  | nil => exact ⟨fun _ => trivial, fun _ => h.exact⟩
  | cons op rest ih =>
      by_cases hop : KeepsListing tree op
      · have hrest := ih (h.step op hop)
        exact ⟨fun hall => ⟨hop, hrest.mp hall.2⟩, fun hall => ⟨h.exact, hrest.mpr hall.2⟩⟩
      · refine ⟨fun hall => absurd ?_ (h.not_exact op hop), fun hall => absurd hall.1 hop⟩
        cases rest with
        | nil => exact hall.2
        | cons next rest => exact hall.2.1

end Runs

theorem counted_new : Counted new := by
  have hempty : ∀ repo, ¬HoldsManifest new repo := by
    rintro repo ⟨d, hsome⟩
    rw [no_file_new] at hsome
    cases hsome
  refine ⟨by decide, fun path hdir hpath => ?_, fun repo hholds => absurd hholds (hempty repo)⟩
  have hmem := node_new hdir
  simp only [List.mem_cons, List.not_mem_nil, or_false] at hmem
  rcases hmem with rfl | rfl | rfl | rfl
  · exact absurd hpath (by decide)
  · exact .inl rfl
  · exact absurd hpath (by decide)
  · exact absurd hpath (by decide)

-- The listing stays exact through a run just as long as every step of it keeps it so.
theorem listing_exact_iff [Sha2] (ops : List ManifestOp) :
    ExactThroughout ops new ↔ KeepingThroughout ops new := counted_new.throughout ops

section

attribute [local instance] Sample.sha2

def bracesTarget : Segment := ⟨.digest (sha256Digest Sample.braces), nofun⟩

-- A repository below another's tags.
def belowTags : List ManifestOp := [.put repoATags bracesTarget Sample.braces]

-- A repository that is emptied again.
def emptied : List ManifestOp :=
  [.put repoA bracesTarget Sample.braces, .delete repoA bracesTarget]

theorem nothing_in_the_way (path : Path) : ¬InTheWay new path := by
  rintro ⟨above, inode, -, hfile⟩
  have hnone := no_file_new above
  rw [Tree.fileAt_of_file hfile] at hnone
  cases hnone

theorem listing_inexact :
    ¬(∀ ops, ExactThroughout ops new) ∧ ∀ ops ∈ [belowTags, emptied], ¬ExactThroughout ops new := by
  have hbelow : ¬ExactThroughout belowTags new := by
    rw [counted_new.throughout]
    rintro ⟨hfree | hway, -⟩
    · exact absurd hfree.1 (by decide)
    · exact nothing_in_the_way _ hway
  have hemptied : ¬ExactThroughout emptied new := by
    rw [counted_new.throughout]
    rintro ⟨-, hdelete, -⟩
    have hput : Put repoA Sample.braces new
        ((ManifestOp.put repoA bracesTarget Sample.braces).after new) :=
      put_stores bracesTarget.reference Sample.braces counted_new.dirs (nothing_in_the_way _)
    obtain ⟨other, hne, hsome⟩ := hdelete (by rw [show sha256Digest Sample.braces =
      hashContent .sha256 Sample.braces from rfl, hput.stored]; rfl)
    rw [hput.others repoA other, no_file_new] at hsome
    · cases hsome
    · rw [Ne, digestPath_inj]
      exact fun hboth => hne hboth.2
  refine ⟨fun hall => hbelow (hall _), ?_⟩
  simp only [List.mem_cons, List.not_mem_nil, or_false]
  rintro ops (rfl | rfl)
  · exact hbelow
  · exact hemptied

end

end RspaceRegistry.Disk
