import RspaceRegistry.Disk.Pushes
import RspaceRegistry.Disk.Rejected

namespace RspaceRegistry.Disk

open Calls Files Ordered

-- What can be read of the manifests, the tags and the listings.

inductive Question
  | manifest (repo : Repo) (target : Segment)
  | repos
  | tags (repo : Repo)
  | digests (repo : Repo)

def Question.op : Question → StorageOp
  | .manifest repo target => .manifestGet repo.name target.reference
  | .repos => .listRepos
  | .tags repo => .listTags repo.name
  | .digests repo => .listManifestDigests repo.name

section Answers

variable [Sha2]

def StorageOp.answer (op : StorageOp) (tree : Tree) : Option op.Value :=
  (fsStorage op tree).1.toOption

def SameContents (tree tree' : Tree) : Prop :=
  ∀ question : Question, question.op.answer tree' = question.op.answer tree

theorem ok_of_answer {tree : Tree} {op : StorageOp} {value : op.Value}
    (h : op.answer tree = some value) :
    (fsStorage op tree).1 = .ok value := by
  rw [StorageOp.answer] at h
  cases hresult : (fsStorage op tree).1 with
  | error err =>
      rw [hresult] at h
      cases h
  | ok found =>
      rw [hresult] at h
      rw [Option.some.inj h]

variable (tree : Tree) (repo : String)

theorem answer_digest (d : Digest) :
    (StorageOp.manifestGet repo (.digest d)).answer tree =
      tree.fileAt (manifestDigestPath repo d) := by
  rw [StorageOp.answer, ← fsStorageOn_none]
  have hread : (fsStorageOn none (.manifestGet repo (.digest d)) tree).1 =
      (tree.read (manifestDigestPath repo d)).mapError ioToStorage := read_manifest repo d none
  rw [hread]
  cases hfile : tree.read (manifestDigestPath repo d) with
  | ok bytes =>
      rw [Tree.read_ok.mp hfile]
      rfl
  | error err =>
      cases hat : tree.fileAt (manifestDigestPath repo d) with
      | none => rfl
      | some bytes =>
          rw [Tree.read_ok.mpr hat] at hfile
          cases hfile

theorem answer_tag {tag : String} (hdots : tag ≠ "." ∧ tag ≠ "..") :
    (StorageOp.manifestGet repo (.tag tag)).answer tree =
      (tagTarget repo tag tree).bind fun d => tree.fileAt (manifestDigestPath repo d) := by
  rw [← resolve_toOption, StorageOp.answer, fsStorage, StorageOp.body, if_neg]
  · rfl
  · simpa using hdots

theorem answer_dots {tag : String} (hdots : tag = "." ∨ tag = "..") :
    (StorageOp.manifestGet repo (.tag tag)).answer tree = none := by
  have hbody : StorageOp.body tree (.manifestGet repo (.tag tag)) = atDots repo := by
    simp only [StorageOp.body, Reference.tag.injEq, hdots, if_true]
  rw [StorageOp.answer, fsStorage, hbody, atDots, Fallible.run_bind, Fallible.run_mapError,
    FileM.run_call, Tree.handle]
  cases tree.metadata ("tags" :: repoPath repo) <;> rfl

omit [Sha2] in
theorem inTheWay_iff {dir : Path} :
    InTheWay tree dir ↔ (tree.fileAt dir).isSome ∨ tree.Blocked dir := by
  constructor
  · rintro ⟨above, inode, habove, hfile⟩
    by_cases heq : above = dir
    · rw [← heq, Tree.fileAt_of_file hfile]
      exact .inl rfl
    · exact .inr ⟨above, inode, habove, heq, hfile⟩
  · rintro (hsome | ⟨above, inode, habove, -, hfile⟩)
    · obtain ⟨bytes, hbytes⟩ := Option.isSome_iff_exists.mp hsome
      obtain ⟨inode, hnode, -⟩ := Tree.fileAt_eq_some.mp hbytes
      exact ⟨dir, inode, List.suffix_refl _, hnode⟩
    · exact ⟨above, inode, habove, hfile⟩

omit [Sha2] in
theorem readDir_blocked {dir : Path} (h : InTheWay tree dir) :
    tree.readDir dir = .error .notADirectory := by
  rw [Tree.readDir_error, if_pos ((inTheWay_iff tree).mp h)]
  intro hdir
  obtain ⟨above, inode, habove, hfile⟩ := h
  by_cases heq : above = dir
  · rw [heq, hdir] at hfile
    cases hfile
  · rw [Tree.dir_above hdir habove heq] at hfile
    cases hfile

omit [Sha2] in
-- A directory that is not there has no files.
theorem readDir_free {dir : Path} (h : ¬InTheWay tree dir) : ∃ entries,
    (tree.readDir dir = .ok entries ∨ tree.readDir dir = .error .notFound ∧ entries = []) ∧
      ∀ name, (∃ inode, (name, Node.file inode) ∈ entries) ↔
        (tree.fileAt (name :: dir)).isSome := by
  by_cases hdir : tree.node dir = some .dir
  · obtain ⟨entries, hread, hmem⟩ := Tree.mem_readDir hdir
    refine ⟨entries, .inl hread, fun name => ?_⟩
    simp only [hmem, Option.isSome_iff_exists, Tree.fileAt_eq_some]
    grind
  · refine ⟨[], .inr ⟨?_, rfl⟩, fun name => ?_⟩
    · rw [Tree.readDir_error hdir, if_neg (mt (inTheWay_iff tree).mpr h)]
    · constructor
      · rintro ⟨inode, hmem⟩
        cases hmem
      · intro hsome
        obtain ⟨bytes, hbytes⟩ := Option.isSome_iff_exists.mp hsome
        obtain ⟨inode, hnode, -⟩ := Tree.fileAt_eq_some.mp hbytes
        exact absurd (Tree.dir_above hnode (List.suffix_cons _ _) List.ne_cons_self) hdir

omit [Sha2] in
theorem mem_tagsOf {entries : List (String × Node)} {tag : String} :
    tag ∈ tagsOf entries ↔ isTmp tag = false ∧ ∃ inode, (tag, Node.file inode) ∈ entries := by
  simp only [tagsOf, BTreeSet.mem_extend, BTreeSet.not_mem_empty, or_false, List.mem_filterMap]
  constructor
  · rintro ⟨⟨name, node⟩, hmem, hsome⟩
    cases node with
    | dir => cases hsome
    | file inode =>
        simp only at hsome
        split at hsome
        · cases hsome
        · rename_i htmp
          obtain rfl := Option.some.inj hsome
          exact ⟨by simpa using htmp, inode, hmem⟩
  · rintro ⟨htmp, inode, hmem⟩
    refine ⟨_, hmem, ?_⟩
    simp [htmp]

variable {tree repo}

theorem answer_tags_blocked (h : InTheWay tree ("tags" :: repoPath repo)) :
    (StorageOp.listTags repo).answer tree = none := by
  show ((listTags repo).run Tree.handle tree).1.toOption = none
  rw [listTags, Fallible.run_bind, Fallible.run_mapError, Fallible.run_attempt, FileM.run_call,
    Tree.handle, readDir_blocked tree h]
  rfl

theorem answer_tags (h : ¬InTheWay tree ("tags" :: repoPath repo)) : ∃ listing,
    (StorageOp.listTags repo).answer tree = some listing ∧ ∀ tag, tag ∈ listing ↔
      isTmp tag = false ∧ (tree.fileAt (manifestTagPath repo tag)).isSome := by
  obtain ⟨entries, hread, hmem⟩ := readDir_free tree h
  refine ⟨tagsOf entries, ?_, fun tag => by rw [mem_tagsOf, hmem, manifestTagPath]⟩
  show ((listTags repo).run Tree.handle tree).1.toOption = _
  rw [listTags, Fallible.run_bind, Fallible.run_mapError, Fallible.run_attempt, FileM.run_call,
    Tree.handle]
  rcases hread with hok | ⟨herror, rfl⟩
  · rw [hok]
    rfl
  · rw [herror]
    rfl

theorem answer_digests_blocked (h : InTheWay tree ("digests" :: repoPath repo)) :
    (StorageOp.listManifestDigests repo).answer tree = none := by
  show ((listManifestDigests repo).run Tree.handle tree).1.toOption = none
  rw [listManifestDigests, Fallible.run_bind, Fallible.run_mapError, Fallible.run_attempt,
    FileM.run_call, Tree.handle, readDir_blocked tree h]
  rfl

theorem answer_digests (h : ¬InTheWay tree ("digests" :: repoPath repo)) : ∃ listing,
    (StorageOp.listManifestDigests repo).answer tree = some listing ∧ ∀ d, d ∈ listing ↔
      (tree.fileAt (manifestDigestPath repo d)).isSome := by
  obtain ⟨entries, hread, hmem⟩ := readDir_free tree h
  refine ⟨digestsOf entries, ?_, fun d => by rw [mem_digestsOf, hmem, manifestDigestPath]⟩
  show ((listManifestDigests repo).run Tree.handle tree).1.toOption = _
  rw [listManifestDigests, Fallible.run_bind, Fallible.run_mapError, Fallible.run_attempt,
    FileM.run_call, Tree.handle]
  rcases hread with hok | ⟨herror, rfl⟩
  · rw [hok]
    rfl
  · rw [herror]
    rfl

theorem answer_repos (h : tree.node ["manifests"] = some .dir) : ∃ listing,
    StorageOp.listRepos.answer tree = some listing ∧ ∀ name, name ∈ listing ↔ Listed tree name := by
  obtain ⟨listing, hrun, hmem⟩ := run_listRepos h
  refine ⟨listing, ?_, hmem⟩
  show ((listRepos (tree.nodes.entries.length + 1)).run Tree.handle tree).1.toOption = _
  rw [hrun]
  rfl

end Answers

-- Nothing can be read of the file that a failing push leaves at this path: it is not
-- the file of a tag that then leads elsewhere, and not in the way of a repository.
structure Unseen [Sha2] (tree : Tree) (d : Digest) (path : Path) : Prop where
  tags : ∀ (other : Repo) (tag : String), path = manifestTagPath other.name tag →
    (StorageOp.manifestGet other.name (.tag tag)).answer tree =
      tree.fileAt (manifestDigestPath other.name d)
  ways : (tree.fileAt path).isSome ∨ ∀ other : Repo, ¬path <:+ repoPath other.name

section Paths

variable {tree : Tree} {repo : Repo} {reference : Reference} {path : Path}

theorem inTheWay_iff_fileAt {dir : Path} :
    InTheWay tree dir ↔ ∃ above, above <:+ dir ∧ (tree.fileAt above).isSome := by
  constructor
  · rintro ⟨above, inode, habove, hfile⟩
    exact ⟨above, habove, by rw [Tree.fileAt_of_file hfile]; rfl⟩
  · rintro ⟨above, habove, hsome⟩
    obtain ⟨bytes, hbytes⟩ := Option.isSome_iff_exists.mp hsome
    obtain ⟨inode, hnode, -⟩ := Tree.fileAt_eq_some.mp hbytes
    exact ⟨above, inode, habove, hnode⟩

theorem leaves_tmp (h : Leaves tree repo.name reference path) :
    ∃ name parent, path = tmpName name :: parent ∧ tree.node path ≠ some .dir ∧
      (name = "tags" ∧ parent = repoPath repo.name ∨
        reference = .tag name ∧ parent = "tags" :: repoPath repo.name) := by
  cases reference with
  | digest d => exact h.elim
  | tag tag =>
      by_cases hdot : tag = "."
      · simp only [Leaves, hdot, if_true] at h
        exact ⟨"tags", repoPath repo.name, h.1, h.2, .inl ⟨rfl, rfl⟩⟩
      · by_cases hdots : tag = ".."
        · simp [Leaves, hdots] at h
        · simp only [Leaves, hdot, hdots, if_false] at h
          exact ⟨tag, _, h.1, h.2.2, .inr ⟨rfl, rfl⟩⟩

theorem not_leaves {name : String} {parent : Path} (hname : isTmp name = false) :
    ¬Leaves tree repo.name reference (name :: parent) := by
  intro h
  obtain ⟨other, above, heq, -⟩ := leaves_tmp h
  exact tmpName_ne hname (List.cons.inj heq).1.symm

theorem tag_not_digestTmp (other tag : String) {d : Digest} :
    manifestTagPath other tag ≠ tmpPath (manifestDigestPath repo.name d) := by
  intro heq
  exact absurd (List.cons.inj (List.cons.inj heq).2).1 (by decide)

theorem digestTmp_not_above (d : Digest) (other : Repo) {kind : String}
    (hkind : ':' ∉ kind.toList) :
    ¬tmpPath (manifestDigestPath repo.name d) <:+ kind :: repoPath other.name := by
  intro h
  have hcolon := other.no_colon_above hkind h (tmpName d.toString) List.mem_cons_self
  rw [tmpName_digest, String.toList_append, Digest.toString, String.toList_append,
    String.toList_append] at hcolon
  exact hcolon (by simp)

theorem leaves_free (hrepo : tree.node (repoPath repo.name) = some .dir)
    (h : Leaves tree repo.name reference path) : ¬tree.Blocked path := by
  cases reference with
  | digest d => exact h.elim
  | tag tag =>
      by_cases hdot : tag = "."
      · simp only [Leaves, hdot, if_true] at h
        rw [h.1, Tree.blocked_cons]
        rintro ⟨above, inode, habove, hfile⟩
        by_cases heq : above = repoPath repo.name
        · rw [heq, hrepo] at hfile
          cases hfile
        · rw [Tree.dir_above hrepo habove heq] at hfile
          cases hfile
      · by_cases hdots : tag = ".."
        · simp [Leaves, hdots] at h
        · simp only [Leaves, hdot, hdots, if_false] at h
          rw [h.1, manifestTagPath, tmpPath_cons, Tree.blocked_cons]
          exact h.2.1

-- The names of temporary files are segments, as the names of their files are.
theorem mem_tmpName {name : String} {c : Char} (h : c ∈ (tmpName name).toList) :
    c ∈ name.toList ∨ c ∈ ".tmp".toList := by
  rw [tmpName, String.toList_append, String.toList_append, List.append_assoc] at h
  rcases List.mem_append.mp h with hstem | htmp
  · refine .inl ?_
    unfold fileStem at hstem
    have hsplit := List.span_eq_takeWhile_dropWhile (p := (· ≠ '.')) (l := name.toList.reverse)
    split at hstem
    · exact hstem
    · exact hstem
    · rename_i front dot before hspan
      rw [String.toList_ofList, List.mem_reverse] at hstem
      rw [hspan] at hsplit
      have hdrop : c ∈ name.toList.reverse.dropWhile (· ≠ '.') := by
        rw [← (Prod.mk.inj hsplit).2]
        exact List.mem_cons_of_mem _ hstem
      exact List.mem_reverse.mp ((List.dropWhile_suffix _).subset hdrop)
  · exact .inr htmp

end Paths

namespace NotTaken

variable [Sha2] {tree tree' : Tree} {repo : Repo} {reference : Reference} {content : Bytes}
variable (h : NotTaken tree repo reference content tree')
variable (hheld : tree.fileAt (manifestDigestPath repo.name (hashContent .sha256 content)) =
  some content)

include h hheld

theorem fileAt_same {path : Path} (hleaves : ¬Leaves tree repo.name reference path)
    (htmp : path ≠ tmpPath (manifestDigestPath repo.name (hashContent .sha256 content))) :
    tree'.fileAt path = tree.fileAt path := by
  by_cases heq : path = manifestDigestPath repo.name (hashContent .sha256 content)
  · rw [heq, h.stored, hheld]
  · exact h.others path hleaves heq htmp

theorem digest_same (other : String) (d : Digest) :
    tree'.fileAt (manifestDigestPath other d) = tree.fileAt (manifestDigestPath other d) :=
  h.fileAt_same hheld (not_leaves (isTmp_digest d)) (manifest_not_tmp _ _)

-- The directory for the tags is new at most.
theorem dir_same {path : Path} (hpath : path ≠ "tags" :: repoPath repo.name) :
    tree'.node path = some .dir ↔ tree.node path = some .dir := by
  refine ⟨fun hdir => ?_, h.kept path⟩
  obtain ⟨inode, hnode, -⟩ := Tree.fileAt_eq_some.mp hheld
  have habove : ∀ above, above <:+ "digests" :: repoPath repo.name → tree.node above = some .dir := by
    intro above hsuffix
    refine Tree.dir_above hnode (hsuffix.trans (List.suffix_cons _ _)) fun heq => ?_
    have hlen := hsuffix.length_le
    rw [heq, manifestDigestPath] at hlen
    simp only [List.length_cons] at hlen
    omega
  rcases h.dirs path hdir with hold | htags | hdigests
  · exact hold
  · have hrest := (List.suffix_cons_iff.mp htags).resolve_left hpath
    exact habove path (hrest.trans (List.suffix_cons _ _))
  · exact habove path hdigests

theorem marked_same (dir : Path) : Marked tree' dir ↔ Marked tree dir := by
  have hdigests : tree'.node ("digests" :: dir) = some .dir ↔ tree.node ("digests" :: dir) = some .dir := by
    apply h.dir_same hheld
    intro heq
    exact absurd (List.cons.inj heq).1 (by decide)
  unfold Marked
  rw [hdigests]
  by_cases heq : dir = repoPath repo.name
  · obtain ⟨inode, hnode, -⟩ := Tree.fileAt_eq_some.mp hheld
    have hdir : tree.node ("digests" :: dir) = some .dir := by
      rw [heq]
      exact Tree.dir_above hnode (List.suffix_cons _ _) List.ne_cons_self
    simp only [hdir, or_true]
  · rw [h.dir_same hheld fun hsame => heq (List.cons.inj hsame).2]

variable (hunseen : ∀ path, Leaves tree repo.name reference path →
  Unseen tree (hashContent .sha256 content) path)

include hunseen

theorem inTheWay_same (other : Repo) {kind : String} (hkind : ':' ∉ kind.toList)
    (htmp : isTmp kind = false) :
    InTheWay tree' (kind :: repoPath other.name) ↔ InTheWay tree (kind :: repoPath other.name) := by
  rw [inTheWay_iff_fileAt, inTheWay_iff_fileAt]
  refine exists_congr fun above => and_congr_right fun habove => ?_
  by_cases hleaves : Leaves tree repo.name reference above
  · have hbelow : above <:+ repoPath other.name := by
      refine (List.suffix_cons_iff.mp habove).resolve_left ?_
      rintro rfl
      exact not_leaves htmp hleaves
    have hthere := (hunseen above hleaves).ways.resolve_right fun hnone => hnone other hbelow
    rw [h.left above hleaves]
    exact ⟨fun _ => hthere, fun _ => rfl⟩
  · rw [h.fileAt_same hheld hleaves]
    rintro rfl
    exact digestTmp_not_above _ other hkind habove

theorem answer_same_tag (other : Repo) (tag : String) :
    (StorageOp.manifestGet other.name (.tag tag)).answer tree' =
      (StorageOp.manifestGet other.name (.tag tag)).answer tree := by
  by_cases hdots : tag = "." ∨ tag = ".."
  · rw [answer_dots tree' _ hdots, answer_dots tree _ hdots]
  · have hnames := not_or.mp hdots
    by_cases hleaves : Leaves tree repo.name reference (manifestTagPath other.name tag)
    · have htarget : tagTarget other.name tag tree' = some (hashContent .sha256 content) := by
        rw [tagTarget, h.left _ hleaves]
        simp [Except.toOption]
      rw [answer_tag tree' _ hnames, htarget, Option.bind_some, h.digest_same hheld,
        (hunseen _ hleaves).tags other tag rfl]
    · have htarget : tagTarget other.name tag tree' = tagTarget other.name tag tree := by
        rw [tagTarget, h.fileAt_same hheld hleaves (tag_not_digestTmp _ _), tagTarget]
      rw [answer_tag tree' _ hnames, answer_tag tree _ hnames, htarget]
      simp only [h.digest_same hheld]

theorem sameContents (hroot : tree.node ["manifests"] = some .dir) : SameContents tree tree' := by
  intro question
  cases question with
  | manifest other target =>
      obtain ⟨reference', hsingle⟩ := target
      cases reference' with
      | digest d =>
          show (StorageOp.manifestGet other.name (.digest d)).answer tree' = _
          rw [answer_digest, h.digest_same hheld, ← answer_digest]
          rfl
      | tag tag => exact h.answer_same_tag hheld hunseen other tag
  | repos =>
      obtain ⟨listing, hanswer, hmem⟩ := answer_repos hroot
      obtain ⟨listing', hanswer', hmem'⟩ := answer_repos (h.kept _ hroot)
      have hsame : listing' = listing := by
        apply BTreeSet.ext
        intro name
        rw [hmem, hmem']
        simp only [Listed, h.marked_same hheld]
      show StorageOp.listRepos.answer tree' = StorageOp.listRepos.answer tree
      rw [hanswer, hanswer', hsame]
  | tags other =>
      show (StorageOp.listTags other.name).answer tree' = (StorageOp.listTags other.name).answer tree
      have hways : InTheWay tree' ("tags" :: repoPath other.name) ↔
          InTheWay tree ("tags" :: repoPath other.name) :=
        h.inTheWay_same hheld hunseen other (by decide) (by decide)
      by_cases hway : InTheWay tree ("tags" :: repoPath other.name)
      · rw [answer_tags_blocked hway, answer_tags_blocked (hways.mpr hway)]
      · obtain ⟨listing, hanswer, hmem⟩ := answer_tags hway
        obtain ⟨listing', hanswer', hmem'⟩ := answer_tags (mt hways.mp hway)
        have hsame : listing' = listing := by
          apply BTreeSet.ext
          intro tag
          rw [hmem, hmem']
          refine and_congr_right fun htmp => ?_
          have htag : ¬Leaves tree repo.name reference (manifestTagPath other.name tag) :=
            not_leaves htmp
          rw [h.fileAt_same hheld htag (tag_not_digestTmp _ _)]
        rw [hanswer, hanswer', hsame]
  | digests other =>
      show (StorageOp.listManifestDigests other.name).answer tree' =
        (StorageOp.listManifestDigests other.name).answer tree
      have hways : InTheWay tree' ("digests" :: repoPath other.name) ↔
          InTheWay tree ("digests" :: repoPath other.name) :=
        h.inTheWay_same hheld hunseen other (by decide) (by decide)
      by_cases hway : InTheWay tree ("digests" :: repoPath other.name)
      · rw [answer_digests_blocked hway, answer_digests_blocked (hways.mpr hway)]
      · obtain ⟨listing, hanswer, hmem⟩ := answer_digests hway
        obtain ⟨listing', hanswer', hmem'⟩ := answer_digests (mt hways.mp hway)
        have hsame : listing' = listing := by
          apply BTreeSet.ext
          intro d
          rw [hmem, hmem', h.digest_same hheld]
        rw [hanswer, hanswer', hsame]

omit hheld hunseen in
-- The manifest is stored before the push fails.
theorem held_of_same (hsame : SameContents tree tree') :
    tree.fileAt (manifestDigestPath repo.name (hashContent .sha256 content)) = some content := by
  have hanswer := hsame (.manifest repo ⟨.digest (hashContent .sha256 content), nofun⟩)
  simp only [Question.op] at hanswer
  rw [← answer_digest, ← hanswer, answer_digest, h.stored]

omit hunseen in
theorem unseen_of_same (hsame : SameContents tree tree')
    (hsingle : ∀ tag, reference = .tag tag → '/' ∉ tag.toList) {path : Path}
    (hleaves : Leaves tree repo.name reference path) :
    Unseen tree (hashContent .sha256 content) path where
  tags other tag hpath := by
    obtain ⟨name, parent, heq, -, hplace⟩ := leaves_tmp hleaves
    have htag : tag = tmpName name := (List.cons.inj (hpath.symm.trans heq)).1
    have hslash : '/' ∉ tag.toList := by
      rw [htag]
      intro hmem
      rcases mem_tmpName hmem with hname | htmp
      · rcases hplace with ⟨rfl, -⟩ | ⟨href, -⟩
        · exact absurd hname (by decide)
        · exact hsingle name href hname
      · exact absurd htmp (by decide)
    have hdots : tag ≠ "." ∧ tag ≠ ".." := by
      rw [htag]
      exact ⟨tmpName_ne (by decide), tmpName_ne (by decide)⟩
    have hne : tag ≠ "" := by
      rw [htag]
      exact tmpName_ne (by decide)
    have htarget : tagTarget other.name tag tree' = some (hashContent .sha256 content) := by
      rw [tagTarget, ← hpath, h.left _ hleaves]
      simp [Except.toOption]
    have hanswer := hsame (.manifest other ⟨.tag tag, fun _ heq => by
      rw [← Reference.tag.inj heq]
      exact ⟨hne, hslash⟩⟩)
    simp only [Question.op] at hanswer
    rw [← hanswer, answer_tag tree' _ hdots, htarget, Option.bind_some, h.digest_same hheld]
  ways := by
    by_contra hnot
    obtain ⟨hnone, hother⟩ := not_or.mp hnot
    obtain ⟨other, habove⟩ := not_forall_not.mp hother
    have hbelow : path <:+ "tags" :: repoPath other.name := habove.trans (List.suffix_cons _ _)
    have hblocked : InTheWay tree' ("tags" :: repoPath other.name) :=
      inTheWay_iff_fileAt.mpr ⟨path, hbelow, by rw [h.left path hleaves]; rfl⟩
    have hfree : ¬InTheWay tree ("tags" :: repoPath other.name) := by
      obtain ⟨inode, hnode, -⟩ := Tree.fileAt_eq_some.mp hheld
      have hrepo : tree.node (repoPath repo.name) = some .dir := by
        refine Tree.dir_above hnode (List.suffix_append [_, _] _) fun heq => ?_
        have hlen := congrArg List.length heq
        simp only [manifestDigestPath, List.length_cons] at hlen
        omega
      obtain ⟨-, -, -, hdir, -⟩ := leaves_tmp hleaves
      rintro ⟨file, inode', hfile, hthere⟩
      by_cases heq : file = path
      · rw [heq] at hthere
        exact hnone (by rw [Tree.fileAt_of_file hthere]; rfl)
      · rcases List.suffix_or_suffix_of_suffix hfile hbelow with hup | hdown
        · exact leaves_free hrepo hleaves ⟨file, inode', hup, heq, hthere⟩
        · exact hdir (Tree.dir_above hthere hdown fun hsame => heq hsame.symm)
    obtain ⟨listing, hanswer, -⟩ := answer_tags hfree
    have hquestion := hsame (.tags other)
    simp only [Question.op] at hquestion
    rw [hanswer, answer_tags_blocked hblocked] at hquestion
    cases hquestion

end NotTaken

end RspaceRegistry.Disk
