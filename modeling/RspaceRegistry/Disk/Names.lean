import RspaceRegistry.Disk.Answers
import RspaceRegistry.Disk.Crash
import RspaceRegistry.Files.Names

namespace RspaceRegistry.Disk

open Calls Files Ordered

-- A storage on a disk that takes names up to a length.

section Names

theorem component_le {parts : List String} {part : String} (h : part ∈ parts) :
    part.utf8ByteSize ≤ ("/".intercalate parts).utf8ByteSize := by
  induction parts with
  | nil => cases h
  | cons first rest ih =>
      by_cases hrest : rest = []
      · subst hrest
        rw [String.intercalate_singleton, List.mem_singleton.mp h]
      · rw [String.intercalate_cons_of_ne_nil hrest, String.utf8ByteSize_append,
          String.utf8ByteSize_append]
        rcases List.mem_cons.mp h with rfl | hlater
        · omega
        · have hle := ih hlater
          omega

-- The names of repositories fit, and so do those of digests.
theorem fits_repoPath (repo : Repo) : FitsPath (repoPath repo.name) := by
  intro name hname
  refine ⟨?_, fun hnul => ?_⟩
  · rcases List.mem_append.mp hname with hpart | hlast
    · have hle := component_le (List.mem_reverse.mp hpart)
      rw [intercalate_components] at hle
      have hvalid := repo.valid
      rw [validateRepoName] at hvalid
      split at hvalid
      · cases hvalid
      · rename_i hrange
        simp only [Bool.or_eq_true, decide_eq_true_eq, not_or, Nat.not_lt] at hrange
        exact hle.trans hrange.2
    · rw [List.mem_singleton.mp hlast]
      decide
  · have hchar := repo.name_chars hname _ hnul
    exact absurd hchar (by decide)

theorem fits_below (repo : Repo) {kind : String} (hkind : Fits kind) :
    FitsPath (kind :: repoPath repo.name) :=
  List.forall_mem_cons.mpr ⟨hkind, fits_repoPath repo⟩

theorem digest_chars (d : Digest) : ∀ c ∈ d.toString.toList, c ≠ '\x00' := by
  intro c hc
  rw [Digest.toString, String.toList_append, String.toList_append] at hc
  rcases List.mem_append.mp hc with hname | hhex
  · have hall : ∀ algorithm : Algorithm,
        (algorithm.name.toList ++ ":".toList).all (fun c => c != '\x00') = true := by
      intro algorithm
      cases algorithm <;> decide
    simpa using List.all_eq_true.mp (hall d.algorithm) c hname
  · rintro rfl
    exact absurd (List.all_eq_true.mp d.valid.2 _ hhex) (by decide)

theorem digest_size (d : Digest) : d.toString.utf8ByteSize ≤ 135 := by
  rw [Digest.toString, String.utf8ByteSize_append, String.utf8ByteSize_append, d.valid.1]
  cases d.algorithm <;> decide

theorem fits_digest (d : Digest) : Fits d.toString :=
  ⟨(digest_size d).trans (by decide), fun hnul => digest_chars d _ hnul rfl⟩

theorem fits_tmpDigest (d : Digest) : Fits (tmpName d.toString) := by
  have htmp : tmpName d.toString = d.toString ++ ".tmp" := tmpName_digest d
  rw [htmp]
  constructor
  · rw [IsShort, String.utf8ByteSize_append]
    have hsize := digest_size d
    have htail : ".tmp".utf8ByteSize = 4 := by decide
    rw [htail]
    show _ ≤ 255
    omega
  · rw [String.toList_append]
    intro hnul
    rcases List.mem_append.mp hnul with hdigest | htail
    · exact digest_chars d _ hdigest rfl
    · exact absurd htail (by decide)

theorem fits_digestPath (repo : Repo) (d : Digest) : FitsPath (manifestDigestPath repo.name d) :=
  List.forall_mem_cons.mpr ⟨fits_digest d, fits_below repo (by decide)⟩

theorem fits_tags (repo : Repo) : FitsPath ("tags" :: repoPath repo.name) :=
  fits_below repo (by decide)

end Names

section Programs

variable {ε α : Type} {tree : Tree}

theorem fits_call {op : FileOp} {path : Path} (hop : op.paths = [path]) (h : FitsPath path) :
    (FileM.call op).Uses FileOp.Fits := by
  refine ⟨fun other hother => ?_, fun _ => trivial⟩
  rw [hop, List.mem_singleton] at hother
  rwa [hother]

theorem fits_replaceFile {base name : String} {parent : Path} (content : List UInt8)
    (hbase : Fits base) (hname : Fits name) (hparent : FitsPath parent) :
    (replaceFile (base :: parent) (name :: parent) content).Uses FileOp.Fits := by
  have htmp : FitsPath (base :: parent) := List.forall_mem_cons.mpr ⟨hbase, hparent⟩
  have hpath : FitsPath (name :: parent) := List.forall_mem_cons.mpr ⟨hname, hparent⟩
  refine (fits_call rfl hparent).bind fun _ => (fits_call rfl htmp).bind fun _ => ?_
  refine ⟨fun _ hnone => (by cases hnone), fun written => ?_⟩
  cases written with
  | error err => trivial
  | ok _ =>
      refine ⟨fun _ hnone => (by cases hnone), fun synced => ?_⟩
      cases synced with
      | error err => trivial
      | ok _ =>
          refine ⟨fun path hmem => ?_, fun _ => trivial⟩
          rcases List.mem_cons.mp hmem with rfl | hmem
          · exact htmp
          · rwa [List.mem_singleton.mp hmem]

theorem fits_writeFile {path : Path} (h : FitsPath path) (bytes : Bytes) :
    (writeFile path bytes).Uses FileOp.Fits := by
  refine (fits_call rfl h).bind fun _ => ?_
  exact ⟨fun _ hnone => (by cases hnone), fun _ => trivial⟩

theorem fits_manifestGet (repo : Repo) {reference : Reference}
    (h : ∀ tag, reference = .tag tag → Fits tag) :
    (manifestGet repo.name reference).Uses FileOp.Fits := by
  have hread : ∀ d, (Fallible.mapError ioToStorage
      (FileM.call (.read (manifestDigestPath repo.name d)))).Uses FileOp.Fits :=
    fun d => (fits_call rfl (fits_digestPath repo d)).mapError _
  cases reference with
  | digest d => exact hread d
  | tag tag =>
      have htag : FitsPath (manifestTagPath repo.name tag) :=
        List.forall_mem_cons.mpr ⟨h tag rfl, fits_tags repo⟩
      have htext : (readToString (manifestTagPath repo.name tag)).Uses FileOp.Fits := by
        refine (fits_call rfl htag).bind fun bytes => ?_
        cases fromUtf8 bytes <;> trivial
      refine (htext.mapError _).bind fun s => ?_
      cases tagDigest s with
      | error err => trivial
      | ok d => exact hread d

theorem fits_atDots (repo : Repo) : (atDots repo.name : DiskM α).Uses FileOp.Fits :=
  ((fits_call rfl (fits_tags repo)).mapError _).bind fun _ => trivial

theorem fits_listTags (repo : Repo) : (listTags repo.name).Uses FileOp.Fits := by
  refine ((fits_call rfl (fits_tags repo)).attempt.mapError _).bind fun found => ?_
  rcases found with err | _
  · cases err <;> trivial
  · trivial

theorem fits_listManifestDigests (repo : Repo) :
    (listManifestDigests repo.name).Uses FileOp.Fits := by
  refine ((fits_call rfl (fits_below repo (by decide))).attempt.mapError _).bind fun found => ?_
  rcases found with err | _
  · cases err <;> trivial
  · trivial

-- The walk goes to directories that are there.
theorem limited_walkChildren {walk : Path → List String → FileM (List String)} {dir : Path}
    {children : List String} (hlooks : ∀ dir out, (walk dir out).Uses Looks)
    (h : ∀ child ∈ children, ∀ out,
      (walk (child :: dir) out).run Tree.limited tree = (walk (child :: dir) out).run Tree.handle tree)
    (out : List String) : (walkChildren walk dir children out).run Tree.limited tree =
      (walkChildren walk dir children out).run Tree.handle tree := by
  induction children generalizing out with
  | nil => rfl
  | cons child rest ih =>
      have hfirst := h child List.mem_cons_self out
      have hsame := run_looks (hlooks (child :: dir) out) tree
      rw [walkChildren, Fallible.run_bind, Fallible.run_bind, hfirst]
      rcases hrun : (walk (child :: dir) out).run Tree.handle tree with ⟨result, after⟩
      have hafter : Prog.run Tree.handle (walk (child :: dir) out) tree = (result, after) := hrun
      rw [hafter] at hsame
      obtain rfl : after = tree := hsame
      cases result with
      | error err => rfl
      | ok found => exact ih (fun other hother => h other (List.mem_cons_of_mem _ hother)) found

theorem limited_walkRepos (hnames : tree.NamesFit) (steps : Nat) {dir : Path} (hdir : FitsPath dir)
    (out : List String) :
    (walkRepos steps dir out).run Tree.limited tree =
      (walkRepos steps dir out).run Tree.handle tree := by
  induction steps generalizing dir out with
  | zero => rfl
  | succ steps ih =>
      have hfits : FileOp.Fits (.readDir dir) := by
        intro path hpath
        rwa [List.mem_singleton.mp hpath]
      have hread : (Fallible.attempt (FileM.call (.readDir dir))).run Tree.limited tree =
          (Fallible.attempt (FileM.call (.readDir dir))).run Tree.handle tree := by
        rw [Fallible.run_attempt, Fallible.run_attempt]
        exact congrArg (fun answer => (Except.ok answer.1, answer.2))
          (Tree.limited_of_fits hfits tree)
      rw [walkRepos, Fallible.run_bind, Fallible.run_bind, hread, Fallible.run_attempt,
        FileM.run_call, Tree.handle]
      cases hentries : tree.readDir dir with
      | error err => cases err <;> rfl
      | ok entries =>
          have hthere : tree.node dir = some .dir := by
            by_contra hnot
            rw [Tree.readDir_error hnot] at hentries
            split at hentries <;> cases hentries
          obtain ⟨entries', hread', hmem⟩ := Tree.mem_readDir hthere
          obtain rfl : entries' = entries := Except.ok.inj (hread'.symm.trans hentries)
          refine limited_walkChildren (looks_walkRepos steps) (fun child hchild out => ?_) _
          obtain ⟨⟨name, node⟩, hentry, hname⟩ := List.mem_filterMap.mp hchild
          cases node with
          | file inode => cases hname
          | dir =>
              simp only at hname
              split at hname
              · cases hname
              · obtain rfl := Option.some.inj hname
                exact ih (hnames _ _ ((hmem name .dir).mp hentry)) out

end Programs

section Storage

variable [Sha2]

-- `FsStorage` where the names of files have an end.
def limitedStorage : Handler StorageOp StorageOp.Ans Tree :=
  fun op tree => (op.body tree).run Tree.limited tree

variable {tree : Tree}

theorem limited_of_uses {op : StorageOp} (h : (op.body tree).Uses FileOp.Fits) :
    limitedStorage op tree = fsStorage op tree := Tree.run_limited h tree

def StorageOp.answerLimited (op : StorageOp) (tree : Tree) : Option op.Value :=
  (limitedStorage op tree).1.toOption

-- Nothing is at a path that does not fit.
theorem answer_limited (hnames : tree.NamesFit) (question : Question) :
    question.op.answerLimited tree = question.op.answer tree := by
  have hsame : ∀ {op : StorageOp}, (op.body tree).Uses FileOp.Fits →
      op.answerLimited tree = op.answer tree :=
    fun huses => congrArg (fun result => result.1.toOption) (limited_of_uses huses)
  cases question with
  | manifest repo target =>
      obtain ⟨reference, hsingle⟩ := target
      show (StorageOp.manifestGet repo.name reference).answerLimited tree =
        (StorageOp.manifestGet repo.name reference).answer tree
      by_cases hdots : reference = .tag "." ∨ reference = .tag ".."
      · refine hsame ?_
        rw [StorageOp.body, if_pos hdots]
        exact fits_atDots repo
      · by_cases hfits : ∀ tag, reference = .tag tag → Fits tag
        · refine hsame ?_
          rw [StorageOp.body, if_neg hdots]
          exact fits_manifestGet repo hfits
        · push Not at hfits
          obtain ⟨tag, rfl, hlong⟩ := hfits
          have hnone : tree.fileAt (manifestTagPath repo.name tag) = none := by
            rw [Option.eq_none_iff_forall_ne_some]
            intro bytes hbytes
            obtain ⟨inode, hnode, -⟩ := Tree.fileAt_eq_some.mp hbytes
            exact hlong (hnames _ _ hnode tag List.mem_cons_self)
          have hread : ¬FileOp.Fits (.read (manifestTagPath repo.name tag)) := by
            intro hfits
            exact hlong (hfits _ List.mem_cons_self tag List.mem_cons_self)
          rw [answer_tag tree _ (by simpa using hdots), tagTarget, hnone]
          obtain ⟨err, hanswer, hsame | ⟨path, hop, -⟩⟩ := Tree.limited_refused hread tree
          · have hcall : (FileM.call (.read (manifestTagPath repo.name tag))).run Tree.limited tree =
                (.error err, tree) := Prod.ext hanswer hsame
            have htext : (Fallible.mapError ioToStorage
                (readToString (manifestTagPath repo.name tag))).run Tree.limited tree =
                  (.error (ioToStorage err), tree) := by
              rw [Fallible.run_mapError, readToString, Fallible.run_bind_of_error hcall]
              rfl
            rw [StorageOp.answerLimited, limitedStorage, StorageOp.body, if_neg hdots, manifestGet]
            simp only
            rw [Fallible.run_bind, htext]
            rfl
          · cases hop
  | repos =>
      have hwalk : (walkRepos (tree.nodes.entries.length + 1) ["manifests"] []).run Tree.limited
          tree = (walkRepos (tree.nodes.entries.length + 1) ["manifests"] []).run Tree.handle tree :=
        limited_walkRepos hnames _ (by decide) []
      show ((listRepos (tree.nodes.entries.length + 1)).run Tree.limited tree).1.toOption =
        ((listRepos (tree.nodes.entries.length + 1)).run Tree.handle tree).1.toOption
      rw [listRepos, Fallible.run_bind, Fallible.run_bind, Fallible.run_mapError,
        Fallible.run_mapError, hwalk]
      cases ((walkRepos (tree.nodes.entries.length + 1) ["manifests"] []).run Tree.handle tree).1 <;>
        rfl
  | tags repo => exact hsame (fits_listTags repo)
  | digests repo => exact hsame (fits_listManifestDigests repo)

end Storage

-- Whatever requests make of an empty storage, the names fit and the directories are those of
-- repositories.
section Reached

section Makes

variable {α : Type} {makes : Path → Prop}

theorem makes_call {op : FileOp} (h : MakesOnly makes op) :
    (FileM.call op).Uses (MakesOnly makes) := ⟨h, fun _ => trivial⟩

theorem makes_dirs {path : Path} (h : ∀ above, above <:+ path → makes above) :
    (FileM.call (.createDirAll path)).Uses (MakesOnly makes) :=
  makes_call fun _ heq above habove => h above (FileOp.createDirAll.inj heq ▸ habove)

theorem makes_file {op : FileOp} (h : ∀ made, op ≠ .createDirAll made) :
    (FileM.call op).Uses (MakesOnly makes) := makes_call fun made heq => absurd heq (h made)

theorem makes_atomicWrite (name : String) {parent : Path} (content : List UInt8)
    (h : ∀ above, above <:+ parent → makes above) :
    (atomicWrite (name :: parent) content).Uses (MakesOnly makes) :=
  (makes_dirs h).bind fun _ => (makes_file fun _ heq => by cases heq).bind fun _ =>
    (makes_file fun _ heq => by cases heq).bind fun _ =>
      (makes_file fun _ heq => by cases heq).bind fun _ => makes_file fun _ heq => by cases heq

theorem makes_writeFile (path : Path) (bytes : Bytes) :
    (writeFile path bytes).Uses (MakesOnly makes) :=
  (makes_file fun _ heq => by cases heq).bind fun _ => makes_file fun _ heq => by cases heq

theorem makes_putReference {repo : String} (reference : Reference) (digest : Digest)
    (h : ∀ above, above <:+ "tags" :: repoPath repo → makes above) :
    (putReference repo reference digest).Uses (MakesOnly makes) := by
  cases reference with
  | digest d => trivial
  | tag tag =>
      simp only [putReference]
      split
      · have hrepo : (FileM.call (.createDirAll (repoPath repo))).Uses (MakesOnly makes) :=
          makes_dirs fun above habove => h above (habove.trans (List.suffix_cons _ _))
        exact (hrepo.mapError _).bind fun _ => ((makes_writeFile _ _).mapError _).bind fun _ => trivial
      · split
        · exact ((makes_dirs h).mapError _).bind fun _ => trivial
        · have htag : (atomicWrite (manifestTagPath repo tag) (utf8 digest.toString)).Uses
              (MakesOnly makes) := makes_atomicWrite tag (utf8 digest.toString) h
          exact (htag.mapError _).bind fun _ => trivial

theorem limited_looks {prog : Prog FileOp FileOp.Ans α} (h : prog.Uses Looks) (tree : Tree) :
    (prog.run Tree.limited tree).2 = tree := by
  induction prog generalizing tree with
  | pure value => rfl
  | call op next ih =>
      have hsame : (Tree.limited op tree).2 = tree := by
        rcases Tree.limited_cases op tree with hsame | ⟨part, -, rfl | htorn, hpart⟩
        · exact hsame
        · exact hpart.trans (h.1 tree)
        · exact hpart.trans (looks_torn h.1 htorn tree)
      exact (ih _ (h.2 _) _).trans hsame

end Makes

variable [Sha2] {tree : Tree}

theorem limited_dirs (op : StorageOp) {path : Path}
    (hdir : (limitedStorage op tree).2.node path = some .dir) :
    tree.node path = some .dir ∨ op.Makes path := by
  have hlooks : ∀ {α : Type} {prog : Prog FileOp FileOp.Ans α}, prog.Uses Looks →
      (prog.run Tree.limited tree).2.node path = some .dir → tree.node path = some .dir :=
    fun hprog hdir => (congrArg (Files.Tree.node · path) (limited_looks hprog tree)).symm.trans hdir
  have hmakes : (op.body tree).Uses (MakesOnly op.Makes) →
      tree.node path = some .dir ∨ op.Makes path := fun huses => Tree.dir_of_run_limited huses hdir
  cases op with
  | blobExists _ d => exact .inl (hlooks (looks_blobExists d) hdir)
  | blobRead _ d => exact .inl (hlooks (uses_mapError _ (looks_read _)) hdir)
  | blobWrite repo d content =>
      refine hmakes ?_
      show (blobWrite d content).Uses _
      rw [blobWrite]
      split
      · trivial
      · have hwrite : (atomicWrite (blobPath d) content).Uses
            (MakesOnly (StorageOp.Makes (.blobWrite repo d content))) :=
          makes_atomicWrite d.hex content fun above habove => habove
        exact hwrite.mapError _
  | blobDelete _ _ | uploadCancel _ _ =>
      exact hmakes ((makes_file fun _ heq => by cases heq).mapError _)
  | uploadCreate repo id =>
      have hdirs : (FileM.call (.createDirAll (uploadPath id).tail)).Uses
          (MakesOnly (StorageOp.Makes (.uploadCreate repo id))) :=
        makes_dirs fun above habove => habove
      exact hmakes ((hdirs.mapError _).bind fun _ =>
        ((makes_file fun _ heq => by cases heq).mapError _).bind fun _ => trivial)
  | uploadStatus _ id => exact .inl (hlooks (looks_uploadStatus id) hdir)
  | uploadAppend _ id chunk =>
      exact hmakes (((makes_file fun _ heq => by cases heq).mapError _).bind fun _ =>
        ((makes_file fun _ heq => by cases heq).mapError _).bind fun _ =>
          ((makes_file fun _ heq => by cases heq).mapError _).bind fun _ => trivial)
  | uploadFinalize repo id d =>
      have hdirs : (FileM.call (.createDirAll (blobPath d).tail)).Uses
          (MakesOnly (StorageOp.Makes (.uploadFinalize repo id d))) :=
        makes_dirs fun above habove => habove
      refine hmakes (((makes_file fun _ heq => by cases heq).mapError _).bind fun bytes => ?_)
      dsimp only
      split
      · trivial
      · refine (hdirs.mapError _).bind fun _ => ?_
        refine ((makes_file fun _ heq => by cases heq).attempt.mapError _).bind fun moved => ?_
        cases moved with
        | ok _ => trivial
        | error err =>
            exact ((makes_writeFile _ _).mapError _).bind fun _ =>
              ((makes_file fun _ heq => by cases heq).attempt.mapError _).bind fun _ => trivial
  | manifestGet repo reference =>
      refine .inl (hlooks ?_ hdir)
      simp only [StorageOp.body]
      split
      · exact looks_atDots repo
      · exact looks_manifestGet repo reference
  | manifestPut repo reference content =>
      refine hmakes ?_
      rw [body_manifestPut]
      have hstore : (putManifest repo content).Uses
          (MakesOnly (StorageOp.Makes (.manifestPut repo reference content))) :=
        (makes_atomicWrite _ content fun above habove => Or.inl habove).mapError _
      exact hstore.bind fun _ => makes_putReference reference _ fun above habove => Or.inr habove
  | manifestDelete repo reference =>
      refine hmakes ?_
      simp only [StorageOp.body]
      split
      · exact ((makes_file fun _ heq => by cases heq).mapError _).bind fun _ => trivial
      · exact (makes_file fun _ heq => by cases heq).mapError _
  | listRepos => exact .inl (hlooks (looks_listRepos _) hdir)
  | listTags repo => exact .inl (hlooks (looks_listTags repo) hdir)
  | listManifestDigests repo => exact .inl (hlooks (looks_listManifestDigests repo) hdir)

theorem Grown.limited (h : Grown tree) {op : StorageOp}
    (hnamed : ∀ repo, op.repo = some repo → validateRepoName repo = .ok ()) :
    Grown (limitedStorage op tree).2 :=
  h.of_makes hnamed (fun _ hdir => Tree.run_limited_dir _ hdir) fun _ hdir => limited_dirs op hdir

def runLimited (ops : List StorageOp) (tree : Tree) : Tree :=
  ops.foldl (fun tree op => (limitedStorage op tree).2) tree

theorem grown_limited (ops : List StorageOp) (h : Grown tree) (hnames : tree.NamesFit)
    (hnamed : ∀ op ∈ ops, ∀ repo, op.repo = some repo → validateRepoName repo = .ok ()) :
    Grown (runLimited ops tree) ∧ (runLimited ops tree).NamesFit := by
  induction ops generalizing tree with
  | nil => exact ⟨h, hnames⟩
  | cons op rest ih =>
      exact ih (h.limited (hnamed op List.mem_cons_self)) (hnames.run (op.body tree))
        fun other hother => hnamed other (List.mem_cons_of_mem _ hother)

omit [Sha2] in
theorem namesFit_new : new.NamesFit := by
  intro path node hnode
  have hfits : ∀ path ∈ [["uploads"], ["manifests"], ["blobs"], []], FitsPath path := by decide
  exact hfits path (node_new hnode)

end Reached


section Refused

variable [Sha2] {tree : Tree} {repo : Repo} {content : Bytes} {reference : Reference}

-- A push that gets through where names have an end.
def TakesLimited (tree : Tree) (repo : String) (content : Bytes) : Reference → Prop
  | .digest want => want = hashContent .sha256 content
  | .tag tag => Fits tag ∧ Fits (tmpName tag) ∧ TakesTag tree repo tag

-- What is left of a tag that is not written, if its temporary file can be.
def LeavesLimited (tree : Tree) (repo : String) (reference : Reference) (path : Path) : Prop :=
  Leaves tree repo reference path ∧ ∀ tag, reference = .tag tag → Fits (tmpName tag)

theorem fits_putManifest (repo : Repo) (content : Bytes) :
    (putManifest repo.name content).Uses FileOp.Fits :=
  (fits_replaceFile content (fits_tmpDigest _) (fits_digest _)
    (fits_below repo (by decide))).mapError _

omit [Sha2] in
theorem fits_putReference (repo : Repo) (digest : Digest)
    (h : ∀ tag, reference = .tag tag → Fits tag ∧ Fits (tmpName tag)) :
    (putReference repo.name reference digest).Uses FileOp.Fits := by
  cases reference with
  | digest d => trivial
  | tag tag =>
      have htags : Fits (tmpName "tags") := by decide
      simp only [putReference]
      split
      · refine ((fits_call rfl (fits_repoPath repo)).mapError _).bind fun _ => ?_
        exact ((fits_writeFile (fits_below repo htags) _).mapError _).bind fun _ => trivial
      · split
        · exact ((fits_call rfl (fits_tags repo)).mapError _).bind fun _ => trivial
        · refine Fallible.Uses.bind (Fallible.Uses.mapError ?_ _) fun _ => trivial
          exact fits_replaceFile _ (h tag rfl).2 (h tag rfl).1 (fits_tags repo)

theorem limited_of_fits (h : ∀ tag, reference = .tag tag → Fits tag ∧ Fits (tmpName tag)) :
    limitedStorage (.manifestPut repo.name reference content) tree =
      fsStorage (.manifestPut repo.name reference content) tree := by
  refine limited_of_uses ?_
  rw [body_manifestPut]
  exact (fits_putManifest repo content).bind fun _ => fits_putReference repo _ h

theorem limited_blocked (reference : Reference) (content : Bytes)
    (hway : InTheWay tree ("digests" :: repoPath repo.name)) : ∃ err,
      limitedStorage (.manifestPut repo.name reference content) tree = (.error err, tree) := by
  obtain ⟨err, hblocked⟩ := put_blocked (.digest (hashContent .sha256 content)) content hway
  rw [body_manifestPut] at hblocked
  have hstore : (putManifest repo.name content).run Tree.limited tree = (.error err, tree) := by
    have hsame : (putManifest repo.name content).run Tree.limited tree =
        (putManifest repo.name content).run Tree.handle tree :=
      Tree.run_limited (fits_putManifest repo content) tree
    rw [hsame]
    rcases hrun : (putManifest repo.name content).run Tree.handle tree with ⟨result, mid⟩
    cases result with
    | error err' =>
        rw [Fallible.run_bind_of_error hrun] at hblocked
        obtain ⟨herror, rfl⟩ := Prod.mk.inj hblocked
        rw [Except.error.inj herror]
    | ok _ =>
        rw [Fallible.run_bind_of_ok hrun] at hblocked
        cases (Prod.mk.inj hblocked).1
  refine ⟨err, ?_⟩
  rw [limitedStorage, body_manifestPut, Fallible.run_bind_of_error hstore]

-- A tag that does not fit, or whose temporary file does not, is not written.
omit [Sha2] in
theorem limited_reference (repo : Repo) {tag : String} (hdots : tag ≠ "." ∧ tag ≠ "..")
    (h : ¬(Fits tag ∧ Fits (tmpName tag))) (d : Digest) (mid : Tree) : ∃ tree' left,
      (putReference repo.name (.tag tag) d).run Tree.limited mid = (.error .io, tree') ∧
        LeftAt mid repo.name (.tag left) (utf8 d.toString) tree' ∧
          (left = tag ∧ Fits (tmpName tag) ∨ left = ".." ∧ ¬Fits (tmpName tag)) := by
  have hrun : ∀ {err : IoError} {tree' : Tree},
      (replaceFile (tmpName tag :: "tags" :: repoPath repo.name)
        (tag :: "tags" :: repoPath repo.name) (utf8 d.toString)).run Tree.limited mid =
          (.error err, tree') →
        (putReference repo.name (.tag tag) d).run Tree.limited mid = (.error .io, tree') := by
    intro err tree' hwrite
    have herror : (Fallible.mapError fromIo (atomicWrite (manifestTagPath repo.name tag)
        (utf8 d.toString))).run Tree.limited mid = (.error .io, tree') := by
      rw [Fallible.run_mapError, manifestTagPath, atomicWrite_eq, hwrite]
      rfl
    simp only [putReference, hdots.1, hdots.2, if_false]
    rw [Fallible.run_bind_of_error herror]
  have hnothing : ¬(¬InTheWay mid ("tags" :: repoPath repo.name) ∧
        mid.node (tmpPath (manifestTagPath repo.name tag)) ≠ some .dir) →
      LeftAt mid repo.name (.tag tag) (utf8 d.toString) mid := by
    intro hnot
    refine .refl fun path hleaves => ?_
    simp only [Leaves, hdots.1, hdots.2, if_false] at hleaves
    exact hnot ⟨hleaves.2.1, hleaves.1 ▸ hleaves.2.2⟩
  by_cases htmp : Fits (tmpName tag)
  · have hlong : ¬Fits tag := fun hfits => h ⟨hfits, htmp⟩
    by_cases hway : InTheWay mid ("tags" :: repoPath repo.name)
    · obtain ⟨above, inode, habove, hfile⟩ := hway
      obtain ⟨err, hwrite⟩ := Tree.replaceFile_limited_in_the_way (utf8 d.toString)
        (fits_tags repo) habove hfile
      exact ⟨mid, tag, hrun hwrite, hnothing fun hnot => hnot.1 ⟨above, inode, habove, hfile⟩,
        .inl ⟨rfl, htmp⟩⟩
    · by_cases hdir : mid.node (tmpName tag :: "tags" :: repoPath repo.name) = some .dir
      · obtain ⟨err, hwrite⟩ := Tree.replaceFile_limited_tmp_dir (utf8 d.toString)
          (fits_tags repo) htmp hdir
        exact ⟨mid, tag, hrun hwrite, hnothing fun hnot => hnot.2 hdir, .inl ⟨rfl, htmp⟩⟩
      · obtain ⟨err, tree', hwrite, hwritten⟩ := Tree.replaceFile_dst_refused (utf8 d.toString)
          (fits_tags repo) htmp hlong (fun above inode habove hfile =>
            hway ⟨above, inode, habove, hfile⟩) hdir
        exact ⟨tree', tag, hrun hwrite, .of_made_written hdots rfl hwritten hway hdir,
          .inl ⟨rfl, htmp⟩⟩
  · obtain ⟨err, hwrite⟩ := Tree.replaceFile_tmp_refused (utf8 d.toString) (fits_tags repo) htmp
    exact ⟨_, "..", hrun hwrite, .of_createDirAll fun path => by simp [Leaves], .inr ⟨rfl, htmp⟩⟩

-- A push that fails at its reference leaves no more than it does where names have no end.
theorem limited_not_taken (h : Grown tree) (hway : ¬InTheWay tree ("digests" :: repoPath repo.name))
    (htakes : ¬TakesLimited tree repo.name content reference) : ∃ answer tree' left,
      limitedStorage (.manifestPut repo.name reference content) tree = (answer, tree') ∧
      (answer = .error .io ∨ answer = .ok (hashContent .sha256 content) ∧
        ∃ want, reference = .digest want ∧ want ≠ hashContent .sha256 content) ∧
      NotTaken tree repo left content tree' ∧ (left = reference ∨ left = .tag "..") ∧
      ∀ path, Leaves tree repo.name left path ↔ LeavesLimited tree repo.name reference path := by
  by_cases hfits : ∀ tag, reference = .tag tag → Fits tag ∧ Fits (tmpName tag)
  · have hunlimited : ¬Takes tree repo.name content reference := by
      cases reference with
      | digest want => exact htakes
      | tag tag => exact fun htag => htakes ⟨(hfits tag rfl).1, (hfits tag rfl).2, htag⟩
    obtain ⟨answer, tree', hrun, hanswer, hleft⟩ := not_taken h.dirs hway hunlimited
    refine ⟨answer, tree', reference, ?_, hanswer, hleft, .inl rfl, fun path => ?_⟩
    · rw [limited_of_fits hfits]
      exact hrun
    · exact ⟨fun hleaves => ⟨hleaves, fun tag htag => (hfits tag htag).2⟩, And.left⟩
  · push Not at hfits
    obtain ⟨tag, rfl, hlong⟩ := hfits
    have hdots : tag ≠ "." ∧ tag ≠ ".." := by
      have hfit : ∀ dots ∈ [".", ".."], Fits dots ∧ Fits (tmpName dots) := by decide
      constructor
      · rintro rfl
        exact hlong (hfit "." (by simp)).1 (hfit "." (by simp)).2
      · rintro rfl
        exact hlong (hfit ".." (by simp)).1 (hfit ".." (by simp)).2
    obtain ⟨mid, hstore, hreplaced⟩ := run_putManifest content h.dirs hway
    have hlimited : (putManifest repo.name content).run Tree.limited tree = (.ok (), mid) :=
      (Tree.run_limited (fits_putManifest repo content) tree).trans hstore
    obtain ⟨tree', left, hrun, hleft, hwhich⟩ := limited_reference repo hdots
      (fun hboth => hlong hboth.1 hboth.2) (hashContent .sha256 content) mid
    refine ⟨_, tree', .tag left, ?_, .inl rfl, notTaken_of_left hreplaced hleft, ?_, fun path => ?_⟩
    · rw [limitedStorage, body_manifestPut, Fallible.run_bind_of_ok hlimited, hrun]
    · rcases hwhich with ⟨rfl, -⟩ | ⟨rfl, -⟩
      · exact .inl rfl
      · exact .inr rfl
    · rcases hwhich with ⟨rfl, htmp⟩ | ⟨rfl, htmp⟩
      · refine ⟨fun hleaves => ⟨hleaves, fun other hother => ?_⟩, And.left⟩
        rwa [← Reference.tag.inj hother]
      · exact ⟨fun hleaves => by simp [Leaves] at hleaves,
          fun hleaves => absurd (hleaves.2 tag rfl) htmp⟩

theorem limited_taken (h : Grown tree) (hway : ¬InTheWay tree ("digests" :: repoPath repo.name))
    (htakes : TakesLimited tree repo.name content reference) :
    (limitedStorage (.manifestPut repo.name reference content) tree).1 =
      .ok (hashContent .sha256 content) := by
  have hunlimited : Takes tree repo.name content reference := by
    cases reference with
    | digest want => exact htakes
    | tag tag => exact htakes.2.2
  have hfits : ∀ tag, reference = .tag tag → Fits tag ∧ Fits (tmpName tag) := by
    rintro tag rfl
    exact ⟨htakes.1, htakes.2.1⟩
  rw [limited_of_fits hfits]
  exact taken h.dirs hway hunlimited

end Refused

end RspaceRegistry.Disk
