import RspaceRegistry.Disk.Effects

namespace RspaceRegistry.Disk

open Calls Files Ordered

-- What pushes to other namespaces leave alone.

def namespaceDir (ns : String) : Path := [ns, "manifests"]

-- The repositories of a namespace are below its directory.
def Inside (ns repo : String) : Prop := (components repo).head? = some ns

instance (ns repo : String) : Decidable (Inside ns repo) :=
  inferInstanceAs (Decidable (_ = _))

-- A call that pushes something through a repository outside the namespace.
def PushesOutside (ns : String) : StorageOp → Prop
  | .blobWrite repo _ _ | .uploadCreate repo _ | .uploadAppend repo _ _ | .uploadFinalize repo _ _
  | .manifestPut repo (.digest _) _ => ¬Inside ns repo
  | .manifestPut repo (.tag tag) _ => ¬Inside ns repo ∧ IsFileName tag
  | _ => False

-- The places where such a push neither makes nor takes files.
def KeepsFiles (ns : String) (path : Path) : Prop :=
  namespaceDir ns <:+ path ∨ path.length ≤ 1 ∨ ["blobs"] <:+ path ∧ path.length ≤ 3

-- The places where it makes no directory.
def KeepsDirs (ns : String) (path : Path) : Prop :=
  namespaceDir ns <:+ path ∨ ["blobs"] <:+ path ∧ path.length = 4 ∨
    ["uploads"] <:+ path ∧ path.length = 2

section Paths

variable {ns repo : String} {path above : Path}

theorem suffix_unique {first second : Path} (h : first <:+ path) (h' : second <:+ path)
    (hlength : first.length = second.length) : first = second :=
  (List.suffix_of_suffix_length_le h h' hlength.le).eq_of_length hlength

theorem repoPath_suffix (front : Path) : ["manifests"] <:+ front ++ repoPath repo :=
  (List.suffix_append _ _).trans (List.suffix_append front _)

theorem namespaceDir_suffix (front : Path) :
    namespaceDir ns <:+ front ++ repoPath repo ↔ Inside ns repo := by
  have hne : components repo ≠ [] := by simp [components, List.splitOn_ne_nil]
  obtain ⟨first, rest, hparts⟩ := List.exists_cons_of_ne_nil hne
  have hpath : front ++ repoPath repo = (front ++ rest.reverse) ++ namespaceDir first := by
    simp [repoPath, hparts, namespaceDir]
  rw [Inside, hparts, List.head?_cons, hpath]
  constructor
  · intro h
    have hsame := suffix_unique h (List.suffix_append _ (namespaceDir first)) rfl
    rw [(List.cons.inj hsame).1]
  · intro h
    rw [Option.some.inj h]
    exact List.suffix_append _ _

theorem keepsFiles_of_manifest (front : Path) (hfront : front ≠ []) (hout : ¬Inside ns repo) :
    ¬KeepsFiles ns (front ++ repoPath repo) := by
  rintro (h | h | ⟨h, -⟩)
  · exact hout ((namespaceDir_suffix front).mp h)
  · have hlength := List.length_pos_iff.mpr hfront
    simp only [List.length_append, repoPath, List.length_cons, List.length_nil] at h
    omega
  · exact absurd (suffix_unique h (repoPath_suffix front) rfl) (by decide)

theorem keepsDirs_of_manifest (front : Path) (hout : ¬Inside ns repo)
    (habove : above <:+ front ++ repoPath repo) : ¬KeepsDirs ns above := by
  rintro (h | ⟨h, -⟩ | ⟨h, -⟩)
  · exact hout ((namespaceDir_suffix front).mp (h.trans habove))
  · exact absurd (suffix_unique (h.trans habove) (repoPath_suffix front) rfl) (by decide)
  · exact absurd (suffix_unique (h.trans habove) (repoPath_suffix front) rfl) (by decide)

theorem keepsFiles_of_blob (name top algorithm : String) :
    ¬KeepsFiles ns [name, top, algorithm, "blobs"] := by
  simp [KeepsFiles, namespaceDir, List.suffix_cons_iff]

theorem keepsDirs_of_blob {top algorithm : String} (habove : above <:+ [top, algorithm, "blobs"]) :
    ¬KeepsDirs ns above := by
  have hlength := habove.length_le
  have hblobs : ["blobs"] <:+ [top, algorithm, "blobs"] := List.suffix_append [top, algorithm] _
  rintro (h | ⟨-, h⟩ | ⟨h, -⟩)
  · simpa [namespaceDir, List.suffix_cons_iff] using h.trans habove
  · simp only [List.length_cons, List.length_nil] at hlength
    omega
  · exact absurd (suffix_unique (h.trans habove) hblobs rfl) (by decide)

theorem keepsFiles_of_upload (id : String) : ¬KeepsFiles ns (uploadPath id) := by
  simp [KeepsFiles, namespaceDir, uploadPath, List.suffix_cons_iff]

theorem keepsDirs_of_uploads (habove : above <:+ ["uploads"]) : ¬KeepsDirs ns above := by
  have hlength := habove.length_le
  simp only [List.length_cons, List.length_nil] at hlength
  rintro (h | ⟨-, h⟩ | ⟨-, h⟩)
  · have htwo := h.length_le
    simp only [namespaceDir, List.length_cons, List.length_nil] at htwo
    omega
  · omega
  · omega

-- Above a path of the namespace, and above the blobs and the sessions, only such
-- places are.
theorem keepsFiles_inside (hpath : namespaceDir ns <:+ path) (habove : above <:+ path) :
    KeepsFiles ns above := by
  by_cases hlength : above.length ≤ 1
  · exact .inr (.inl hlength)
  · refine .inl (List.suffix_of_suffix_length_le hpath habove ?_)
    simp only [namespaceDir, List.length_cons, List.length_nil]
    omega

end Paths

section Pushes

variable {ns repo : String} {tree : Tree}

abbrev FrozenFor (ns : String) : Tree → Tree → Prop := Tree.Frozen (KeepsFiles ns) (KeepsDirs ns)

theorem frozen_blob (d : Digest) (content : Bytes) : FrozenFor ns tree
    ((atomicWrite (blobPath d) content).run Tree.handle tree).2 := by
  rw [blobPath, atomicWrite_eq]
  exact Tree.Frozen.replaceFile content (keepsFiles_of_blob _ _ _) (keepsFiles_of_blob _ _ _)
    fun above habove => keepsDirs_of_blob habove

theorem frozen_manifest (hout : ¬Inside ns repo) (name kind : String) (content : Bytes) :
    FrozenFor ns tree
      ((atomicWrite (name :: kind :: repoPath repo) content).run Tree.handle tree).2 := by
  rw [atomicWrite_eq]
  exact Tree.Frozen.replaceFile content
    (keepsFiles_of_manifest [name, kind] (by simp) hout)
    (keepsFiles_of_manifest [tmpName name, kind] (by simp) hout)
    fun above habove => keepsDirs_of_manifest [kind] hout habove

theorem frozen_uploadCreate (id : String) : FrozenFor ns tree
    ((uploadCreate id).run Tree.handle tree).2 := by
  refine ((Tree.Frozen.createDirAll fun above h => keepsDirs_of_uploads h).mapError _).bind
    fun _ _ _ => ?_
  exact ((Tree.Frozen.create (keepsFiles_of_upload id)).mapError _).bind fun _ _ _ => .refl _

variable [Sha2]

theorem frozen_blobWrite (d : Digest) (content : Bytes) : FrozenFor ns tree
    ((blobWrite d content).run Tree.handle tree).2 := by
  rw [blobWrite]
  split
  · exact .refl tree
  · exact (frozen_blob d content).mapError _

theorem frozen_manifestPut {reference : Reference} (hout : ¬Inside ns repo) (content : Bytes) :
    FrozenFor ns tree ((manifestPut repo reference content).run Tree.handle tree).2 := by
  refine ((frozen_manifest hout _ "digests" content).mapError _).bind fun _ _ _ => ?_
  cases reference with
  | digest d => exact .refl _
  | tag tag =>
      exact ((frozen_manifest hout tag "tags" _).mapError _).bind fun _ _ _ => .refl _

theorem frozen_uploadFinalize (id : String) (expected : Digest) : FrozenFor ns tree
    ((uploadFinalize id expected).run Tree.handle tree).2 := by
  refine ((Tree.Frozen.look (.read _) fun _ => rfl).mapError _).bind fun bytes _ _ => ?_
  simp only
  split
  · exact .refl _
  · refine ((Tree.Frozen.createDirAll fun above h => keepsDirs_of_blob h).mapError _).bind
      fun _ _ _ => ?_
    refine ((Tree.Frozen.rename (keepsFiles_of_upload id)
      (keepsFiles_of_blob _ _ _)).attempt.mapError _).bind fun moved _ _ => ?_
    split
    · exact .refl _
    · refine ((Tree.Frozen.writeFile bytes (keepsFiles_of_blob _ _ _)).mapError _).bind
        fun _ _ _ => ?_
      exact ((Tree.Frozen.remove (keepsFiles_of_upload id)).attempt.mapError _).bind
        fun _ _ _ => .refl _

-- A push through another repository changes nothing that the namespace has.
theorem frozen_push {op : StorageOp} (h : PushesOutside ns op) :
    FrozenFor ns tree (fsStorage op tree).2 := by
  cases op with
  | blobWrite _ expected content => exact frozen_blobWrite expected content
  | uploadCreate _ drawn => exact frozen_uploadCreate drawn
  | uploadAppend _ id chunk => exact frozen_append chunk (keepsFiles_of_upload id)
  | uploadFinalize _ id expected => exact frozen_uploadFinalize id expected
  | manifestPut repo reference content =>
      have hplain : ¬Inside ns repo ∧ ¬(reference = .tag "." ∨ reference = .tag "..") := by
        cases reference with
        | tag tag =>
            obtain ⟨hout, -, -, hdot, hdots⟩ := h
            refine ⟨hout, ?_⟩
            rintro (heq | heq)
            · exact hdot (Reference.tag.inj heq)
            · exact hdots (Reference.tag.inj heq)
        | digest d => exact ⟨h, by simp⟩
      simp only [fsStorage, StorageOp.body, if_neg hplain.2]
      exact frozen_manifestPut hplain.1 content
  | blobExists _ _ | blobRead _ _ | blobDelete _ _ | uploadStatus _ _ | uploadCancel _ _
  | manifestGet _ _ | manifestDelete _ _ | listRepos | listTags _ | listManifestDigests _ => cases h

-- The trees that differ at most in what can be pushed outside the namespace: in
-- blobs, sessions and other directories of manifests.
abbrev DifferOutside (ns : String) : Tree → Tree → Prop := Tree.SameAt (KeepsFiles ns) (KeepsDirs ns)

-- The tree after some calls.
def afterCalls (ops : List StorageOp) (tree : Tree) : Tree :=
  ops.foldl (fun tree op => (fsStorage op tree).2) tree

theorem frozen_pushes {ops : List StorageOp} (h : ∀ op ∈ ops, PushesOutside ns op) :
    FrozenFor ns tree (afterCalls ops tree) := by
  induction ops generalizing tree with
  | nil => exact .refl tree
  | cons op rest ih =>
      exact (frozen_push (h op List.mem_cons_self)).trans
        (ih fun other hother => h other (List.mem_cons_of_mem op hother))

theorem differOutside_of_pushes {ops ops' : List StorageOp} (h : ∀ op ∈ ops, PushesOutside ns op)
    (h' : ∀ op ∈ ops', PushesOutside ns op) :
    DifferOutside ns (afterCalls ops tree) (afterCalls ops' tree) :=
  (Tree.SameAt.of_frozen (frozen_pushes h)).symm.trans (.of_frozen (frozen_pushes h'))

end Pushes

section Runs

variable (repo : String) (tree : Tree)

theorem run_atDots (α : Type) : (atDots repo : DiskM α).run Tree.handle tree =
    (((tree.metadata ("tags" :: repoPath repo)).mapError ioToStorage).bind fun _ => .error .io,
      tree) := by
  rw [atDots, Fallible.run_bind, Fallible.run_mapError, FileM.run_call]
  simp only [Tree.handle]
  cases tree.metadata ("tags" :: repoPath repo) <;> rfl

theorem run_listManifestDigests : (listManifestDigests repo).run Tree.handle tree =
    (match tree.readDir ("digests" :: repoPath repo) with
      | .ok entries => .ok (digestsOf entries)
      | .error .notFound => .ok BTreeSet.empty
      | .error _ => .error .io, tree) := by
  rw [listManifestDigests, Fallible.run_bind, Fallible.run_mapError, Fallible.run_attempt,
    FileM.run_call]
  simp only [Tree.handle]
  rcases tree.readDir ("digests" :: repoPath repo) with err | entries
  · cases err <;> rfl
  · rfl

theorem run_uploadStatus (id : String) : (uploadStatus id).run Tree.handle tree =
    (((tree.metadata (uploadPath id)).mapError ioToStorage).map fun len => ⟨id, len.getD 0⟩,
      tree) := by
  rw [uploadStatus, Fallible.run_bind, Fallible.run_mapError, FileM.run_call]
  simp only [Tree.handle]
  cases tree.metadata (uploadPath id) <;> rfl

theorem mem_digestsOf_of_kind {entries entries' : List (String × Node)}
    (h : ∀ name node, (name, node) ∈ entries → ∃ node', (name, node') ∈ entries' ∧
      Tree.SameKind node node') {d : Digest} (hd : d ∈ digestsOf entries) : d ∈ digestsOf entries' := by
  simp only [digestsOf, BTreeSet.mem_extend, BTreeSet.not_mem_empty, or_false,
    List.mem_filterMap] at hd ⊢
  obtain ⟨⟨name, node⟩, hentry, hname⟩ := hd
  obtain ⟨node', hentry', hkind⟩ := h name node hentry
  refine ⟨(name, node'), hentry', ?_⟩
  cases node with
  | dir => cases hname
  | file inode =>
      cases node' with
      | dir => cases hkind
      | file inode' => exact hname

end Runs

section Reads

variable [Sha2] {ns repo : String} {tree tree' : Tree}

-- A call that is answered alike on two trees and changes neither.
def Alike (tree tree' : Tree) (op : StorageOp) : Prop :=
  ∃ answer, fsStorage op tree = (answer, tree) ∧ fsStorage op tree' = (answer, tree')

section Inside

variable (h : DifferOutside ns tree tree') (hrepo : Inside ns repo)

include h

omit [Sha2] in
theorem read_inside {path : Path} (hpath : namespaceDir ns <:+ path) :
    tree'.read path = tree.read path :=
  h.read_eq_of_file (fun _ habove _ => keepsFiles_inside hpath habove) (.inl hpath)
    (h.files path (.inl hpath))

include hrepo

omit [Sha2] in
theorem metadata_inside : tree'.metadata ("tags" :: repoPath repo) =
    tree.metadata ("tags" :: repoPath repo) := by
  have hpath : namespaceDir ns <:+ "tags" :: repoPath repo := (namespaceDir_suffix ["tags"]).mpr hrepo
  exact h.metadata_eq_of_length (fun _ habove _ => keepsFiles_inside hpath habove) (.inl hpath)
    (by rw [h.files _ (.inl hpath)])

theorem alike_manifestGet (reference : Reference) :
    Alike tree tree' (.manifestGet repo reference) := by
  by_cases hdots : reference = .tag "." ∨ reference = .tag ".."
  · simp only [Alike, fsStorage, StorageOp.body, if_pos hdots]
    rw [run_atDots, run_atDots, metadata_inside h hrepo]
    exact ⟨_, rfl, rfl⟩
  · have hdigest : ∀ d, tree'.read (manifestDigestPath repo d) = tree.read (manifestDigestPath repo d) :=
      fun d => read_inside h ((namespaceDir_suffix [d.toString, "digests"]).mpr hrepo)
    simp only [Alike, fsStorage, StorageOp.body, if_neg hdots]
    cases reference with
    | digest d =>
        rw [run_manifestGet_digest, run_manifestGet_digest, hdigest d]
        exact ⟨_, rfl, rfl⟩
    | tag tag =>
        have htag : tree'.read (manifestTagPath repo tag) = tree.read (manifestTagPath repo tag) :=
          read_inside h ((namespaceDir_suffix [tag, "tags"]).mpr hrepo)
        rw [run_manifestGet_tag, run_manifestGet_tag, htag]
        simp only [hdigest]
        exact ⟨_, rfl, rfl⟩

theorem alike_listManifestDigests : Alike tree tree' (.listManifestDigests repo) := by
  have hpath : namespaceDir ns <:+ "digests" :: repoPath repo :=
    (namespaceDir_suffix ["digests"]).mpr hrepo
  have hbelow : ∀ name, KeepsFiles ns (name :: "digests" :: repoPath repo) ∧
      KeepsDirs ns (name :: "digests" :: repoPath repo) := fun name =>
    ⟨.inl (hpath.trans (List.suffix_cons _ _)), .inl (hpath.trans (List.suffix_cons _ _))⟩
  simp only [Alike, fsStorage, StorageOp.body]
  rw [run_listManifestDigests, run_listManifestDigests]
  rcases h.readDir_alike (fun _ habove => keepsFiles_inside hpath habove) (.inl hpath) hbelow with
    ⟨err, hread, hread'⟩ | ⟨entries, entries', hread, hread', hto, hfrom⟩
  · rw [hread, hread']
    exact ⟨_, rfl, rfl⟩
  · have hdigests : digestsOf entries' = digestsOf entries :=
      BTreeSet.ext fun _ => ⟨mem_digestsOf_of_kind hfrom, mem_digestsOf_of_kind hto⟩
    rw [hread, hread']
    simp only [hdigests]
    exact ⟨_, rfl, rfl⟩

end Inside

section Shared

variable (h : DifferOutside ns tree tree')

include h

-- What is common to all namespaces is read alike where the file is the same.
theorem alike_blobRead {d : Digest} (hsame : tree'.fileAt (blobPath d) = tree.fileAt (blobPath d)) :
    Alike tree tree' (.blobRead repo d) := by
  have hread : tree'.read (blobPath d) = tree.read (blobPath d) := by
    refine h.read_eq_of_file ?_ (.inr (.inl ⟨?_, rfl⟩)) hsame
    · intro above habove hne
      have htail := (List.suffix_cons_iff.mp habove).resolve_left hne
      by_cases hlength : above.length ≤ 1
      · exact .inr (.inl hlength)
      · refine .inr (.inr ⟨?_, htail.length_le⟩)
        refine List.suffix_of_suffix_length_le (List.suffix_append [_, _] ["blobs"]) htail ?_
        rw [List.length_singleton]
        omega
    · exact List.suffix_append [_, _, _] ["blobs"]
  simp only [Alike, fsStorage, StorageOp.body]
  rw [blobRead, Fallible.run_mapError, Fallible.run_mapError, FileM.run_call, FileM.run_call]
  simp only [Tree.handle, hread]
  exact ⟨_, rfl, rfl⟩

theorem alike_uploadStatus {id : String}
    (hsame : (tree'.fileAt (uploadPath id)).map List.length =
      (tree.fileAt (uploadPath id)).map List.length) :
    Alike tree tree' (.uploadStatus repo id) := by
  have hstat : tree'.metadata (uploadPath id) = tree.metadata (uploadPath id) := by
    refine h.metadata_eq_of_length ?_ (.inr (.inr ⟨?_, rfl⟩)) hsame
    · intro above habove hne
      have htail := (List.suffix_cons_iff.mp habove).resolve_left hne
      exact .inr (.inl htail.length_le)
    · exact List.suffix_append [_] ["uploads"]
  simp only [Alike, fsStorage, StorageOp.body]
  rw [run_uploadStatus, run_uploadStatus, hstat]
  exact ⟨_, rfl, rfl⟩

end Shared

end Reads

end RspaceRegistry.Disk
