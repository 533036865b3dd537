import RspaceRegistry.Disk.Shelf

namespace RspaceRegistry.Disk

open Calls Files Ordered

-- The calls that no request makes by itself: they measure a directory.

-- No directory stands where a blob would, so its length is never asked for.
def blobSize (d : Digest) : DiskM Nat := do
  let len ← Fallible.mapError ioToStorage (FileM.call (.metadata (blobPath d)))
  pure (len.getD 0)

def dirNames (entries : List (String × Node)) : List String :=
  entries.filterMap fun entry => if entry.2 = .dir then some entry.1 else none

def blobsIn (algorithm : Algorithm) (entries : List (String × Node)) : List Digest :=
  entries.filterMap fun entry =>
    match entry.2 with
    | .dir => none
    | .file _ =>
        if isTmp entry.1 then none
        else (Digest.fromStr (algorithm.name ++ ":" ++ entry.1)).toOption

-- The directories of one algorithm, which carry the first two hex digits.
def walkFronts (algorithm : Algorithm) : List String → List Digest → FileM (List Digest)
  | [], out => pure out
  | front :: rest, out => do
      let inner ← FileM.call (.readDir [front, algorithm.name, "blobs"])
      walkFronts algorithm rest (out ++ blobsIn algorithm inner)

def listAlgorithm (algorithm : Algorithm) (out : List Digest) : DiskM (List Digest) := do
  match ← Fallible.mapError fromIo
      (Fallible.attempt (FileM.call (.readDir [algorithm.name, "blobs"]))) with
  | .error .notFound => pure out
  | .error _ => Fallible.fail .io
  | .ok entries => Fallible.mapError fromIo (walkFronts algorithm (dirNames entries) out)

-- A digest has one place below `blobs`, so sorting leaves no repetitions.
def listAllBlobs : DiskM (BTreeSet Digest) := do
  let out ← listAlgorithm .sha256 []
  let out ← listAlgorithm .sha512 out
  pure (BTreeSet.empty.extend out)

-- All calls of the `Storage` trait.
inductive StoreOp
  | request (op : StorageOp)
  | blobSize (repo : String) (digest : Digest)
  | listAllBlobs
deriving DecidableEq

abbrev StoreOp.Value : StoreOp → Type
  | .request op => op.Value
  | .blobSize _ _ => Nat
  | .listAllBlobs => BTreeSet Digest

abbrev StoreOp.Ans (op : StoreOp) : Type := Except StorageError op.Value

abbrev Store (σ : Type) : Type := Handler StoreOp StoreOp.Ans σ

def fsStore [Sha2] (apart : Option IoError) : Store Tree
  | .request op, tree => fsStorageOn apart op tree
  | .blobSize _ d, tree => (Disk.blobSize d).run Tree.handle tree
  | .listAllBlobs, tree => Disk.listAllBlobs.run Tree.handle tree

section Runs

variable {tree : Tree} (h : Laid tree)

include h

theorem run_blobSize (d : Digest) : (blobSize d).run Tree.handle tree =
    ((orNotFound ((shelf tree).blobs d)).map List.length, tree) := by
  rw [blobSize, Fallible.run_bind, Fallible.run_mapError, FileM.run_call]
  simp only [Tree.handle, metadata_blob h]
  cases (shelf tree).blobs d <;> rfl

omit h in
theorem mem_dirNames {entries : List (String × Node)} {name : String} :
    name ∈ dirNames entries ↔ (name, Node.dir) ∈ entries := by
  simp only [dirNames, List.mem_filterMap]
  constructor
  · rintro ⟨⟨found, node⟩, hmem, hsome⟩
    split at hsome
    · rename_i hdir
      obtain rfl : node = .dir := hdir
      rwa [← Option.some.inj hsome]
    · cases hsome
  · intro hmem
    exact ⟨_, hmem, if_pos rfl⟩

omit h in
theorem mem_blobsIn {algorithm : Algorithm} {entries : List (String × Node)} {d : Digest} :
    d ∈ blobsIn algorithm entries ↔ ∃ name inode, (name, Node.file inode) ∈ entries ∧
      isTmp name = false ∧ Digest.fromStr (algorithm.name ++ ":" ++ name) = .ok d := by
  simp only [blobsIn, List.mem_filterMap]
  constructor
  · rintro ⟨⟨name, node⟩, hmem, hsome⟩
    cases node with
    | dir => cases hsome
    | file inode =>
        simp only at hsome
        split at hsome
        · cases hsome
        · rename_i htmp
          refine ⟨name, inode, hmem, by simpa using htmp, ?_⟩
          cases hparsed : Digest.fromStr (algorithm.name ++ ":" ++ name) with
          | error err =>
              rw [hparsed] at hsome
              cases hsome
          | ok found =>
              rw [hparsed] at hsome
              rw [Option.some.inj hsome]
  · rintro ⟨name, inode, hmem, htmp, hparsed⟩
    refine ⟨_, hmem, ?_⟩
    simp only [htmp, hparsed]
    rfl

-- The files below the directory of an algorithm are its blobs.
theorem file_below {algorithm : Algorithm} {name front : String} {inode : Nat} {d : Digest}
    (hfile : tree.node [name, front, algorithm.name, "blobs"] = some (.file inode))
    (htmp : isTmp name = false) (hparsed : Digest.fromStr (algorithm.name ++ ":" ++ name) = .ok d) :
    [name, front, algorithm.name, "blobs"] = blobPath d := by
  have hplace : ["blobs"] <:+ [name, front, algorithm.name, "blobs"] :=
    List.suffix_append [_, _, _] ["blobs"]
  obtain ⟨d', hpath | hpath⟩ := h.files _ hplace (by rw [Tree.fileAt_of_file hfile]; rfl)
  · have hnames := hpath
    simp only [blobPath, List.cons.injEq, and_true] at hnames
    obtain ⟨rfl, -, hname⟩ := hnames
    have hsame : d' = d := by
      rw [hname] at hparsed
      exact Except.ok.inj ((fromStr_toString d').symm.trans hparsed)
    rw [hpath, hsame]
  · exfalso
    have hname : name = tmpName d'.hex := (List.cons.inj hpath).1
    rw [hname, isTmp_tmpName] at htmp
    cases htmp

theorem run_walkFronts (algorithm : Algorithm) {fronts : List String}
    (hdirs : ∀ front ∈ fronts, tree.node [front, algorithm.name, "blobs"] = some .dir)
    (out : List Digest) : ∃ found, (walkFronts algorithm fronts out).run Tree.handle tree =
      (.ok found, tree) ∧ ∀ d, d ∈ found ↔ d ∈ out ∨ ∃ front ∈ fronts,
        blobPath d = [d.hex, front, algorithm.name, "blobs"] ∧ (tree.fileAt (blobPath d)).isSome := by
  induction fronts generalizing out with
  | nil => exact ⟨out, rfl, by simp⟩
  | cons front rest ih =>
      obtain ⟨entries, hread, hmem⟩ := Tree.mem_readDir (hdirs front List.mem_cons_self)
      obtain ⟨found, hrun, hfound⟩ := ih (fun other hother => hdirs other (List.mem_cons_of_mem _ hother))
        (out ++ blobsIn algorithm entries)
      have hcall : (FileM.call (.readDir [front, algorithm.name, "blobs"])).run Tree.handle tree =
          (.ok entries, tree) := by
        rw [FileM.run_call, Tree.handle, hread]
      refine ⟨found, by rw [walkFronts, Fallible.run_bind_of_ok hcall, hrun], fun d => ?_⟩
      have hhere : d ∈ blobsIn algorithm entries ↔
          blobPath d = [d.hex, front, algorithm.name, "blobs"] ∧
            (tree.fileAt (blobPath d)).isSome := by
        rw [mem_blobsIn]
        constructor
        · rintro ⟨name, inode, hentry, htmp, hparsed⟩
          have hfile := (hmem name (.file inode)).mp hentry
          have hpath := file_below h hfile htmp hparsed
          obtain rfl : name = d.hex := (List.cons.inj hpath).1
          refine ⟨hpath.symm, ?_⟩
          rw [← hpath, Tree.fileAt_of_file hfile]
          rfl
        · rintro ⟨hpath, hsome⟩
          obtain ⟨bytes, hbytes⟩ := Option.isSome_iff_exists.mp hsome
          obtain ⟨inode, hnode, -⟩ := Tree.fileAt_eq_some.mp hbytes
          rw [hpath] at hnode
          have halg : d.algorithm.name = algorithm.name := by
            simp only [blobPath, List.cons.injEq, and_true, true_and] at hpath
            exact hpath.2
          refine ⟨d.hex, inode, (hmem _ _).mpr hnode, isTmp_hex d, ?_⟩
          rw [← halg]
          exact fromStr_toString d
      rw [hfound, List.mem_append, hhere, or_assoc]
      simp only [List.mem_cons, exists_eq_or_imp]

theorem run_listAlgorithm (algorithm : Algorithm) (out : List Digest) :
    ∃ found, (listAlgorithm algorithm out).run Tree.handle tree = (.ok found, tree) ∧
      ∀ d, d ∈ found ↔
        d ∈ out ∨ (d.algorithm = algorithm ∧ ((shelf tree).blobs d).isSome) := by
  have hlevel : ["blobs"] <:+ [algorithm.name, "blobs"] := List.suffix_append [_] ["blobs"]
  have habove : ∀ d : Digest, d.algorithm = algorithm → ((shelf tree).blobs d).isSome →
      tree.node [String.ofList (d.hex.toList.take 2), algorithm.name, "blobs"] = some .dir ∧
        tree.node [algorithm.name, "blobs"] = some .dir := by
    rintro d rfl hsome
    obtain ⟨bytes, hbytes⟩ := Option.isSome_iff_exists.mp hsome
    obtain ⟨inode, hnode, -⟩ := Tree.fileAt_eq_some.mp (hbytes : tree.fileAt (blobPath d) = _)
    have hparent := tree.nested _ _ (AList.lookup_isSome.mp (Option.isSome_of_eq_some hnode))
    exact ⟨hparent, tree.nested _ _ (AList.lookup_isSome.mp (Option.isSome_of_eq_some hparent))⟩
  cases hnode : tree.node [algorithm.name, "blobs"] with
  | none =>
      have hfree : ¬tree.Blocked [algorithm.name, "blobs"] := by
        rw [Tree.blocked_cons]
        rintro ⟨above, inode, hsuffix, hfile⟩
        rcases List.suffix_cons_iff.mp hsuffix with rfl | hnil
        · rw [h.blobs] at hfile
          cases hfile
        · rw [List.suffix_nil.mp hnil, Files.Tree.node, tree.rooted] at hfile
          cases hfile
      have hread : (Fallible.mapError fromIo (Fallible.attempt
          (FileM.call (.readDir [algorithm.name, "blobs"])))).run Tree.handle tree =
            (.ok (.error .notFound), tree) := by
        rw [Fallible.run_mapError, Fallible.run_attempt, FileM.run_call]
        simp only [Tree.handle, Tree.readDir, Tree.find_of_none hnode hfree]
        rfl
      refine ⟨out, by rw [listAlgorithm, Fallible.run_bind_of_ok hread]; rfl, fun d => ?_⟩
      refine ⟨.inl, fun hd => hd.elim id fun hd => ?_⟩
      rw [hnode] at habove
      cases (habove d hd.1 hd.2).2
  | some node =>
      cases node with
      | file inode => exact absurd hnode (h.no_file hlevel (by simp) inode)
      | dir =>
          obtain ⟨entries, hentries, hmem⟩ := Tree.mem_readDir hnode
          have hread : (Fallible.mapError fromIo (Fallible.attempt
              (FileM.call (.readDir [algorithm.name, "blobs"])))).run Tree.handle tree =
                (.ok (.ok entries), tree) := by
            rw [Fallible.run_mapError, Fallible.run_attempt, FileM.run_call]
            simp only [Tree.handle, hentries]
            rfl
          obtain ⟨found, hrun, hfound⟩ := @run_walkFronts tree h algorithm (dirNames entries)
            (fun front hfront => (hmem front .dir).mp (mem_dirNames.mp hfront)) out
          refine ⟨found, ?_, fun d => ?_⟩
          · rw [listAlgorithm, Fallible.run_bind_of_ok hread]
            simp only [Fallible.run_mapError, hrun]
            rfl
          · rw [hfound]
            apply or_congr_right
            constructor
            · rintro ⟨front, -, hpath, hsome⟩
              refine ⟨?_, hsome⟩
              simp only [blobPath, List.cons.injEq, and_true, true_and] at hpath
              have hname := hpath.2
              revert hname
              cases d.algorithm <;> cases algorithm <;> decide
            · rintro ⟨halg, hsome⟩
              refine ⟨_, mem_dirNames.mpr ((hmem _ _).mpr (habove d halg hsome).1), ?_, hsome⟩
              rw [← halg, blobPath]

theorem run_listAllBlobs : ∃ listing, listAllBlobs.run Tree.handle tree = (.ok listing, tree) ∧
    ∀ d, d ∈ listing ↔ ((shelf tree).blobs d).isSome := by
  obtain ⟨first, hfirst, hmem⟩ := run_listAlgorithm h .sha256 []
  obtain ⟨second, hsecond, hmem'⟩ := run_listAlgorithm h .sha512 first
  refine ⟨BTreeSet.empty.extend second, ?_, fun d => ?_⟩
  · rw [listAllBlobs, Fallible.run_bind_of_ok hfirst, Fallible.run_bind_of_ok hsecond]
    rfl
  · simp only [BTreeSet.mem_extend, BTreeSet.not_mem_empty, hmem', hmem]
    cases d.algorithm <;> simp

end Runs

section New

theorem node_new {path : Path} {node : Node} (h : new.node path = some node) :
    path ∈ [["uploads"], ["manifests"], ["blobs"], []] := by
  have hmem : path ∈ new.nodes := AList.lookup_isSome.mp (Option.isSome_of_eq_some h)
  have hkeys : new.nodes.keys = [["uploads"], ["manifests"], ["blobs"], []] := by decide
  rwa [← hkeys]

theorem laid_new : Laid new where
  uploads := by decide
  blobs := by decide
  sessions id hdir := by
    have hmem := node_new hdir
    simp [uploadPath] at hmem
  files path _ hfile := by
    rw [no_file_new] at hfile
    cases hfile
  dirs path _ hdir := by
    have hmem := node_new hdir
    simp only [List.mem_cons, List.not_mem_nil, or_false] at hmem
    rcases hmem with rfl | rfl | rfl | rfl <;> simp

end New

end RspaceRegistry.Disk
