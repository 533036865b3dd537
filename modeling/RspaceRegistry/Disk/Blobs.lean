import RspaceRegistry.Disk.Programs
import RspaceRegistry.Sample

namespace RspaceRegistry.Disk

open Calls Calls.Pool Files

-- `FsStorage::new` on an empty directory.
def new : Tree := ((Tree.new.makeDirs ["blobs"]).makeDirs ["manifests"]).makeDirs ["uploads"]

theorem no_file_new (path : Path) : new.fileAt path = none := by
  have hnew : ∀ path, Tree.new.fileAt path = none := by
    intro path
    rw [Option.eq_none_iff_forall_ne_some]
    intro bytes hbytes
    obtain ⟨inode, hnode, -⟩ := Tree.fileAt_eq_some.mp hbytes
    exact Nat.not_lt_zero _ (Tree.new.allocated path inode hnode)
  have hkeeps : ∀ (tree : Tree) (made : Path), (tree.makeDirs made).fileAt path = tree.fileAt path :=
    fun tree made => (Tree.makeDirs_frame made path).fileAt
  rw [new, hkeeps, hkeeps, hkeeps, hnew]

-- A file can stand at the path, and its temporary one beside it.
def Writable (tree : Tree) (path : Path) : Prop :=
  tree.node path ≠ some .dir ∧ tree.node (withExtension path "tmp") ≠ some .dir ∧
    ¬tree.Blocked path

instance (tree : Tree) (path : Path) : Decidable (Writable tree path) :=
  inferInstanceAs (Decidable (_ ∧ _))

section

variable [Sha2] {ι : Type} {d : Digest} {content : Bytes}

theorem blobWrite_eq (h : hashContent d.algorithm content = d) : blobWrite d content =
    Fallible.mapError fromIo (atomicWrite (blobPath d) content) := by
  rw [blobWrite, if_neg (not_not_intro h)]

-- Any number of pushes of one blob.
def blobPushes (d : Digest) (content : Bytes) (tree : Tree) :
    Pool ι FileOp FileOp.Ans (fun _ => Except StorageError Unit) Tree :=
  ⟨fun _ => blobWrite d content, (tree, [])⟩

abbrev BlobTmp (d : Digest) (path : Path) : Prop := path = withExtension (blobPath d) "tmp"

abbrev BlobTarget (d : Digest) (path : Path) : Prop := path = blobPath d

abbrev BlobContent (content : Bytes) (_ : ι) (_ : Path) (bytes : List UInt8) (_ : Tree) : Prop :=
  bytes = content

omit [Sha2] in
theorem blobLayout (d : Digest) : Layout (BlobTmp d) (BlobTarget d) := by
  apply Layout.of_length 4
  · rintro path (rfl | rfl) <;> rfl
  · rintro path rfl h
    exact tmpName_ne (isTmp_hex d) (List.cons.inj h).1

omit [Sha2] in
theorem sane_of_writable {tree : Tree} (h : Writable tree (blobPath d)) :
    Sane (BlobTmp d) (BlobTarget d) tree := by
  obtain ⟨htarget, htmp, hfree⟩ := h
  rintro path (rfl | rfl)
  · exact ⟨htmp, Tree.blocked_cons.not.mpr (Tree.blocked_cons.not.mp hfree)⟩
  · exact ⟨htarget, hfree⟩

variable [DecidableEq ι]

theorem replacing_blobPushes (hcontent : hashContent d.algorithm content = d) {tree : Tree}
    (hwritable : Writable tree (blobPath d)) :
    Replacing (BlobTmp d) (BlobTarget d) (BlobContent (ι := ι) content)
      (fun _ result => result = .ok ()) (blobPushes d content tree) := by
  intro i
  have hkept : Kept (BlobTmp d) (BlobTarget d) (BlobContent (ι := ι) content) fun _ => True :=
    fun _ _ _ _ _ _ _ _ _ _ => trivial
  show (blobWrite d content).wp _ _ _ _ _
  rw [blobWrite_eq hcontent, Fallible.wp_mapError]
  apply Fallible.wp_post
  · exact wp_replaceFile hkept (blobLayout d) rfl rfl (fun _ _ => rfl)
      fun _ => ⟨sane_of_writable hwritable, trivial⟩
  · rintro result s h hexclusive
    rw [(h hexclusive).1]
    rfl

-- Concurrent pushes of one blob all succeed, and readers see none of it or all of
-- it, if each makes its temporary file while no other is between making and
-- renaming it.
theorem same_blob_written (hcontent : hashContent d.algorithm content = d) {tree : Tree}
    (hwritable : Writable tree (blobPath d))
    (hbefore : tree.fileAt (blobPath d) = none ∨ tree.fileAt (blobPath d) = some content)
    {q : Pool ι FileOp FileOp.Ans (fun _ => Except StorageError Unit) Tree}
    (hrun : Runs Tree.handle.sem (blobPushes d content tree) q) (hexclusive : Exclusive q.now.2) :
    (∀ i result, q.parties i = .pure result → result = .ok ()) ∧
      (q.now.1.fileAt (blobPath d) = none ∨ q.now.1.fileAt (blobPath d) = some content) := by
  have hpushes := replacing_blobPushes (ι := ι) hcontent hwritable
  constructor
  · exact fun i result hresult => hpushes.finished hrun hexclusive hresult
  · have hkept : Kept (BlobTmp d) (BlobTarget d) (BlobContent (ι := ι) content) fun tree =>
        tree.fileAt (blobPath d) = none ∨ tree.fileAt (blobPath d) = some content :=
      kept_content (blobLayout d) rfl (fun bytes => bytes = none ∨ bytes = some content)
        fun _ _ _ h => .inr (congrArg some h)
    exact hpushes.kept hkept (blobLayout d) hrun hexclusive (sane_of_writable hwritable) hbefore

end

section

attribute [local instance] Sample.sha2

-- Two pushes of one blob, the second of which starts while the first is at work.
def clashing : Pool Bool FileOp FileOp.Ans (fun _ => Except StorageError Unit) Tree :=
  blobPushes (sha256Digest Sample.x) Sample.x new

def overtaken : List Bool := [true, true, true, false, false, true, true]

-- The second empties the file that the first then publishes, and has nothing left
-- to rename.
theorem clashing_blob_torn :
    ¬(∀ q, Runs Tree.handle.sem clashing q →
      q.now.1.fileAt (blobPath (sha256Digest Sample.x)) = none ∨
        q.now.1.fileAt (blobPath (sha256Digest Sample.x)) = some Sample.x) ∧
    ¬(∀ q, Runs Tree.handle.sem clashing q →
      ∀ i result, q.parties i = .pure result → result = .ok ()) := by
  constructor
  · intro h
    have htorn : (clashing.play Tree.handle overtaken).now.1.fileAt
        (blobPath (sha256Digest Sample.x)) = some [] := by decide +kernel
    rcases h _ (runs_play Tree.handle overtaken clashing) with hnone | hcontent
    · rw [htorn] at hnone
      cases hnone
    · rw [htorn] at hcontent
      cases hcontent
  · intro h
    have hfailed : ((clashing.play Tree.handle (overtaken ++ [false, false, false])).parties
        false).result = some (.error .io) := by decide +kernel
    have hok := h _ (runs_play Tree.handle _ clashing) false _ (Prog.eq_pure_of_result hfailed)
    cases hok

-- The same pushes one after the other.
def queued : List Bool := [true, true, true, true, true, false, false, false, false, false]

theorem queued_blob_written :
    (∀ i result, (clashing.play Tree.handle queued).parties i = .pure result → result = .ok ()) ∧
      ((clashing.play Tree.handle queued).now.1.fileAt (blobPath (sha256Digest Sample.x)) = none ∨
        (clashing.play Tree.handle queued).now.1.fileAt (blobPath (sha256Digest Sample.x)) =
          some Sample.x) := by
  have hrun := runs_play Tree.handle queued clashing
  exact same_blob_written rfl (by decide +kernel) (.inl (by decide)) hrun (by decide +kernel)

end

end RspaceRegistry.Disk
