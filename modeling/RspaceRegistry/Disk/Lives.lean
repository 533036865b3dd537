import RspaceRegistry.Disk.Answers
import RspaceRegistry.Disk.Faults

namespace RspaceRegistry.Disk

open Calls Files Ordered

-- The life of a storage over any number of processes.

-- A call that comes to its end, whatever the file system makes of a rename out of the
-- sessions meanwhile; a call whose operations fail, or that is cut short; and a process that
-- opens the directory, to its end or not.
inductive Happening
  | call (op : StoreOp) (apart : Option IoError)
  | faulty (op : StorageOp) (fates : List Fate)
  | opened (fates : List Fate)

def Happening.op : Happening → Option StorageOp
  | .call (.request op) _ | .faulty op _ => some op
  | _ => none

-- The copy of a session that could not be renamed to the blob is cut short in its write.
def Happening.Tears (d : Digest) : Happening → Prop
  | .faulty (.uploadFinalize _ _ d') fates => d' = d ∧ ∃ fate, CopyCut fates fate
  | _ => False

def Happening.Whole (e : Happening) : Prop := ∀ d, ¬e.Tears d

section Lives

variable [Sha2]

inductive Turn : Happening → Tree → Tree → Prop
  | call (op : StoreOp) (apart : Option IoError) (tree : Tree) :
      Turn (.call op apart) tree (fsStore apart op tree).2
  | faulty (op : StorageOp) (fates : List Fate) (tree : Tree) :
      Turn (.faulty op fates) tree (runUnder (op.body tree) fates tree).2
  | opened (fates : List Fate) (tree : Tree) :
      Turn (.opened fates) tree (runUnder openRoot fates tree).2

inductive Life (first : Tree) : List Happening → Tree → Prop
  | start : Life first [] first
  | turn {events : List Happening} {e : Happening} {tree tree' : Tree}
      (h : Life first events tree) (hturn : Turn e tree tree') : Life first (events ++ [e]) tree'

section Opened

variable {tree tree' : Tree}

omit [Sha2] in
theorem frozen_makeLayout (dirs : List Path) (fates : List Fate) (tree : Tree) :
    Tree.Frozen (fun _ => True) (fun path => ¬∃ dir ∈ dirs, path <:+ dir) tree
      (runUnder (makeLayout dirs) fates tree).2 := by
  induction dirs generalizing fates tree with
  | nil => exact .refl tree
  | cons dir rest ih =>
      have hmade : ∀ n, Tree.Frozen (fun _ => True)
          (fun path => ¬∃ other ∈ dir :: rest, path <:+ other) tree
            (tree.createDirAll (dir.drop n)).2 := by
        intro n
        refine Tree.Frozen.createDirAll fun above habove hnone => hnone ⟨dir, List.mem_cons_self, ?_⟩
        exact habove.trans (List.drop_suffix n dir)
      obtain ⟨next, hprog, herror, hok⟩ : ∃ next,
          makeLayout (dir :: rest) = Prog.call (.createDirAll dir) next ∧
            (∀ err, next (.error err) = Prog.pure (.ok ())) ∧
              ∀ made, next (.ok made) = makeLayout rest :=
        ⟨_, rfl, fun _ => rfl, fun _ => rfl⟩
      rw [hprog]
      cases hfate : fates.headD .done with
      | done =>
          rw [runUnder_done hfate]
          have hfirst : Tree.Frozen (fun _ => True)
            (fun path => ¬∃ other ∈ dir :: rest, path <:+ other) tree
              (Tree.handle (.createDirAll dir) tree).2 := hmade 0
          cases (Tree.handle (.createDirAll dir) tree).1 with
          | error err =>
              rw [herror]
              exact hfirst
          | ok made =>
              rw [hok]
              have hlater := ih fates.tail (Tree.handle (.createDirAll dir) tree).2
              refine hfirst.trans ⟨hlater.kept, fun path hpath => hlater.dirs path ?_⟩
              rintro ⟨other, hother, habove⟩
              exact hpath ⟨other, List.mem_cons_of_mem dir hother, habove⟩
      | failed err n =>
          rw [runUnder_failed hfate, herror]
          exact hmade n
      | killed n =>
          rw [runUnder_killed hfate]
          exact hmade n

omit [Sha2] in
theorem runUnder_dir {α : Type} (prog : Prog FileOp FileOp.Ans α) (fates : List Fate) {path : Path}
    (h : tree.node path = some .dir) : (runUnder prog fates tree).2.node path = some .dir := by
  have hpart : ∀ op n tree, tree.node path = some .dir →
      (FileOp.part n tree op).node path = some .dir := by
    intro op n tree hdir
    rcases part_cases op n tree with hsame | ⟨part, -, hpart⟩
    · rwa [hsame]
    · rw [hpart]
      exact Tree.handle_dir hdir
  induction prog generalizing fates tree with
  | pure value => exact h
  | call op next ih =>
      cases hfate : fates.headD .done with
      | done =>
          rw [runUnder_done hfate]
          exact ih _ _ (Tree.handle_dir h)
      | failed err n =>
          rw [runUnder_failed hfate]
          exact ih _ _ (hpart op n tree h)
      | killed n =>
          rw [runUnder_killed hfate]
          exact hpart op n tree h

omit [Sha2] in
theorem changes_openRoot (fates : List Fate) (tree : Tree) :
    Changes (fun _ => False) (·.length ≤ 1) tree (runUnder openRoot fates tree).2 where
  others path _ := ((frozen_makeLayout _ fates tree).kept path trivial).fileAt
  dirs path hdir := by
    by_cases hshort : path.length ≤ 1
    · exact .inr hshort
    · refine .inl (((frozen_makeLayout _ fates tree).dirs path ?_).mp hdir)
      rintro ⟨dir, hmem, habove⟩
      have hdir : dir.length ≤ 1 := by
        simp only [List.mem_cons, List.not_mem_nil, or_false] at hmem
        rcases hmem with rfl | rfl | rfl | rfl <;> decide
      exact hshort (habove.length_le.trans hdir)
  kept _ hdir := runUnder_dir openRoot fates hdir

end Opened

section Turns

variable {tree tree' : Tree} {e : Happening}

-- The calls that can have been made, from beginning to end, when the event is over.
inductive Stage (e : Happening) (tree : Tree) : Tree → Prop
  | nothing : Stage e tree tree
  | done {op op' : StorageOp} (hop : e.op = some op) (hcut : CutTo op (some op'))
      (apart : Option IoError) : Stage e tree (fsStorageOn apart op' tree).2

theorem stage_afterwards {op : StorageOp} {done : Option StorageOp} (hop : e.op = some op)
    (hcut : CutTo op done) (tree : Tree) : Stage e tree (afterwards done tree) := by
  cases done with
  | none => exact .nothing
  | some op' =>
      rw [afterwards_call]
      exact .done hop hcut none

theorem ManifestsSound.stage (h : ManifestsSound tree) {stage : Tree} (hstage : Stage e tree stage) :
    ManifestsSound stage := by
  cases hstage with
  | nothing => exact h
  | @done _ op' _ _ apart => exact h.request apart op'

theorem Sound.stage (h : Sound tree) {stage : Tree} (hstage : Stage e tree stage) :
    Sound stage := by
  cases hstage with
  | nothing => exact h
  | @done _ op' _ _ apart => exact h.call ⟨.request op', apart⟩

-- Whatever happens comes to some calls that were made and temporary files, or tears a blob.
theorem turn_cases (h : Laid tree) (hturn : Turn e tree tree') :
    (∃ stage, Stage e tree stage ∧ SameFiles stage tree' ∧ Laid tree') ∨
      ∃ d part, e.Tears d ∧ TornAt d part tree tree' := by
  cases hturn with
  | call op apart _ =>
      left
      cases op with
      | request op =>
          exact ⟨_, .done rfl (.whole op) apart, fun _ _ => rfl, laid_call apart h op⟩
      | blobSize repo d =>
          have hsame : (fsStore apart (.blobSize repo d) tree).2 = tree :=
            congrArg Prod.snd (run_blobSize h d)
          rw [hsame]
          exact ⟨tree, .nothing, fun _ _ => rfl, h⟩
      | listAllBlobs =>
          obtain ⟨listing, hrun, -⟩ := run_listAllBlobs h
          have hsame : (fsStore apart .listAllBlobs tree).2 = tree := congrArg Prod.snd hrun
          rw [hsame]
          exact ⟨tree, .nothing, fun _ _ => rfl, h⟩
  | faulty op fates _ =>
      rcases comesTo_under h op fates with ⟨hlaid, done, hcut, hsame⟩ | ⟨d, part, htears, htorn⟩
      · exact .inl ⟨_, stage_afterwards rfl hcut tree, hsame, hlaid⟩
      · obtain ⟨_, _, _, fate, rfl, -, -, hcut, -⟩ := htears
        exact .inr ⟨d, part, ⟨rfl, fate, hcut⟩, htorn⟩
  | opened fates _ =>
      have hchanges := changes_openRoot fates tree
      have hlaid : Laid (runUnder openRoot fates tree).2 := by
        refine h.of_changes hchanges (fun _ hfile => hfile.elim) ?_ fun id hmade => ?_
        · intro path hmade _
          omega
        · exact absurd hmade (by simp [uploadPath])
      exact .inl ⟨tree, .nothing, fun path _ => hchanges.others path id, hlaid⟩

theorem Turn.manifests (hturn : Turn e tree tree') (h : ManifestsSound tree) :
    ManifestsSound tree' := by
  rcases turn_cases h.toLaid hturn with ⟨_, hstage, hsame, hlaid⟩ | ⟨_, _, -, htorn⟩
  · exact (h.stage hstage).sameFiles hlaid hsame
  · exact h.torn htorn

theorem Turn.sound (hturn : Turn e tree tree') (hwhole : e.Whole) (h : Sound tree) :
    Sound tree' := by
  rcases turn_cases h.toLaid hturn with ⟨_, hstage, hsame, hlaid⟩ | ⟨d, _, htears, -⟩
  · exact (h.stage hstage).sameFiles hlaid hsame
  · exact absurd htears (hwhole d)

theorem Life.manifests {first : Tree} {events : List Happening} (hlife : Life first events tree)
    (h : ManifestsSound first) : ManifestsSound tree := by
  induction hlife with
  | start => exact h
  | turn _ hturn ih => exact hturn.manifests ih

theorem Life.sound {first : Tree} {events : List Happening} (hlife : Life first events tree)
    (hwhole : ∀ e ∈ events, e.Whole) (h : Sound first) : Sound tree := by
  induction hlife with
  | start => exact h
  | turn _ hturn ih =>
      exact hturn.sound (hwhole _ (by simp)) (ih fun e he => hwhole e (List.mem_append_left [_] he))

-- What calls keep and temporary files and torn blobs do not matter to, a whole life keeps.
theorem life_invariant {inv : Tree → Prop} {allowed : StorageOp → Prop} (torn : Digest → Prop)
    (hfiles : ∀ tree tree', SameFiles tree tree' → inv tree → inv tree')
    (hcall : ∀ tree op apart, ManifestsSound tree → allowed op → inv tree →
      inv (fsStorageOn apart op tree).2)
    (htorn : ∀ tree tree' d part, torn d → TornAt d part tree tree' → inv tree → inv tree')
    {first : Tree} {events : List Happening} (hlife : Life first events tree)
    (hallowed : ∀ e ∈ events, ∀ op, e.op = some op → ∀ op', CutTo op (some op') → allowed op')
    (htears : ∀ e ∈ events, ∀ d, e.Tears d → torn d)
    (hsound : ManifestsSound first) (hfirst : inv first) : inv tree := by
  induction hlife with
  | start => exact hfirst
  | @turn events e tree tree' hbefore hturn ih =>
      have hinv := ih (fun e he => hallowed e (List.mem_append_left [_] he))
        fun e he => htears e (List.mem_append_left [_] he)
      have hmid := hbefore.manifests hsound
      rcases turn_cases hmid.toLaid hturn with ⟨stage, hstage, hsame, -⟩ | ⟨d, part, he, hat⟩
      · refine hfiles stage tree' hsame ?_
        cases hstage with
        | nothing => exact hinv
        | @done op op' hop hcut apart =>
            exact hcall tree op' apart hmid (hallowed e (by simp) op hop op' hcut) hinv
      · exact htorn tree tree' d part (htears e (by simp) d he) hat hinv

end Turns

-- The calls that look one thing up, under a name that no temporary file has.
def Looked : StorageOp → Prop
  | .blobExists _ _ | .blobRead _ _ | .manifestGet _ (.digest _) => True
  | .uploadStatus _ id => isTmp id = false
  | .manifestGet _ (.tag tag) => isTmp tag = false
  | _ => False

section Atomic

variable {tree tree' : Tree}

-- What is looked up is a matter of the files.
theorem answer_sameFiles (h : Laid tree) (h' : Laid tree') (hsame : SameFiles tree tree')
    {look : StorageOp} (hlook : Looked look) : look.answer tree' = look.answer tree := by
  have hblob : ∀ d, (shelf tree').blobs d = (shelf tree).blobs d :=
    fun d => hsame _ (blob_not_temporary d)
  have hmanifest : ∀ repo d, tree'.fileAt (manifestDigestPath repo d) =
      tree.fileAt (manifestDigestPath repo d) :=
    fun repo d => hsame _ (manifest_not_temporary repo d)
  cases look with
  | blobExists repo d =>
      show ((blobExists d).run Tree.handle tree').1.toOption =
        ((blobExists d).run Tree.handle tree).1.toOption
      rw [run_blobExists h', run_blobExists h, hblob]
  | blobRead repo d =>
      show ((blobRead d).run Tree.handle tree').1.toOption =
        ((blobRead d).run Tree.handle tree).1.toOption
      rw [run_blobRead h', run_blobRead h, hblob]
  | uploadStatus repo id =>
      have hsession : (shelf tree').sessions id = (shelf tree).sessions id :=
        hsame _ (not_temporary hlook)
      show ((uploadStatus id).run Tree.handle tree').1.toOption =
        ((uploadStatus id).run Tree.handle tree).1.toOption
      rw [run_uploadStatus_laid h', run_uploadStatus_laid h, hsession]
  | manifestGet repo reference =>
      cases reference with
      | digest d => rw [answer_digest, answer_digest, hmanifest]
      | tag tag =>
          by_cases hdots : tag = "." ∨ tag = ".."
          · rw [answer_dots _ _ hdots, answer_dots _ _ hdots]
          · have htag : tree'.fileAt (manifestTagPath repo tag) =
                tree.fileAt (manifestTagPath repo tag) := hsame _ (not_temporary hlook)
            rw [answer_tag _ _ (not_or.mp hdots), answer_tag _ _ (not_or.mp hdots), tagTarget,
              tagTarget, htag]
            simp only [hmanifest]
  | _ => exact hlook.elim

end Atomic

section Addressed

variable {tree : Tree}

-- Through any life in which no copy of a session is cut short, what is stored under a digest
-- hashes to it, and what is listed is there.
theorem life_addressed {events : List Happening} (hlife : Life new events tree)
    (hwhole : ∀ e ∈ events, e.Whole) (apart : Option IoError) :
    (∀ repo d bytes, (fsStore apart (.request (.blobRead repo d)) tree).1 = .ok bytes →
      hashContent d.algorithm bytes = d) ∧
    (∀ repo d bytes, (fsStore apart (.request (.manifestGet repo (.digest d))) tree).1 = .ok bytes →
      hashContent .sha256 bytes = d) ∧
    (∃ listing, (fsStore apart .listAllBlobs tree).1 = .ok listing ∧ ∀ repo d, d ∈ listing ↔
      ∃ bytes, (fsStore apart (.request (.blobRead repo d)) tree).1 = .ok bytes) ∧
    ∀ repo listing, (fsStore apart (.request (.listManifestDigests repo)) tree).1 = .ok listing →
      ∀ d ∈ listing, ∃ bytes,
        (fsStore apart (.request (.manifestGet repo (.digest d))) tree).1 = .ok bytes := by
  have h := hlife.sound hwhole sound_new
  have hread : ∀ repo d, (fsStore apart (.request (.blobRead repo d)) tree).1 =
      orNotFound ((shelf tree).blobs d) :=
    fun repo d => congrArg Prod.fst (run_blobRead h.toLaid d)
  refine ⟨fun repo d bytes hok => ?_, fun repo d bytes => h.read_manifest_ok, ?_,
    fun repo listing hlist d hd => listed_manifest hlist hd⟩
  · rw [hread] at hok
    cases hblob : (shelf tree).blobs d with
    | none =>
        rw [hblob] at hok
        cases hok
    | some found =>
        rw [hblob] at hok
        rw [← Except.ok.inj hok]
        exact h.blobs_hash d found hblob
  · obtain ⟨listing, hrun, hmem⟩ := run_listAllBlobs h.toLaid
    refine ⟨listing, congrArg Prod.fst hrun, fun repo d => ?_⟩
    rw [hmem, hread]
    cases (shelf tree).blobs d <;> simp [orNotFound]

end Addressed

section Durable

variable {tree tree' : Tree} (apart : Option IoError)

-- What a call that was cut short may have come to is no deletion, unless the call is it.
theorem CutTo.same_or {op op' : StorageOp} (h : CutTo op (some op')) : op' = op ∨
    (∃ repo reference content, op' = .manifestPut repo reference content) ∨
      (∃ repo id chunk, op' = .uploadAppend repo id chunk) ∨
        ∃ repo d bytes, op' = .blobWrite repo d bytes := by
  cases h with
  | whole _ => exact .inl rfl
  | untagged repo tag content => exact .inr (.inl ⟨_, _, _, rfl⟩)
  | part repo id chunk n => exact .inr (.inr (.inl ⟨_, _, _, rfl⟩))
  | filed repo id d bytes => exact .inr (.inr (.inr ⟨_, _, _, rfl⟩))

def Shelf.Has (s : Shelf) (d : Digest) : Prop :=
  ∃ bytes, s.blobs d = some bytes ∧ hashContent d.algorithm bytes = d

theorem Shelf.serve_keeps {s : Shelf} {op : StorageOp} {d : Digest}
    (hop : ∀ repo, op ≠ .blobDelete repo d) (h : s.Has d) : (s.serve op).2.Has d := by
  have hput : ∀ {d' : Digest} {bytes : Bytes}, hashContent d'.algorithm bytes = d' →
      (s.put d' bytes).Has d := by
    intro d' bytes hhash
    rw [Shelf.Has, Shelf.put_blobs]
    split
    · rename_i heq
      exact ⟨bytes, rfl, heq ▸ hhash⟩
    · exact h
  cases op with
  | blobWrite _ d' content =>
      simp only [Shelf.serve]
      split
      · rename_i hhash
        exact hput hhash
      · exact h
  | blobDelete repo d' =>
      have hne : d ≠ d' := by
        rintro rfl
        exact hop repo rfl
      simp only [Shelf.serve]
      split
      · rw [Shelf.Has, Shelf.drop_blobs, if_neg hne]
        exact h
      · exact h
  | uploadFinalize _ id d' =>
      simp only [Shelf.serve]
      split
      · split
        · rename_i hhash
          rw [Shelf.Has, Shelf.close_blobs]
          exact hput hhash
        · exact h
      · exact h
  | uploadAppend _ id chunk =>
      simp only [Shelf.serve]
      split <;> exact h
  | uploadCancel _ id =>
      simp only [Shelf.serve]
      split <;> exact h
  | blobExists _ _ | blobRead _ _ | uploadCreate _ _ | uploadStatus _ _ | manifestGet _ _
  | manifestPut _ _ _ | manifestDelete _ _ | listRepos | listTags _ | listManifestDigests _ =>
      exact h

-- The blob is there, and it is the one.
def HasBlob (d : Digest) (tree : Tree) : Prop :=
  ∃ bytes, tree.fileAt (blobPath d) = some bytes ∧ hashContent d.algorithm bytes = d

theorem call_keeps_blob (h : ManifestsSound tree) {op : StorageOp} {d : Digest}
    (hop : ∀ repo, op ≠ .blobDelete repo d) (hblob : HasBlob d tree) :
    HasBlob d (fsStorageOn apart op tree).2 := by
  show (shelf (fsStorageOn apart op tree).2).Has d
  rw [(serves_call apart h.toLaid op).1]
  exact Shelf.serve_keeps hop hblob

def HasManifest (repo : String) (d : Digest) (tree : Tree) : Prop :=
  (tree.fileAt (manifestDigestPath repo d)).isSome

theorem call_keeps_manifest (h : ManifestsSound tree) {op : StorageOp} {repo : String} {d : Digest}
    (hop : op ≠ .manifestDelete repo (.digest d)) (hmanifest : HasManifest repo d tree) :
    HasManifest repo d (fsStorageOn apart op tree).2 := by
  by_cases htouch : op.Touches (manifestDigestPath repo d)
  · cases op with
    | manifestPut repo' reference content =>
        rcases put_content tree repo d repo' reference content with hsame | ⟨hcontent, -⟩
        · exact (congrArg Option.isSome hsame).trans hmanifest
        · exact congrArg Option.isSome hcontent
    | manifestDelete repo' reference =>
        cases reference with
        | digest d' =>
            obtain ⟨rfl, rfl⟩ := digestPath_inj.mp
              (show manifestDigestPath repo d = manifestDigestPath repo' d' from htouch)
            exact absurd rfl hop
        | tag tag => exact absurd htouch.symm (tagPath_ne_digestPath repo' repo tag d)
    | blobWrite _ d' _ => exact absurd htouch (not_or.mpr (manifest_not_blob d'))
    | blobDelete _ d' => exact absurd htouch (manifest_not_blob d').1
    | uploadFinalize _ id d' =>
        exact absurd htouch (not_or.mpr ⟨(manifest_not_blob d').1, manifest_not_upload id⟩)
    | uploadCreate _ id | uploadAppend _ id _ | uploadCancel _ id =>
        exact absurd htouch (manifest_not_upload id)
    | blobExists _ _ | blobRead _ _ | uploadStatus _ _ | manifestGet _ _ | listRepos | listTags _
    | listManifestDigests _ => exact htouch.elim
  · rw [HasManifest, (changes_call apart h.toLaid op).others _ htouch]
    exact hmanifest

theorem life_keeps_blob {events : List Happening} {d : Digest} (hlife : Life tree events tree')
    (h : ManifestsSound tree) (hevents : ∀ e ∈ events, ∀ repo, e.op ≠ some (.blobDelete repo d))
    (hwhole : ∀ e ∈ events, ¬e.Tears d) (hblob : HasBlob d tree) : HasBlob d tree' := by
  have hcall : ∀ tree op apart, ManifestsSound tree → (∀ repo, op ≠ .blobDelete repo d) →
      HasBlob d tree → HasBlob d (fsStorageOn apart op tree).2 :=
    fun tree op apart hsound hop => call_keeps_blob apart hsound hop
  refine life_invariant (· ≠ d) ?_ hcall ?_ hlife ?_ ?_ h hblob
  · intro tree tree' hsame hblob
    rw [HasBlob, hsame _ (blob_not_temporary d)]
    exact hblob
  · intro tree tree' d' part hne hat hblob
    rw [HasBlob, hat.others _ fun heq => hne (blobPath_injective heq.symm)]
    exact hblob
  · rintro e he op hop op' hcut repo rfl
    rcases hcut.same_or with rfl | ⟨_, _, _, heq⟩ | ⟨_, _, _, heq⟩ | ⟨_, _, _, heq⟩
    · exact hevents e he repo hop
    · cases heq
    · cases heq
    · cases heq
  · rintro e he d' htears rfl
    exact hwhole e he htears

theorem life_keeps_manifest {events : List Happening} {repo : String} {d : Digest}
    (hlife : Life tree events tree') (h : ManifestsSound tree)
    (hevents : ∀ e ∈ events, e.op ≠ some (.manifestDelete repo (.digest d)))
    (hmanifest : HasManifest repo d tree) : HasManifest repo d tree' := by
  have hcall : ∀ tree op apart, ManifestsSound tree → op ≠ .manifestDelete repo (.digest d) →
      HasManifest repo d tree → HasManifest repo d (fsStorageOn apart op tree).2 :=
    fun tree op apart hsound hop => call_keeps_manifest apart hsound hop
  refine life_invariant (fun _ => True) ?_ hcall ?_ hlife ?_ (fun _ _ _ _ => trivial) h
    hmanifest
  · intro tree tree' hsame hmanifest
    rw [HasManifest, hsame _ (manifest_not_temporary repo d)]
    exact hmanifest
  · intro tree tree' d' part _ hat hmanifest
    rw [HasManifest, hat.others _ (manifest_not_blob d').1]
    exact hmanifest
  · rintro e he op hop op' hcut rfl
    rcases hcut.same_or with rfl | ⟨_, _, _, heq⟩ | ⟨_, _, _, heq⟩ | ⟨_, _, _, heq⟩
    · exact hevents e he hop
    · cases heq
    · cases heq
    · cases heq

-- What is there once a push is acknowledged.

theorem hasBlob_of_write (h : Laid tree) {repo : String} {d : Digest} {content : Bytes}
    (hok : (fsStorageOn apart (.blobWrite repo d content) tree).1 = .ok ()) :
    HasBlob d (fsStorageOn apart (.blobWrite repo d content) tree).2 := by
  obtain ⟨hshelf, hanswer⟩ := serves_call apart h (.blobWrite repo d content)
  show (shelf (fsStorageOn apart (.blobWrite repo d content) tree).2).Has d
  rw [hshelf]
  by_cases hhash : hashContent d.algorithm content = d
  · rw [Shelf.serve, if_pos hhash, Shelf.Has, Shelf.put_blobs, if_pos rfl]
    exact ⟨content, rfl, hhash⟩
  · rw [hanswer _ (by rw [Shelf.serve, if_neg hhash])] at hok
    cases hok

theorem hasBlob_of_finalize (h : Laid tree) {repo id : String} {d : Digest}
    (hok : (fsStorageOn apart (.uploadFinalize repo id d) tree).1 = .ok ()) :
    HasBlob d (fsStorageOn apart (.uploadFinalize repo id d) tree).2 := by
  obtain ⟨hshelf, hanswer⟩ := serves_call apart h (.uploadFinalize repo id d)
  show (shelf (fsStorageOn apart (.uploadFinalize repo id d) tree).2).Has d
  rw [hshelf]
  simp only [Shelf.serve] at hanswer ⊢
  split
  · rename_i bytes hsession
    simp only [hsession] at hanswer
    split
    · rename_i hhash
      rw [Shelf.Has, Shelf.close_blobs, Shelf.put_blobs, if_pos rfl]
      exact ⟨bytes, rfl, hhash⟩
    · rename_i hhash
      rw [if_neg hhash] at hanswer
      rw [hanswer _ rfl] at hok
      cases hok
  · rename_i hsession
    simp only [hsession] at hanswer
    rw [hanswer _ rfl] at hok
    cases hok

theorem stored_of_put {repo : String} {content : Bytes} {mid : Tree}
    (h : (putManifest repo content).run Tree.handle tree = (.ok (), mid)) :
    mid.fileAt (manifestDigestPath repo (hashContent .sha256 content)) = some content := by
  rw [putManifest, Fallible.run_mapError, manifestDigestPath, atomicWrite_eq] at h
  rcases hrun : (replaceFile (tmpName (hashContent .sha256 content).toString :: "digests" ::
    repoPath repo) ((hashContent .sha256 content).toString :: "digests" :: repoPath repo)
      content).run Tree.handle tree with ⟨result, after⟩
  rw [hrun] at h
  obtain ⟨hresult, rfl⟩ := Prod.mk.inj h
  cases result with
  | error err => cases hresult
  | ok _ => exact Tree.fileAt_of_replaced hrun

omit [Sha2] in
theorem putReference_ok {repo : String} {reference : Reference} {digest answer : Digest}
    (h : (putReference repo reference digest).run Tree.handle tree = (.ok answer, tree')) :
    answer = digest := by
  cases reference with
  | digest d => exact (Except.ok.inj (Prod.mk.inj h).1).symm
  | tag tag =>
      by_cases hdot : tag = "."
      · subst hdot
        rw [putReference_dot] at h
        obtain ⟨_, _, -, h⟩ := Fallible.run_bind_eq_ok h
        obtain ⟨_, _, -, h⟩ := Fallible.run_bind_eq_ok h
        cases (Prod.mk.inj h).1
      by_cases hdots : tag = ".."
      · subst hdots
        obtain ⟨_, _, -, h⟩ := Fallible.run_bind_eq_ok h
        cases (Prod.mk.inj h).1
      · rw [putReference, if_neg hdot, if_neg hdots] at h
        obtain ⟨_, _, -, h⟩ := Fallible.run_bind_eq_ok h
        exact (Except.ok.inj (Prod.mk.inj h).1).symm

theorem hasManifest_of_put {repo : String} {reference : Reference} {content : Bytes}
    {digest : Digest}
    (hok : (fsStorageOn apart (.manifestPut repo reference content) tree).1 = .ok digest) :
    HasManifest repo digest (fsStorageOn apart (.manifestPut repo reference content) tree).2 := by
  have hrun : (StorageOp.body tree (.manifestPut repo reference content)).run Tree.handle tree =
      (.ok digest, (fsStorageOn apart (.manifestPut repo reference content) tree).2) :=
    Fallible.run_eq_mk hok rfl
  generalize (fsStorageOn apart (.manifestPut repo reference content) tree).2 = after at hrun ⊢
  rw [body_manifestPut] at hrun
  obtain ⟨_, mid, hstore, hrest⟩ := Fallible.run_bind_eq_ok hrun
  have hkept : ((putReference repo reference (hashContent .sha256 content)).run Tree.handle
      mid).2.fileAt (manifestDigestPath repo digest) =
        mid.fileAt (manifestDigestPath repo digest) :=
    putReference_content mid repo reference _
  rw [hrest] at hkept
  rw [HasManifest, hkept, putReference_ok hrest, stored_of_put hstore]
  rfl

theorem read_blob_later {after : List Happening} {d : Digest} (h : ManifestsSound tree)
    (hblob : HasBlob d tree) (hafter : Life tree after tree')
    (hevents : ∀ e ∈ after, ∀ repo, e.op ≠ some (.blobDelete repo d))
    (hwhole : ∀ e ∈ after, ¬e.Tears d) (repo : String) : ∃ bytes,
      (fsStorageOn apart (.blobRead repo d) tree').1 = .ok bytes ∧
        hashContent d.algorithm bytes = d := by
  have hlast := hafter.manifests h
  obtain ⟨bytes, hbytes, hhash⟩ := life_keeps_blob hafter h hevents hwhole hblob
  refine ⟨bytes, ?_, hhash⟩
  show ((blobRead d).run Tree.handle tree').1 = .ok bytes
  rw [run_blobRead hlast.toLaid]
  show orNotFound (tree'.fileAt (blobPath d)) = .ok bytes
  rw [hbytes]
  rfl

theorem read_manifest_later {after : List Happening} {repo : String} {d : Digest}
    (h : ManifestsSound tree) (hmanifest : HasManifest repo d tree) (hafter : Life tree after tree')
    (hevents : ∀ e ∈ after, e.op ≠ some (.manifestDelete repo (.digest d))) : ∃ bytes,
      (fsStorageOn apart (.manifestGet repo (.digest d)) tree').1 = .ok bytes ∧
        hashContent .sha256 bytes = d := by
  have hlast := hafter.manifests h
  obtain ⟨bytes, hbytes⟩ :=
    Option.isSome_iff_exists.mp (life_keeps_manifest hafter h hevents hmanifest)
  refine ⟨bytes, ?_, hlast.manifests_hash repo d bytes hbytes⟩
  have hread : (fsStorageOn apart (.manifestGet repo (.digest d)) tree').1 =
      (tree'.read (manifestDigestPath repo d)).mapError ioToStorage := read_manifest repo d apart
  rw [hread, Tree.read_ok.mpr hbytes]
  rfl

-- What was acknowledged outlasts every other call and every crash, until it is deleted, or,
-- for a blob, until a copy of a session to it is cut short.
theorem life_durable {before after : List Happening} (hbefore : Life new before tree) :
    (∀ repo d, (∃ content, (fsStorageOn apart (.blobWrite repo d content) tree).1 = .ok () ∧
          Life (fsStorageOn apart (.blobWrite repo d content) tree).2 after tree') ∨
        (∃ id, (fsStorageOn apart (.uploadFinalize repo id d) tree).1 = .ok () ∧
          Life (fsStorageOn apart (.uploadFinalize repo id d) tree).2 after tree') →
      (∀ e ∈ after, ∀ repo, e.op ≠ some (.blobDelete repo d)) → (∀ e ∈ after, ¬e.Tears d) →
      ∀ apart repo, ∃ bytes, (fsStorageOn apart (.blobRead repo d) tree').1 = .ok bytes ∧
          hashContent d.algorithm bytes = d) ∧
    ∀ repo reference content digest,
      (fsStorageOn apart (.manifestPut repo reference content) tree).1 = .ok digest →
      Life (fsStorageOn apart (.manifestPut repo reference content) tree).2 after tree' →
      (∀ e ∈ after, e.op ≠ some (.manifestDelete repo (.digest digest))) → ∀ apart, ∃ bytes,
        (fsStorageOn apart (.manifestGet repo (.digest digest)) tree').1 = .ok bytes ∧
          hashContent .sha256 bytes = digest := by
  have h := hbefore.manifests sound_new.toManifestsSound
  have hcall : ∀ op, ManifestsSound (fsStorageOn apart op tree).2 := h.request apart
  constructor
  · rintro repo d (⟨content, hok, hafter⟩ | ⟨id, hok, hafter⟩) hevents hwhole apart' repo'
    · exact read_blob_later apart' (hcall _) (hasBlob_of_write apart h.toLaid hok) hafter hevents
        hwhole repo'
    · exact read_blob_later apart' (hcall _) (hasBlob_of_finalize apart h.toLaid hok) hafter
        hevents hwhole repo'
  · intro repo reference content digest hok hafter hevents apart'
    exact read_manifest_later apart' (hcall _) (hasManifest_of_put apart hok) hafter hevents

end Durable

section Tags

variable {tree tree' : Tree}

-- Every tag names a manifest that is there.
def TagsLead (tree : Tree) : Prop := ∀ repo tag bytes, isTmp tag = false →
  tree.fileAt (manifestTagPath repo tag) = some bytes → (tag ≠ "." ∧ tag ≠ "..") ∧
    ∃ d, bytes = utf8 d.toString ∧ HasManifest repo d tree

omit [Sha2] in
theorem tag_below_manifests (repo tag : String) : ["manifests"] <:+ manifestTagPath repo tag :=
  below_manifests [_, _] repo

omit [Sha2] in
theorem tag_not_blob (repo tag : String) (d : Digest) : manifestTagPath repo tag ≠ blobPath d := by
  intro heq
  exact absurd (last_unique (heq ▸ tag_below_manifests repo tag) (blobs_suffix d)) (by decide)

-- Only pushes and deletions of the tag touch its file.
theorem touches_tag {op : StorageOp} {repo tag : String} (htag : isTmp tag = false)
    (htouch : op.Touches (manifestTagPath repo tag)) :
    (tag ≠ "." ∧ tag ≠ ".." ∧ ∃ content, op = .manifestPut repo (.tag tag) content) ∨
      op = .manifestDelete repo (.tag tag) := by
  have hplain : ¬Temporary (manifestTagPath repo tag) := not_temporary htag
  have hblob := tag_not_blob repo tag
  have hupload : ∀ id, manifestTagPath repo tag ≠ uploadPath id := by
    intro id heq
    exact absurd (last_unique (heq ▸ tag_below_manifests repo tag) (uploads_suffix id)) (by decide)
  have htmp : ∀ name parent, manifestTagPath repo tag ≠ tmpName name :: parent :=
    fun name parent heq => hplain ⟨_, _, heq, isTmp_tmpName name⟩
  cases op with
  | manifestPut repo' reference content =>
      rcases htouch with heq | heq | href
      · exact absurd heq (tagPath_ne_digestPath repo repo' tag _)
      · exact absurd heq (htmp _ _)
      · cases reference with
        | digest d => exact href.elim
        | tag tag' =>
            simp only [PutTouches] at href
            split at href
            · exact absurd href (htmp _ _)
            · rename_i hdots
              rcases href with heq | heq
              · obtain ⟨rfl, rfl⟩ := tagPath_inj.mp heq
                exact .inl ⟨(not_or.mp hdots).1, (not_or.mp hdots).2, content, rfl⟩
              · exact absurd heq (htmp _ _)
  | manifestDelete repo' reference =>
      cases reference with
      | digest d => exact absurd htouch (tagPath_ne_digestPath repo repo' tag d)
      | tag tag' =>
          obtain ⟨rfl, rfl⟩ := tagPath_inj.mp
            (show manifestTagPath repo tag = manifestTagPath repo' tag' from htouch)
          exact .inr rfl
  | blobWrite _ d _ =>
      rcases htouch with heq | heq
      · exact absurd heq (hblob d)
      · exact absurd heq (htmp _ _)
  | blobDelete _ d => exact absurd htouch (hblob d)
  | uploadFinalize _ id d =>
      rcases htouch with heq | heq
      · exact absurd heq (hblob d)
      · exact absurd heq (hupload id)
  | uploadCreate _ id | uploadAppend _ id _ | uploadCancel _ id => exact absurd htouch (hupload id)
  | blobExists _ _ | blobRead _ _ | uploadStatus _ _ | manifestGet _ _ | listRepos | listTags _
  | listManifestDigests _ => exact htouch.elim

-- A push writes the tag once the manifest is there.
theorem put_tag_file (tree : Tree) (repo : String) {tag : String} (htag : isTmp tag = false)
    (hdots : tag ≠ "." ∧ tag ≠ "..") (content : Bytes) :
    let after := (fsStorage (.manifestPut repo (.tag tag) content) tree).2
    after.fileAt (manifestTagPath repo tag) = tree.fileAt (manifestTagPath repo tag) ∨
      after.fileAt (manifestTagPath repo tag) =
        some (utf8 (hashContent .sha256 content).toString) ∧
          HasManifest repo (hashContent .sha256 content) after := by
  intro after
  have hfirst : Tree.Frozen (· = manifestTagPath repo tag) (fun _ => False) tree
      ((putManifest repo content).run Tree.handle tree).2 := by
    refine (frozen_atomicWrite content (fun heq => ?_) (fun heq => ?_) fun _ _ => id).mapError _
    · exact tagPath_ne_digestPath repo repo tag _ heq.symm
    · exact not_temporary htag ⟨_, _, heq.symm, isTmp_tmpName _⟩
  rcases hrun : (putManifest repo content).run Tree.handle tree with ⟨result, mid⟩
  rw [hrun] at hfirst
  have hmid : mid.fileAt (manifestTagPath repo tag) = tree.fileAt (manifestTagPath repo tag) :=
    (hfirst.kept _ rfl).fileAt
  have hafter : after = ((StorageOp.body tree (.manifestPut repo (.tag tag) content)).run
    Tree.handle tree).2 := rfl
  rw [body_manifestPut] at hafter
  cases result with
  | error err =>
      rw [Fallible.run_bind_of_error hrun] at hafter
      rw [hafter]
      exact .inl hmid
  | ok _ =>
      rw [Fallible.run_bind_of_ok hrun] at hafter
      have hmanifest : HasManifest repo (hashContent .sha256 content) after := by
        rw [HasManifest, hafter, putReference_content, stored_of_put hrun]
        rfl
      rw [putReference, if_neg hdots.1, if_neg hdots.2, run_of_last,
        Fallible.run_mapError] at hafter
      have hne : manifestTagPath repo tag ≠ tmpName tag :: "tags" :: repoPath repo :=
        fun heq => not_temporary htag ⟨_, _, heq, isTmp_tmpName tag⟩
      generalize utf8 (hashContent .sha256 content).toString = text at hafter ⊢
      have hcases : ((atomicWrite (manifestTagPath repo tag) text).run Tree.handle mid).2.fileAt
          (manifestTagPath repo tag) = mid.fileAt (manifestTagPath repo tag) ∨
            ((atomicWrite (manifestTagPath repo tag) text).run Tree.handle mid).2.fileAt
              (manifestTagPath repo tag) = some text := Tree.replaceFile_content hne text
      rcases hcases with hsame | hwritten
      · exact .inl ((congrArg (Tree.fileAt · _) hafter).trans (hsame.trans hmid))
      · exact .inr ⟨(congrArg (Tree.fileAt · _) hafter).trans hwritten, hmanifest⟩

theorem call_keeps_lead (apart : Option IoError) (h : ManifestsSound tree) {op : StorageOp}
    (hop : ∀ repo d, op ≠ .manifestDelete repo (.digest d)) (hlead : TagsLead tree) :
    TagsLead (fsStorageOn apart op tree).2 := by
  intro repo tag bytes htag hfile
  have hkept : tree.fileAt (manifestTagPath repo tag) = some bytes → (tag ≠ "." ∧ tag ≠ "..") ∧
      ∃ d, bytes = utf8 d.toString ∧ HasManifest repo d (fsStorageOn apart op tree).2 := by
    intro hold
    obtain ⟨hdots, d, hd, hmanifest⟩ := hlead repo tag bytes htag hold
    exact ⟨hdots, d, hd, call_keeps_manifest apart h (hop repo d) hmanifest⟩
  by_cases htouch : op.Touches (manifestTagPath repo tag)
  · rcases touches_tag htag htouch with ⟨hdot, hdots, content, rfl⟩ | rfl
    · rcases put_tag_file tree repo htag ⟨hdot, hdots⟩ content with hsame | ⟨hwritten, hmanifest⟩
      · exact hkept (hsame.symm.trans hfile)
      · exact ⟨⟨hdot, hdots⟩, _, Option.some.inj (hfile.symm.trans hwritten), hmanifest⟩
    · rcases delete_content tree repo (.tag tag) with hsame | ⟨path, -, hremoved⟩
      · exact hkept ((congrArg (Tree.fileAt · _) hsame).symm.trans hfile)
      · rcases remove_content tree path (manifestTagPath repo tag) with hsame | hgone
        · exact hkept (hsame.symm.trans ((congrArg (Tree.fileAt · _) hremoved).symm.trans hfile))
        · have hnone := (congrArg (Tree.fileAt · (manifestTagPath repo tag)) hremoved).trans hgone
          cases hfile.symm.trans hnone
  · exact hkept (((changes_call apart h.toLaid op).others _ htouch).symm.trans hfile)

-- The tag names the manifest, which is there.
structure TagNames (repo tag : String) (d : Digest) (tree : Tree) : Prop where
  file : tree.fileAt (manifestTagPath repo tag) = some (utf8 d.toString)
  manifest : HasManifest repo d tree

-- The calls that leave the tag and its manifest alone.
structure SparesTag (repo tag : String) (d : Digest) (op : StorageOp) : Prop where
  put : ∀ content, op ≠ .manifestPut repo (.tag tag) content
  delete : op ≠ .manifestDelete repo (.tag tag)
  manifest : op ≠ .manifestDelete repo (.digest d)

theorem names_of_put (apart : Option IoError) {repo tag : String} {content : Bytes} {d : Digest}
    (hok : (fsStorageOn apart (.manifestPut repo (.tag tag) content) tree).1 = .ok d) :
    (tag ≠ "." ∧ tag ≠ "..") ∧
      TagNames repo tag d (fsStorageOn apart (.manifestPut repo (.tag tag) content) tree).2 := by
  have hmanifest := hasManifest_of_put apart hok
  have hrun : (StorageOp.body tree (.manifestPut repo (.tag tag) content)).run Tree.handle tree =
      (.ok d, (fsStorageOn apart (.manifestPut repo (.tag tag) content) tree).2) :=
    Fallible.run_eq_mk hok rfl
  generalize (fsStorageOn apart (.manifestPut repo (.tag tag) content) tree).2 = after
    at hrun hmanifest ⊢
  rw [body_manifestPut] at hrun
  obtain ⟨_, mid, -, hrest⟩ := Fallible.run_bind_eq_ok hrun
  have hdots : tag ≠ "." ∧ tag ≠ ".." := by
    constructor
    · rintro rfl
      rw [putReference_dot] at hrest
      obtain ⟨_, _, -, hrest⟩ := Fallible.run_bind_eq_ok hrest
      obtain ⟨_, _, -, hrest⟩ := Fallible.run_bind_eq_ok hrest
      cases (Prod.mk.inj hrest).1
    · rintro rfl
      obtain ⟨_, _, -, hrest⟩ := Fallible.run_bind_eq_ok hrest
      cases (Prod.mk.inj hrest).1
  obtain rfl := putReference_ok hrest
  refine ⟨hdots, ?_, hmanifest⟩
  rw [putReference, if_neg hdots.1, if_neg hdots.2] at hrest
  obtain ⟨_, last, hwrite, hpure⟩ := Fallible.run_bind_eq_ok hrest
  obtain rfl : last = after := (Prod.mk.inj hpure).2
  rw [Fallible.run_mapError, manifestTagPath, atomicWrite_eq] at hwrite
  rcases hreplace : (replaceFile (tmpName tag :: "tags" :: repoPath repo)
    (tag :: "tags" :: repoPath repo)
      (utf8 (hashContent .sha256 content).toString)).run Tree.handle mid with ⟨result, final⟩
  rw [hreplace] at hwrite
  obtain ⟨hresult, rfl⟩ := Prod.mk.inj hwrite
  cases result with
  | error err => cases hresult
  | ok _ => exact Tree.fileAt_of_replaced hreplace

theorem life_keeps_names {events : List Happening} {repo tag : String} {d : Digest}
    (hlife : Life tree events tree') (h : ManifestsSound tree) (htag : isTmp tag = false)
    (hevents : ∀ e ∈ events, ∀ op, e.op = some op → SparesTag repo tag d op)
    (hnames : TagNames repo tag d tree) : TagNames repo tag d tree' := by
  have hcall : ∀ tree op apart, ManifestsSound tree → SparesTag repo tag d op →
      TagNames repo tag d tree → TagNames repo tag d (fsStorageOn apart op tree).2 := by
    intro tree op apart hsound hop hnames
    have huntouched : ¬op.Touches (manifestTagPath repo tag) := by
      intro htouch
      rcases touches_tag htag htouch with ⟨-, -, content, heq⟩ | heq
      · exact hop.put content heq
      · exact hop.delete heq
    refine ⟨?_, call_keeps_manifest apart hsound hop.manifest hnames.manifest⟩
    exact ((changes_call apart hsound.toLaid op).others _ huntouched).trans hnames.file
  refine life_invariant (fun _ => True) ?_ hcall ?_ hlife ?_ (fun _ _ _ _ => trivial) h
    hnames
  · intro tree tree' hsame hnames
    refine ⟨(hsame _ (not_temporary htag)).trans hnames.file, ?_⟩
    rw [HasManifest, hsame _ (manifest_not_temporary repo d)]
    exact hnames.manifest
  · intro tree tree' d' part _ hat hnames
    refine ⟨(hat.others _ (tag_not_blob repo tag d')).trans hnames.file, ?_⟩
    rw [HasManifest, hat.others _ (manifest_not_blob d').1]
    exact hnames.manifest
  · intro e he op hop op' hcut
    cases hcut with
    | whole _ => exact hevents e he op hop
    | untagged _ _ _ | part _ _ _ _ | filed _ _ _ _ =>
        exact ⟨fun _ => by rintro ⟨⟩, by rintro ⟨⟩, by rintro ⟨⟩⟩

theorem TagNames.read {repo tag : String} {d : Digest} (hnames : TagNames repo tag d tree)
    (h : ManifestsSound tree) (hdots : tag ≠ "." ∧ tag ≠ "..") : ∃ content,
      hashContent .sha256 content = d ∧
        (fsStorage (.manifestGet repo (.tag tag)) tree).1 = .ok content ∧
          (fsStorage (.manifestGet repo (.digest d)) tree).1 = .ok content := by
  obtain ⟨content, hcontent⟩ := Option.isSome_iff_exists.mp hnames.manifest
  have htarget : tagTarget repo tag tree = some d := by
    rw [tagTarget, hnames.file, Option.bind_some, fromUtf8_utf8, Option.bind_some, trim_digest,
      fromStr_toString]
    rfl
  refine ⟨content, h.manifests_hash repo d content hcontent, ok_of_answer ?_, ok_of_answer ?_⟩
  · rw [answer_tag _ _ hdots, htarget]
    exact hcontent
  · rw [answer_digest]
    exact hcontent

-- Crashes leave no tag without its manifest: as long as no manifest is deleted by its
-- digest, whatever the listing of the tags names is there to be read.
theorem life_tags_lead {events : List Happening} (hlife : Life new events tree)
    (hevents : ∀ e ∈ events, ∀ repo d, e.op ≠ some (.manifestDelete repo (.digest d)))
    {repo tag : String} {listing : BTreeSet String}
    (hlist : (fsStorage (.listTags repo) tree).1 = .ok listing) (htag : tag ∈ listing) :
    ∃ bytes, (fsStorage (.manifestGet repo (.tag tag)) tree).1 = .ok bytes ∧
      (fsStorage (.manifestGet repo (.digest (hashContent .sha256 bytes))) tree).1 = .ok bytes := by
  have hcall : ∀ tree op apart, ManifestsSound tree →
      (∀ repo d, op ≠ .manifestDelete repo (.digest d)) → TagsLead tree →
        TagsLead (fsStorageOn apart op tree).2 :=
    fun tree op apart hsound hop => call_keeps_lead apart hsound hop
  have hlead : TagsLead tree := by
    refine life_invariant (fun _ => True) ?_ hcall ?_ hlife ?_ (fun _ _ _ _ => trivial)
      sound_new.toManifestsSound ?_
    · intro tree tree' hsame hlead repo tag bytes htag hfile
      have hold := (hsame (manifestTagPath repo tag) (not_temporary htag)).symm.trans hfile
      obtain ⟨hdots, d, hd, hmanifest⟩ := hlead repo tag bytes htag hold
      refine ⟨hdots, d, hd, ?_⟩
      rw [HasManifest, hsame _ (manifest_not_temporary repo d)]
      exact hmanifest
    · intro tree tree' d' part _ hat hlead repo tag bytes htag hfile
      have hold := (hat.others _ (tag_not_blob repo tag d')).symm.trans hfile
      obtain ⟨hdots, d, hd, hmanifest⟩ := hlead repo tag bytes htag hold
      refine ⟨hdots, d, hd, ?_⟩
      rw [HasManifest, hat.others _ (manifest_not_blob d').1]
      exact hmanifest
    · rintro e he op hop op' hcut repo d rfl
      rcases hcut.same_or with rfl | ⟨_, _, _, heq⟩ | ⟨_, _, _, heq⟩ | ⟨_, _, _, heq⟩
      · exact hevents e he repo d hop
      · cases heq
      · cases heq
      · cases heq
    · intro repo tag bytes _ hfile
      rw [no_file_new] at hfile
      cases hfile
  have hanswer : (StorageOp.listTags repo).answer tree = some listing := by
    rw [StorageOp.answer, hlist]
    rfl
  have hmem : isTmp tag = false ∧ (tree.fileAt (manifestTagPath repo tag)).isSome := by
    by_cases hway : InTheWay tree ("tags" :: repoPath repo)
    · rw [answer_tags_blocked hway] at hanswer
      cases hanswer
    · obtain ⟨listing', hlisted, hmem⟩ := answer_tags hway
      obtain rfl := Option.some.inj (hlisted.symm.trans hanswer)
      exact (hmem tag).mp htag
  obtain ⟨bytes, hfile⟩ := Option.isSome_iff_exists.mp hmem.2
  obtain ⟨hdots, d, rfl, hmanifest⟩ := hlead repo tag bytes hmem.1 hfile
  have hnames : TagNames repo tag d tree := ⟨hfile, hmanifest⟩
  obtain ⟨content, rfl, htagged, hdigest⟩ :=
    hnames.read (hlife.manifests sound_new.toManifestsSound) hdots
  exact ⟨content, htagged, hdigest⟩

end Tags

end Lives

section

attribute [local instance] Sample.sha2

-- A session whose chunk is cut off after its first byte, and a tag.

def openSession : Tree := (fsStore none (.request (.uploadCreate "a" "0f")) new).2

def lostEnd : List Fate := [.done, .killed 1]

def torn : Tree :=
  (runUnder (StorageOp.body openSession (.uploadAppend "a" "0f" Sample.braces)) lostEnd
    openSession).2

theorem life_openSession : Life new [.call (.request (.uploadCreate "a" "0f")) none] openSession :=
  .turn .start (.call _ _ _)

def sessionLife : List Happening :=
  [.call (.request (.uploadCreate "a" "0f")) none,
    .faulty (.uploadAppend "a" "0f" Sample.braces) lostEnd]

theorem life_torn : Life new sessionLife torn := .turn life_openSession (.faulty _ _ _)

theorem torn_addressed :
    (∀ repo d bytes, (fsStore none (.request (.blobRead repo d)) torn).1 = .ok bytes →
      hashContent d.algorithm bytes = d) ∧
    (∀ repo d bytes, (fsStore none (.request (.manifestGet repo (.digest d))) torn).1 = .ok bytes →
      hashContent .sha256 bytes = d) ∧
    (∃ listing, (fsStore none .listAllBlobs torn).1 = .ok listing ∧ ∀ repo d, d ∈ listing ↔
      ∃ bytes, (fsStore none (.request (.blobRead repo d)) torn).1 = .ok bytes) ∧
    ∀ repo listing, (fsStore none (.request (.listManifestDigests repo)) torn).1 = .ok listing →
      ∀ d ∈ listing, ∃ bytes,
        (fsStore none (.request (.manifestGet repo (.digest d))) torn).1 = .ok bytes :=
  life_addressed life_torn (by simp [sessionLife, Happening.Whole, Happening.Tears]) none

theorem torn_durable : ∃ bytes, (fsStorageOn none (.blobRead "b" (hashContent .sha256 Sample.x))
    (runUnder openRoot [.killed 1]
      (fsStorageOn none (.blobWrite "a" (hashContent .sha256 Sample.x) Sample.x) torn).2).2).1 =
      .ok bytes ∧ hashContent .sha256 bytes = hashContent .sha256 Sample.x :=
  (life_durable none life_torn).1 "a" _ (.inl ⟨Sample.x, rfl, .turn .start (.opened _ _)⟩)
    (by simp [Happening.op]) (by simp [Happening.Tears]) none "b"

def tagged : Tree := (fsStore none (.request (.manifestPut "a" (.tag "v") Sample.x)) torn).2

theorem life_tagged :
    Life new (sessionLife ++ [.call (.request (.manifestPut "a" (.tag "v") Sample.x)) none])
      tagged := .turn life_torn (.call _ _ _)

theorem list_tagged : (fsStorage (.listTags "a") tagged).1 =
    .ok (BTreeSet.empty.extend ["v"]) := rfl

theorem tagged_leads : ∃ bytes, (fsStorage (.manifestGet "a" (.tag "v")) tagged).1 = .ok bytes ∧
    (fsStorage (.manifestGet "a" (.digest (hashContent .sha256 bytes))) tagged).1 = .ok bytes :=
  life_tags_lead life_tagged (by simp [sessionLife, Happening.op]) list_tagged (by simp)

end

end RspaceRegistry.Disk
