import RspaceRegistry.Disk.Crash
import RspaceRegistry.Disk.Uploads
import RspaceRegistry.Files.Fates

namespace RspaceRegistry.Disk

open Calls Files Ordered

-- What the calls of a storage leave behind on a disk that fails, and in a process that dies.

-- The trees have the same files, temporary ones left aside.
def SameFiles (tree tree' : Tree) : Prop :=
  ∀ path, ¬Temporary path → tree'.fileAt path = tree.fileAt path

section Names

theorem not_temporary {name : String} {parent : Path} (h : isTmp name = false) :
    ¬Temporary (name :: parent) := by
  rintro ⟨_, _, heq, htmp⟩
  rw [← (List.cons.inj heq).1, h] at htmp
  cases htmp

theorem blob_not_temporary (d : Digest) : ¬Temporary (blobPath d) := not_temporary (isTmp_hex d)

theorem manifest_not_temporary (repo : String) (d : Digest) :
    ¬Temporary (manifestDigestPath repo d) := not_temporary (isTmp_digest d)

end Names

theorem headD_eq (fates : List Fate) : fates.headD .done = fates.getD 0 .done := by
  cases fates <;> rfl

theorem getD_tail (fates : List Fate) (i : Nat) :
    fates.tail.getD i .done = fates.getD (i + 1) .done := by
  cases fates <;> rfl

-- The session could not be renamed, and `fs::write` opened the blob but did not come to
-- its end.
def CopyCut (fates : List Fate) (fate : Fate) : Prop :=
  fates.getD 0 .done = .done ∧ fates.getD 1 .done = .done ∧
    (∃ err n, fates.getD 2 .done = .failed err n) ∧ fates.getD 3 .done = .done ∧
      fates.getD 4 .done = fate ∧ fate ≠ .done

-- The bytes that are then under the digest.
def Tears [Sha2] (op : StorageOp) (fates : List Fate) (tree : Tree) (d : Digest) (part : Bytes) :
    Prop :=
  ∃ repo id bytes fate, op = .uploadFinalize repo id d ∧
    tree.fileAt (uploadPath id) = some bytes ∧ hashContent d.algorithm bytes = d ∧
      CopyCut fates fate ∧ part = bytes.take fate.reach

section Calls

variable [Sha2]

theorem afterwards_call (op : StorageOp) (tree : Tree) :
    afterwards (some op) tree = (fsStorageOn none op tree).2 := by
  rw [fsStorageOn_none]
  rfl

theorem Laid.afterwards {tree : Tree} (h : Laid tree) (done : Option StorageOp) :
    Laid (afterwards done tree) := by
  cases done with
  | none => exact h
  | some op => exact afterwards_call op tree ▸ laid_call none h op

theorem laid_of_cut {tree tree' : Tree} (h : Laid tree) {op : StorageOp}
    (hc : Changes (Scratch op) op.Makes tree tree') : Laid tree' := by
  refine h.of_changes hc ?_ (fun path hmade => (makes_places hmade).1) ?_
  · intro path hscratch hblobs
    rcases touches_places hscratch.1 with hblob | ⟨id, rfl⟩ | hmanifest
    · exact hblob
    · exact absurd (last_unique hblobs (uploads_suffix id)) (by decide)
    · exact absurd (last_unique hblobs hmanifest) (by decide)
  · intro id hmade
    exact (makes_places hmade).2 id rfl

-- A call comes to what it may be cut to, but for temporary files.
structure ComesTo (op : StorageOp) (tree tree' : Tree) : Prop where
  laid : Laid tree'
  done : ∃ done, CutTo op done ∧ SameFiles (afterwards done tree) tree'

theorem Cut.comesTo {op : StorageOp} {tree tree' : Tree} (h : Laid tree) (hcut : Cut op tree tree') :
    ComesTo op tree tree' := by
  obtain ⟨done, hcut, hchanges⟩ := hcut
  exact ⟨laid_of_cut (h.afterwards done) hchanges, done, hcut,
    fun path hpath => hchanges.others path fun hscratch => hpath hscratch.2⟩

section Strict

omit [Sha2]

theorem strict_replaceFile (tmp path : Path) (content : Bytes) :
    Strict (replaceFile tmp path content) :=
  (strict_call _).bind fun _ => (strict_call _).bind fun _ => (strict_call _).bind fun _ =>
    (strict_call _).bind fun _ => strict_call _

theorem strict_writeFile (path : Path) (bytes : Bytes) : Strict (writeFile path bytes) :=
  (strict_call _).bind fun _ => strict_call _

theorem strict_putReference (repo : String) (reference : Reference) (digest : Digest) :
    Strict (putReference repo reference digest) := by
  cases reference with
  | digest d => exact strict_pure digest
  | tag tag =>
      simp only [putReference]
      split
      · exact ((strict_call _).mapError _).bind fun _ =>
          ((strict_writeFile _ _).mapError _).bind fun _ => strict_fail _
      · split
        · exact ((strict_call _).mapError _).bind fun _ => strict_fail _
        · rw [manifestTagPath, atomicWrite_eq]
          exact ((strict_replaceFile _ _ _).mapError _).bind fun _ => strict_pure digest

end Strict

section Looks

variable {α : Type}

omit [Sha2] in
theorem runUnder_looks {prog : Prog FileOp FileOp.Ans α} (hprog : prog.Uses Looks)
    (fates : List Fate) (tree : Tree) : (runUnder prog fates tree).2 = tree := by
  induction prog generalizing fates tree with
  | pure value => rfl
  | call op next ih =>
      have hpart : ∀ n, op.part n tree = tree := by
        intro n
        rcases part_cases op n tree with hsame | ⟨part, htorn, hpart⟩
        · exact hsame
        · exact hpart.trans (looks_torn hprog.1 htorn tree)
      cases hfate : fates.headD .done with
      | done =>
          rw [runUnder_done hfate, hprog.1 tree]
          exact ih _ (hprog.2 _) _ tree
      | failed err n =>
          rw [runUnder_failed hfate, hpart]
          exact ih _ (hprog.2 _) _ tree
      | killed n =>
          rw [runUnder_killed hfate]
          exact hpart n

theorem comesTo_same {op : StorageOp} {tree tree' : Tree} (h : Laid tree) (hsame : tree' = tree) :
    ComesTo op tree tree' := by
  rw [hsame]
  exact ⟨h, none, .nothing op, fun _ _ => rfl⟩

end Looks

section Finalize

variable {made : Tree} {id : String} {d : Digest} {bytes : Bytes}

-- The session file goes, or it stays.
def removeSession (id : String) : DiskM Unit := do
  let _ ← Fallible.mapError fromIo (Fallible.attempt (FileM.call (.remove (uploadPath id))))
  pure ()

omit [Sha2] in
theorem removeSession_under (id : String) (fates : List Fate) (tree : Tree) :
    (runUnder (removeSession id) fates tree).2 = tree ∨
      (runUnder (removeSession id) fates tree).2 = (tree.remove (uploadPath id)).2 := by
  rcases runUnder_attempt fates tree with ⟨n, -, hlast⟩ | ⟨err, n, -, hlast⟩ | ⟨-, hlast⟩
  · exact .inl hlast
  · exact .inl hlast
  · exact .inr hlast

omit [Sha2] in
theorem copyOver_eq (id : String) (d : Digest) (bytes : Bytes) : copyOver id d bytes =
    (Fallible.mapError fromIo (FileM.call (.create (blobPath d))) >>= fun file =>
      Fallible.mapError fromIo (FileM.call (.write file bytes)) >>= fun _ => removeSession id) := by
  refine congrArg (Prog.call _) (funext fun answer => ?_)
  cases answer <;> rfl

-- What the copy of a session may come to.
inductive Copied (id : String) (d : Digest) (bytes : Bytes) (fates : List Fate) (made : Tree) :
    Tree → Prop
  | nothing (hunopened : fates.getD 0 .done ≠ .done) : Copied id d bytes fates made made
  | part {fate : Fate} {tree' : Tree} (hopened : fates.getD 0 .done = .done)
      (hfate : fates.getD 1 .done = fate) (hne : fate ≠ .done)
      (hwritten : Tree.Written (blobPath d) (bytes.take fate.reach) made tree') :
      Copied id d bytes fates made tree'
  | kept {tree' : Tree} (hdone : fates.getD 1 .done = .done)
      (hwritten : Tree.Written (blobPath d) bytes made tree') : Copied id d bytes fates made tree'
  | filed {tree' : Tree} (hdone : fates.getD 1 .done = .done)
      (hfiled : Filed id d bytes made tree') : Copied id d bytes fates made tree'

omit [Sha2] in
theorem copied_under (h : Laid made) {inode : Nat}
    (hsession : made.node (uploadPath id) = some (.file inode))
    (hparent : made.node (blobPath d).tail = some .dir) (fates : List Fate) :
    Copied id d bytes fates made (runUnder (copyOver id d bytes) fates made).2 := by
  obtain ⟨file, created, hrun, hwritten⟩ := created_blob h hparent
  rw [copyOver_eq]
  rcases runUnder_first fates made with
    ⟨hne, hlast⟩ | ⟨err, hanswer, -⟩ | ⟨_, hopened, hanswer, hlast⟩
  · rw [hlast]
    exact .nothing (headD_eq fates ▸ hne)
  · rw [hrun] at hanswer
    cases hanswer
  rw [hrun] at hanswer hlast
  rw [hlast, ← Except.ok.inj hanswer]
  rw [headD_eq] at hopened
  rcases runUnder_first fates.tail created with
    ⟨hne, hlast⟩ | ⟨err, hanswer, -⟩ | ⟨_, hdone, -, hlast⟩
  · rw [hlast]
    rw [headD_eq, getD_tail] at hne ⊢
    exact .part hopened rfl hne (hwritten _)
  · cases hanswer
  rw [headD_eq, getD_tail] at hdone
  rw [hlast]
  show Copied id d bytes fates made
    (runUnder (removeSession id) fates.tail.tail (created.write file bytes)).2
  rcases removeSession_under id fates.tail.tail (created.write file bytes) with hlast | hlast
  · rw [hlast]
    exact .kept hdone (hwritten bytes)
  · rw [hlast]
    exact .filed hdone (filed_of_written hsession (hwritten bytes))

-- The session is renamed, or copied where that fails.
def moveSession (id : String) (d : Digest) (bytes : Bytes) : DiskM Unit := do
  match ← Fallible.mapError fromIo
      (Fallible.attempt (FileM.call (.rename (uploadPath id) (blobPath d)))) with
  | .ok () => pure ()
  | .error _ => copyOver id d bytes

theorem uploadFinalize_eq (id : String) (d : Digest) : uploadFinalize id d =
    (Fallible.mapError ioToStorage (FileM.call (.read (uploadPath id))) >>= fun bytes =>
      if hashContent d.algorithm bytes ≠ d then
        Fallible.fail (.digestMismatch d (hashContent d.algorithm bytes))
      else Fallible.mapError fromIo (FileM.call (.createDirAll (blobPath d).tail)) >>= fun _ =>
        moveSession id d bytes) := by
  unfold uploadFinalize moveSession copyOver
  refine congrArg (bind (Fallible.mapError ioToStorage (FileM.call (.read (uploadPath id)))))
    (funext fun bytes => if_congr Iff.rfl rfl ?_)
  refine congrArg (bind (Fallible.mapError fromIo (FileM.call (.createDirAll (blobPath d).tail))))
    (funext fun _ => congrArg (bind _) (funext fun moved => ?_))
  rcases moved with err | ⟨⟨⟩⟩ <;> rfl

omit [Sha2] in
theorem moveSession_under (h : Laid made) {inode : Nat}
    (hsession : made.node (uploadPath id) = some (.file inode)) (hbytes : made.contents inode = bytes)
    (hparent : made.node (blobPath d).tail = some .dir) (fates : List Fate) :
    ((∃ n, fates.headD .done = .killed n) ∧
        (runUnder (moveSession id d bytes) fates made).2 = made) ∨
      (fates.headD .done = .done ∧
        Filed id d bytes made (runUnder (moveSession id d bytes) fates made).2) ∨
      (∃ err n, fates.headD .done = .failed err n) ∧
        Copied id d bytes fates.tail made (runUnder (moveSession id d bytes) fates made).2 := by
  obtain ⟨hanswer, hfiled⟩ := filed_of_rename h hsession hbytes hparent
  rcases runUnder_attempt fates made with
    ⟨n, hfate, hlast⟩ | ⟨err, n, hfate, hlast⟩ | ⟨hfate, hlast⟩
  · exact .inl ⟨⟨n, hfate⟩, hlast⟩
  · refine .inr (.inr ⟨⟨err, n, hfate⟩, ?_⟩)
    have hcopy : Copied id d bytes fates.tail made
        (runUnder (copyOver id d bytes) fates.tail made).2 :=
      copied_under h hsession hparent fates.tail
    exact hlast ▸ hcopy
  · rw [show (Tree.handle (.rename (uploadPath id) (blobPath d)) made).1 = .ok () from hanswer]
      at hlast
    exact .inr (.inl ⟨hfate, hlast ▸ hfiled⟩)

-- A blob that has other bytes now, and nothing else has.
structure TornAt (d : Digest) (part : Bytes) (tree tree' : Tree) : Prop where
  laid : Laid tree'
  content : tree'.fileAt (blobPath d) = some part
  others : ∀ path, path ≠ blobPath d → tree'.fileAt path = tree.fileAt path

variable {tree tree' : Tree} {repo : String}

-- On one path or the other the session is filed.
theorem comesTo_filed (h : Laid tree) (hsession : tree.fileAt (uploadPath id) = some bytes)
    (hhash : hashContent d.algorithm bytes = d) (hfiled : Filed id d bytes tree tree') :
    ComesTo (.uploadFinalize repo id d) tree tree' := by
  obtain ⟨stage, hrun, hdone⟩ := run_uploadFinalize h none hsession hhash
  have hcall : afterwards (some (.uploadFinalize repo id d)) tree = stage :=
    (afterwards_call _ tree).trans (congrArg Prod.snd hrun)
  refine ⟨h.of_filing hfiled.changes, _, .whole _, fun path _ => ?_⟩
  rw [hcall]
  by_cases hblob : path = blobPath d
  · rw [hblob, hfiled.content, hdone.content]
  · by_cases hupload : path = uploadPath id
    · rw [hupload, hfiled.gone, hdone.gone]
    · have hother : ¬(path = blobPath d ∨ path = uploadPath id) := not_or.mpr ⟨hblob, hupload⟩
      rw [hfiled.changes.others path hother, hdone.changes.others path hother]

-- The blob is there, and the session too.
theorem comesTo_kept (h : Laid tree) (hhash : hashContent d.algorithm bytes = d)
    (hcontent : tree'.fileAt (blobPath d) = some bytes) (hlaid : Laid tree')
    (hothers : ∀ path, path ≠ blobPath d → tree'.fileAt path = tree.fileAt path) :
    ComesTo (.uploadFinalize repo id d) tree tree' := by
  obtain ⟨stage, hrun, hreplaced⟩ := replace_blob h d bytes
  have hcall : afterwards (some (.blobWrite repo d bytes)) tree = stage := by
    show ((blobWrite d bytes).run Tree.handle tree).2 = stage
    rw [blobWrite_eq hhash, Fallible.run_mapError, hrun]
  refine ⟨hlaid, _, .filed repo id d bytes, fun path hpath => ?_⟩
  rw [hcall]
  by_cases hblob : path = blobPath d
  · rw [hblob, hcontent, hreplaced.content]
  · have htmp : path ≠ tmpPath (blobPath d) := by
      rintro rfl
      exact hpath ⟨_, _, rfl, isTmp_tmpName _⟩
    rw [hothers path hblob, hreplaced.others path hblob htmp]

-- Some of the directories are there that the blob needs.
theorem comesTo_dirs (h : Laid tree) (n : Nat) : ComesTo (.uploadFinalize repo id d) tree
    (tree.createDirAll ((blobPath d).tail.drop n)).2 := by
  have hchanges : Changes (fun path => path = blobPath d ∨ path = uploadPath id)
      (· <:+ (blobPath d).tail) tree (tree.createDirAll ((blobPath d).tail.drop n)).2 := by
    refine Changes.handle (.createDirAll ((blobPath d).tail.drop n)) (fun _ => False.elim) ?_
    rintro path above heq habove
    cases heq
    exact habove.trans (List.drop_suffix n _)
  exact ⟨h.of_filing hchanges, none, .nothing _,
    fun path _ => (Tree.createDirAll_frame _ path).fileAt⟩

-- A call tears a blob only where its copy is cut.
theorem untorn {op : StorageOp} {fates : List Fate} (h : ∀ fate, ¬CopyCut fates fate)
    (d : Digest) (part : Bytes) : ¬Tears op fates tree d part := by
  rintro ⟨_, _, _, fate, -, -, -, hcut, -⟩
  exact h fate hcut

-- The session is moved once the blob's directory is there.
theorem comesTo_moved (h : Laid tree) (hsession : tree.fileAt (uploadPath id) = some bytes)
    (hhash : hashContent d.algorithm bytes = d) (repo : String) {fates : List Fate}
    (hread : fates.getD 0 .done = .done) (hdirs : fates.getD 1 .done = .done) :
    let last := (runUnder (moveSession id d bytes) fates.tail.tail
      (tree.createDirAll (blobPath d).tail).2).2
    (ComesTo (.uploadFinalize repo id d) tree last ∧
        ∀ d' part, ¬Tears (.uploadFinalize repo id d) fates tree d' part) ∨
      ∃ part, Tears (.uploadFinalize repo id d) fates tree d part ∧ TornAt d part tree last := by
  intro last
  have hlast : last = (runUnder (moveSession id d bytes) fates.tail.tail
    (tree.createDirAll (blobPath d).tail).2).2 := rfl
  obtain ⟨-, hparent⟩ := made_parent h d
  have hchanges : Changes (fun path => path = blobPath d ∨ path = uploadPath id)
      (· <:+ (blobPath d).tail) tree (tree.createDirAll (blobPath d).tail).2 := changes_made d
  have hdirsOnly : ComesTo (.uploadFinalize repo id d) tree
    (tree.createDirAll (blobPath d).tail).2 := comesTo_dirs h 0
  have hsame : ∀ path, (tree.createDirAll (blobPath d).tail).2.fileAt path = tree.fileAt path :=
    fun path => (Tree.createDirAll_frame _ path).fileAt
  generalize (tree.createDirAll (blobPath d).tail).2 = made at hparent hchanges hdirsOnly hsame hlast
  have hlaid := h.of_filing hchanges
  obtain ⟨inode, hfile, hbytes⟩ := Tree.fileAt_eq_some.mp ((hsame (uploadPath id)).trans hsession)
  have hfiled : Filed id d bytes made last → ComesTo (.uploadFinalize repo id d) tree last :=
    fun hfiled =>
      comesTo_filed h hsession hhash ⟨hfiled.content, hfiled.gone, hchanges.trans hfiled.changes⟩
  have hothers : ∀ {part}, Tree.Written (blobPath d) part made last →
      Laid last ∧ ∀ path, path ≠ blobPath d → last.fileAt path = tree.fileAt path := by
    intro part hwritten
    have hchanged : Changes (fun path => path = blobPath d ∨ path = uploadPath id)
        (· <:+ (blobPath d).tail) made last := changes_of_written hwritten
    exact ⟨hlaid.of_filing hchanged,
      fun path hpath => (hwritten.others path hpath).trans (hsame path)⟩
  rcases moveSession_under hlaid hfile hbytes hparent fates.tail.tail with
    ⟨⟨n, hfate⟩, hmade⟩ | ⟨hfate, hmoved⟩ | ⟨⟨err, n, hfate⟩, hcopied⟩
  · rw [headD_eq, getD_tail, getD_tail] at hfate
    rw [hlast, hmade]
    refine .inl ⟨hdirsOnly, untorn fun fate hcut => ?_⟩
    obtain ⟨err, n', hfailed⟩ := hcut.2.2.1
    rw [hfate] at hfailed
    cases hfailed
  · rw [headD_eq, getD_tail, getD_tail] at hfate
    refine .inl ⟨hfiled (hlast ▸ hmoved), untorn fun fate hcut => ?_⟩
    obtain ⟨err, n', hfailed⟩ := hcut.2.2.1
    rw [hfate] at hfailed
    cases hfailed
  rw [headD_eq, getD_tail, getD_tail] at hfate
  rw [← hlast] at hcopied
  have hwhole : fates.getD 4 .done = .done → ∀ fate, ¬CopyCut fates fate :=
    fun hdone fate hcut => hcut.2.2.2.2.2 (hcut.2.2.2.2.1.symm.trans hdone)
  generalize last = tree' at hcopied hfiled hothers
  cases hcopied with
  | nothing hunopened =>
      rw [getD_tail, getD_tail, getD_tail] at hunopened
      exact .inl ⟨hdirsOnly, untorn fun fate hcut => hunopened hcut.2.2.2.1⟩
  | filed hdone hcopy =>
      rw [getD_tail, getD_tail, getD_tail] at hdone
      exact .inl ⟨hfiled hcopy, untorn (hwhole hdone)⟩
  | kept hdone hwritten =>
      rw [getD_tail, getD_tail, getD_tail] at hdone
      obtain ⟨hlaid', hothers'⟩ := hothers hwritten
      exact .inl ⟨comesTo_kept h hhash hwritten.content hlaid' hothers', untorn (hwhole hdone)⟩
  | @part fate _ hopened hlastFate hne hwritten =>
      rw [getD_tail, getD_tail, getD_tail] at hopened hlastFate
      obtain ⟨hlaid', hothers'⟩ := hothers hwritten
      exact .inr ⟨_, ⟨repo, id, bytes, fate, rfl, hsession, hhash,
        ⟨hread, hdirs, ⟨err, n, hfate⟩, hopened, hlastFate, hne⟩, rfl⟩, hlaid', hwritten.content,
          hothers'⟩

-- The call stops before it has read the session, at its check or at the directories, or the
-- session is moved.
theorem comesTo_finalize (h : Laid tree) (repo id : String) (d : Digest) (fates : List Fate) :
    (ComesTo (.uploadFinalize repo id d) tree (runUnder (uploadFinalize id d) fates tree).2 ∧
        ∀ d' part, ¬Tears (.uploadFinalize repo id d) fates tree d' part) ∨
      ∃ part, Tears (.uploadFinalize repo id d) fates tree d part ∧
        TornAt d part tree (runUnder (uploadFinalize id d) fates tree).2 := by
  have hunread : ∀ {tree'}, tree' = tree →
      (∀ bytes, tree.fileAt (uploadPath id) = some bytes → hashContent d.algorithm bytes ≠ d) →
      ComesTo (.uploadFinalize repo id d) tree tree' ∧
        ∀ d' part, ¬Tears (.uploadFinalize repo id d) fates tree d' part := by
    refine fun hlast hnone => ⟨comesTo_same h hlast, ?_⟩
    rintro d' part ⟨_, _, bytes, _, hop, hsession, hhash, -⟩
    cases hop
    exact hnone bytes hsession hhash
  rw [uploadFinalize_eq]
  rcases runUnder_first fates tree with
    ⟨hne, hlast⟩ | ⟨err, hanswer, hlast⟩ | ⟨bytes, hread, hanswer, hlast⟩
  · exact .inl ⟨comesTo_same h hlast, untorn fun fate hcut => hne ((headD_eq fates).trans hcut.1)⟩
  · refine .inl (hunread hlast fun bytes hsession => ?_)
    rw [show (Tree.handle (.read (uploadPath id)) tree).1 = .ok bytes from
      Tree.read_ok.mpr hsession] at hanswer
    cases hanswer
  have hsession : tree.fileAt (uploadPath id) = some bytes := Tree.read_ok.mp hanswer
  rw [hlast]
  by_cases hhash : hashContent d.algorithm bytes = d
  swap
  · rw [if_pos hhash]
    refine .inl (hunread rfl fun bytes' hsession' => ?_)
    rwa [← Option.some.inj (hsession.symm.trans hsession')]
  rw [if_neg (not_not_intro hhash)]
  show (ComesTo _ tree (runUnder _ fates.tail tree).2 ∧ _) ∨
    ∃ part, _ ∧ TornAt d part tree (runUnder _ fates.tail tree).2
  rw [headD_eq] at hread
  rcases runUnder_first fates.tail tree with
    ⟨hne, hlast⟩ | ⟨err, hanswer, -⟩ | ⟨_, hdirs, -, hlast⟩
  · rw [headD_eq, getD_tail] at hne
    rw [hlast]
    exact .inl ⟨comesTo_dirs h _, untorn fun fate hcut => hne hcut.2.1⟩
  · rw [show (Tree.handle (.createDirAll (blobPath d).tail) tree).1 = .ok () from
      (made_parent h d).1] at hanswer
    cases hanswer
  rw [headD_eq, getD_tail] at hdirs
  rw [hlast]
  exact comesTo_moved h hsession hhash repo hread hdirs

end Finalize

section Under

variable {tree tree' : Tree} {op : StorageOp} {fates : List Fate} {d : Digest} {part : Bytes}

-- Whatever befalls the operations of a call, it comes to one of these, or tears a blob.
theorem comesTo_under (h : Laid tree) (op : StorageOp) (fates : List Fate) :
    ComesTo op tree (runUnder (op.body tree) fates tree).2 ∨
      ∃ d part, Tears op fates tree d part ∧
        TornAt d part tree (runUnder (op.body tree) fates tree).2 := by
  have hlooks : ∀ {α : Type} {prog : Prog FileOp FileOp.Ans α}, prog.Uses Looks →
      ComesTo op tree (runUnder prog fates tree).2 :=
    fun hprog => comesTo_same h (runUnder_looks hprog fates tree)
  have hstrict : Strict (op.body tree) → ComesTo op tree (runUnder (op.body tree) fates tree).2 :=
    fun hbody => (cut_call h (left_runUnder hbody fates tree)).comesTo h
  cases op with
  | blobExists _ d => exact .inl (hlooks (looks_blobExists d))
  | blobRead _ d => exact .inl (hlooks (uses_mapError _ (looks_read _)))
  | blobWrite _ d content =>
      refine .inl (hstrict ?_)
      show Strict (blobWrite d content)
      rw [blobWrite]
      split
      · exact strict_fail _
      · exact (strict_replaceFile _ _ content).mapError _
  | blobDelete _ _ | uploadCancel _ _ => exact .inl (hstrict ((strict_call _).mapError _))
  | uploadCreate _ id =>
      exact .inl (hstrict (((strict_call _).mapError _).bind fun _ =>
        ((strict_call _).mapError _).bind fun _ => strict_pure _))
  | uploadStatus _ id => exact .inl (hlooks (looks_uploadStatus id))
  | uploadAppend _ id chunk =>
      exact .inl (hstrict (((strict_call _).mapError _).bind fun _ =>
        ((strict_call _).mapError _).bind fun _ => ((strict_call _).mapError _).bind fun _ =>
          strict_pure _))
  | uploadFinalize repo id d =>
      rcases comesTo_finalize h repo id d fates with ⟨hcomes, -⟩ | ⟨part, htorn⟩
      · exact .inl hcomes
      · exact .inr ⟨d, part, htorn⟩
  | manifestGet repo reference =>
      refine .inl ?_
      simp only [StorageOp.body]
      split
      · exact hlooks (looks_atDots repo)
      · exact hlooks (looks_manifestGet repo reference)
  | manifestPut repo reference content =>
      refine .inl (hstrict ?_)
      rw [body_manifestPut]
      exact (((strict_replaceFile _ _ content).mapError _).bind fun _ =>
        strict_putReference repo reference _)
  | manifestDelete repo reference =>
      by_cases hdots : reference = .tag "." ∨ reference = .tag ".."
      · simp only [StorageOp.body, if_pos hdots]
        exact .inl (hlooks (looks_atDots repo))
      · refine .inl (hstrict ?_)
        simp only [StorageOp.body, if_neg hdots]
        exact (strict_call _).mapError _
  | listRepos => exact .inl (hlooks (looks_listRepos _))
  | listTags repo => exact .inl (hlooks (looks_listTags repo))
  | listManifestDigests repo => exact .inl (hlooks (looks_listManifestDigests repo))

theorem torn_of_tears (h : Laid tree) (htears : Tears op fates tree d part) :
    TornAt d part tree (runUnder (op.body tree) fates tree).2 := by
  obtain ⟨repo, id, bytes, fate, rfl, hsession, hhash, hcut, rfl⟩ := htears
  rcases comesTo_finalize h repo id d fates with ⟨-, hnone⟩ | ⟨part, htears', htorn⟩
  · exact absurd ⟨repo, id, bytes, fate, rfl, hsession, hhash, hcut, rfl⟩ (hnone d _)
  · obtain ⟨_, _, bytes', fate', hop, hsession', -, hcut', rfl⟩ := htears'
    cases hop
    have hbytes : bytes = bytes' := Option.some.inj (hsession.symm.trans hsession')
    have hfate : fate = fate' := hcut.2.2.2.2.1.symm.trans hcut'.2.2.2.2.1
    rw [hbytes, hfate]
    exact htorn

theorem Sound.afterwards (h : Sound tree) (done : Option StorageOp) :
    Sound (afterwards done tree) := by
  cases done with
  | none => exact h
  | some op => exact afterwards_call op tree ▸ h.call ⟨.request op, none⟩

theorem ManifestsSound.sameFiles (h : ManifestsSound tree) (hlaid : Laid tree')
    (hsame : SameFiles tree tree') : ManifestsSound tree' where
  toLaid := hlaid
  manifests_hash repo d bytes hfile := by
    rw [hsame _ (manifest_not_temporary repo d)] at hfile
    exact h.manifests_hash repo d bytes hfile

theorem Sound.sameFiles (h : Sound tree) (hlaid : Laid tree') (hsame : SameFiles tree tree') :
    Sound tree' where
  toManifestsSound := h.toManifestsSound.sameFiles hlaid hsame
  blobs_hash d bytes hblob := by
    have hfile : tree'.fileAt (blobPath d) = some bytes := hblob
    rw [hsame _ (blob_not_temporary d)] at hfile
    exact h.blobs_hash d bytes hfile

theorem ManifestsSound.torn (h : ManifestsSound tree) (htorn : TornAt d part tree tree') :
    ManifestsSound tree' where
  toLaid := htorn.laid
  manifests_hash repo d' bytes hfile := by
    rw [htorn.others _ (manifest_not_blob d).1] at hfile
    exact h.manifests_hash repo d' bytes hfile

theorem Sound.torn (h : Sound tree) (htorn : TornAt d part tree tree')
    (hhash : hashContent d.algorithm part = d) : Sound tree' where
  toManifestsSound := h.toManifestsSound.torn htorn
  blobs_hash d' bytes hblob := by
    have hfile : tree'.fileAt (blobPath d') = some bytes := hblob
    by_cases hd : d' = d
    · rw [hd, htorn.content] at hfile
      rw [hd, ← Option.some.inj hfile, hhash]
    · rw [htorn.others _ fun heq => hd (blobPath_injective heq)] at hfile
      exact h.blobs_hash d' bytes hfile

end Under

section Stores

variable {tree : Tree}

omit [Sha2] in
theorem looks_blobSize (d : Digest) : (Disk.blobSize d).Uses Looks :=
  (uses_mapError _ (looks_metadata _)).bind fun _ => trivial

omit [Sha2] in
theorem looks_walkFronts (algorithm : Algorithm) (fronts : List String) (out : List Digest) :
    (walkFronts algorithm fronts out).Uses Looks := by
  induction fronts generalizing out with
  | nil => trivial
  | cons front rest ih => exact (looks_readDir _).bind fun inner => ih _

omit [Sha2] in
theorem looks_listAlgorithm (algorithm : Algorithm) (out : List Digest) :
    (listAlgorithm algorithm out).Uses Looks := by
  refine (uses_mapError _ (looks_readDir _).attempt).bind fun found => ?_
  rcases found with err | entries
  · cases err <;> trivial
  · exact uses_mapError _ (looks_walkFronts algorithm _ out)

omit [Sha2] in
theorem looks_listAllBlobs : Disk.listAllBlobs.Uses Looks :=
  (looks_listAlgorithm .sha256 []).bind fun _ => (looks_listAlgorithm .sha512 _).bind fun _ => trivial

-- A call of which every operation meets its fate.
def fsStoreUnder (fates : List Fate) : (op : StoreOp) → Tree → Option op.Ans × Tree
  | .request op, tree => runUnder (op.body tree) fates tree
  | .blobSize _ d, tree => runUnder (Disk.blobSize d) fates tree
  | .listAllBlobs, tree => runUnder Disk.listAllBlobs fates tree

def StoreTears (op : StoreOp) (fates : List Fate) (tree : Tree) (d : Digest) (part : Bytes) : Prop :=
  ∃ request, op = .request request ∧ Tears request fates tree d part

theorem Sound.under (h : Sound tree) (op : StoreOp) (fates : List Fate)
    (hwhole : ∀ d part, StoreTears op fates tree d part → hashContent d.algorithm part = d) :
    Sound (fsStoreUnder fates op tree).2 := by
  cases op with
  | request op =>
      rcases comesTo_under h.toLaid op fates with
        ⟨hlaid, done, -, hsame⟩ | ⟨d, part, htears, htorn⟩
      · exact (h.afterwards done).sameFiles hlaid hsame
      · exact h.torn htorn (hwhole d part ⟨op, rfl, htears⟩)
  | blobSize repo d =>
      rw [show (fsStoreUnder fates (.blobSize repo d) tree).2 = tree from
        runUnder_looks (looks_blobSize d) fates tree]
      exact h
  | listAllBlobs =>
      rw [show (fsStoreUnder fates .listAllBlobs tree).2 = tree from
        runUnder_looks looks_listAllBlobs fates tree]
      exact h

end Stores

end Calls

-- Calls one after another, each with the fates of its operations.
structure FaultyCall where
  op : StoreOp
  fates : List Fate

section Addressed

variable [Sha2]

def FaultyCall.after (call : FaultyCall) (tree : Tree) : Tree := (fsStoreUnder call.fates call.op tree).2

def runFaulty (calls : List FaultyCall) (tree : Tree) : Tree :=
  calls.foldl (fun tree call => call.after tree) tree

-- What is listed can be read, and what is read under a digest hashes to it.
def Addressed (tree : Tree) : Prop :=
  ∀ apart : Option IoError,
    (∃ listing, (fsStore apart .listAllBlobs tree).1 = .ok listing ∧ ∀ d ∈ listing, ∀ repo,
      ∃ bytes, (fsStore apart (.request (.blobRead repo d)) tree).1 = .ok bytes ∧
        hashContent d.algorithm bytes = d) ∧
    (∀ repo listing, (fsStore apart (.request (.listManifestDigests repo)) tree).1 = .ok listing →
      ∀ d ∈ listing, ∃ bytes,
        (fsStore apart (.request (.manifestGet repo (.digest d))) tree).1 = .ok bytes ∧
          hashContent .sha256 bytes = d) ∧
    (∀ repo d bytes, (fsStore apart (.request (.blobRead repo d)) tree).1 = .ok bytes →
      hashContent d.algorithm bytes = d) ∧
    (∀ repo d bytes, (fsStore apart (.request (.manifestGet repo (.digest d))) tree).1 = .ok bytes →
      hashContent d.algorithm bytes = d)

-- The copy of a session is not cut short, or what there is of it has the digest as well.
def FaultyCall.Whole (call : FaultyCall) (tree : Tree) : Prop :=
  ∀ d part, StoreTears call.op call.fates tree d part → hashContent d.algorithm part = d

theorem answer_blob {tree : Tree} (h : Laid tree) (apart : Option IoError) (repo : String) (d : Digest) :
    (fsStore apart (.request (.blobRead repo d)) tree).1 = orNotFound (tree.fileAt (blobPath d)) :=
  congrArg Prod.fst (run_blobRead h d)

theorem Sound.addressed {tree : Tree} (h : Sound tree) : Addressed tree := by
  intro apart
  refine ⟨?_, ?_, ?_, ?_⟩
  · obtain ⟨listing, hrun, hmem⟩ := run_listAllBlobs h.toLaid
    refine ⟨listing, congrArg Prod.fst hrun, fun d hd repo => ?_⟩
    obtain ⟨bytes, hbytes⟩ := Option.isSome_iff_exists.mp ((hmem d).mp hd)
    refine ⟨bytes, ?_, h.blobs_hash d bytes hbytes⟩
    rw [answer_blob h.toLaid, show tree.fileAt (blobPath d) = some bytes from hbytes]
    rfl
  · intro repo listing hlist d hd
    obtain ⟨bytes, hget⟩ := listed_manifest hlist hd
    exact ⟨bytes, hget, h.read_manifest_ok hget⟩
  · intro repo d bytes hget
    rw [answer_blob h.toLaid] at hget
    cases hblob : tree.fileAt (blobPath d) with
    | none =>
        rw [hblob] at hget
        cases hget
    | some found =>
        rw [hblob] at hget
        rw [← Except.ok.inj hget]
        exact h.blobs_hash d found hblob
  · intro repo d bytes hget
    have hhash := h.read_manifest_ok hget
    have halg : d.algorithm = .sha256 := by rw [← hhash]; rfl
    rw [halg, hhash]

-- What a torn blob gives out.
theorem whole_of_addressed {tree : Tree} (h : Sound tree) (call : FaultyCall)
    (hafter : Addressed (call.after tree)) : call.Whole tree := by
  rintro d part ⟨op, hop, htears⟩
  obtain ⟨op', fates⟩ := call
  obtain rfl : op' = .request op := hop
  have htorn : TornAt d part tree (FaultyCall.after ⟨.request op, fates⟩ tree) :=
    torn_of_tears h.toLaid htears
  have hread : (fsStore none (.request (.blobRead "" d))
      (FaultyCall.after ⟨.request op, fates⟩ tree)).1 =
      .ok part := by
    rw [answer_blob htorn.laid, htorn.content]
    rfl
  exact (hafter none).2.2.1 "" d part hread

theorem sound_runFaulty (calls : List FaultyCall)
    (hwhole : ∀ before call, before ++ [call] <+: calls → call.Whole (runFaulty before new)) :
    Sound (runFaulty calls new) := by
  induction calls using List.reverseRecOn with
  | nil => exact sound_new
  | append_singleton calls call ih =>
      have hbefore := ih fun before call' hpre =>
        hwhole before call' (hpre.trans (List.prefix_append calls [call]))
      have hlast := hbefore.under call.op call.fates (hwhole calls call (List.prefix_refl _))
      rw [runFaulty, List.foldl_append]
      exact hlast

-- Whatever calls meet with faults, files under digests hold what hashes to them at every
-- point, if and only if no copy of a session is cut short.
theorem content_addressed_iff (calls : List FaultyCall) :
    (∀ before, before <+: calls → Addressed (runFaulty before new)) ↔
      ∀ before call, before ++ [call] <+: calls → call.Whole (runFaulty before new) := by
  constructor
  · intro haddressed
    induction calls using List.reverseRecOn with
    | nil =>
        intro before call hpre
        simp at hpre
    | append_singleton calls last ih =>
        have hwhole := ih fun before hpre =>
          haddressed before (hpre.trans (List.prefix_append calls [last]))
        intro before call hpre
        rcases List.prefix_concat_iff.mp hpre with heq | hpre
        · obtain ⟨rfl, hcall⟩ := List.append_inj' heq rfl
          obtain rfl : call = last := List.singleton_inj.mp hcall
          refine whole_of_addressed (sound_runFaulty before hwhole) call ?_
          have hafter := haddressed (before ++ [call]) (List.prefix_refl _)
          rwa [runFaulty, List.foldl_append] at hafter
        · exact hwhole before call hpre
  · intro hwhole before hpre
    exact (sound_runFaulty before fun before' call hpre' =>
      hwhole before' call (hpre'.trans hpre)).addressed

end Addressed

section

attribute [local instance] uploadSha2

-- The sessions lie on another file system than the blobs, which is full.
def filledUp : List Fate :=
  [.done, .done, .failed .crossesDevices 0, .done, .failed .storageFull 1]

abbrev xxFinalize : StoreOp := .request (.uploadFinalize "a" session (sha256Digest xx))

def xxSession : List FaultyCall :=
  [⟨.request (.uploadCreate "a" session), []⟩, ⟨.request (.uploadAppend "a" session xx), []⟩]

-- The call is rejected, and yet half of the blob is listed and read under the digest.
theorem torn_copy_listed :
    (¬∀ calls : List FaultyCall, Addressed (runFaulty calls new)) ∧
      (fsStoreUnder filledUp xxFinalize (runFaulty xxSession new)).1 = some (.error .io) ∧
        ∃ listing, (fsStore none .listAllBlobs
            (runFaulty (xxSession ++ [⟨xxFinalize, filledUp⟩]) new)).1 = .ok listing ∧
          sha256Digest xx ∈ listing := by
  have hread : (fsStore none (.request (.blobRead "a" (sha256Digest xx)))
      (runFaulty (xxSession ++ [⟨xxFinalize, filledUp⟩]) new)).1 = .ok Sample.x := by
    decide +kernel
  refine ⟨fun hall => ?_, by decide +kernel, BTreeSet.empty.extend [sha256Digest xx],
    by decide +kernel, by decide +kernel⟩
  have hhash := (hall _ none).2.2.1 "a" _ _ hread
  exact absurd hhash (by decide)

end

end RspaceRegistry.Disk
