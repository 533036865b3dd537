import RspaceRegistry.Disk.Blobs

namespace RspaceRegistry.Disk

open Calls Calls.Pool Files

inductive UploadCall
  | append (chunk : Bytes)
  | finalize (expected : Digest)

abbrev UploadCall.Result : UploadCall → Type
  | .append _ => Except StorageError UploadStatus
  | .finalize _ => Except StorageError Unit

-- A call that renames the file, and one that adds to some file.
def renames (session : Path) : FileOp → Bool
  | .rename src _ => src = session
  | _ => false

def writes : FileOp → Bool
  | .append _ bytes => bytes ≠ []
  | _ => false

-- The calls that have read the session file since it was last added to or renamed.
def fresh {ι : Type} (session : Path) : List (FileEvent ι) → List ι :=
  watching (fun op => op = .read session) fun op => writes op || renames session op

-- The calls that have opened it since it was last renamed.
def opened {ι : Type} (session : Path) : List (FileEvent ι) → List ι :=
  watching (fun op => op = .openAppend session) (renames session)

-- The session file is renamed only by a call whose reading is up to date, and added
-- to only by a call that opened it under its name.
def Orderly {ι : Type} (session : Path) (record : List (FileEvent ι)) : Prop :=
  Throughout (fun before e => (renames session e.op = true → e.party ∈ fresh session before) ∧
    (writes e.op = true → e.party ∈ opened session before)) record

instance {ι : Type} [DecidableEq ι] (session : Path) (record : List (FileEvent ι)) :
    Decidable (Orderly session record) := inferInstanceAs (Decidable (Throughout _ record))

section

variable [Sha2] {ι : Type}

def UploadCall.body (id : String) : (call : UploadCall) → Prog FileOp FileOp.Ans call.Result
  | .append chunk => uploadAppend id chunk
  | .finalize expected => uploadFinalize id expected

-- Any number of calls on one session.
def uploadCalls (id : String) (calls : ι → UploadCall) (tree : Tree) :
    Pool ι FileOp FileOp.Ans (fun i => (calls i).Result) Tree :=
  ⟨fun i => (calls i).body id, (tree, [])⟩

-- The blob tree holds files only, each under its digest.
structure BlobsSound (tree : Tree) : Prop where
  addressed : ∀ d bytes, tree.fileAt (blobPath d) = some bytes → hashContent d.algorithm bytes = d
  files : ∀ d, tree.node (blobPath d) ≠ some .dir
  free : ∀ d, ¬tree.Blocked (blobPath d)

omit [Sha2] in
theorem uploadPath_apart (id : String) (d : Digest) : ¬uploadPath id <:+ blobPath d := by
  rintro ⟨front, h⟩
  have hlast := congrArg List.getLast? h
  simp [uploadPath, blobPath] at hlast

-- What a call does to the files, as long as the order is kept.
inductive UploadStep (session : Path) (tree : Tree) : FileOp → Prop
  | read (path : Path) : UploadStep session tree (.read path)
  | openAppend (path : Path) : UploadStep session tree (.openAppend path)
  | len (inode : Nat) : UploadStep session tree (.len inode)
  | createDirAll (d : Digest) : UploadStep session tree (.createDirAll (blobPath d).tail)
  | append (inode : Nat) (bytes : Bytes)
      (h : bytes = [] ∨ tree.node session = some (.file inode)) :
      UploadStep session tree (.append inode bytes)
  | rename (d : Digest) (bytes : Bytes) (hfile : tree.fileAt session = some bytes)
      (hhash : hashContent d.algorithm bytes = d)
      (hparent : tree.node (blobPath d).tail = some .dir) :
      UploadStep session tree (.rename session (blobPath d))

variable {session : Path} {tree : Tree} {op : FileOp}

omit [Sha2] in
theorem append_nil (inode : Nat) : (tree.append inode []).contents = tree.contents := by
  rw [Tree.append, List.append_nil, Tree.store_contents, Function.update_eq_self]

-- The blobs a step leaves alone, and the one it may add.
theorem UploadStep.blob (h : UploadStep session tree op) (hsession : ∀ d, ¬session <:+ blobPath d)
    (hsound : BlobsSound tree) (d : Digest) :
    (tree.handle op).2.fileAt (blobPath d) = tree.fileAt (blobPath d) ∨
      ∃ bytes, (tree.handle op).2.fileAt (blobPath d) = some bytes ∧
        hashContent d.algorithm bytes = d := by
  cases h with
  | read _ | openAppend _ | len _ => exact .inl rfl
  | createDirAll _ => exact .inl (Tree.createDirAll_frame _ _).fileAt
  | append inode bytes h =>
      refine .inl ?_
      rcases h with rfl | hnode
      · simp only [Tree.handle, Tree.fileAt, append_nil]
        rfl
      · apply Tree.Keeps.fileAt
        apply Tree.store_frame
        intro hblob
        exact hsession d (tree.single _ _ _ hnode hblob ▸ List.suffix_refl _)
  | rename dst bytes hfile hhash hparent =>
      by_cases hd : d = dst
      · subst hd
        obtain ⟨inode, hnode, rfl⟩ := Tree.fileAt_eq_some.mp hfile
        exact .inr ⟨_, Tree.rename_fileAt hnode hparent (hsound.files d), hhash⟩
      · refine .inl (Tree.rename_frame ?_ fun h => hd (blobPath_injective h)).fileAt
        rintro rfl
        exact hsession d (List.suffix_refl _)

theorem UploadStep.sound (h : UploadStep session tree op) (hsession : ∀ d, ¬session <:+ blobPath d)
    (hsound : BlobsSound tree) : BlobsSound (tree.handle op).2 where
  addressed d bytes hbytes := by
    rcases h.blob hsession hsound d with heq | ⟨bytes', hnew, hhash⟩
    · exact hsound.addressed d bytes (heq ▸ hbytes)
    · rw [hnew] at hbytes
      exact Option.some.inj hbytes ▸ hhash
  files d hdir := by
    rcases Tree.dir_of_handle hdir with hold | ⟨made, rfl, habove⟩
    · exact hsound.files d hold
    · cases h with
      | createDirAll d' => exact absurd habove.length_le (by simp [blobPath])
  free d := by
    rintro ⟨above, inode, habove, hne, hfile⟩
    by_cases htouches : tree.Touches op above
    · cases h with
      | read _ | openAppend _ | len _ | createDirAll _ => exact htouches
      | append _ _ _ => exact hsound.free d ⟨above, inode, habove, hne, hfile⟩
      | rename d' _ _ _ _ =>
          rcases htouches with rfl | rfl
          · exact hsession d habove
          · exact hne (habove.eq_of_length rfl)
    · exact hsound.free d ⟨above, inode, habove, hne, (Tree.handle_frame htouches inode).1.mp hfile⟩

section Calls

variable {i j : ι} {s s' : FileState ι} {answer : op.Ans}

def uploadPromise (session : Path) (_ : ι) : Sem FileOp FileOp.Ans (FileState ι) :=
  fun op s _ s' => Orderly session s'.2 → UploadStep session s.1 op

abbrev UploadRely (session : Path) (i : ι) : FileState ι → FileState ι → Prop :=
  Others Tree.handle.sem (uploadPromise session) i

omit [Sha2] in
theorem orderly_of_record (h : Tree.handle.sem.record i op s answer s')
    (horderly : Orderly session s'.2) : Orderly session s.2 ∧
      (renames session op = true → i ∈ fresh session s.2) ∧
      (writes op = true → i ∈ opened session s.2) := by
  rw [h.2] at horderly
  exact throughout_snoc.mp horderly

-- Once the order is broken nothing is promised any more.
theorem wp_disorder {α : Type} (prog : Prog FileOp FileOp.Ans α) (h : ¬Orderly session s.2) :
    prog.wp (Tree.handle.sem.record i) (UploadRely session i) (uploadPromise session i)
      (fun _ _ => True) s := by
  induction prog generalizing s with
  | pure value => trivial
  | call op next ih =>
      intro s₁ hr answer s₂ hs
      have h₁ : ¬Orderly session s₁.2 := hr.invariant (fun s => ¬Orderly session s.2) h
        fun _ _ _ _ _ _ hs _ h horderly => h (orderly_of_record hs horderly).1
      exact ⟨fun horderly => absurd (orderly_of_record hs horderly).1 h₁,
        ih answer fun horderly => h₁ (orderly_of_record hs horderly).1⟩

-- What a call that opened the file knows of it, and one that has read it.
def KnowsInode (session : Path) (i : ι) (inode : Nat) (s : FileState ι) : Prop :=
  i ∈ opened session s.2 → s.1.node session = some (.file inode)

def KnowsContent (session : Path) (i : ι) (bytes : Bytes) (s : FileState ι) : Prop :=
  i ∈ fresh session s.2 → s.1.fileAt session = some bytes

theorem KnowsInode.other {inode : Nat} (hij : i ≠ j) (hs : Tree.handle.sem.record j op s answer s')
    (hstep : UploadStep session s.1 op) (h : KnowsInode session i inode s) :
    KnowsInode session i inode s' := by
  intro hi
  rw [hs.2] at hi
  obtain ⟨hi, hstops⟩ := watching_of_other hij hi
  have hnode := h hi
  rw [← (handle_of_record hs).2]
  cases hstep with
  | read _ | openAppend _ | len _ | append _ _ _ => exact hnode
  | createDirAll d => exact (Tree.createDirAll_frame _ _ inode).1.mpr hnode
  | rename _ _ _ _ _ => simp [renames] at hstops

theorem KnowsContent.call {bytes : Bytes} (hs : Tree.handle.sem.record j op s answer s')
    (hstep : UploadStep session s.1 op) (hfresh : i ∈ fresh session s'.2 →
      i ∈ fresh session s.2 ∧ (writes op || renames session op) = false)
    (h : KnowsContent session i bytes s) : KnowsContent session i bytes s' := by
  intro hi
  obtain ⟨hi, hstops⟩ := hfresh hi
  have hfile := h hi
  rw [← (handle_of_record hs).2]
  cases hstep with
  | read _ | openAppend _ | len _ => exact hfile
  | createDirAll d => exact (Tree.createDirAll_frame _ _).fileAt.trans hfile
  | append inode chunk _ =>
      obtain rfl : chunk = [] := by simpa [writes, renames] using hstops
      simp only [Tree.handle, Tree.fileAt, append_nil]
      exact hfile
  | rename _ _ _ _ _ => simp [renames] at hstops

theorem sound_call (hsession : ∀ d, ¬session <:+ blobPath d)
    (hs : Tree.handle.sem.record j op s answer s') (hstep : uploadPromise session j op s answer s')
    (h : Orderly session s.2 → BlobsSound s.1) (horderly : Orderly session s'.2) :
    BlobsSound s'.1 := by
  have hsound := (hstep horderly).sound hsession (h (orderly_of_record hs horderly).1)
  rwa [(handle_of_record hs).2] at hsound

theorem wp_uploadAppend (id : String) (chunk : Bytes) (s : FileState ι) :
    (uploadAppend id chunk).wp (Tree.handle.sem.record i) (UploadRely (uploadPath id) i)
      (uploadPromise (uploadPath id) i) (fun _ _ => True) s := by
  rw [uploadAppend, Fallible.wp_bind, Fallible.wp_mapError]
  intro s₁ hr answer s₂ hs
  refine ⟨fun _ => .openAppend _, ?_⟩
  cases answer with
  | error err => trivial
  | ok inode =>
      have hopened : KnowsInode (uploadPath id) i inode s₂ := by
        intro _
        rw [← (handle_of_record hs).2]
        exact Tree.openAppend_eq_ok.mp (handle_of_record hs).1
      simp only [Prog.wp_pure, Except.mapError, Fallible.outcome_ok]
      rw [Fallible.wp_bind, Fallible.wp_mapError]
      intro s₃ hr answer s₄ hs
      have h₃ := hr.invariant
        (fun s => Orderly (uploadPath id) s.2 → KnowsInode (uploadPath id) i inode s)
        (fun _ => hopened) fun j op s answer s' hij hs hstep h horderly =>
          (h (orderly_of_record hs horderly).1).other hij hs (hstep horderly)
      refine ⟨fun horderly => ?_, ?_⟩
      · obtain ⟨hbefore, -, hwrites⟩ := orderly_of_record hs horderly
        by_cases hchunk : chunk = []
        · exact .append _ _ (.inl hchunk)
        · exact .append _ _ (.inr (h₃ hbefore (hwrites (by simp [writes, hchunk]))))
      · cases answer with
        | error err => trivial
        | ok added =>
            simp only [Prog.wp_pure, Except.mapError, Fallible.outcome_ok]
            rw [Fallible.wp_bind, Fallible.wp_mapError]
            intro s₅ hr answer s₆ hs
            refine ⟨fun _ => .len _, ?_⟩
            cases answer <;> trivial

-- What a finalizing call knows once it has checked what it read.
structure Checked (session : Path) (i : ι) (bytes : Bytes) (parent : Path) (s : FileState ι) :
    Prop where
  sound : BlobsSound s.1
  content : KnowsContent session i bytes s
  dir : s.1.node parent = some .dir

theorem checked_others {bytes : Bytes} {parent : Path} (hsession : ∀ d, ¬session <:+ blobPath d)
    (hr : UploadRely session i s s')
    (h : Orderly session s.2 → Checked session i bytes parent s) :
    Orderly session s'.2 → Checked session i bytes parent s' :=
  hr.invariant (fun s => Orderly session s.2 → Checked session i bytes parent s) h
    fun j op s answer s' hij hs hstep h horderly => by
      have hbefore := (orderly_of_record hs horderly).1
      refine ⟨sound_call hsession hs hstep (fun hb => (h hb).sound) horderly,
        (h hbefore).content.call hs (hstep horderly) fun hi => watching_of_other hij (hs.2 ▸ hi), ?_⟩
      rw [← (handle_of_record hs).2]
      exact Tree.handle_dir (h hbefore).dir

-- The directory for the blob is made.
theorem checked_made {expected : Digest} {bytes : Bytes} {parent : Path}
    (hsession : ∀ d, ¬session <:+ blobPath d)
    {answer : FileOp.Ans (.createDirAll (blobPath expected).tail)}
    (hs : Tree.handle.sem.record i (.createDirAll (blobPath expected).tail) s answer s')
    (h : Orderly session s.2 → Checked session i bytes parent s) (horderly : Orderly session s'.2) :
    Checked session i bytes (blobPath expected).tail s' := by
  obtain ⟨hsound, hcontent, -⟩ := h (orderly_of_record hs horderly).1
  refine ⟨sound_call hsession hs (fun _ => .createDirAll expected) (fun _ => hsound) horderly, ?_, ?_⟩
  · refine hcontent.call hs (.createDirAll expected) fun hi => ⟨?_, rfl⟩
    rw [hs.2, fresh, watching_snoc] at hi
    simpa [fresh, writes, renames] using hi
  · rw [← (handle_of_record hs).2]
    refine (Tree.createDirAll_ok fun above inode habove hfile => ?_).2
    exact hsound.free expected (Tree.blocked_cons.mpr ⟨above, inode, habove, hfile⟩)

-- And the rename then goes through.
theorem renamed_of_orderly {expected : Digest} {bytes : Bytes} {err : IoError}
    (hs : Tree.handle.sem.record i (.rename session (blobPath expected)) s (.error err) s')
    (h : Orderly session s.2 → Checked session i bytes (blobPath expected).tail s) :
    ¬Orderly session s'.2 := by
  intro horderly
  obtain ⟨hbefore, hrenames, -⟩ := orderly_of_record hs horderly
  obtain ⟨hsound, hcontent, hdir⟩ := h hbefore
  obtain ⟨inode, hnode, -⟩ := Tree.fileAt_eq_some.mp (hcontent (hrenames (by simp [renames])))
  have hok := congrArg Prod.fst (Tree.rename_ok hnode hdir (hsound.files expected))
  exact nomatch hok.symm.trans (handle_of_record hs).1

theorem wp_uploadFinalize (id : String) (expected : Digest) {s : FileState ι}
    (h : Orderly (uploadPath id) s.2 → BlobsSound s.1) :
    (uploadFinalize id expected).wp (Tree.handle.sem.record i) (UploadRely (uploadPath id) i)
      (uploadPromise (uploadPath id) i) (fun _ _ => True) s := by
  have hsession := uploadPath_apart id
  rw [uploadFinalize, Fallible.wp_bind, Fallible.wp_mapError]
  intro s₁ hr answer s₂ hs
  have h₁ := hr.invariant (fun s => Orderly (uploadPath id) s.2 → BlobsSound s.1) h
    fun _ _ _ _ _ _ hs hstep h => sound_call hsession hs hstep h
  refine ⟨fun _ => .read _, ?_⟩
  cases answer with
  | error err => trivial
  | ok bytes =>
      have hread : KnowsContent (uploadPath id) i bytes s₂ := by
        intro _
        rw [← (handle_of_record hs).2]
        exact Tree.read_ok.mp (handle_of_record hs).1
      have h₂ : Orderly (uploadPath id) s₂.2 → Checked (uploadPath id) i bytes [] s₂ :=
        fun horderly =>
          ⟨sound_call hsession hs (fun _ => .read _) h₁ horderly, hread, s₂.1.rooted⟩
      simp only [Prog.wp_pure, Except.mapError, Fallible.outcome_ok]
      split
      · trivial
      · rename_i hhash
        rw [Fallible.wp_bind, Fallible.wp_mapError]
        intro s₃ hr answer s₄ hs
        have h₃ := checked_others hsession hr h₂
        refine ⟨fun _ => .createDirAll expected, ?_⟩
        cases answer with
        | error err => trivial
        | ok made =>
            have h₄ := checked_made hsession hs h₃
            simp only [Prog.wp_pure, Except.mapError, Fallible.outcome_ok]
            rw [Fallible.wp_bind, Fallible.wp_mapError, Fallible.wp_attempt]
            intro s₅ hr answer s₆ hs
            have h₅ := checked_others hsession hr h₄
            refine ⟨fun horderly => ?_, ?_⟩
            · obtain ⟨hbefore, hrenames, -⟩ := orderly_of_record hs horderly
              obtain ⟨-, hcontent, hdir⟩ := h₅ hbefore
              exact .rename expected bytes (hcontent (hrenames (by simp [renames])))
                (not_not.mp hhash) hdir
            · cases answer with
              | ok moved => trivial
              | error err => exact wp_disorder _ (renamed_of_orderly hs h₅)

theorem wp_body (id : String) (call : UploadCall) {s : FileState ι}
    (h : Orderly (uploadPath id) s.2 → BlobsSound s.1) :
    (call.body id).wp (Tree.handle.sem.record i) (UploadRely (uploadPath id) i)
      (uploadPromise (uploadPath id) i) (fun _ _ => True) s := by
  cases call with
  | append chunk => exact wp_uploadAppend id chunk s
  | finalize expected => exact wp_uploadFinalize id expected h

end Calls

-- Whatever calls on one session do at once, every blob hashes to its name, if the
-- order above is kept.
theorem finalized_blobs_addressed [DecidableEq ι] {id : String} {calls : ι → UploadCall}
    {tree : Tree} (hsound : BlobsSound tree)
    {q : Pool ι FileOp FileOp.Ans (fun i => (calls i).Result) Tree}
    (hrun : Runs Tree.handle.sem (uploadCalls id calls tree) q)
    (horderly : Orderly (uploadPath id) q.now.2) {d : Digest} {bytes : Bytes}
    (h : q.now.1.fileAt (blobPath d) = some bytes) : hashContent d.algorithm bytes = d := by
  have hmeets : (uploadCalls id calls tree).Meets Tree.handle.sem (UploadRely (uploadPath id))
      (uploadPromise (uploadPath id)) fun _ _ _ => True :=
    fun i => wp_body id (calls i) fun _ => hsound
  have hinv := hmeets.invariant (compatible_others fun _ _ _ _ _ _ _ _ _ _ h => h) hrun
    (fun s => Orderly (uploadPath id) s.2 → BlobsSound s.1) (fun _ => hsound)
    fun _ _ _ _ _ hs hstep h => sound_call (uploadPath_apart id) hs hstep h
  exact (hinv horderly).addressed d bytes h

end

section

-- The sample hash, and what two letters hash to.
def xx : Bytes := Sample.text "xx"

def xxHash : Algorithm → String
  | .sha256 => "5dde896887f6754c9b15bfe3a441ae4806df2fde94001311e08bf110622e0bbe"
  | .sha512 => String.ofList (Sample.hexDigits 128
      0x294c8e2d592d8b13de92fd6d8254b33a4f4d816e06ec1c158c164a808a3d8164316908dd2580be11660efd8333d1f0f16b4869cb2fb94a657cfd8e3dddbc9714)

theorem xxHash_valid (algorithm : Algorithm) : ValidHex algorithm (xxHash algorithm) := by
  cases algorithm with
  | sha256 => decide +kernel
  | sha512 => exact Sample.hexDigits_valid .sha512 _

abbrev uploadSha2 : Sha2 where
  hexHash algorithm content := if content = xx then xxHash algorithm else Sample.hexOf algorithm content
  hexHash_valid algorithm content := by
    split
    · exact xxHash_valid algorithm
    · exact Sample.hexOf_valid algorithm content

attribute [local instance] uploadSha2

def session : String := "9f1e0c3a-5b7d-4e21-8a64-2c0d9b3f7e15"

-- A session that has received one letter.
def begun : Tree := ((new.create (uploadPath session)).2.append 0 Sample.x)

-- It is finalized while the client sends the letter once more.
def racing : Bool → UploadCall
  | true => .finalize (sha256Digest Sample.x)
  | false => .append Sample.x

def racingCalls : Pool Bool FileOp FileOp.Ans (fun i => (racing i).Result) Tree :=
  uploadCalls session racing begun

def appendedAfterCheck : List Bool := [true, true, false, false, true]

theorem late_append_published :
    ¬∀ q, Runs Tree.handle.sem racingCalls q → ∀ d bytes,
      q.now.1.fileAt (blobPath d) = some bytes → hashContent d.algorithm bytes = d := by
  intro h
  have hblob : (racingCalls.play Tree.handle appendedAfterCheck).now.1.fileAt
      (blobPath (sha256Digest Sample.x)) = some xx := by decide +kernel
  have hhash := h _ (runs_play Tree.handle appendedAfterCheck racingCalls) _ _ hblob
  exact absurd hhash (by decide)

-- The finalizing call first: the other no longer finds the file.
def appendedTooLate : List Bool := [true, true, true, false]

theorem begun_nodes : ∀ path ∈ begun.nodes.keys,
    path.length ≤ 2 ∧ (begun.node path = some .dir ∨ path = uploadPath session) := by
  decide

theorem mem_begun {path : Path} {node : Node} (h : begun.node path = some node) :
    path ∈ begun.nodes.keys := by
  have hmem : path ∈ begun.nodes := by
    rw [← AList.lookup_isSome, ← Files.Tree.node, h]
    rfl
  exact AList.mem_keys.mp hmem

theorem begun_sound : BlobsSound begun where
  addressed d bytes h := by
    obtain ⟨inode, hnode, -⟩ := Tree.fileAt_eq_some.mp h
    exact absurd (begun_nodes _ (mem_begun hnode)).1 (by simp [blobPath])
  files d hdir := absurd (begun_nodes _ (mem_begun hdir)).1 (by simp [blobPath])
  free d := by
    rintro ⟨above, inode, habove, -, hfile⟩
    rcases (begun_nodes above (mem_begun hfile)).2 with hdir | rfl
    · rw [hfile] at hdir
      cases hdir
    · exact uploadPath_apart session d habove

theorem finalized_blob_addressed :
    hashContent (sha256Digest Sample.x).algorithm Sample.x = sha256Digest Sample.x :=
  finalized_blobs_addressed begun_sound (runs_play Tree.handle appendedTooLate racingCalls)
    (by decide +kernel) (by decide +kernel)

end

end RspaceRegistry.Disk
