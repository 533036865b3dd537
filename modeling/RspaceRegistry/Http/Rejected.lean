import RspaceRegistry.Disk.Names
import RspaceRegistry.Http.Handlers

namespace RspaceRegistry.Http

open Calls Files Disk

-- What can be read after a push that is answered with an error.

section Handler

theorem run_call {σ : Type} (handler : Handler StorageOp StorageOp.Ans σ) (op : StorageOp) (s : σ) :
    (call op).run handler s = ((handler op s).1.mapError fromStorage, (handler op s).2) := by
  rw [call, Fallible.run_mapError]
  rfl

theorem lift_ok_bind {α β : Type} (value : α) (rest : α → HandlerM β) :
    (lift (.ok value) >>= rest) = rest value := rfl

theorem run_callOr {σ : Type} (handler : Handler StorageOp StorageOp.Ans σ) (op : StorageOp)
    (code : OciCode) (message : String) (s : σ) :
    (callOr op code message).run handler s =
      ((handler op s).1.mapError fun err =>
        if err = .notFound then .new code message else fromStorage err, (handler op s).2) := by
  rw [callOr, Fallible.run_mapError]
  rfl

variable [SerdeJson] {σ : Type} {storage : Handler StorageOp StorageOp.Ans σ} {s s' : σ}
  {repo : String} {body : Bytes}
variable (hname : validateRepoName repo = .ok ())

include hname

theorem run_not_json (reference : String) (contentType : Option String)
    (hjson : (SerdeJson.fromSlice body).isNone) : ∃ err,
      (manifestPut repo reference contentType body).run storage s = (.error err, s) := by
  unfold manifestPut
  rw [hname]
  simp only [hjson, if_true]
  exact ⟨_, rfl⟩

variable (hjson : ¬(SerdeJson.fromSlice body).isNone) {reference : String}

include hjson

theorem run_refused {err : StorageError} (contentType : Option String)
    (hrun : storage (.manifestPut repo (parseReference reference) body) s = (.error err, s')) :
    (manifestPut repo reference contentType body).run storage s = (.error (fromStorage err), s') := by
  have hcall : (call (.manifestPut repo (parseReference reference) body)).run storage s =
      (.error (fromStorage err), s') := by
    rw [run_call, hrun]
    rfl
  unfold manifestPut
  rw [hname]
  simp only [hjson]
  exact Fallible.run_bind_of_error hcall _

theorem run_other_digest {d want : Digest} (contentType : Option String)
    (hrun : storage (.manifestPut repo (parseReference reference) body) s = (.ok d, s'))
    (hwant : parseReference reference = .digest want) (hne : want ≠ d) : ∃ err,
      (manifestPut repo reference contentType body).run storage s = (.error err, s') := by
  have hcall : (call (.manifestPut repo (parseReference reference) body)).run storage s =
      (.ok d, s') := by
    rw [run_call, hrun]
    rfl
  refine ⟨.new .digestInvalid ("path digest " ++ want.toString ++ " does not match computed " ++
    d.toString), ?_⟩
  unfold manifestPut
  rw [hname]
  simp only [hjson]
  refine Eq.trans (Fallible.run_bind_of_ok hcall _) ?_
  rw [hwant]
  simp only [if_pos hne]
  rfl

theorem run_accepted {d : Digest} (contentType : Option String)
    (hrun : storage (.manifestPut repo (parseReference reference) body) s = (.ok d, s'))
    (hsame : ∀ want, parseReference reference = .digest want → want = d) : ∃ reply,
      (manifestPut repo reference contentType body).run storage s = (.ok reply, s') := by
  have hcall : (call (.manifestPut repo (parseReference reference) body)).run storage s =
      (.ok d, s') := by
    rw [run_call, hrun]
    rfl
  refine ⟨⟨201, [("location", "/v2/" ++ repo ++ "/manifests/" ++ d.toString),
    ("docker-content-digest", d.toString), ("content-type", manifestMediaType body contentType)],
    .empty⟩, ?_⟩
  unfold manifestPut
  rw [hname]
  simp only [hjson]
  refine Eq.trans (Fallible.run_bind_of_ok hcall _) ?_
  cases htarget : parseReference reference with
  | digest want =>
      simp only [if_neg (not_not_intro (hsame want htarget))]
      rfl
  | tag tag => rfl

end Handler

section Rejected

variable [SerdeJson] [Sha2]

-- What can be read is the same.
def SameAnswers (tree tree' : Tree) : Prop :=
  ∀ question : Question, question.op.answerLimited tree' = question.op.answerLimited tree

-- A rejected push changes nothing that can be read.
def RejectsCleanly (tree : Tree) (repo reference : String) (contentType : Option String)
    (body : Bytes) : Prop :=
  ∀ err tree', (manifestPut repo reference contentType body).run limitedStorage tree =
    (.error err, tree') → SameAnswers tree tree'

-- The manifest was there before, and what is left of the tag cannot be read.
structure NoTrace (tree : Tree) (repo : String) (target : Disk.Reference) (body : Bytes) : Prop where
  held : tree.fileAt (manifestDigestPath repo (hashContent .sha256 body)) = some body
  unseen : ∀ path, LeavesLimited tree repo target path → Unseen tree (hashContent .sha256 body) path

variable {tree : Tree} {repo : Repo} {body : Bytes} {reference : String}

omit [SerdeJson] in
theorem put_eq (target : Disk.Reference) : fsStorage (.manifestPut repo.name target body) tree =
    (StorageOp.body tree (.manifestPut repo.name target body)).run Tree.handle tree := rfl

omit [SerdeJson] in
theorem sameAnswers_iff {tree' : Tree} (h : tree.NamesFit) (h' : tree'.NamesFit) :
    SameAnswers tree tree' ↔ SameContents tree tree' := by
  refine forall_congr' fun question => ?_
  rw [answer_limited h, answer_limited h']

-- The push fails after its manifest is stored.
theorem run_not_taken (h : Grown tree) (hnames : tree.NamesFit)
    (hjson : ¬(SerdeJson.fromSlice body).isNone)
    (hway : ¬InTheWay tree ("digests" :: repoPath repo.name))
    (htakes : ¬TakesLimited tree repo.name body (parseReference reference))
    (contentType : Option String) : ∃ err tree' left,
      (manifestPut repo.name reference contentType body).run limitedStorage tree =
        (.error err, tree') ∧ tree'.NamesFit ∧ NotTaken tree repo left body tree' ∧
        (left = parseReference reference ∨ left = .tag "..") ∧
        ∀ path, Leaves tree repo.name left path ↔
          LeavesLimited tree repo.name (parseReference reference) path := by
  obtain ⟨answer, tree', left, hrun, hanswer, hleft⟩ := limited_not_taken h hway htakes
  have hfit : tree'.NamesFit := by
    have hafter := hnames.run (StorageOp.body tree
      (.manifestPut repo.name (parseReference reference) body))
    rwa [show (Prog.run Tree.limited (StorageOp.body tree
      (.manifestPut repo.name (parseReference reference) body)) tree) = (answer, tree') from hrun]
      at hafter
  rcases hanswer with rfl | ⟨rfl, want, htarget, hne⟩
  · exact ⟨_, tree', left, run_refused repo.valid hjson contentType hrun, hfit, hleft⟩
  · obtain ⟨err, hreply⟩ := run_other_digest repo.valid hjson contentType hrun htarget hne
    exact ⟨err, tree', left, hreply, hfit, hleft⟩

theorem rejectsCleanly_of_taken (h : Grown tree) (hjson : ¬(SerdeJson.fromSlice body).isNone)
    (hway : ¬InTheWay tree ("digests" :: repoPath repo.name))
    (htakes : TakesLimited tree repo.name body (parseReference reference))
    (contentType : Option String) : RejectsCleanly tree repo.name reference contentType body := by
  have htaken := limited_taken h hway htakes
  obtain ⟨reply, hreply⟩ := run_accepted repo.valid hjson contentType (Prod.ext htaken rfl) <| by
    intro want hwant
    rw [hwant] at htakes
    exact htakes
  intro err tree' hrun
  rw [hreply] at hrun
  cases hrun

theorem rejectsCleanly_of_blocked (hjson : ¬(SerdeJson.fromSlice body).isNone)
    (hway : InTheWay tree ("digests" :: repoPath repo.name)) (contentType : Option String) :
    RejectsCleanly tree repo.name reference contentType body := by
  obtain ⟨err, hblocked⟩ := limited_blocked (parseReference reference) body hway
  intro err' tree' hrun
  rw [run_refused repo.valid hjson contentType hblocked] at hrun
  rw [← (Prod.mk.inj hrun).2]
  exact fun _ => rfl

-- A push that fails at its reference, after its manifest is stored.
theorem rejectsCleanly_not_taken (h : Grown tree) (hnames : tree.NamesFit)
    (hsegment : '/' ∉ reference.toList) (hjson : ¬(SerdeJson.fromSlice body).isNone)
    (hway : ¬InTheWay tree ("digests" :: repoPath repo.name))
    (htakes : ¬TakesLimited tree repo.name body (parseReference reference))
    (contentType : Option String) :
    RejectsCleanly tree repo.name reference contentType body ↔
      NoTrace tree repo.name (parseReference reference) body := by
  obtain ⟨err, tree', left, hrun, hfit, hleft, hwhich, hleaves⟩ :=
    run_not_taken h hnames hjson hway htakes contentType
  have hsingle : ∀ tag, left = .tag tag → '/' ∉ tag.toList := by
    intro tag htag
    rcases hwhich with rfl | rfl
    · unfold parseReference at htag
      split at htag
      · cases htag
      · rwa [← Disk.Reference.tag.inj htag]
    · rw [← Disk.Reference.tag.inj htag]
      decide
  constructor
  · intro hclean
    have hsame := (sameAnswers_iff hnames hfit).mp (hclean err tree' hrun)
    have hheld := hleft.held_of_same hsame
    exact ⟨hheld, fun path hpath =>
      hleft.unseen_of_same hheld hsame hsingle ((hleaves path).mpr hpath)⟩
  · rintro ⟨hheld, hunseen⟩ err' tree'' hrun'
    rw [hrun] at hrun'
    rw [← (Prod.mk.inj hrun').2]
    exact (sameAnswers_iff hnames hfit).mpr (hleft.sameContents hheld
      (fun path hpath => hunseen path ((hleaves path).mp hpath)) h.root)

end Rejected

section

attribute [local instance] Sample.sha2 Sample.serdeJson

theorem parseReference_digest (d : Digest) : parseReference d.toString = .digest d := by
  rw [parseReference, fromStr_toString]

-- The digest of another manifest.
def otherDigest : String := (hashContent .sha256 Sample.brackets).toString

def heldA : Tree := runLimited [.manifestPut "a" (.tag "v1") Sample.braces] new

theorem grown_heldA : Grown heldA ∧ heldA.NamesFit := by
  refine grown_limited _ grown_new namesFit_new ?_
  simp only [List.mem_singleton, forall_eq, StorageOp.repo, Option.some.injEq]
  exact fun _ heq => heq ▸ repoA.valid

theorem heldA_file : heldA.fileAt (manifestDigestPath "a" (hashContent .sha256 Sample.braces)) =
    some Sample.braces := by
  have hsame : heldA = (fsStorage (.manifestPut "a" (.tag "v1") Sample.braces) new).2 := by
    show (limitedStorage (.manifestPut repoA.name (.tag "v1") Sample.braces) new).2 = _
    rw [limited_of_fits fun tag htag => ?_]
    · rfl
    · rw [← Disk.Reference.tag.inj htag]
      decide
  rw [hsame]
  decide +kernel

-- A tag that is short enough for a file, but not with the extension of a temporary one.
def longTag : String := String.ofList (List.replicate 252 'v')

theorem longTag_toList : longTag.toList = List.replicate 252 'v' := String.toList_ofList

theorem longTag_chars {c : Char} (h : c ≠ 'v') : c ∉ longTag.toList := by
  rw [longTag_toList]
  exact fun hmem => h (List.eq_of_mem_replicate hmem)

theorem longTag_reference : parseReference longTag = .tag longTag := by
  have hdrop : longTag.toList.dropWhile (· ≠ ':') = [] := by
    refine List.dropWhile_eq_nil_iff.mpr fun c hc => ?_
    have hne : c ≠ ':' := by
      rintro rfl
      exact longTag_chars (by decide) hc
    simpa using hne
  have hsplit : Digest.splitColon longTag = none := by
    rw [Digest.splitColon, List.span_eq_takeWhile_dropWhile, hdrop]
  rw [parseReference, Digest.fromStr, hsplit]

theorem longTag_size (n : Nat) : (String.ofList (List.replicate n 'v')).utf8ByteSize = n := by
  induction n with
  | zero => rfl
  | succ n ih =>
      rw [List.replicate_succ, String.ofList_cons, String.utf8ByteSize_append, ih,
        String.utf8ByteSize_singleton, Nat.add_comm]
      rfl

theorem longTag_tmp : ¬Fits (tmpName longTag) := by
  have hdrop : longTag.toList.reverse.dropWhile (· ≠ '.') = [] := by
    refine List.dropWhile_eq_nil_iff.mpr fun c hc => ?_
    have hne : c ≠ '.' := by
      rintro rfl
      exact longTag_chars (by decide) (List.mem_reverse.mp hc)
    simpa using hne
  have hstem : fileStem longTag = longTag := by
    rw [fileStem, List.span_eq_takeWhile_dropWhile, hdrop]
  intro hfits
  have hsize := hfits.1
  have hlong : longTag.utf8ByteSize = 252 := longTag_size 252
  have htail : ".".utf8ByteSize + "tmp".utf8ByteSize = 4 := by decide
  rw [IsShort, tmpName, hstem, String.utf8ByteSize_append, String.utf8ByteSize_append, hlong,
    Nat.add_assoc, htail] at hsize
  exact absurd hsize (by decide)

end

end RspaceRegistry.Http
