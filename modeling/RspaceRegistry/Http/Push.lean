import RspaceRegistry.Http.Rejected

namespace RspaceRegistry.Http

open Calls Files Disk

-- What a push answers, and what is read of its manifest afterwards.

def Response.header (response : Response) (key : String) : Option String :=
  response.headers.lookup key

section Handler

variable {σ : Type} [SerdeJson] [Sha2] {storage : Handler StorageOp StorageOp.Ans σ} {s s' : σ}
variable {repo reference : String} {body : Bytes}

-- The answer to a read of a manifest.
def manifestReply (body : Bytes) (headOnly : Bool) : Response :=
  ⟨200,
    [("content-type", manifestMediaType body none),
      ("docker-content-digest", (hashContent .sha256 body).toString),
      ("content-length", toString body.length)],
    if headOnly then .empty else .bytes body⟩

def pushReply (repo : String) (d : Digest) (contentType : Option String) (body : Bytes) : Response :=
  ⟨201,
    [("location", "/v2/" ++ repo ++ "/manifests/" ++ d.toString),
      ("docker-content-digest", d.toString),
      ("content-type", manifestMediaType body contentType)],
    .empty⟩

theorem get_reply (hname : validateRepoName repo = .ok ()) (headOnly : Bool)
    (hget : storage (.manifestGet repo (parseReference reference)) s = (.ok body, s')) :
    (manifestGet repo reference headOnly).run storage s = (.ok (manifestReply body headOnly), s') := by
  have hcall : (callOr (.manifestGet repo (parseReference reference)) .manifestUnknown
      "manifest unknown").run storage s = (.ok body, s') := by
    rw [run_callOr, hget]
    rfl
  unfold manifestGet
  rw [hname]
  exact Fallible.run_bind_of_ok hcall _

omit [Sha2] in
-- An accepted push has the digest that it names.
theorem put_reply {contentType : Option String} {response : Response}
    (hput : (manifestPut repo reference contentType body).run storage s = (.ok response, s')) :
    validateRepoName repo = .ok () ∧ ∃ d,
      storage (.manifestPut repo (parseReference reference) body) s = (.ok d, s') ∧
      (∀ want, parseReference reference = .digest want → want = d) ∧
      response = pushReply repo d contentType body := by
  unfold manifestPut at hput
  cases hname : validateRepoName repo with
  | error err =>
      rw [hname] at hput
      cases (Prod.mk.inj hput).1
  | ok _ =>
      rw [hname] at hput
      refine ⟨rfl, ?_⟩
      by_cases hjson : (SerdeJson.fromSlice body).isNone
      · simp only [hjson, if_true] at hput
        cases (Prod.mk.inj hput).1
      · simp only [hjson] at hput
        have hparts : ∃ d mid, (call (.manifestPut repo (parseReference reference) body)).run storage
            s = (.ok d, mid) ∧ _ := Fallible.run_bind_eq_ok hput
        obtain ⟨d, mid, hcall, hrest⟩ := hparts
        rw [run_call] at hcall
        obtain ⟨hanswer, rfl⟩ := Prod.mk.inj hcall
        refine ⟨d, ?_⟩
        cases htarget : parseReference reference with
        | tag tag =>
            rw [htarget] at hrest hanswer
            obtain ⟨hreply, hstate⟩ := Prod.mk.inj hrest
            exact ⟨Prod.ext (mapError_eq_ok.mp hanswer) hstate, nofun, (Except.ok.inj hreply).symm⟩
        | digest want =>
            rw [htarget] at hrest hanswer
            by_cases hsame : want = d
            · simp only [hsame, ne_eq, not_true_eq_false, if_false] at hrest
              obtain ⟨hreply, hstate⟩ := Prod.mk.inj hrest
              refine ⟨Prod.ext (mapError_eq_ok.mp hanswer) hstate, fun other hother => ?_,
                (Except.ok.inj hreply).symm⟩
              rw [← Disk.Reference.digest.inj hother, hsame]
            · simp only [ne_eq, hsame, not_false_eq_true, if_true] at hrest
              cases (Prod.mk.inj hrest).1

end Handler

section Exchange

variable [SerdeJson] [Sha2] {tree tree' : Tree} {name reference : String} {body : Bytes} {d : Digest}

-- GET returns the manifest, and HEAD its length.
def ReadsBack (tree : Tree) (name reference : String) (body : Bytes) : Prop :=
  ∃ got head tree₁ tree₂,
    (manifestGet name reference false).run fsStorage tree = (.ok got, tree₁) ∧
    got.body = .bytes body ∧
    (manifestGet name reference true).run fsStorage tree = (.ok head, tree₂) ∧
    head.header "content-length" = some (toString body.length)

omit [SerdeJson] in
theorem get_of_answer {target : Disk.Reference}
    (h : (StorageOp.manifestGet name target).answer tree = some body) :
    (fsStorage (.manifestGet name target) tree).1 = .ok body := by
  unfold StorageOp.answer at h
  cases hanswer : (fsStorage (.manifestGet name target) tree).1 with
  | error err =>
      rw [hanswer] at h
      cases h
  | ok content =>
      rw [hanswer] at h
      exact congrArg Except.ok (Option.some.inj h)

theorem readsBack_of_answer (hname : validateRepoName name = .ok ())
    (h : (StorageOp.manifestGet name (parseReference reference)).answer tree = some body) :
    ReadsBack tree name reference body := by
  have hget : fsStorage (.manifestGet name (parseReference reference)) tree =
      (.ok body, (fsStorage (.manifestGet name (parseReference reference)) tree).2) :=
    Prod.ext (get_of_answer h) rfl
  exact ⟨_, _, _, _, get_reply hname false hget, rfl, get_reply hname true hget, rfl⟩

-- A manifest can be pushed under a digest of its content and read back, and can be read
-- under that digest once it is pushed under a tag. Under another digest it is refused.
structure Exchanged (tree : Tree) (name : String) (body : Bytes) (d : Digest) : Prop where
  pushed : hashContent d.algorithm body = d → ∀ contentType, ∃ response tree',
    (manifestPut name d.toString contentType body).run fsStorage tree = (.ok response, tree') ∧
      ReadsBack tree' name d.toString body
  tagged : hashContent d.algorithm body = d → ∀ tag contentType response tree',
    tag ≠ "" → '/' ∉ tag.toList → parseReference tag = .tag tag →
    (manifestPut name tag contentType body).run fsStorage tree = (.ok response, tree') →
      ReadsBack tree' name tag body ∧ ReadsBack tree' name d.toString body
  refused : hashContent d.algorithm body ≠ d → ∀ contentType, ∃ err tree',
    (manifestPut name d.toString contentType body).run fsStorage tree = (.error err, tree')

section Repository

variable {repo : Repo}

omit [SerdeJson] in
theorem answer_digest_after (hstored : tree.fileAt (manifestDigestPath repo.name d) = some body) :
    (StorageOp.manifestGet repo.name (parseReference d.toString)).answer tree = some body := by
  rw [parseReference, fromStr_toString, answer_digest]
  exact hstored

theorem push_by_digest (h : Grown tree) (hway : ¬InTheWay tree ("digests" :: repoPath repo.name))
    (hjson : ¬(SerdeJson.fromSlice body).isNone) (hd : hashContent .sha256 body = d)
    (contentType : Option String) : ∃ response tree',
      (manifestPut repo.name d.toString contentType body).run fsStorage tree =
        (.ok response, tree') ∧ tree'.fileAt (manifestDigestPath repo.name d) = some body := by
  have htarget : parseReference d.toString = .digest d := by
    rw [parseReference, fromStr_toString]
  have htakes : Takes tree repo.name body (.digest d) := hd.symm
  have htaken := taken h.dirs hway htakes
  have hstored : Put repo body tree ((StorageOp.body tree
      (.manifestPut repo.name (.digest d) body)).run Tree.handle tree).2 := put_stores _ _ h.dirs hway
  rw [← put_eq] at htaken hstored
  rw [← htarget] at htaken
  obtain ⟨response, hput⟩ := run_accepted repo.valid hjson contentType (Prod.ext htaken rfl) <| by
    intro want hwant
    rw [htarget] at hwant
    rw [hd, Disk.Reference.digest.inj hwant]
  refine ⟨response, _, hput, ?_⟩
  have hcontent := hstored.stored
  rw [hd] at hcontent
  rwa [htarget]

omit [SerdeJson] in
theorem put_digest (h : Grown tree) {target : Disk.Reference} {computed : Digest}
    (hput : fsStorage (.manifestPut repo.name target body) tree = (.ok computed, tree')) :
    ¬InTheWay tree ("digests" :: repoPath repo.name) ∧ computed = hashContent .sha256 body := by
  rw [put_eq] at hput
  have hway : ¬InTheWay tree ("digests" :: repoPath repo.name) := by
    intro hway
    obtain ⟨err, hblocked⟩ := put_blocked target body hway
    rw [hblocked] at hput
    cases (Prod.mk.inj hput).1
  refine ⟨hway, ?_⟩
  by_cases htakes : Takes tree repo.name body target
  · have htaken := taken h.dirs hway htakes
    rw [hput] at htaken
    exact Except.ok.inj htaken
  · obtain ⟨answer, after, hrun, hanswer, -⟩ := not_taken h.dirs hway htakes
    rw [hrun] at hput
    obtain ⟨rfl, -⟩ := Prod.mk.inj hput
    rcases hanswer with herror | ⟨hok, -⟩
    · cases herror
    · exact Except.ok.inj hok

omit [SerdeJson] in
-- The manifest is stored under its digest and the tag names that.
theorem tag_after (h : Grown tree) {tag : String} {computed : Digest}
    (hput : fsStorage (.manifestPut repo.name (.tag tag) body) tree = (.ok computed, tree')) :
    tree'.fileAt (manifestDigestPath repo.name (hashContent .sha256 body)) = some body ∧
      (StorageOp.manifestGet repo.name (.tag tag)).answer tree' = some body := by
  have hway := (put_digest h hput).1
  rw [put_eq] at hput
  have htakes : TakesTag tree repo.name tag := by
    by_contra htakes
    obtain ⟨answer, after, hrun, herror | ⟨-, want, hwant, -⟩, -⟩ :=
      not_taken h.dirs hway (show ¬Takes tree repo.name body (.tag tag) from htakes)
    · rw [hrun, herror] at hput
      cases (Prod.mk.inj hput).1
    · cases hwant
  obtain ⟨mid, hstore, hstored⟩ := run_putManifest body h.dirs hway
  obtain ⟨after, hwrite, htag⟩ := reference_written (hashContent .sha256 body)
    ((stored_takesTag hstored tag).mpr htakes)
  rw [body_manifestPut, Fallible.run_bind_of_ok hstore, hwrite] at hput
  obtain ⟨-, rfl⟩ := Prod.mk.inj hput
  have hcontent : after.fileAt (manifestDigestPath repo.name (hashContent .sha256 body)) =
      some body := by
    rw [htag.others _ (tagPath_ne_digestPath _ _ _ _).symm (manifest_not_tmp _ _)]
    exact hstored.content
  refine ⟨hcontent, ?_⟩
  have htarget : tagTarget repo.name tag after = some (hashContent .sha256 body) := by
    rw [tagTarget, htag.content]
    simp [Except.toOption]
  rw [answer_tag after repo.name ⟨htakes.1, htakes.2.1⟩, htarget]
  exact hcontent

theorem push_other_digest (hd : hashContent .sha256 body ≠ d) (contentType : Option String)
    (h : Grown tree) : ∃ err tree',
      (manifestPut repo.name d.toString contentType body).run fsStorage tree =
        (.error err, tree') := by
  rcases hrun : (manifestPut repo.name d.toString contentType body).run fsStorage tree with
    ⟨answer, tree'⟩
  cases answer with
  | error err => exact ⟨err, tree', rfl⟩
  | ok response =>
      obtain ⟨-, computed, hput, hsame, -⟩ := put_reply hrun
      have hwant := hsame d (by rw [parseReference, fromStr_toString])
      exact absurd (hwant.trans (put_digest h hput).2).symm hd

end Repository

theorem Exchanged.only (h : Grown tree) (repo : Repo) (hexchanged : Exchanged tree repo.name body d)
    (hd : hashContent d.algorithm body = d) :
    d.algorithm = .sha256 ∧ ¬InTheWay tree ("digests" :: repoPath repo.name) := by
  obtain ⟨response, tree', hput, -⟩ := hexchanged.pushed hd none
  obtain ⟨-, computed, hstore, hsame, -⟩ := put_reply hput
  obtain ⟨hway, hcomputed⟩ := put_digest h hstore
  have hwant := hsame d (by rw [parseReference, fromStr_toString])
  exact ⟨by rw [hwant, hcomputed, hashContent_algorithm], hway⟩

-- The store computes SHA-256 whatever the digest names, so that no manifest is taken
-- under its SHA-512 digest.
theorem exchanged_iff (h : Grown tree) (hname : validateRepoName name = .ok ())
    (hjson : (SerdeJson.fromSlice body).isSome) (d : Digest) :
    Exchanged tree name body d ↔
      (hashContent d.algorithm body = d →
        d.algorithm = .sha256 ∧ ¬InTheWay tree ("digests" :: repoPath name)) := by
  obtain ⟨repo, rfl⟩ : ∃ repo : Repo, repo.name = name := ⟨⟨name, hname⟩, rfl⟩
  have hvalue : ¬(SerdeJson.fromSlice body).isNone := by
    simpa [Option.isSome_iff_ne_none] using hjson
  constructor
  · exact fun hexchanged hd => hexchanged.only h repo hd
  · intro hwhen
    refine ⟨fun hd contentType => ?_, fun hd tag contentType response tree' _ _ htag hput => ?_,
      fun hd contentType => ?_⟩
    · obtain ⟨halgorithm, hway⟩ := hwhen hd
      rw [halgorithm] at hd
      obtain ⟨response, tree', hput, hstored⟩ := push_by_digest h hway hvalue hd contentType
      exact ⟨response, tree', hput, readsBack_of_answer hname (answer_digest_after hstored)⟩
    · obtain ⟨halgorithm, -⟩ := hwhen hd
      rw [halgorithm] at hd
      obtain ⟨-, computed, hstore, -⟩ := put_reply hput
      rw [htag] at hstore
      obtain ⟨hstored, hanswer⟩ := tag_after h hstore
      refine ⟨readsBack_of_answer hname ?_, readsBack_of_answer hname ?_⟩
      · rw [htag]
        exact hanswer
      · exact answer_digest_after (hd ▸ hstored)
    · refine push_other_digest (fun hsame => hd ?_) contentType h
      rw [← hsame, hashContent_algorithm]

end Exchange

section

attribute [local instance] Sample.sha2 Sample.serdeJson

theorem exchanged_braces :
    (validateRepoName "a" = .ok () ∧ (SerdeJson.fromSlice Sample.braces).isSome) ∧
      Exchanged new "a" Sample.braces (hashContent .sha256 Sample.braces) := by
  refine ⟨⟨by decide, by decide⟩, ?_⟩
  exact (exchanged_iff grown_new (by decide) (by decide) _).mpr fun _ =>
    ⟨hashContent_algorithm _ _, nothing_in_the_way _⟩

def repoATagsV1 : Repo := ⟨"a/tags/v1", by decide⟩

-- The SHA-512 digest of a manifest is refused, and so is every digest in a repository
-- in the place of a tag.
theorem digest_refused :
    ¬(∀ tree, Grown tree → ∀ name, validateRepoName name = .ok () →
      ∀ body, (SerdeJson.fromSlice body).isSome → ∀ d, Exchanged tree name body d) ∧
    ¬Exchanged new "a" Sample.braces (hashContent .sha512 Sample.braces) ∧
    ¬Exchanged heldA "a/tags/v1" Sample.braces (hashContent .sha256 Sample.braces) := by
  have hlong : ¬Exchanged new "a" Sample.braces (hashContent .sha512 Sample.braces) := by
    intro hexchanged
    have honly := (Exchanged.only grown_new repoA hexchanged rfl).1
    exact absurd honly (by decide)
  have hbelow : ¬Exchanged heldA "a/tags/v1" Sample.braces (hashContent .sha256 Sample.braces) := by
    intro hexchanged
    have hfile : (heldA.fileAt (manifestTagPath "a" "v1")).isSome := by decide +kernel
    have habove : manifestTagPath "a" "v1" <:+ "digests" :: repoPath repoATagsV1.name :=
      List.suffix_cons _ _
    exact (Exchanged.only grown_heldA.1 repoATagsV1 hexchanged rfl).2
      (inTheWay_iff_fileAt.mpr ⟨_, habove, hfile⟩)
  refine ⟨fun hall => ?_, hlong, hbelow⟩
  exact hlong (hall new grown_new "a" (by decide) _ (by decide) _)

end

end RspaceRegistry.Http
