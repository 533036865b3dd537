import RspaceRegistry.Stores.Delivered

namespace RspaceRegistry.Stores

open Calls Disk Files Http Ordered

-- What was acknowledged is served until it is deleted.

-- What is known of an event is known of what it is to a directory.
theorem turn_of_event {P : StorageOp → Prop} {e : ServerEvent} {turn : Happening}
    (hop : turn.op = e.op) (h : ∀ op, e.op = some op → P op) :
    ∀ e' ∈ [] ++ [turn], ∀ op, e'.op = some op → P op := by
  intro e' he' op hsome
  rw [List.nil_append, List.mem_singleton] at he'
  rw [he', hop] at hsome
  exact h op hsome

section Blobs

variable [Sha2] {roots : List RootId} {d : Digest} {s s' : QuotaState Trees}

-- The events that do not delete the blob.
def LeavesBlob (d : Digest) (e : ServerEvent) : Prop :=
  ∀ op, e.op = some op → ∀ repo, op ≠ .blobDelete repo d

-- One of the directories has the blob.
structure HeldIn (roots : List RootId) (d : Digest) (s : QuotaState Trees) : Prop where
  sound : Sound s.store
  held : ∃ root ∈ roots, HasBlob d (s.store root)

theorem HeldIn.later (h : HeldIn roots d s) (hhappens : Happens (LeavesBlob d) s s') :
    HeldIn roots d s' := by
  obtain ⟨root, hroot, hblob⟩ := h.held
  refine ⟨hhappens.sound h.sound, root, hroot, ?_⟩
  refine hhappens.keeps_at (P := HasBlob d) h.sound ?_ hblob
  intro e hleaves turn tree tree' hop hwhole hsound hturn hheld
  refine life_keeps_blob (.turn .start hturn) hsound.toManifestsSound (fun e' he' repo heq => ?_)
    (fun e' he' => ?_) hheld
  · exact turn_of_event hop hleaves e' he' _ heq repo rfl
  · rw [List.nil_append, List.mem_singleton] at he'
    rw [he']
    exact hwhole d

variable {registry : Registry} {m : Moment} {repo : String}

theorem sound_after (registry : Registry) (m : Moment) (op : StorageOp) (h : Sound s.store) :
    Sound (registry.storage m op s).2.store :=
  Leads.sound (.call registry m op s) trivial h

theorem held_of_exists (h : Sound s.store) (hroots : (registry.home repo).leaves ⊆ roots)
    (hexists : (blobIn s.store (registry.home repo).readOrder d).isSome) : HeldIn roots d s := by
  obtain ⟨root, hroot, hblob⟩ := (blobIn_isSome _ d).mp hexists
  obtain ⟨content, hcontent⟩ := Option.isSome_iff_exists.mp hblob
  exact ⟨h, root, hroots (((registry.home repo).mem_readOrder root).mp hroot), content, hcontent,
    (h root).blobs_hash d content hcontent⟩

theorem held_of_write (h : Sound s.store) (hroots : (registry.home repo).leaves ⊆ roots)
    {content : Bytes} (hok : (registry.storage m (.blobWrite repo d content) s).1 = .ok ()) :
    HeldIn roots d (registry.storage m (.blobWrite repo d content) s).2 := by
  have hprimary : ForPrimary (.request (.blobWrite repo d content)) := fun _ _ _ _ => rfl
  obtain ⟨hanswer, hstore⟩ := storage_head registry m h rfl hprimary hok
  refine ⟨sound_after registry m _ h, _, hroots (registry.home repo).head_mem_leaves, ?_⟩
  rw [hstore]
  exact hasBlob_of_write _ (h _).toLaid hanswer

theorem held_of_finalize (h : Sound s.store) (hroots : (registry.home repo).leaves ⊆ roots)
    {id : String} (hok : (registry.storage m (.uploadFinalize repo id d) s).1 = .ok ()) :
    HeldIn roots d (registry.storage m (.uploadFinalize repo id d) s).2 := by
  have hprimary : ForPrimary (.request (.uploadFinalize repo id d)) := fun _ _ _ _ => rfl
  obtain ⟨hanswer, hstore⟩ := storage_head registry m h rfl hprimary hok
  refine ⟨sound_after registry m _ h, _, hroots (registry.home repo).head_mem_leaves, ?_⟩
  rw [hstore]
  exact hasBlob_of_finalize _ (h _).toLaid hanswer

end Blobs

section Pushes

variable [Sha2] {roots : List RootId} {d : Digest} {s s' : QuotaState Trees} {repo : String}
  {allowed : ServerEvent → Prop}

-- A response that says the blob is there is right.
def Acknowledges (roots : List RootId) (d : Digest) (response : Response) (s : QuotaState Trees) :
    Prop :=
  response.status = 201 → response.header "docker-content-digest" = some d.toString →
    HeldIn roots d s

-- The registries under which the repository is in these directories.
def HomeWithin (repo : String) (roots : List RootId) (registry : Registry) : Prop :=
  (registry.home repo).leaves ⊆ roots

theorem acknowledges_stored {stored : Digest} (hkept : HeldIn roots stored s) :
    Acknowledges roots d ⟨201, blobLocation repo stored, .empty⟩ s := by
  intro _ hheader
  have hdigest : some stored.toString = some d.toString := hheader
  rw [← toString_injective (Option.some.inj hdigest)]
  exact hkept

theorem wp_write (f : StorageError → OciError) (h : Sound s.store) (stored : Digest)
    (content : Bytes) : (Fallible.mapError f (ask (.blobWrite repo stored content))).wp
      (through (HomeWithin repo roots)) (Happens allowed) unguarded
      (Fallible.Outcome (fun _ s => HeldIn roots stored s) fun _ _ => True) s :=
  wp_asked f fun _ hs₁ _ _ hregistry =>
    ⟨fun _ hok => held_of_write (hs₁.sound h) hregistry hok, fun _ _ => trivial⟩

theorem wp_copyFrom (h : Sound s.store) (stored : Digest) (from? : Option String) :
    (copyFrom repo stored from?).wp (through (HomeWithin repo roots)) (Happens allowed) unguarded
      (Fallible.Outcome (fun mounted s => Sound s.store ∧
        ∀ response ∈ mounted, Acknowledges roots d response s) fun _ _ => True) s := by
  rw [copyFrom]
  split
  · exact ⟨h, fun _ hnone => by cases hnone⟩
  · rename_i source _
    rw [Fallible.wp_bind, Fallible.wp_attempt, call, Fallible.wp_mapError]
    rintro s₁ hs₁ answer s₂ ⟨registry, m, -, hrun⟩
    have h₂ : Sound s₂.store := by
      have hafter := sound_after registry m (.blobRead source stored) (hs₁.sound h)
      rwa [hrun] at hafter
    refine ⟨trivial, ?_⟩
    cases answer with
    | error err => exact ⟨h₂, fun _ hnone => by cases hnone⟩
    | ok bytes =>
        refine (Fallible.wp_bind _ _ _ _).mpr (Fallible.wp_post (wp_write _ h₂ stored bytes) ?_)
        intro result s₃ hresult
        cases result with
        | error err => trivial
        | ok _ =>
            refine ⟨hresult.sound, fun response hresponse => ?_⟩
            obtain rfl := Option.some.inj hresponse
            exact acknowledges_stored hresult

theorem wp_mountFrom (h : Sound s.store) (mount from? : Option String) :
    (mountFrom repo mount from?).wp (through (HomeWithin repo roots)) (Happens allowed) unguarded
      (Fallible.Outcome (fun mounted s => Sound s.store ∧
        ∀ response ∈ mounted, Acknowledges roots d response s) fun _ _ => True) s := by
  rw [mountFrom]
  split
  · exact ⟨h, fun _ hnone => by cases hnone⟩
  · rename_i stored _
    rw [Fallible.wp_bind]
    refine wp_asked _ fun s₁ hs₁ registry m hregistry => ⟨fun found hok => ?_, fun _ _ => trivial⟩
    have h₁ := hs₁.sound h
    rw [storage_exists registry m h₁] at hok ⊢
    cases found with
    | false => exact wp_copyFrom h₁ stored from?
    | true =>
        refine ⟨h₁, fun response hresponse => ?_⟩
        obtain rfl := Option.some.inj hresponse
        exact acknowledges_stored (held_of_exists h₁ hregistry (Except.ok.inj hok))

theorem wp_uploadStart (h : Sound s.store) (digest mount from? : Option String) (body : Bytes)
    (drawn : String) : (uploadStart repo digest mount from? body drawn).wp
      (through (HomeWithin repo roots)) (Happens allowed) unguarded
      (Fallible.Outcome (Acknowledges roots d) fun _ _ => True) s := by
  unfold uploadStart
  cases validateRepoName repo with
  | error err => exact trivial
  | ok _ =>
      rw [lift_ok_bind, Fallible.wp_bind]
      have hmount : (mountFrom repo mount from?).wp (through (HomeWithin repo roots))
          (Happens allowed) unguarded (Fallible.Outcome (fun mounted s => Sound s.store ∧
            ∀ response ∈ mounted, Acknowledges roots d response s) fun _ _ => True) s :=
        wp_mountFrom h mount from?
      refine Fallible.wp_post hmount fun result s₁ hresult => ?_
      cases result with
      | error err => trivial
      | ok mounted =>
          cases mounted with
          | some response => exact hresult.2 response rfl
          | none =>
              cases digest with
              | none =>
                  refine (Fallible.wp_bind _ _ _ _).mpr (wp_asked _ fun s₂ _ registry m _ => ?_)
                  refine ⟨fun session _ hstatus => ?_, fun _ _ => trivial⟩
                  exact absurd (show 202 = 201 from hstatus) (by decide)
              | some text =>
                  cases hd : parseDigest text with
                  | error err =>
                      simp only [hd]
                      exact trivial
                  | ok stored =>
                      simp only [hd, lift_ok_bind]
                      refine (Fallible.wp_bind _ _ _ _).mpr
                        (Fallible.wp_post (wp_write _ hresult.1 stored body) ?_)
                      intro result s₂ hstored
                      cases result with
                      | error err => trivial
                      | ok _ => exact acknowledges_stored hstored

theorem wp_uploadFinish [UuidCrate] (h : Sound s.store) (uuid : String) (digest : Option String)
    (body : Bytes) : (uploadFinish repo uuid digest body).wp (through (HomeWithin repo roots))
      (Happens allowed) unguarded (Fallible.Outcome (Acknowledges roots d) fun _ _ => True) s := by
  have hfinalize : ∀ (id : String) (stored : Digest) {s₁ : QuotaState Trees}, Sound s₁.store →
      (callOr (.uploadFinalize repo id stored) .blobUploadUnknown "no such upload" >>= fun _ =>
        pure ⟨201, blobLocation repo stored, .empty⟩).wp (through (HomeWithin repo roots))
        (Happens allowed) unguarded
        (Fallible.Outcome (Acknowledges roots d) fun _ _ => True) s₁ := by
    intro id stored s₁ h₁
    refine (Fallible.wp_bind _ _ _ _).mpr (wp_asked _ fun s₂ hs₂ registry m hregistry => ?_)
    refine ⟨fun _ hok => ?_, fun _ _ => trivial⟩
    exact acknowledges_stored (held_of_finalize (hs₂.sound h₁) hregistry hok)
  unfold uploadFinish
  cases validateRepoName repo with
  | error err => exact trivial
  | ok _ =>
      rw [lift_ok_bind]
      cases parseUuid uuid with
      | error err => exact trivial
      | ok id =>
          rw [lift_ok_bind]
          cases digest with
          | none => exact trivial
          | some text =>
              cases hd : parseDigest text with
              | error err =>
                  simp only [hd]
                  exact trivial
              | ok stored =>
                  simp only [hd, lift_ok_bind]
                  by_cases hbody : body = []
                  · simp only [hbody, ne_eq, not_true, if_false]
                    exact hfinalize id stored h
                  · simp only [hbody, ne_eq, not_false_iff, if_true]
                    refine (Fallible.wp_bind _ _ _ _).mpr (wp_asked _ fun s₁ hs₁ registry m _ => ?_)
                    refine ⟨fun _ _ => ?_, fun _ _ => trivial⟩
                    exact hfinalize id stored (sound_after registry m _ (hs₁.sound h))

end Pushes

section Served

variable [Sha2] {roots : List RootId} {d : Digest} {s s' : QuotaState Trees} {repo : String}

-- A blob that is held is given out, if the read gets to its directory.
theorem wp_blobGet_held (h : HeldIn roots d s) (hname : validateRepoName repo = .ok ())
    (headOnly : Bool) : (blobGet repo d.toString headOnly).wp
      (through fun registry => roots ⊆ (registry.home repo).leaves) (Happens (LeavesBlob d))
      unguarded
      (fun result _ => ∃ content, hashContent d.algorithm content = d ∧
        result = .ok (blobReply d content headOnly)) s := by
  have hparse : parseDigest d.toString = .ok d := by
    rw [parseDigest, fromStr_toString]
    rfl
  unfold blobGet
  rw [hname, lift_ok_bind, hparse, lift_ok_bind, Fallible.wp_bind]
  refine wp_asked _ fun s₁ hs₁ registry m hregistry => ?_
  have h₁ := h.later hs₁
  obtain ⟨root, hroot, hblob⟩ := h₁.held
  have hsome : (blobIn s₁.store (registry.home repo).readOrder d).isSome := by
    obtain ⟨found, hfound, -⟩ := hblob
    refine (blobIn_isSome _ d).mpr ⟨root, ?_, Option.isSome_iff_exists.mpr ⟨found, hfound⟩⟩
    exact ((registry.home repo).mem_readOrder root).mpr (hregistry hroot)
  obtain ⟨content, hcontent⟩ := Option.isSome_iff_exists.mp hsome
  rw [storage_read registry m h₁.sound, hcontent]
  refine ⟨fun bytes hread => ⟨content, ?_, ?_⟩, fun err herror => by cases herror⟩
  · obtain ⟨holder, -, hholder⟩ := List.exists_of_findSome?_eq_some hcontent
    exact (h₁.sound holder).blobs_hash d content hholder
  · rw [Except.ok.inj hread]
    rfl

variable [SerdeJson] [UuidCrate]

-- A blob that a push was acknowledged for is given out from then on, to every repository
-- whose directories take in those of the push, until somebody deletes the blob.
theorem pushed_blob_served {usage : Backend → Option Cached} {s₁ s₂ s₃ : QuotaState Trees}
    (hbefore : Happens (fun _ => True) ⟨usage, fun _ => new⟩ s) {r r' : Http.Request}
    {repo repo' text : Text} {call : Call} {response : Response}
    (hcall : call = .uploadStart repo ∨ ∃ uuid, call = .uploadFinish repo uuid)
    (hpush : Answered (HomeWithin (String.ofList repo) roots) (LeavesBlob d) r call s
      (.ok response) s₁)
    (hstatus : response.status = 201)
    (hdigest : response.header "docker-content-digest" = some d.toString)
    (hlater : Happens (LeavesBlob d) s₁ s₂)
    (hname : validateRepoName (String.ofList repo') = .ok ())
    (htext : String.ofList text = d.toString) {headOnly : Bool} {result : Except OciError Response}
    (hget : Answered (fun registry => roots ⊆ (registry.home (String.ofList repo')).leaves)
      (LeavesBlob d) r' (.blobGet repo' text headOnly) s₂ result s₃) :
    ∃ content, hashContent d.algorithm content = d ∧
      result = .ok (blobReply d content headOnly) := by
  have h : Sound s.store := hbefore.sound fun _ => sound_new
  have hheld : HeldIn roots d s₁ := by
    refine hpush.gives (P := Acknowledges roots d) ?_ ?_ hstatus hdigest
    · intro prog hprog
      rcases hcall with rfl | ⟨uuid, rfl⟩
      · obtain rfl := Option.some.inj hprog
        exact wp_uploadStart h _ _ _ _ _
      · obtain rfl := Option.some.inj hprog
        exact wp_uploadFinish h _ _ _
    · exact fun _ _ _ hhappens hack hstatus hdigest => (hack hstatus hdigest).later hhappens
  refine hget.meets (P := fun result _ => ∃ content, hashContent d.algorithm content = d ∧
    result = .ok (blobReply d content headOnly)) ?_ fun _ _ _ _ => id
  intro prog hprog
  obtain rfl := Option.some.inj hprog
  rw [htext]
  exact wp_blobGet_held (hheld.later hlater) hname headOnly

end Served

section Manifests

variable [Sha2] [SerdeJson] {root : RootId} {d : Digest} {s s' : QuotaState Trees}
  {allowed : ServerEvent → Prop}

-- The registries under which the directory is the primary of the repository.
def Heads (repo : String) (root : RootId) (registry : Registry) : Prop :=
  (registry.home repo).head = root

-- What the primary has after a push.
structure Taken (repo : String) (reference : Disk.Reference) (d : Digest) (tree : Tree) : Prop where
  manifest : HasManifest repo d tree
  tag : ∀ tag, reference = .tag tag → (tag ≠ "." ∧ tag ≠ "..") ∧ TagNames repo tag d tree

-- A response with a digest is right about what the primary has.
def Confirms (root : RootId) (d : Digest) (K : Tree → Prop) (response : Response)
    (s : QuotaState Trees) : Prop :=
  response.header "docker-content-digest" = some d.toString → Sound s.store ∧ K (s.store root)

theorem wp_manifestPut (h : Sound s.store) (repo reference : String) (contentType : Option String)
    (body : Bytes) : (Http.manifestPut repo reference contentType body).wp
      (through (Heads repo root)) (Happens allowed) unguarded
      (Fallible.Outcome (Confirms root d (Taken repo (parseReference reference) d))
        fun _ _ => True) s := by
  unfold Http.manifestPut
  cases validateRepoName repo with
  | error err => exact trivial
  | ok _ =>
      rw [lift_ok_bind]
      split
      · exact trivial
      · refine (Fallible.wp_bind _ _ _ _).mpr (wp_asked _ fun s₁ hs₁ registry m hhead => ?_)
        refine ⟨fun digest hok => ?_, fun _ _ => trivial⟩
        have h₁ := hs₁.sound h
        have hprimary : ForPrimary (.request (.manifestPut repo (parseReference reference) body)) :=
          fun _ _ _ _ => rfl
        obtain ⟨hanswer, hstore⟩ := storage_head registry m h₁ rfl hprimary hok
        rw [show (registry.home repo).head = root from hhead] at hanswer hstore
        have htaken : Confirms root d (Taken repo (parseReference reference) d) ⟨201,
            [("location", "/v2/" ++ repo ++ "/manifests/" ++ digest.toString),
              ("docker-content-digest", digest.toString),
              ("content-type", manifestMediaType body contentType)], .empty⟩
            (registry.storage m (.manifestPut repo (parseReference reference) body) s₁).2 := by
          intro hheader
          have hdigest : some digest.toString = some d.toString := hheader
          obtain rfl := toString_injective (Option.some.inj hdigest)
          rw [hstore]
          refine ⟨sound_after registry m _ h₁, hasManifest_of_put _ hanswer, fun tag htag => ?_⟩
          rw [htag] at hanswer ⊢
          exact names_of_put _ hanswer
        generalize parseReference reference = target at htaken ⊢
        cases target with
        | tag tag => exact htaken
        | digest want =>
            by_cases hwant : want = digest
            · subst hwant
              simp only [ne_eq, not_true, if_false]
              exact htaken
            · simp only [ne_eq, hwant, not_false_iff, if_true]
              exact trivial

-- What the primary has is given out.
theorem wp_manifestGet_read {repo text : String} (headOnly : Bool)
    (hname : validateRepoName repo = .ok ()) (hread : ∀ s₁, Happens allowed s s₁ →
      ∃ content, hashContent .sha256 content = d ∧
        (fsStorage (.manifestGet repo (parseReference text)) (s₁.store root)).1 = .ok content) :
    (Http.manifestGet repo text headOnly).wp (through (Heads repo root)) (Happens allowed) unguarded
      (fun result _ => ∃ content, hashContent .sha256 content = d ∧
        result = .ok (manifestReply content headOnly)) s := by
  unfold Http.manifestGet
  rw [hname, lift_ok_bind, Fallible.wp_bind]
  refine wp_asked _ fun s₁ hs₁ registry m hhead => ?_
  obtain ⟨content, hhash, hcontent⟩ := hread s₁ hs₁
  rw [← show (registry.home repo).head = root from hhead] at hcontent
  rw [storage_manifest_head registry m hcontent]
  refine ⟨fun bytes hok => ⟨content, hhash, ?_⟩, fun err herror => by cases herror⟩
  rw [Except.ok.inj hok]
  rfl

variable [UuidCrate] {usage : Backend → Option Cached} {s₁ s₂ s₃ : QuotaState Trees}
  {r r' : Http.Request} {repo reference text : Text} {response : Response} {headOnly : Bool}
  {result : Except OciError Response}

-- What holds of the primary after the push, what no event that is allowed takes away, and
-- what suffices to read the manifest.
theorem served_after_push {K : Tree → Prop}
    (htaken : ∀ tree, Taken (String.ofList repo) (parseReference (String.ofList reference)) d tree →
      K tree)
    (hturn : ∀ e, allowed e → ∀ turn tree tree', turn.op = e.op → turn.Whole → Disk.Sound tree →
      Turn turn tree tree' → K tree → K tree')
    (hread : ∀ tree, Disk.Sound tree → K tree → ∃ content, hashContent .sha256 content = d ∧
      (fsStorage (.manifestGet (String.ofList repo) (parseReference (String.ofList text))) tree).1 =
        .ok content)
    (hbefore : Happens (fun _ => True) ⟨usage, fun _ => new⟩ s)
    (hpush : Answered (Heads (String.ofList repo) root) allowed r (.manifestPut repo reference) s
      (.ok response) s₁)
    (hdigest : response.header "docker-content-digest" = some d.toString)
    (hlater : Happens allowed s₁ s₂) (hname : validateRepoName (String.ofList repo) = .ok ())
    (hget : Answered (Heads (String.ofList repo) root) allowed r' (.manifestGet repo text headOnly)
      s₂ result s₃) :
    ∃ content, hashContent .sha256 content = d ∧
      result = .ok (manifestReply content headOnly) := by
  have h : Sound s.store := hbefore.sound fun _ => sound_new
  have hkept : ∀ s s', Happens allowed s s' → Sound s.store ∧ K (s.store root) →
      Sound s'.store ∧ K (s'.store root) :=
    fun s s' hhappens hboth => ⟨hhappens.sound hboth.1, hhappens.keeps_at hboth.1 hturn hboth.2⟩
  have hheld : Sound s₁.store ∧ K (s₁.store root) := by
    refine hpush.gives (P := Confirms root d K) ?_ ?_ hdigest
    · intro prog hprog
      obtain rfl := Option.some.inj hprog
      have hput : (Http.manifestPut (String.ofList repo) (String.ofList reference) r.contentType
          r.body).wp (through (Heads (String.ofList repo) root)) (Happens allowed) unguarded
          (Fallible.Outcome (Confirms root d (Taken (String.ofList repo)
            (parseReference (String.ofList reference)) d)) fun _ _ => True) s :=
        wp_manifestPut h _ _ _ _
      refine Fallible.wp_post hput fun result s₁ hresult => ?_
      cases result with
      | error err => trivial
      | ok response => exact fun hheader => (hresult hheader).imp_right (htaken _)
    · exact fun _ _ _ hhappens hresult hheader => hkept _ _ hhappens (hresult hheader)
  refine hget.meets (P := fun result _ => ∃ content, hashContent .sha256 content = d ∧
    result = .ok (manifestReply content headOnly)) ?_ fun _ _ _ _ => id
  intro prog hprog
  obtain rfl := Option.some.inj hprog
  refine wp_manifestGet_read headOnly hname fun s₃ hs₃ => ?_
  obtain ⟨hsound, hlast⟩ := hkept _ _ (hlater.trans hs₃) hheld
  exact hread _ (hsound root) hlast

def LeavesManifest (repo : String) (d : Digest) (e : ServerEvent) : Prop :=
  ∀ op, e.op = some op → op ≠ .manifestDelete repo (.digest d)

def LeavesTag (repo tag : String) (d : Digest) (e : ServerEvent) : Prop :=
  ∀ op, e.op = some op → SparesTag repo tag d op

-- A manifest that a push was acknowledged for is given out under its digest from then on,
-- until somebody deletes it by the digest.
theorem pushed_manifest_served (hbefore : Happens (fun _ => True) ⟨usage, fun _ => new⟩ s)
    (hpush : Answered (Heads (String.ofList repo) root) (LeavesManifest (String.ofList repo) d) r
      (.manifestPut repo reference) s (.ok response) s₁)
    (hdigest : response.header "docker-content-digest" = some d.toString)
    (hlater : Happens (LeavesManifest (String.ofList repo) d) s₁ s₂)
    (hname : validateRepoName (String.ofList repo) = .ok ())
    (htext : String.ofList text = d.toString)
    (hget : Answered (Heads (String.ofList repo) root) (LeavesManifest (String.ofList repo) d) r'
      (.manifestGet repo text headOnly) s₂ result s₃) :
    ∃ content, hashContent .sha256 content = d ∧
      result = .ok (manifestReply content headOnly) := by
  refine served_after_push (K := HasManifest (String.ofList repo) d) (fun _ => Taken.manifest) ?_ ?_
    hbefore hpush hdigest hlater hname hget
  · intro e hleaves turn tree tree' hop _ hsound hturn hheld
    refine life_keeps_manifest (.turn .start hturn) hsound.toManifestsSound
      (fun e' he' heq => ?_) hheld
    exact turn_of_event hop hleaves e' he' _ heq rfl
  · intro tree hsound hheld
    obtain ⟨content, hcontent⟩ := Option.isSome_iff_exists.mp hheld
    refine ⟨content, hsound.manifests_hash _ d content hcontent, ok_of_answer ?_⟩
    rw [htext, parseReference, fromStr_toString, answer_digest]
    exact hcontent

-- And it is given out under its tag, until the tag is pushed again or deleted.
theorem pushed_tag_served (hbefore : Happens (fun _ => True) ⟨usage, fun _ => new⟩ s)
    {tag : String} (htag : parseReference (String.ofList text) = .tag tag)
    (hplain : isTmp tag = false)
    (hpush : Answered (Heads (String.ofList repo) root) (LeavesTag (String.ofList repo) tag d) r
      (.manifestPut repo text) s (.ok response) s₁)
    (hdigest : response.header "docker-content-digest" = some d.toString)
    (hlater : Happens (LeavesTag (String.ofList repo) tag d) s₁ s₂)
    (hname : validateRepoName (String.ofList repo) = .ok ())
    (hget : Answered (Heads (String.ofList repo) root) (LeavesTag (String.ofList repo) tag d) r'
      (.manifestGet repo text headOnly) s₂ result s₃) :
    ∃ content, hashContent .sha256 content = d ∧
      result = .ok (manifestReply content headOnly) := by
  refine served_after_push (K := fun tree => (tag ≠ "." ∧ tag ≠ "..") ∧
    TagNames (String.ofList repo) tag d tree) (fun tree htaken => htaken.tag tag htag) ?_ ?_
    hbefore hpush hdigest hlater hname hget
  · rintro e hleaves turn tree tree' hop _ hsound hturn ⟨hdots, hnames⟩
    exact ⟨hdots, life_keeps_names (.turn .start hturn) hsound.toManifestsSound hplain
      (turn_of_event hop hleaves) hnames⟩
  · rintro tree hsound ⟨hdots, hnames⟩
    obtain ⟨content, hhash, htagged, -⟩ := hnames.read hsound.toManifestsSound hdots
    rw [htag]
    exact ⟨content, hhash, htagged⟩

end Manifests

section

attribute [local instance] Sample.sha2 Sample.serdeJson anyUuid

-- A blob and a manifest that are pushed to one directory, each in one request, and a call of
-- another client later.

def later (op : StorageOp) (s : QuotaState Trees) : QuotaState Trees :=
  (one.storage atOnce op s).2

theorem later_happens {allowed : ServerEvent → Prop} {op : StorageOp} (s : QuotaState Trees)
    (hop : allowed (.call one atOnce op)) : Happens allowed s (later op s) :=
  .single ⟨.call one atOnce op, hop, trivial, .call _ _ _ _⟩

def bracesSha256 : Digest := hashContent .sha256 Sample.braces

def postX : Http.Request :=
  { startUpload with query := [("digest", xDigest.toString)], body := Sample.x }

theorem pushX_answered : Answered (HomeWithin (String.ofList "a".toList) [0]) (LeavesBlob xDigest)
    postX (.uploadStart "a".toList) nothingYet (.ok (stored "a" xDigest)) pushedX := by
  have hname : String.ofList "a".toList = "a" := String.ofList_toList
  have hquery : postX.query.get "digest" = some xDigest.toString := rfl
  have hprogram : program postX (.uploadStart "a".toList) =
      some (uploadStart "a" (some xDigest.toString) none none Sample.x "0f") := by
    rw [program, hname, hquery]
    rfl
  have hwrite : (one.storage atOnce (.blobWrite "a" xDigest Sample.x) nothingYet).1 = .ok () := rfl
  have hrun : (uploadStart "a" (some xDigest.toString) none none Sample.x "0f").run
      (one.storage atOnce) nothingYet = (.ok (stored "a" xDigest), pushedX) := by
    refine (run_uploadStart (by decide) (fromStr_toString xDigest) Sample.x "0f" nothingYet).trans
      ?_
    rw [hwrite]
    rfl
  have hone : HomeWithin (String.ofList "a".toList) [0] one := fun _ => id
  exact answered_of_run hone hprogram hrun

theorem pushedX_served : ∃ content, hashContent xDigest.algorithm content = xDigest ∧
    (pullX.run (one.storage atOnce) (later (.blobDelete "a" bracesSha256) pushedX)).1 =
      .ok (blobReply xDigest content false) := by
  have hleaves : LeavesBlob xDigest (.call one atOnce (.blobDelete "a" bracesSha256)) := by
    rintro op hop repo rfl
    have hsame : bracesSha256 = xDigest := (StorageOp.blobDelete.inj (Option.some.inj hop)).2
    exact absurd hsame (by decide)
  exact pushed_blob_served .refl (.inl rfl) pushX_answered rfl rfl (later_happens pushedX hleaves)
    (by rw [String.ofList_toList]; decide) String.ofList_toList (pullX_answered (fun _ => id) _)

def pushBraces : Http.Request := { startUpload with body := Sample.braces }

theorem v1_tag : parseReference (String.ofList "v1".toList) = .tag "v1" := by
  rw [String.ofList_toList]
  decide

theorem one_heads : Heads (String.ofList "a".toList) 0 one := rfl

theorem pushBraces_answered {allowed : ServerEvent → Prop} :
    Answered (Heads (String.ofList "a".toList) 0) allowed pushBraces
      (.manifestPut "a".toList "v1".toList) nothingYet
      (.ok (pushReply "a" bracesSha256 none Sample.braces)) pushedBraces := by
  have hname : validateRepoName "a" = .ok () := by decide
  have hjson : ¬(SerdeJson.fromSlice Sample.braces).isNone := by decide
  have htag : parseReference "v1" = .tag "v1" := by decide
  have hput : one.storage atOnce (.manifestPut "a" (parseReference "v1") Sample.braces) nothingYet =
      (.ok bracesSha256, pushedBraces) := by
    rw [htag]
    have hok : (one.storage atOnce (.manifestPut "a" (.tag "v1") Sample.braces) nothingYet).1 =
        .ok bracesSha256 := rfl
    exact Prod.ext hok rfl
  have hsame : ∀ want, parseReference "v1" = .digest want → want = bracesSha256 := by
    intro want heq
    rw [htag] at heq
    cases heq
  obtain ⟨reply, hrun⟩ := run_accepted hname hjson none hput hsame
  obtain ⟨-, d, htaken, -, rfl⟩ := put_reply hrun
  have hdigest : Except.ok bracesSha256 = Except.ok d :=
    (Prod.mk.inj (hput.symm.trans htaken)).1
  rw [← Except.ok.inj hdigest] at hrun
  have hprogram : program pushBraces (.manifestPut "a".toList "v1".toList) =
      some (Http.manifestPut "a" "v1" none Sample.braces) := by
    rw [program, String.ofList_toList, String.ofList_toList]
    rfl
  exact answered_of_run one_heads hprogram hrun

theorem braces_served : ∃ content, hashContent .sha256 content = bracesSha256 ∧
    ((pullManifest bracesSha256.toString).run (one.storage atOnce)
      (later (.manifestDelete "a" (.tag "v1")) pushedBraces)).1 =
        .ok (manifestReply content false) := by
  have hleaves : LeavesManifest (String.ofList "a".toList) bracesSha256
      (.call one atOnce (.manifestDelete "a" (.tag "v1"))) := by
    rintro op hop rfl
    cases hop
  exact pushed_manifest_served .refl pushBraces_answered rfl (later_happens pushedBraces hleaves)
    (by rw [String.ofList_toList]; decide) String.ofList_toList (pullManifest_answered one_heads _ _)

theorem v1_served : ∃ content, hashContent .sha256 content = bracesSha256 ∧
    ((pullManifest "v1").run (one.storage atOnce)
      (later (.manifestPut "a" (.tag "v2") Sample.brackets) pushedBraces)).1 =
        .ok (manifestReply content false) := by
  have hleaves : LeavesTag (String.ofList "a".toList) "v1" bracesSha256
      (.call one atOnce (.manifestPut "a" (.tag "v2") Sample.brackets)) := by
    intro op hop
    obtain rfl := Option.some.inj hop
    refine ⟨fun content heq => ?_, (fun heq => by cases heq), fun heq => by cases heq⟩
    have hsame : "v2" = "v1" := Disk.Reference.tag.inj (StorageOp.manifestPut.inj heq).2.1
    exact absurd hsame (by decide)
  exact pushed_tag_served .refl v1_tag (by decide) pushBraces_answered rfl
    (later_happens pushedBraces hleaves) (by rw [String.ofList_toList]; decide)
    (pullManifest_answered one_heads "v1" _)

end

end RspaceRegistry.Stores
