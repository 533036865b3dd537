import RspaceRegistry.Http.Push
import RspaceRegistry.Stores.Events

namespace RspaceRegistry.Stores

open Calls Disk Files Http Ordered

-- What a server gives out, and what a client can rely on once a push is acknowledged,
-- whatever else is going on and however the process dies.

section Calls

variable [Sha2] (registry : Registry) (m : Moment) {s : QuotaState Trees} (h : Sound s.store)

include h

theorem storage_read (repo : String) (d : Digest) : registry.storage m (.blobRead repo d) s =
    (orNotFound (blobIn s.store (registry.home repo).readOrder d), s) := by
  cases registry with
  | plain b =>
      exact congrArg (fun result => (result.1, { s with store := result.2 }))
        (serve_read m.apart h b repo d)
  | routed router =>
      exact congrArg (fun result => (result.1, { s with store := result.2 }))
        (serve_read m.apart h (router.resolve repo) repo d)
  | quota router quotas ttl =>
      exact congrArg (fun result => (result.1, { s with store := result.2 }))
        (serve_read m.apart h (router.resolve repo) repo d)

theorem storage_exists (repo : String) (d : Digest) : registry.storage m (.blobExists repo d) s =
    (.ok (blobIn s.store (registry.home repo).readOrder d).isSome, s) := by
  cases registry with
  | plain b =>
      exact congrArg (fun result => (result.1, { s with store := result.2 }))
        (serve_exists m.apart h b repo d)
  | routed router =>
      exact congrArg (fun result => (result.1, { s with store := result.2 }))
        (serve_exists m.apart h (router.resolve repo) repo d)
  | quota router quotas ttl => exact below_exists router quotas ttl m.apart h repo d

-- What is for the primary is done by the primary, or a quota refuses it.
theorem storage_primary {op : StorageOp} {repo : String} (hop : op.repo = some repo)
    (hprimary : ForPrimary (.request op)) :
    ((registry.storage m op s).1 = (fsStorageOn (m.apart (registry.home repo).head) op
        (s.store (registry.home repo).head)).1 ∧
      (registry.storage m op s).2.store (registry.home repo).head =
        (fsStorageOn (m.apart (registry.home repo).head) op
          (s.store (registry.home repo).head)).2) ∨
      Weighed op ∧ (∃ message, (registry.storage m op s).1 = .error (.quotaExceeded message)) ∧
        (registry.storage m op s).2.store = s.store := by
  refine (storage_cases registry m h hop).imp_left fun hserve => ?_
  obtain ⟨hanswer, hstore⟩ := hserve
  rw [Backend.serve_head (onTrees m.apart) hprimary] at hanswer hstore
  refine ⟨hanswer, ?_⟩
  rw [hstore, onTrees_self]
  rfl

theorem storage_head {op : StorageOp} {repo : String} (hop : op.repo = some repo)
    (hprimary : ForPrimary (.request op)) {value : op.Value}
    (hok : (registry.storage m op s).1 = .ok value) :
    (fsStorageOn (m.apart (registry.home repo).head) op
        (s.store (registry.home repo).head)).1 = .ok value ∧
      (registry.storage m op s).2.store (registry.home repo).head =
        (fsStorageOn (m.apart (registry.home repo).head) op
          (s.store (registry.home repo).head)).2 := by
  rcases storage_primary registry m h hop hprimary with
    ⟨hanswer, hstore⟩ | ⟨-, ⟨message, hanswer⟩, -⟩
  · exact ⟨hanswer.symm.trans hok, hstore⟩
  · rw [hok] at hanswer
    cases hanswer

omit h in
theorem storage_manifest (s : QuotaState Trees) (repo : String) (reference : Disk.Reference) :
    registry.storage m (.manifestGet repo reference) s =
      passOn ((registry.home repo).serve (onTrees m.apart)
        (.request (.manifestGet repo reference))) s := by
  cases registry <;> rfl

-- What is read of a manifest comes from one of the directories.
theorem storage_manifest_ok {repo : String} {reference : Disk.Reference} {bytes : Bytes}
    (hok : (registry.storage m (.manifestGet repo reference) s).1 = .ok bytes) : ∃ trees root,
      Sound trees ∧
        (fsStore (m.apart root) (.request (.manifestGet repo reference)) (trees root)).1 =
          .ok bytes := by
  have hanswer : (readFallthrough ((registry.home repo).readOrder.map fun root =>
      onTrees m.apart root (.request (.manifestGet repo reference))) s.store).1 = .ok bytes := by
    rw [storage_manifest, passOn, Backend.serve_manifestGet] at hok
    exact hok
  generalize (registry.home repo).readOrder = roots at hanswer
  generalize s.store = trees at h hanswer
  induction roots generalizing trees with
  | nil => cases hanswer
  | cons root rest ih =>
      rw [List.map_cons, readFallthrough] at hanswer
      rcases hfirst : onTrees m.apart root (.request (.manifestGet repo reference)) trees with
        ⟨answer, trees'⟩
      rw [hfirst] at hanswer
      have hlater : Sound trees' := by
        rw [show trees' = (onTrees m.apart root _ trees).2 from (congrArg Prod.snd hfirst).symm]
        exact h.onTrees root _
      cases answer with
      | ok found => exact ⟨trees, root, h, (congrArg Prod.fst hfirst).trans hanswer⟩
      | error err =>
          cases err with
          | notFound => exact ih trees' hlater hanswer
          | _ => cases hanswer

omit h in
-- The primary is read first.
theorem storage_manifest_head {repo : String} {reference : Disk.Reference} {bytes : Bytes}
    (hhead : (fsStorage (.manifestGet repo reference) (s.store (registry.home repo).head)).1 =
      .ok bytes) : (registry.storage m (.manifestGet repo reference) s).1 = .ok bytes := by
  obtain ⟨rest, horder⟩ := (registry.home repo).readOrder_eq_cons
  have hfirst : (onTrees m.apart (registry.home repo).head (.request (.manifestGet repo reference))
      s.store).1 = .ok bytes := hhead
  rw [storage_manifest, passOn, Backend.serve_manifestGet, horder, List.map_cons, readFallthrough]
  generalize onTrees m.apart (registry.home repo).head (.request (.manifestGet repo reference))
    s.store = result at hfirst
  obtain ⟨answer, trees⟩ := result
  obtain rfl : answer = .ok bytes := hfirst
  rfl

end Calls

section Requests

variable [Sha2]

-- A call through any of the registries that the server may be set up with.
def through (registries : Registry → Prop) : Sem StorageOp StorageOp.Ans (QuotaState Trees) :=
  fun op s answer s' => ∃ registry m, registries registry ∧ registry.storage m op s = (answer, s')

-- The request is answered, amid other events.
def Answered [SerdeJson] [UuidCrate] (registries : Registry → Prop) (allowed : ServerEvent → Prop)
    (r : Http.Request) (call : Call) (s : QuotaState Trees) (result : Except OciError Response)
    (s' : QuotaState Trees) : Prop :=
  ∃ prog ∈ program r call,
    Prog.Amid (through registries) (Happens allowed) (prog, s) (.pure result, s')

variable {registries : Registry → Prop} {allowed : ServerEvent → Prop} {s s' : QuotaState Trees}

theorem Answered.meets [SerdeJson] [UuidCrate] {r : Http.Request} {call : Call}
    {result : Except OciError Response} {P : Except OciError Response → QuotaState Trees → Prop}
    (hanswered : Answered registries allowed r call s result s')
    (hwp : ∀ prog ∈ program r call,
      prog.wp (through registries) (Happens allowed) unguarded P s)
    (hstable : ∀ result s s', Happens allowed s s' → P result s → P result s') :
    P result s' := by
  obtain ⟨prog, hprog, hmoves⟩ := hanswered
  exact Prog.wp_amid hmoves (hwp prog hprog) (fun _ _ => id) (fun _ => .refl)
    (fun _ _ _ => Relation.ReflTransGen.trans) hstable

theorem Answered.gives [SerdeJson] [UuidCrate] {r : Http.Request} {call : Call}
    {response : Response} {P : Response → QuotaState Trees → Prop}
    (hanswered : Answered registries allowed r call s (.ok response) s')
    (hwp : ∀ prog ∈ program r call, prog.wp (through registries) (Happens allowed) unguarded
      (Fallible.Outcome P fun _ _ => True) s)
    (hstable : ∀ response s s', Happens allowed s s' → P response s → P response s') :
    P response s' := by
  have hkept : ∀ (result : Except OciError Response) s s', Happens allowed s s' →
      Fallible.Outcome P (fun _ _ => True) result s →
        Fallible.Outcome P (fun _ _ => True) result s' := by
    intro result s s' hhappens hresult
    cases result with
    | ok response => exact hstable response s s' hhappens hresult
    | error err => trivial
  exact hanswered.meets hwp hkept

-- A request that is served without interruption.
theorem answered_of_run [SerdeJson] [UuidCrate] {registry : Registry}
    (hregistry : registries registry) {m : Moment} {r : Http.Request} {call : Call}
    {prog : HandlerM Response} (hprog : program r call = some prog)
    {result : Except OciError Response} (hrun : prog.run (registry.storage m) s = (result, s')) :
    Answered registries allowed r call s result s' := by
  refine ⟨prog, hprog, ?_⟩
  have hreaches : Prog.Reaches (registry.storage m).sem (prog, s)
      (.pure (prog.run (registry.storage m) s).1, (prog.run (registry.storage m) s).2) :=
    Prog.reaches_of_run prog s
  rw [hrun] at hreaches
  have hamid : Prog.Amid (registry.storage m).sem (Happens allowed) (prog, s) (.pure result, s') :=
    Prog.amid_of_reaches hreaches
  refine Relation.ReflTransGen.mono ?_ _ _ hamid
  intro first last hmove
  cases hmove with
  | call hop => exact .call ⟨registry, m, hregistry, hop⟩
  | other hother => exact .other hother

theorem wp_asked {op : StorageOp} (f : StorageError → OciError)
    {ok : op.Value → QuotaState Trees → Prop} {error : OciError → QuotaState Trees → Prop}
    (h : ∀ s₁, Happens allowed s s₁ → ∀ registry m, registries registry →
      (∀ value, (registry.storage m op s₁).1 = .ok value →
        ok value (registry.storage m op s₁).2) ∧
      ∀ err, (registry.storage m op s₁).1 = .error err →
        error (f err) (registry.storage m op s₁).2) :
    (Fallible.mapError f (ask op)).wp (through registries) (Happens allowed) unguarded
      (Fallible.Outcome ok error) s := by
  rw [Fallible.wp_mapError]
  rintro s₁ hs₁ answer s₂ ⟨registry, m, hregistry, hrun⟩
  obtain ⟨hok, herror⟩ := h s₁ hs₁ registry m hregistry
  rw [hrun] at hok herror
  refine ⟨trivial, ?_⟩
  cases answer with
  | ok value => exact hok value rfl
  | error err => exact herror err rfl

end Requests

section Delivered

variable [Sha2] {registries : Registry → Prop} {allowed : ServerEvent → Prop}
  {s s' : QuotaState Trees}

-- The answer to a read of a blob.
def blobReply (d : Digest) (content : Bytes) (headOnly : Bool) : Response :=
  ⟨200,
    [("content-type", "application/octet-stream"), ("docker-content-digest", d.toString),
      ("content-length", toString content.length)],
    if headOnly then .empty else .bytes content⟩

omit [Sha2] in
theorem digest_of_parse {text : String} {d : Digest} (h : parseDigest text = .ok d) :
    Digest.fromStr text = .ok d := by
  rw [parseDigest] at h
  cases hparse : Digest.fromStr text with
  | error err =>
      rw [hparse] at h
      cases h
  | ok found =>
      rw [hparse] at h
      rw [Except.ok.inj (show Except.ok found = Except.ok d from h)]

def GivesBlob (text : String) (headOnly : Bool) (response : Response) : Prop :=
  ∃ d content, Digest.fromStr text = .ok d ∧ hashContent d.algorithm content = d ∧
    response = blobReply d content headOnly

def GivesManifest [SerdeJson] (text : String) (headOnly : Bool) (response : Response) : Prop :=
  ∃ content, response = manifestReply content headOnly ∧
    ∀ d, Digest.fromStr text = .ok d → hashContent .sha256 content = d

theorem wp_blobGet (h : Sound s.store) (repo text : String) (headOnly : Bool) :
    (blobGet repo text headOnly).wp (through registries) (Happens allowed) unguarded
      (Fallible.Outcome (fun response _ => GivesBlob text headOnly response)
        fun _ _ => True) s := by
  unfold blobGet
  cases validateRepoName repo with
  | error err => exact trivial
  | ok _ =>
      rw [lift_ok_bind]
      cases hd : parseDigest text with
      | error err => exact trivial
      | ok d =>
          rw [lift_ok_bind, Fallible.wp_bind]
          refine wp_asked _ fun s₁ hs₁ registry m _ => ⟨fun bytes hread => ?_, fun _ _ => trivial⟩
          have hsound := hs₁.sound h
          rw [storage_read registry m hsound] at hread
          refine ⟨d, bytes, digest_of_parse hd, ?_, rfl⟩
          cases hblob : blobIn s₁.store (registry.home repo).readOrder d with
          | none =>
              rw [hblob] at hread
              cases hread
          | some found =>
              rw [hblob] at hread
              obtain ⟨root, -, hroot⟩ := List.exists_of_findSome?_eq_some hblob
              rw [← Except.ok.inj hread]
              exact (hsound root).blobs_hash d found hroot

theorem wp_manifestGet [SerdeJson] (h : Sound s.store) (repo text : String) (headOnly : Bool) :
    (Http.manifestGet repo text headOnly).wp (through registries) (Happens allowed) unguarded
      (Fallible.Outcome (fun response _ => GivesManifest text headOnly response)
        fun _ _ => True) s := by
  unfold Http.manifestGet
  cases validateRepoName repo with
  | error err => exact trivial
  | ok _ =>
      rw [lift_ok_bind, Fallible.wp_bind]
      refine wp_asked _ fun s₁ hs₁ registry m _ => ⟨fun bytes hread => ?_, fun _ _ => trivial⟩
      refine ⟨bytes, rfl, fun d hd => ?_⟩
      obtain ⟨trees, root, hsound, hok⟩ := storage_manifest_ok registry m (hs₁.sound h) hread
      rw [parseReference, hd] at hok
      exact (hsound root).read_manifest_ok hok

-- Whatever has happened, what a read gives out under a digest hashes to it, and the
-- headers say what is given out.
theorem delivered_content [SerdeJson] [UuidCrate] {usage : Backend → Option Cached}
    (hbefore : Happens (fun _ => True) ⟨usage, fun _ => new⟩ s) {r : Http.Request}
    {repo text : Text} {headOnly : Bool} {response : Response} :
    (Answered registries allowed r (.blobGet repo text headOnly) s (.ok response) s' →
      GivesBlob (String.ofList text) headOnly response) ∧
    (Answered registries allowed r (.manifestGet repo text headOnly) s (.ok response) s' →
      GivesManifest (String.ofList text) headOnly response) := by
  have h : Sound s.store := hbefore.sound fun _ => sound_new
  constructor
  · intro hanswered
    refine hanswered.gives (P := fun response _ => GivesBlob _ headOnly response) ?_ ?_
    · intro prog hprog
      obtain rfl := Option.some.inj hprog
      exact wp_blobGet h _ _ headOnly
    · exact fun _ _ _ _ => id
  · intro hanswered
    refine hanswered.gives (P := fun response _ => GivesManifest _ headOnly response) ?_ ?_
    · intro prog hprog
      obtain rfl := Option.some.inj hprog
      exact wp_manifestGet h _ _ headOnly
    · exact fun _ _ _ _ => id

end Delivered

section

attribute [local instance] Sample.sha2 Sample.serdeJson anyUuid

-- A blob in one directory.

def one : Registry := .plain (.fs 0 0)

def xDigest : Digest := hashContent .sha256 Sample.x

def pushedX : QuotaState Trees :=
  (one.storage atOnce (.blobWrite "a" xDigest Sample.x) nothingYet).2

theorem pushedX_happens : Happens (fun _ => True) nothingYet pushedX :=
  .single ⟨.call one atOnce (.blobWrite "a" xDigest Sample.x), trivial, trivial, .call _ _ _ _⟩

def pullX : HandlerM Response := blobGet "a" xDigest.toString false

theorem pullX_answered {registries : Registry → Prop} {allowed : ServerEvent → Prop}
    (hone : registries one) (s : QuotaState Trees) : Answered registries allowed startUpload
      (.blobGet "a".toList xDigest.toString.toList false) s
      (pullX.run (one.storage atOnce) s).1 (pullX.run (one.storage atOnce) s).2 := by
  have hprogram : program startUpload (.blobGet "a".toList xDigest.toString.toList false) =
      some pullX := by
    rw [program, String.ofList_toList, String.ofList_toList]
    rfl
  exact answered_of_run hone hprogram (Fallible.run_eq_mk rfl rfl)

theorem pullX_reply :
    (pullX.run (one.storage atOnce) pushedX).1 = .ok (blobReply xDigest Sample.x false) := by
  have hname : validateRepoName "a" = .ok () := by decide
  have hdigest : parseDigest xDigest.toString = .ok xDigest := by
    rw [parseDigest, fromStr_toString]
    rfl
  have hread : (one.storage atOnce (.blobRead "a" xDigest) pushedX).1 = .ok Sample.x := rfl
  have hcall : (callOr (.blobRead "a" xDigest) .blobUnknown "blob unknown").run
      (one.storage atOnce) pushedX =
        (.ok Sample.x, (one.storage atOnce (.blobRead "a" xDigest) pushedX).2) := by
    rw [Http.run_callOr, hread]
    rfl
  rw [pullX, blobGet, hname, lift_ok_bind, hdigest, lift_ok_bind, Fallible.run_bind_of_ok hcall]
  rfl

-- And a manifest under a tag.

def pushedBraces : QuotaState Trees :=
  (one.storage atOnce (.manifestPut "a" (.tag "v1") Sample.braces) nothingYet).2

theorem pushedBraces_happens : Happens (fun _ => True) nothingYet pushedBraces :=
  .single ⟨.call one atOnce (.manifestPut "a" (.tag "v1") Sample.braces), trivial, trivial,
    .call _ _ _ _⟩

def pullManifest (text : String) : HandlerM Response := Http.manifestGet "a" text false

theorem pullManifest_answered {registries : Registry → Prop} {allowed : ServerEvent → Prop}
    (hone : registries one) (text : String) (s : QuotaState Trees) :
    Answered registries allowed startUpload (.manifestGet "a".toList text.toList false) s
      ((pullManifest text).run (one.storage atOnce) s).1
      ((pullManifest text).run (one.storage atOnce) s).2 := by
  have hprogram : program startUpload (.manifestGet "a".toList text.toList false) =
      some (pullManifest text) := by
    rw [program, String.ofList_toList, String.ofList_toList]
    rfl
  exact answered_of_run hone hprogram (Fallible.run_eq_mk rfl rfl)

theorem pullManifest_reply : ((pullManifest "v1").run (one.storage atOnce) pushedBraces).1 =
    .ok (manifestReply Sample.braces false) := by
  have hname : validateRepoName "a" = .ok () := by decide
  have htag : parseReference "v1" = .tag "v1" := by decide
  have hread : (one.storage atOnce (.manifestGet "a" (.tag "v1")) pushedBraces).1 =
      .ok Sample.braces := rfl
  have hcall : (callOr (.manifestGet "a" (.tag "v1")) .manifestUnknown "manifest unknown").run
      (one.storage atOnce) pushedBraces = (.ok Sample.braces,
        (one.storage atOnce (.manifestGet "a" (.tag "v1")) pushedBraces).2) := by
    rw [Http.run_callOr, hread]
    rfl
  rw [pullManifest, Http.manifestGet, hname, lift_ok_bind, htag, Fallible.run_bind_of_ok hcall]
  rfl

theorem pullX_delivered :
    GivesBlob (String.ofList xDigest.toString.toList) false (blobReply xDigest Sample.x false) ∧
      GivesManifest (String.ofList "v1".toList) false (manifestReply Sample.braces false) := by
  have hblob : Answered (fun _ => True) (fun _ => True) startUpload
      (.blobGet "a".toList xDigest.toString.toList false) pushedX
      (pullX.run (one.storage atOnce) pushedX).1 (pullX.run (one.storage atOnce) pushedX).2 :=
    pullX_answered trivial pushedX
  have hmanifest : Answered (fun _ => True) (fun _ => True) startUpload
      (.manifestGet "a".toList "v1".toList false) pushedBraces
      ((pullManifest "v1").run (one.storage atOnce) pushedBraces).1
      ((pullManifest "v1").run (one.storage atOnce) pushedBraces).2 :=
    pullManifest_answered trivial "v1" pushedBraces
  rw [pullX_reply] at hblob
  rw [pullManifest_reply] at hmanifest
  exact ⟨(delivered_content pushedX_happens).1 hblob,
    (delivered_content pushedBraces_happens).2 hmanifest⟩

end

end RspaceRegistry.Stores
