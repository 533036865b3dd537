import RspaceRegistry.Http.Serve
import RspaceRegistry.Http.Steps

namespace RspaceRegistry.Http.Checked

open Calls Disk

-- A request from `dispatch` to its response, with the steps that may panic.

section Serve

variable [Sha2] [SerdeJson] [UuidCrate] (state : AppState) {σ : Type}
variable (storage : Handler StorageOp StorageOp.Ans σ) (other : Request → Call → σ → Response × σ)

-- A handler makes its headers behind its last call and its last error, each with
-- `HeaderValue::from_str(..).unwrap()` or from a literal.
def answer (prog : HandlerM Response) (s : σ) : Option (Response × σ) :=
  match prog.run storage s with
  | (.error err, s) => some (OciError.response err, s)
  | (.ok response, s) => do
      let headers ← response.headers.mapM fun h => (headerValue h.2).map (h.1, ·)
      some (⟨response.status, headers, response.body⟩, s)

-- The names that a handler validates.
def names (r : Request) (call : Call) : List String :=
  (call.repo.map String.ofList).toList ++
    match call with
    | .uploadStart _ => (r.query.get "from").toList
    | _ => []

-- The storage may be any: what its calls do is their own.
def serve (r : Request) (q : Option String) (s : σ) : Option (Response × σ) := do
  let query ← q.elim (some []) urlFormPairs
  let r := { r with query }
  match ← dispatch state r.method r.path with
  | .notFound => some (notFound, s)
  | .methodNotAllowed => some (methodNotAllowed, s)
  | .call .versionCheck => some (versionCheck, s)
  | .call .tokenEndpoint => do
      let _ ← (r.query.get "scope").elim (some none) fun scope => parseScope scope.toList
      some (other r .tokenEndpoint s)
  | .call call => do
      let _ ← (names r call).mapM validateRepoName
      match program r call with
      | some prog => answer storage prog s
      | none => some (other r call s)

end Serve

section Headers

def isHeaderChar (c : Char) : Bool := c = '\t' || (0x20 ≤ c.toNat && c.toNat < 0x7f)

-- A text that can be the value of a header.
def Sendable (s : String) : Prop := s.toList.all isHeaderChar = true

instance (s : String) : Decidable (Sendable s) := inferInstanceAs (Decidable (_ = true))

theorem headerValue_eq_some {s value : String} :
    headerValue s = some value ↔ Sendable s ∧ value = s := by
  unfold headerValue Sendable
  split
  · rename_i hall
    exact ⟨fun h => ⟨hall, (Option.some.inj h).symm⟩, fun h => by rw [h.2]⟩
  · rename_i hall
    exact ⟨nofun, fun h => absurd h.1 hall⟩

theorem sendable_append {first second : String} :
    Sendable (first ++ second) ↔ Sendable first ∧ Sendable second := by
  simp only [Sendable, String.toList_append, List.all_append, Bool.and_eq_true]

theorem sendable_of {p : Char → Bool} {s : String} (h : s.toList.all p = true)
    (hp : ∀ c, p c = true → isHeaderChar c = true) : Sendable s := by
  rw [Sendable, List.all_eq_true]
  exact fun c hc => hp c (List.all_eq_true.mp h c hc)

theorem isHeaderChar_of_range {c lo hi : Char} (h : lo ≤ c ∧ c ≤ hi) (hlo : 0x20 ≤ lo.toNat)
    (hhi : hi.toNat < 0x7f) : isHeaderChar c = true := by
  have hle : lo.toNat ≤ c.toNat := h.1
  have hge : c.toNat ≤ hi.toNat := h.2
  simp only [isHeaderChar, Bool.or_eq_true, Bool.and_eq_true, decide_eq_true_eq]
  right
  omega

theorem isHeaderChar_hex {c : Char} (h : isLowerHex c = true) : isHeaderChar c = true := by
  simp only [isLowerHex, Bool.or_eq_true, Bool.and_eq_true, decide_eq_true_eq] at h
  rcases h with hdigit | hletter
  · exact isHeaderChar_of_range hdigit (by decide) (by decide)
  · exact isHeaderChar_of_range hletter (by decide) (by decide)

theorem isHeaderChar_name {c : Char} (h : isNameChar c = true) : isHeaderChar c = true := by
  simp only [isNameChar, isLowerOrDigit, Bool.or_eq_true, Bool.and_eq_true, decide_eq_true_eq,
    beq_iff_eq] at h
  rcases h with (((hletter | hdigit) | rfl) | rfl) | rfl
  · exact isHeaderChar_of_range hletter (by decide) (by decide)
  · exact isHeaderChar_of_range hdigit (by decide) (by decide)
  · rfl
  · rfl
  · rfl

theorem sendable_digest (d : Digest) : Sendable d.toString := by
  rw [Digest.toString, sendable_append, sendable_append]
  refine ⟨⟨?_, by decide⟩, sendable_of d.valid.2 fun c => isHeaderChar_hex⟩
  cases d.algorithm <;> decide

theorem sendable_nat (n : Nat) : Sendable (toString n) := by
  have hdigits : (toString n).toList.all Char.isDigit = true := by
    rw [Nat.toString_eq_ofList_toDigits, String.toList_ofList, List.all_eq_true]
    exact fun c hc => Nat.isDigit_of_mem_toDigits (by decide) (by decide) hc
  refine sendable_of hdigits fun c hc => ?_
  simp only [Char.isDigit, Bool.and_eq_true, decide_eq_true_eq] at hc
  have hrange : '0' ≤ c ∧ c ≤ '9' := hc
  exact isHeaderChar_of_range hrange (by decide) (by decide)

theorem sendable_repo {repo : String} (h : RspaceRegistry.validateRepoName repo = .ok ()) :
    Sendable repo := by
  rw [Sendable, List.all_eq_true]
  intro c hc
  rw [← intercalate_components repo] at hc
  rcases mem_intercalate hc with hslash | ⟨part, hpart, hmem⟩
  · rw [hslash]
    rfl
  · exact isHeaderChar_name (validateComponent_chars ((validateRepoName_ok h).2 part hpart) c hmem)

theorem sendable_media [SerdeJson] (bytes : Bytes) (hinted : Option String) :
    Sendable (manifestMediaType bytes hinted) := by
  have hall : ∀ name ∈ manifestMediaTypes, Sendable name := by decide +kernel
  apply hall
  unfold manifestMediaType
  simp only
  split
  · rename_i hint hknown
    simpa using (Option.filter_eq_some_iff.mp hknown).2
  · split
    · rename_i name hknown
      simpa using (Option.filter_eq_some_iff.mp hknown).2
    · split
      · split <;> simp [manifestMediaTypes]
      · simp [manifestMediaTypes]

end Headers

-- What a program answers with, whatever its calls bring.
def Ensures {ε α σ : Type} (storage : Handler StorageOp StorageOp.Ans σ)
    (prog : Fallible ε StorageOp StorageOp.Ans α) (post : α → Prop) : Prop :=
  ∀ s value s', prog.run storage s = (.ok value, s') → post value

namespace Ensures

variable {σ α β : Type} {storage : Handler StorageOp StorageOp.Ans σ} {prog : HandlerM α}

theorem pure {value : α} {post : α → Prop} (h : post value) :
    Ensures storage (Pure.pure value : HandlerM α) post := by
  intro s value' s' hrun
  rw [← Except.ok.inj (Prod.mk.inj hrun).1]
  exact h

theorem fail (err : OciError) (post : α → Prop) :
    Ensures storage (Fallible.fail err : HandlerM α) post := by
  intro s value s' hrun
  cases (Prod.mk.inj hrun).1

theorem bind {mid : α → Prop} {post : β → Prop} {rest : α → HandlerM β}
    (h : Ensures storage prog mid) (hrest : ∀ value, mid value → Ensures storage (rest value) post) :
    Ensures storage (prog >>= rest) post := by
  intro s value s' hrun
  obtain ⟨found, s₁, hfirst, hsecond⟩ := Fallible.run_bind_eq_ok hrun
  exact hrest found (h s found s₁ hfirst) s₁ value s' hsecond

theorem any (prog : HandlerM α) : Ensures storage prog fun _ => True := fun _ _ _ _ => trivial

theorem lift (result : Except OciError α) : Ensures storage (Http.lift result) (result = .ok ·) := by
  intro s value s' hrun
  exact (Prod.mk.inj hrun).1

theorem mono {first second : α → Prop} (h : Ensures storage prog first)
    (himp : ∀ value, first value → second value) : Ensures storage prog second :=
  fun s value s' hrun => himp value (h s value s' hrun)

end Ensures

-- `Uuid` prints as hex digits and hyphens.
def IsUuid (id : String) : Prop := id.toList.all (fun c => isLowerHex c || c == '-') = true

instance (id : String) : Decidable (IsUuid id) := inferInstanceAs (Decidable (_ = true))

theorem sendable_uuid {id : String} (h : IsUuid id) : Sendable id := by
  refine sendable_of h fun c hc => ?_
  rcases Bool.or_eq_true_iff.mp hc with hhex | hhyphen
  · exact isHeaderChar_hex hhex
  · rw [beq_iff_eq.mp hhyphen]
    rfl

-- The headers that a handler makes are values.
def Answers {σ : Type} (storage : Handler StorageOp StorageOp.Ans σ) (prog : HandlerM Response) : Prop :=
  Ensures storage prog fun response => ∀ h ∈ response.headers, Sendable h.2

theorem answer_of_answers {σ : Type} {storage : Handler StorageOp StorageOp.Ans σ}
    {prog : HandlerM Response} (h : Answers storage prog) (s : σ) :
    answer storage prog s = some (intoResponse (prog.run storage s).1, (prog.run storage s).2) := by
  unfold answer
  rcases hrun : prog.run storage s with ⟨result, s'⟩
  cases result with
  | error err => rfl
  | ok response =>
      have hsend := h s response s' hrun
      have hheaders : ∀ headers : List (String × String), (∀ h ∈ headers, Sendable h.2) →
          headers.mapM (fun h => (headerValue h.2).map (h.1, ·)) = some headers := by
        intro headers hall
        induction headers with
        | nil => rfl
        | cons header rest ih =>
            have hvalue := headerValue_eq_some.mpr ⟨hall header List.mem_cons_self, rfl⟩
            rw [List.mapM_cons, hvalue, ih fun h hh => hall h (List.mem_cons_of_mem _ hh)]
            rfl
      simp only [hheaders _ hsend, Option.bind_eq_bind, Option.bind_some]
      rfl

section Handlers

variable {σ : Type} {storage : Handler StorageOp StorageOp.Ans σ} {repo : String}

theorem page_sendable (entries : List String) (url : String) (n : Option Nat) (last : Option String) :
    ∀ h ∈ (page entries url n last).2, Sendable h.2 := by
  intro h hmem
  have hheaders : (page entries url n last).2 = [] ∨ ∃ text, (page entries url n last).2 =
      (headerValue text).toList.map fun value => ("link", value) := page_headers url n
  rcases hheaders with hnone | ⟨text, hlink⟩
  · rw [hnone] at hmem
    cases hmem
  · rw [hlink] at hmem
    obtain ⟨value, hvalue, rfl⟩ := List.mem_map.mp hmem
    obtain ⟨hsend, heq⟩ := headerValue_eq_some.mp (Option.mem_toList.mp hvalue)
    rw [heq]
    exact hsend

theorem answers_catalog (n : Option Nat) (last : Option String) :
    Answers storage (catalog n last) :=
  (Ensures.any _).bind fun _ _ => .pure (page_sendable _ _ _ _)

theorem answers_tagsList (n : Option Nat) (last : Option String) :
    Answers storage (tagsList repo n last) := by
  refine (Ensures.any _).bind fun _ _ => (Ensures.any _).bind fun tags _ =>
    (Ensures.any _).bind fun _ _ => .pure (page_sendable _ _ _ _)

theorem sendable_location (hrepo : RspaceRegistry.validateRepoName repo = .ok ()) {between last : String}
    (hbetween : Sendable between) (hlast : Sendable last) :
    Sendable ("/v2/" ++ repo ++ between ++ last) := by
  simp only [sendable_append]
  exact ⟨⟨⟨by decide, sendable_repo hrepo⟩, hbetween⟩, hlast⟩

theorem answers_validated {rest : HandlerM Response}
    (h : RspaceRegistry.validateRepoName repo = .ok () → Answers storage rest) :
    Answers storage (lift (RspaceRegistry.validateRepoName repo) >>= fun _ => rest) :=
  (Ensures.lift _).bind fun _ hvalid => h hvalid

theorem blobLocation_sendable (hrepo : RspaceRegistry.validateRepoName repo = .ok ()) (d : Digest) :
    ∀ h ∈ blobLocation repo d, Sendable h.2 := by
  simp only [blobLocation, List.mem_cons, List.not_mem_nil, or_false, forall_eq_or_imp, forall_eq]
  exact ⟨sendable_location hrepo (by decide) (sendable_digest d), sendable_digest d⟩

theorem sessionHeaders_sendable (hrepo : RspaceRegistry.validateRepoName repo = .ok ())
    {id range : String} (hid : IsUuid id) (hrange : Sendable range) :
    ∀ h ∈ sessionHeaders repo id range, Sendable h.2 := by
  simp only [sessionHeaders, List.mem_cons, List.not_mem_nil, or_false, forall_eq_or_imp, forall_eq]
  exact ⟨sendable_location hrepo (by decide) (sendable_uuid hid), sendable_uuid hid, hrange⟩

theorem answers_manifestGet [SerdeJson] [Sha2] (reference : String) (headOnly : Bool) :
    Answers storage (manifestGet repo reference headOnly) := by
  refine answers_validated fun _ => (Ensures.any _).bind fun bytes _ => .pure ?_
  simp only [List.mem_cons, List.not_mem_nil, or_false, forall_eq_or_imp, forall_eq]
  exact ⟨sendable_media bytes none, sendable_digest _, sendable_nat _⟩

theorem answers_manifestPut [SerdeJson] [Sha2] (reference : String) (contentType : Option String)
    (body : Bytes) : Answers storage (manifestPut repo reference contentType body) := by
  refine answers_validated fun hrepo => ?_
  split
  · exact (Ensures.fail _ fun _ => False).bind fun _ hfalse => hfalse.elim
  · refine (Ensures.any _).bind fun digest _ => ?_
    have hcreated : Answers storage (pure ⟨201,
        [("location", "/v2/" ++ repo ++ "/manifests/" ++ digest.toString),
          ("docker-content-digest", digest.toString),
          ("content-type", manifestMediaType body contentType)], .empty⟩) := by
      apply Ensures.pure
      simp only [List.mem_cons, List.not_mem_nil, or_false, forall_eq_or_imp, forall_eq]
      exact ⟨sendable_location hrepo (by decide) (sendable_digest _), sendable_digest _,
        sendable_media body contentType⟩
    split
    · split
      · exact (Ensures.fail _ fun _ => False).bind fun _ hfalse => hfalse.elim
      · exact hcreated
    · exact hcreated

theorem answers_manifestDelete (reference : String) :
    Answers storage (manifestDelete repo reference) :=
  answers_validated fun _ => (Ensures.any _).bind fun _ _ => .pure (by simp)

theorem answers_blobGet (digest : String) (headOnly : Bool) :
    Answers storage (blobGet repo digest headOnly) := by
  refine answers_validated fun _ => (Ensures.any _).bind fun d _ =>
    (Ensures.any _).bind fun bytes _ => .pure ?_
  simp only [List.mem_cons, List.not_mem_nil, or_false, forall_eq_or_imp, forall_eq]
  exact ⟨by decide, sendable_digest d, sendable_nat _⟩

theorem answers_blobDelete (digest : String) : Answers storage (blobDelete repo digest) :=
  answers_validated fun _ => (Ensures.any _).bind fun _ _ => (Ensures.any _).bind fun _ _ =>
    .pure (by simp)

-- What the storage gives back of a new session is a `Uuid`.
def CreatesUuids (storage : Handler StorageOp StorageOp.Ans σ) : Prop :=
  ∀ repo drawn s status, IsUuid drawn → (storage (.uploadCreate repo drawn) s).1 = .ok status →
    IsUuid status.id

theorem ensures_mountFrom (hrepo : RspaceRegistry.validateRepoName repo = .ok ())
    (mount from? : Option String) : Ensures storage (mountFrom repo mount from?) fun mounted =>
      ∀ response, mounted = some response → ∀ h ∈ response.headers, Sendable h.2 := by
  have hnone : Ensures storage (pure none : HandlerM (Option Response)) fun mounted =>
      ∀ response, mounted = some response → ∀ h ∈ response.headers, Sendable h.2 :=
    .pure fun response heq => by cases heq
  have hsome : ∀ d, Ensures storage
      (pure (some ⟨201, blobLocation repo d, .empty⟩) : HandlerM (Option Response)) fun mounted =>
        ∀ response, mounted = some response → ∀ h ∈ response.headers, Sendable h.2 := by
    refine fun d => .pure fun response heq => ?_
    rw [← Option.some.inj heq]
    exact blobLocation_sendable hrepo d
  unfold mountFrom
  split
  · exact hnone
  · refine (Ensures.any _).bind fun there _ => ?_
    split
    · exact hsome _
    · unfold copyFrom
      split
      · exact hnone
      · refine (Ensures.any _).bind fun result _ => ?_
        split
        · exact hnone
        · exact (Ensures.any _).bind fun _ _ => hsome _

theorem answers_uploadStart (hstorage : CreatesUuids storage) {drawn : String} (hdrawn : IsUuid drawn)
    (digest mount from? : Option String) (body : Bytes) :
    Answers storage (uploadStart repo digest mount from? body drawn) := by
  refine answers_validated fun hrepo => (ensures_mountFrom hrepo mount from?).bind
    fun mounted hmounted => ?_
  split
  · exact .pure (hmounted _ rfl)
  · split
    · exact (Ensures.any _).bind fun d _ => (Ensures.any _).bind fun _ _ =>
        .pure (blobLocation_sendable hrepo d)
    · have hcreate : Ensures storage (call (.uploadCreate repo drawn)) fun session =>
          IsUuid session.id := by
        intro s session s' hrun
        apply hstorage repo drawn s session hdrawn
        have hanswer := congrArg Prod.fst hrun
        rw [show ((call (.uploadCreate repo drawn)).run storage s).1 =
          (storage (.uploadCreate repo drawn) s).1.mapError fromStorage from
            congrArg Prod.fst (Fallible.run_mapError _ _ _)] at hanswer
        cases hcreated : (storage (.uploadCreate repo drawn) s).1 with
        | error err =>
            rw [hcreated] at hanswer
            cases hanswer
        | ok created =>
            rw [hcreated] at hanswer
            rw [Except.ok.inj hanswer]
      exact hcreate.bind fun session hid => .pure (sessionHeaders_sendable hrepo hid (by decide))

section Sessions

variable [UuidCrate] (huuid : ∀ s id, UuidCrate.parseStr s = some id → IsUuid id)

include huuid

theorem ensures_parseUuid (uuid : String) : Ensures storage (lift (parseUuid uuid)) IsUuid := by
  refine (Ensures.lift _).mono fun id hid => ?_
  unfold parseUuid at hid
  split at hid
  · rename_i found hparse
    rw [← Except.ok.inj hid]
    exact huuid uuid found hparse
  · cases hid

theorem answers_uploadStatus (uuid : String) : Answers storage (uploadStatus repo uuid) := by
  refine answers_validated fun hrepo => (ensures_parseUuid huuid uuid).bind fun id hid =>
    (Ensures.any _).bind fun status _ => .pure (sessionHeaders_sendable hrepo hid ?_)
  split
  · decide
  · exact sendable_append.mpr ⟨by decide, sendable_nat _⟩

theorem answers_uploadChunk (uuid : String) (body : Bytes) :
    Answers storage (uploadChunk repo uuid body) := by
  refine answers_validated fun hrepo => (ensures_parseUuid huuid uuid).bind fun id hid =>
    (Ensures.any _).bind fun status _ => .pure (sessionHeaders_sendable hrepo hid ?_)
  exact sendable_append.mpr ⟨by decide, sendable_nat _⟩

omit huuid in
theorem answers_uploadFinish (uuid : String) (digest : Option String) (body : Bytes) :
    Answers storage (uploadFinish repo uuid digest body) := by
  refine answers_validated fun hrepo => (Ensures.any _).bind fun id _ => ?_
  split
  · exact .fail _ _
  · refine (Ensures.any _).bind fun d _ => ?_
    have hfinalize : Answers storage (callOr (.uploadFinalize repo id d) .blobUploadUnknown
        "no such upload" >>= fun _ => pure ⟨201, blobLocation repo d, .empty⟩) :=
      (Ensures.any _).bind fun _ _ => .pure (blobLocation_sendable hrepo d)
    split
    · exact (Ensures.any _).bind fun _ _ => hfinalize
    · exact hfinalize

omit huuid in
theorem answers_uploadCancel (uuid : String) : Answers storage (uploadCancel repo uuid) :=
  answers_validated fun _ => (Ensures.any _).bind fun _ _ => (Ensures.any _).bind fun _ _ =>
    .pure (by simp)

end Sessions

theorem answers_referrers [SerdeJson] (digest : String) (filter : Option String) :
    Answers storage (referrers repo digest filter) := by
  refine answers_validated fun _ => (Ensures.any _).bind fun _ _ => (Ensures.any _).bind fun _ _ =>
    (Ensures.any _).bind fun found _ => .pure ?_
  split
  · simp only [List.mem_cons, List.not_mem_nil, or_false, forall_eq_or_imp, forall_eq]
    decide +kernel
  · simp only [List.mem_cons, List.not_mem_nil, or_false, forall_eq]
    decide

-- Every handler, one after the other.
theorem answers_program [Sha2] [SerdeJson] [UuidCrate]
    (huuid : ∀ s id, UuidCrate.parseStr s = some id → IsUuid id) (hstorage : CreatesUuids storage)
    {r : Request} (hdrawn : IsUuid r.drawn) {call : Call} {prog : HandlerM Response}
    (h : program r call = some prog) : Answers storage prog := by
  cases call <;> simp only [program, Option.some.injEq, reduceCtorEq] at h <;> subst h
  case catalog => exact answers_catalog _ _
  case tagsList => exact answers_tagsList _ _
  case uploadStart => exact answers_uploadStart hstorage hdrawn _ _ _ _
  case uploadStatus => exact answers_uploadStatus huuid _
  case uploadChunk => exact answers_uploadChunk huuid _ _
  case uploadFinish => exact answers_uploadFinish _ _ _
  case uploadCancel => exact answers_uploadCancel _
  case manifestGet => exact answers_manifestGet _ _
  case manifestPut => exact answers_manifestPut _ _ _
  case manifestDelete => exact answers_manifestDelete _
  case blobGet => exact answers_blobGet _ _
  case blobDelete => exact answers_blobDelete _
  case referrers => exact answers_referrers _ _

end Handlers

section Serve

variable [Sha2] [SerdeJson] [UuidCrate] (state : AppState) {σ : Type}
variable {storage : Handler StorageOp StorageOp.Ans σ} (other : Request → Call → σ → Response × σ)

omit [Sha2] [SerdeJson] [UuidCrate] in
theorem mapM_isSome {α β : Type} {f : α → Option β} (h : ∀ a, (f a).isSome) (xs : List α) :
    (xs.mapM f).isSome := by
  induction xs with
  | nil => rfl
  | cons a rest ih =>
      obtain ⟨b, hb⟩ := Option.isSome_iff_exists.mp (h a)
      obtain ⟨bs, hbs⟩ := Option.isSome_iff_exists.mp ih
      rw [List.mapM_cons, hb, hbs]
      rfl

-- The steps go through, and the response is that of the handler.
theorem serve_eq (huuid : ∀ s id, UuidCrate.parseStr s = some id → IsUuid id)
    (hstorage : CreatesUuids storage) {r : Request} (hdrawn : IsUuid r.drawn) (q : Option String)
    (s : σ) : serve state storage other r q s = some
      (match Http.dispatch state r.method r.path with
      | .notFound => (notFound, s)
      | .methodNotAllowed => (methodNotAllowed, s)
      | .call .versionCheck => (versionCheck, s)
      | .call call =>
          handle other storage { r with query := (q.map Http.urlFormPairs).getD [] } call s) := by
  have hquery : q.elim (some []) urlFormPairs = some ((q.map Http.urlFormPairs).getD []) := by
    cases q with
    | none => rfl
    | some q => exact urlFormPairs_eq q
  unfold serve
  rw [hquery]
  simp only [Option.bind_eq_bind, Option.bind_some, dispatch_eq]
  generalize (q.map Http.urlFormPairs).getD [] = query
  have hcall : ∀ call, ((names { r with query } call).mapM validateRepoName).bind (fun _ =>
      match program { r with query } call with
      | some prog => answer storage prog s
      | none => some (other { r with query } call s)) =
        some (handle other storage { r with query } call s) := by
    intro call
    have hname : ∀ name, (validateRepoName name).isSome := by
      intro name
      rw [validateRepoName_eq]
      rfl
    have hdrawn' : IsUuid ({ r with query } : Request).drawn := hdrawn
    obtain ⟨valid, hvalid⟩ := Option.isSome_iff_exists.mp
      (mapM_isSome hname (names { r with query } call))
    rw [hvalid, Option.bind_some, handle]
    cases hprogram : program { r with query } call with
    | none => rfl
    | some prog => exact answer_of_answers (answers_program huuid hstorage hdrawn' hprogram) s
  cases Http.dispatch state r.method r.path with
  | notFound => rfl
  | methodNotAllowed => rfl
  | call call =>
      cases call with
      | versionCheck => rfl
      | tokenEndpoint =>
          cases query.get "scope" with
          | none => simp only [Option.elim_none, Option.bind_some, handle, program]
          | some scope =>
              obtain ⟨parsed, hparsed⟩ := Option.isSome_iff_exists.mp (parseScope_isSome scope.toList)
              simp only [Option.elim_some, hparsed, Option.bind_some, handle, program]
      | _ => exact hcall _

end Serve

end RspaceRegistry.Http.Checked
