import RspaceRegistry.Http.Push
import RspaceRegistry.Stores.Manifests

namespace RspaceRegistry.Http

open Calls Files Disk Ordered Stores

-- The list of referrers against what the JSON of the stored manifests says.

section Documents

variable [SerdeJson]

def subjectDigest (body : Bytes) : Option String :=
  (((SerdeJson.fromSlice body).bind fun value => Json.get value "subject").bind
    fun subject => Json.get subject "digest").bind Json.asString

def artifactTypeOf (body : Bytes) : Option String :=
  ((SerdeJson.fromSlice body).bind fun value => Json.get value "artifactType").bind Json.asString

def RefersTo (body : Bytes) (subject : Digest) : Prop :=
  subjectDigest body = some subject.toString

def OfType (body : Bytes) (filter : Option String) : Prop :=
  ∀ type, filter = some type → artifactTypeOf body = some type

-- The same by the parser.
def ParsedTo (body : Bytes) (subject : Digest) (m : Manifest) : Prop :=
  parseManifestRefs body = some m ∧ m.subject.map (·.digest) = some subject

def TypedAs (m : Manifest) (filter : Option String) : Prop :=
  ∀ type, filter = some type → m.artifactType = some type

-- The manifest is an object, and so is its subject: the parser takes arrays as well.
def InMembers (body : Bytes) : Prop :=
  ∃ value members, SerdeJson.fromSlice body = some value ∧
    Json.get value "subject" = some (.obj members)

omit [SerdeJson] in
-- A field that was read is the only one with its key.
theorem get_of_field {α : Type} {decode : Json → Option α} {missing : Option α} {key : String}
    {members : List (String × Json)} {value : α}
    (h : Json.field decode missing key members = some value) :
    (Json.get (.obj members) key).elim missing decode = some value := by
  unfold Json.field at h
  unfold Json.get
  simp only
  split at h
  · rename_i hnone
    rw [hnone]
    exact h
  · rename_i found hone
    rw [hone]
    exact h
  · cases h

omit [SerdeJson] in
theorem deserialize_fields {members : List (String × Json)} {m : Manifest}
    (h : Manifest.deserialize (.obj members) = some m) :
    (Json.get (.obj members) "subject").elim (some none)
        (Json.asOption Descriptor.deserialize) = some m.subject ∧
      (Json.get (.obj members) "artifactType").elim (some none)
        (Json.asOption Json.asString) = some m.artifactType := by
  simp only [Manifest.deserialize, Option.bind_eq_bind, Option.bind_eq_some_iff] at h
  obtain ⟨mediaType, -, artifactType, htype, config, -, layers, -, manifests, -, subject, hsubject,
    annotations, -, hm⟩ := h
  obtain rfl := Option.some.inj hm
  exact ⟨get_of_field hsubject, get_of_field htype⟩

omit [SerdeJson] in
theorem descriptor_digest {members : List (String × Json)} {descriptor : Descriptor}
    (h : Descriptor.deserialize (.obj members) = some descriptor) :
    Json.get (.obj members) "digest" = some (.str descriptor.digest.toString) := by
  simp only [Descriptor.deserialize, Option.bind_eq_bind, Option.bind_eq_some_iff] at h
  obtain ⟨mediaType, -, digest, hdigest, size, -, artifactType, -, annotations, -, hd⟩ := h
  obtain rfl := Option.some.inj hd
  have hfield := get_of_field hdigest
  cases hget : Json.get (.obj members) "digest" with
  | none =>
      rw [hget] at hfield
      cases hfield
  | some value =>
      rw [hget] at hfield
      cases value with
      | str text =>
          cases hparsed : Digest.fromStr text with
          | error err => simp [Json.asDigest, hparsed, Except.toOption] at hfield
          | ok found =>
              simp only [Option.elim, Json.asDigest, hparsed, Except.toOption] at hfield
              obtain rfl := Option.some.inj hfield
              rw [toString_of_fromStr hparsed]
      | _ => cases hfield

omit [SerdeJson] in
theorem get_some {value found : Json} {key : String} (h : Json.get value key = some found) :
    ∃ members, value = .obj members := by
  cases value with
  | obj members => exact ⟨members, rfl⟩
  | _ => cases h

variable {body : Bytes} {subject : Digest} {m : Manifest} {filter : Option String}

theorem RefersTo.inMembers (h : RefersTo body subject) : InMembers body := by
  simp only [RefersTo, subjectDigest, Option.bind_eq_some_iff] at h
  obtain ⟨text, ⟨value, ⟨document, hdocument, hvalue⟩, hdigest⟩, -⟩ := h
  obtain ⟨members, rfl⟩ := get_some hdigest
  exact ⟨document, members, hdocument, hvalue⟩

-- Of objects the parser reads what their JSON says.
theorem refersTo_iff (hparsed : parseManifestRefs body = some m) (hmembers : InMembers body) :
    RefersTo body subject ↔ m.subject.map (·.digest) = some subject := by
  obtain ⟨document, members, hdocument, hget⟩ := hmembers
  obtain ⟨outer, rfl⟩ := get_some hget
  rw [parseManifestRefs, hdocument, Option.bind_some] at hparsed
  have hsubject := (deserialize_fields hparsed).1
  rw [hget] at hsubject
  obtain ⟨descriptor, hdescriptor, hm⟩ := Option.map_eq_some_iff.mp
    (show (Descriptor.deserialize (.obj members)).map some = some m.subject from hsubject)
  rw [RefersTo, subjectDigest, hdocument, Option.bind_some, hget, Option.bind_some,
    descriptor_digest hdescriptor, ← hm]
  simp only [Option.bind_some, Json.asString, Option.some.injEq, Option.map_some]
  exact ⟨fun h => toString_injective h, fun h => by rw [h]⟩

theorem ofType_iff (hparsed : parseManifestRefs body = some m) (hmembers : InMembers body) :
    OfType body filter ↔ TypedAs m filter := by
  obtain ⟨document, members, hdocument, hget⟩ := hmembers
  obtain ⟨outer, rfl⟩ := get_some hget
  rw [parseManifestRefs, hdocument, Option.bind_some] at hparsed
  have htype := (deserialize_fields hparsed).2
  have hsame : artifactTypeOf body = m.artifactType := by
    rw [artifactTypeOf, hdocument, Option.bind_some]
    cases hvalue : Json.get (.obj outer) "artifactType" with
    | none =>
        rw [hvalue] at htype
        exact Option.some.inj htype
    | some value =>
        rw [hvalue] at htype
        cases value with
        | null | str text => exact Option.some.inj htype
        | _ => cases htype
  rw [OfType, TypedAs, hsame]

theorem parsedTo_of_refersTo (hparsed : parseManifestRefs body = some m)
    (h : RefersTo body subject) : ParsedTo body subject m :=
  ⟨hparsed, (refersTo_iff hparsed h.inMembers).mp h⟩

end Documents

section Collected

variable [SerdeJson] {σ : Type} {storage : Handler StorageOp StorageOp.Ans σ} {s : σ}
variable (repo : String) (subject : Digest) (filter : Option String)

def entryOf (d : Digest) (body : Bytes) : Option ReferrerEntry :=
  (parseManifestRefs body).bind fun m =>
    if m.subject.map (·.digest) = some subject ∧ ¬(filter.isSome ∧ m.artifactType ≠ filter) then
      some ⟨manifestMediaType body none, d, body.length, m.artifactType, m.annotations⟩
    else none

def leftOut (body : Bytes) : Bool :=
  (parseManifestRefs body).any fun m =>
    m.subject.map (·.digest) = some subject ∧ filter.isSome ∧ m.artifactType ≠ filter

theorem run_collectReferrers {content : Digest → Option Bytes} (digests : List Digest)
    (h : ∀ d ∈ digests, ∃ body, content d = some body ∧
      storage (.manifestGet repo (.digest d)) s = (.ok body, s))
    (matched : List ReferrerEntry) (filtered : Bool) :
    (collectReferrers repo subject filter digests matched filtered).run storage s =
      (.ok (matched ++ digests.filterMap fun d => (content d).bind (entryOf subject filter d),
        filtered || digests.any fun d => (content d).any (leftOut subject filter)), s) := by
  induction digests generalizing matched filtered with
  | nil =>
      simp only [List.filterMap_nil, List.append_nil, List.any_nil, Bool.or_false]
      rfl
  | cons d rest ih =>
      obtain ⟨body, hcontent, hget⟩ := h d List.mem_cons_self
      have hrest := ih fun other hother => h other (List.mem_cons_of_mem _ hother)
      have hasked : (Fallible.mapError fromStorage (Fallible.attempt
          (ask (.manifestGet repo (.digest d))))).run storage s = (.ok (.ok body), s) := by
        have hask : (ask (.manifestGet repo (.digest d))).run storage s = (.ok body, s) := hget
        rw [Fallible.run_mapError, Fallible.run_attempt, hask]
        rfl
      rw [collectReferrers, Fallible.run_bind_of_ok hasked, List.filterMap_cons, List.any_cons,
        hcontent, Option.bind_some, Option.any_some, entryOf, leftOut]
      cases hparsed : parseManifestRefs body with
      | none =>
          simp only [hparsed, hrest, Option.bind_none, Option.any_none, Bool.false_or]
      | some m =>
          simp only [hparsed, Option.bind_some, Option.any_some, ne_eq]
          by_cases hsubject : m.subject.map (·.digest) = some subject
          · by_cases htype : filter.isSome ∧ ¬m.artifactType = filter
            · rw [if_neg (not_not.mpr hsubject), if_pos htype, if_neg (fun h => h.2 htype),
                decide_eq_true ⟨hsubject, htype⟩, hrest, Bool.true_or, Bool.or_true]
            · rw [if_neg (not_not.mpr hsubject), if_neg htype, if_pos ⟨hsubject, htype⟩,
                decide_eq_false (fun h => htype h.2), hrest, Bool.false_or, List.append_assoc]
              rfl
          · rw [if_pos hsubject, if_neg (fun h => hsubject h.1),
              decide_eq_false (fun h => hsubject h.1), hrest, Bool.false_or]

end Collected

-- Requests to the files behind a handle.
def storageOf [Sha2] (apart : RootId → Option IoError) (b : Backend) :
    Handler StorageOp StorageOp.Ans Trees :=
  fun op trees => b.serve (onTrees apart) (.request op) trees

section Built

variable [SerdeJson] [Sha2]

-- Directories as accepted pushes and deletions of manifests make them, each through
-- some backend.
inductive Built : Trees → Prop
  | empty : Built fun _ => new
  | put {trees trees' : Trees} {repo reference : String} {contentType : Option String}
      {body : Bytes} {response : Response} (apart : RootId → Option IoError) (b : Backend)
      (h : Built trees)
      (hput : (manifestPut repo reference contentType body).run (storageOf apart b) trees =
        (.ok response, trees')) : Built trees'
  | delete {trees trees' : Trees} {repo reference : String} {response : Response}
      (apart : RootId → Option IoError) (b : Backend) (h : Built trees)
      (hdelete : (manifestDelete repo reference).run (storageOf apart b) trees =
        (.ok response, trees')) : Built trees'

omit [SerdeJson] [Sha2] in
theorem delete_reply {σ : Type} {storage : Handler StorageOp StorageOp.Ans σ} {s s' : σ}
    {repo reference : String} {response : Response}
    (h : (manifestDelete repo reference).run storage s = (.ok response, s')) :
    validateRepoName repo = .ok () ∧
      s' = (storage (.manifestDelete repo (parseReference reference)) s).2 := by
  unfold manifestDelete at h
  cases hname : validateRepoName repo with
  | error err =>
      rw [hname] at h
      cases (Prod.mk.inj h).1
  | ok _ =>
      rw [hname, lift_ok_bind] at h
      obtain ⟨done, mid, hcall, hrest⟩ := Fallible.run_bind_eq_ok h
      rw [run_callOr] at hcall
      refine ⟨rfl, ?_⟩
      rw [← (Prod.mk.inj hrest).2, ← (Prod.mk.inj hcall).2]

theorem Built.grown {trees : Trees} (h : Built trees) : Stores.Grown trees := by
  induction h with
  | empty => exact grown_empty
  | put apart b _ hput ih =>
      obtain ⟨hname, d, hstore, -⟩ := put_reply hput
      obtain rfl := congrArg Prod.snd hstore
      refine ih.serve b fun repo heq => ?_
      rw [← Option.some.inj heq]
      exact hname
  | delete apart b _ hdelete ih =>
      obtain ⟨hname, hafter⟩ := delete_reply hdelete
      rw [hafter]
      refine ih.serve b fun repo heq => ?_
      rw [← Option.some.inj heq]
      exact hname

end Built

section Exact

variable [SerdeJson] [Sha2] (apart : RootId → Option IoError) {trees : Trees} {repo : String}

-- The manifests of the repository that the JSON gives the subject and the type, each once.
structure Lists (trees : Trees) (b : Backend) (repo : String) (subject : Digest)
    (filter : Option String) (entries : List ReferrerEntry) : Prop where
  once : (entries.map (·.digest)).Nodup
  held : ∀ entry ∈ entries, ∃ body, manifestIn trees b.readOrder repo entry.digest = some body ∧
    hashContent .sha256 body = entry.digest ∧ entry.size = body.length ∧
    RefersTo body subject ∧ OfType body filter
  all : ∀ d body, manifestIn trees b.readOrder repo d = some body → RefersTo body subject →
    OfType body filter → ∃ entry ∈ entries, entry.digest = d

def LeavesOut (trees : Trees) (b : Backend) (repo : String) (subject : Digest)
    (filter : Option String) : Prop :=
  ∃ d body, manifestIn trees b.readOrder repo d = some body ∧ RefersTo body subject ∧
    ¬OfType body filter

def ReferrersExact (trees : Trees) (b : Backend) (repo : String) (subject : Digest)
    (filter : Option String) : Prop :=
  ∃ response after entries,
    (referrers repo subject.toString filter).run (storageOf apart b) trees = (.ok response, after) ∧
    response.status = 200 ∧ response.body = .referrers entries ∧
    Lists trees b repo subject filter entries ∧
    ((response.header "oci-filters-applied").isSome ↔ LeavesOut trees b repo subject filter)

-- The parser takes the manifests that count, and it finds no others to count.
structure ReadAlike (trees : Trees) (b : Backend) (repo : String) (subject : Digest)
    (filter : Option String) : Prop where
  clear : Clear trees b repo
  parsed : ∀ d body, manifestIn trees b.readOrder repo d = some body → RefersTo body subject →
    OfType body filter → (parseManifestRefs body).isSome
  members : ∀ d body m, manifestIn trees b.readOrder repo d = some body →
    ParsedTo body subject m → TypedAs m filter → InMembers body
  leftOut : LeavesOut trees b repo subject filter ↔
    ∃ d body m, manifestIn trees b.readOrder repo d = some body ∧ ParsedTo body subject m ∧
      ¬TypedAs m filter

omit [SerdeJson] [Sha2] in
theorem typedAs_iff {m : Manifest} {filter : Option String} :
    TypedAs m filter ↔ ¬(filter.isSome ∧ m.artifactType ≠ filter) := by
  cases filter <;> simp [TypedAs]

omit [Sha2] in
theorem entryOf_eq_some {subject d : Digest} {filter : Option String} {body : Bytes}
    {entry : ReferrerEntry} : entryOf subject filter d body = some entry ↔
      ∃ m, ParsedTo body subject m ∧ TypedAs m filter ∧
        entry = ⟨manifestMediaType body none, d, body.length, m.artifactType, m.annotations⟩ := by
  simp only [entryOf, Option.bind_eq_some_iff, typedAs_iff, ParsedTo]
  constructor
  · rintro ⟨m, hparsed, hentry⟩
    split at hentry
    · rename_i htaken
      exact ⟨m, ⟨hparsed, htaken.1⟩, htaken.2, (Option.some.inj hentry).symm⟩
    · cases hentry
  · rintro ⟨m, ⟨hparsed, hsubject⟩, htype, rfl⟩
    exact ⟨m, hparsed, if_pos ⟨hsubject, htype⟩⟩

omit [Sha2] in
theorem leftOut_eq_true {subject : Digest} {filter : Option String} {body : Bytes} :
    leftOut subject filter body = true ↔ ∃ m, ParsedTo body subject m ∧ ¬TypedAs m filter := by
  simp only [leftOut, Option.any_eq_true, decide_eq_true_eq, typedAs_iff, not_not, ParsedTo,
    and_assoc]

-- What is answered where nothing is in the way.
theorem run_referrers (h : Stores.Grown trees) (hname : validateRepoName repo = .ok ())
    (b : Backend) (hclear : Clear trees b repo) (subject : Digest) (filter : Option String) :
    ∃ entries filtered,
      (referrers repo subject.toString filter).run (storageOf apart b) trees =
        (.ok ⟨200, ("content-type", ociIndexMediaType) ::
          (if filtered then [("oci-filters-applied", "artifactType")] else []),
          .referrers entries⟩, trees) ∧
      (entries.map (·.digest)).Nodup ∧
      (∀ entry, entry ∈ entries ↔ ∃ d body, manifestIn trees b.readOrder repo d = some body ∧
        entryOf subject filter d body = some entry) ∧
      (filtered = true ↔ ∃ d body, manifestIn trees b.readOrder repo d = some body ∧
        leftOut subject filter body = true) := by
  obtain ⟨listing, hlist, hmem⟩ := serve_digests apart b hclear
  have hcontent : ∀ d ∈ listing.toList, ∃ body, manifestIn trees b.readOrder repo d = some body ∧
      storageOf apart b (.manifestGet repo (.digest d)) trees = (.ok body, trees) := by
    intro d hd
    obtain ⟨body, hbody⟩ := Option.isSome_iff_exists.mp ((hmem d).mp ((BTreeSet.mem_toList _ _).mp hd))
    refine ⟨body, hbody, ?_⟩
    rw [storageOf, serve_manifest apart h b hclear, hbody]
    rfl
  have hlisted : ∀ {d body}, manifestIn trees b.readOrder repo d = some body →
      d ∈ listing.toList := by
    intro d body hbody
    rw [BTreeSet.mem_toList, hmem, hbody]
    rfl
  have hcollected := run_collectReferrers repo subject filter listing.toList hcontent [] false
  rw [List.nil_append, Bool.false_or] at hcollected
  refine ⟨listing.toList.filterMap fun d =>
      (manifestIn trees b.readOrder repo d).bind (entryOf subject filter d),
    listing.toList.any fun d => (manifestIn trees b.readOrder repo d).any (leftOut subject filter),
    ?_, ?_, fun entry => ?_, ?_⟩
  · have hcall : (call (.listManifestDigests repo)).run (storageOf apart b) trees =
        (.ok listing, trees) := by
      rw [run_call, storageOf, hlist]
      rfl
    unfold referrers
    rw [hname, lift_ok_bind, parseDigest, fromStr_toString]
    show ((call (.listManifestDigests repo)) >>= _).run (storageOf apart b) trees = _
    rw [Fallible.run_bind_of_ok hcall, Fallible.run_bind_of_ok hcollected]
    rfl
  · rw [List.map_filterMap]
    refine listing.nodup.filterMap fun d d' found hd hd' => ?_
    have hsame : ∀ {d : Digest}, found ∈ ((manifestIn trees b.readOrder repo d).bind
        (entryOf subject filter d)).map (·.digest) → found = d := by
      intro d hfound
      obtain ⟨entry, hentry, rfl⟩ := Option.map_eq_some_iff.mp hfound
      obtain ⟨body, -, hentry⟩ := Option.bind_eq_some_iff.mp hentry
      obtain ⟨m, -, -, rfl⟩ := entryOf_eq_some.mp hentry
      rfl
    rw [← hsame hd, ← hsame hd']
  · simp only [List.mem_filterMap, Option.bind_eq_some_iff]
    constructor
    · rintro ⟨d, -, body, hbody, hentry⟩
      exact ⟨d, body, hbody, hentry⟩
    · rintro ⟨d, body, hbody, hentry⟩
      exact ⟨d, hlisted hbody, body, hbody, hentry⟩
  · simp only [List.any_eq_true, Option.any_eq_true]
    constructor
    · rintro ⟨d, -, body, hbody, hleft⟩
      exact ⟨d, body, hbody, hleft⟩
    · rintro ⟨d, body, hbody, hleft⟩
      exact ⟨d, hlisted hbody, body, hbody, hleft⟩

omit [SerdeJson] [Sha2] in
theorem header_filters {contentType : String} {filtered : Bool} {body : Body} :
    (Response.header ⟨200, ("content-type", contentType) ::
      (if filtered then [("oci-filters-applied", "artifactType")] else []), body⟩
        "oci-filters-applied").isSome = filtered := by
  cases filtered <;> rfl

theorem run_referrers_blocked (hname : validateRepoName repo = .ok ()) (b : Backend)
    (hway : ¬Clear trees b repo) (subject : Digest) (filter : Option String) :
    ∃ err, (referrers repo subject.toString filter).run (storageOf apart b) trees =
      (.error err, trees) := by
  obtain ⟨err, hlist⟩ := serve_digests_blocked apart b hway
  have hcall : (call (.listManifestDigests repo)).run (storageOf apart b) trees =
      (.error (fromStorage err), trees) := by
    rw [run_call, storageOf, hlist]
    rfl
  refine ⟨fromStorage err, ?_⟩
  unfold referrers
  rw [hname, lift_ok_bind, parseDigest, fromStr_toString]
  exact Fallible.run_bind_of_error hcall _

theorem ReferrersExact.readAlike (h : Built trees) {b : Backend}
    (hname : validateRepoName repo = .ok ()) {subject : Digest} {filter : Option String}
    (hexact : ReferrersExact apart trees b repo subject filter) :
    ReadAlike trees b repo subject filter := by
  obtain ⟨response, after, entries, hrun, -, hbody, hlists, hheader⟩ := hexact
  have hclear : Clear trees b repo := by
    by_contra hway
    obtain ⟨err, hblocked⟩ := run_referrers_blocked apart hname b hway subject filter
    rw [hblocked] at hrun
    cases (Prod.mk.inj hrun).1
  obtain ⟨found, filtered, hfound, -, hmem, hfiltered⟩ :=
    run_referrers apart h.grown hname b hclear subject filter
  rw [hfound] at hrun
  obtain rfl := Except.ok.inj (Prod.mk.inj hrun).1
  obtain rfl := Body.referrers.inj hbody
  rw [header_filters, hfiltered] at hheader
  refine ⟨hclear, fun d body hheld hrefers htype => ?_, fun d body m hheld hparsed htype => ?_, ?_⟩
  · obtain ⟨entry, hentry, rfl⟩ := hlists.all d body hheld hrefers htype
    obtain ⟨d', body', hheld', hentry'⟩ := (hmem entry).mp hentry
    obtain ⟨m, ⟨hparsed, -⟩, -, rfl⟩ := entryOf_eq_some.mp hentry'
    obtain rfl := Option.some.inj (hheld.symm.trans hheld')
    rw [hparsed]
    rfl
  · have hentry := (hmem _).mpr ⟨d, body, hheld, entryOf_eq_some.mpr ⟨m, hparsed, htype, rfl⟩⟩
    obtain ⟨body', hheld', -, -, hrefers, -⟩ := hlists.held _ hentry
    obtain rfl := Option.some.inj (hheld.symm.trans hheld')
    exact hrefers.inMembers
  · rw [← hheader]
    simp only [leftOut_eq_true, exists_and_left]

theorem ReadAlike.exact (h : Built trees) {b : Backend} (hname : validateRepoName repo = .ok ())
    {subject : Digest} {filter : Option String} (halike : ReadAlike trees b repo subject filter) :
    ReferrersExact apart trees b repo subject filter := by
  obtain ⟨hclear, hparses, hmembers, hleft⟩ := halike
  obtain ⟨entries, filtered, hrun, honce, hmem, hfiltered⟩ :=
    run_referrers apart h.grown hname b hclear subject filter
  refine ⟨_, _, entries, hrun, rfl, rfl, ⟨honce, fun entry hentry => ?_,
    fun d body hheld hrefers htype => ?_⟩, ?_⟩
  · obtain ⟨d, body, hheld, hentry⟩ := (hmem entry).mp hentry
    obtain ⟨m, hparsed, htype, rfl⟩ := entryOf_eq_some.mp hentry
    have hobjects := hmembers d body m hheld hparsed htype
    exact ⟨body, hheld, manifestIn_hash h.grown.sound hheld, rfl,
      (refersTo_iff hparsed.1 hobjects).mpr hparsed.2, (ofType_iff hparsed.1 hobjects).mpr htype⟩
  · obtain ⟨m, hparsed⟩ := Option.isSome_iff_exists.mp (hparses d body hheld hrefers htype)
    have htyped := (ofType_iff hparsed hrefers.inMembers).mp htype
    exact ⟨_, (hmem _).mpr ⟨d, body, hheld,
      entryOf_eq_some.mpr ⟨m, parsedTo_of_refersTo hparsed hrefers, htyped, rfl⟩⟩, rfl⟩
  · rw [header_filters, hfiltered, hleft]
    simp only [leftOut_eq_true, exists_and_left]

-- The referrers are exact where the parser reads the stored manifests as their JSON is.
theorem referrers_exact_iff (h : Built trees) (b : Backend)
    (hname : validateRepoName repo = .ok ()) (subject : Digest) (filter : Option String) :
    ReferrersExact apart trees b repo subject filter ↔ ReadAlike trees b repo subject filter :=
  ⟨fun hexact => hexact.readAlike apart h hname, fun halike => halike.exact apart h hname⟩

end Exact

theorem storageOf_fs [Sha2] (arc : Nat) (root : RootId) (op : StorageOp) (trees : Trees) :
    storageOf (fun _ => none) (.fs arc root) op trees = ((fsStorage op (trees root)).1,
      Function.update trees root (fsStorage op (trees root)).2) := by
  rw [← fsStorageOn_none]
  rfl

section Pushed

variable [Sha2] [SerdeJson]

-- One directory, to which one manifest was pushed.
def soleTree (content : Bytes) : Trees := Function.update (fun _ => new) 0
  (fsStorage (.manifestPut repoA.name (.digest (hashContent .sha256 content)) content) new).2

omit [SerdeJson] in
theorem soleTree_zero (content : Bytes) : soleTree content 0 =
    (fsStorage (.manifestPut repoA.name (.digest (hashContent .sha256 content)) content) new).2 := by
  rw [soleTree, Function.update_self]

omit [SerdeJson] in
theorem soleTree_ok (content : Bytes) : (fsStorage (.manifestPut repoA.name
    (.digest (hashContent .sha256 content)) content) new).1 = .ok (hashContent .sha256 content) := by
  have htakes : Takes new repoA.name content (.digest (hashContent .sha256 content)) := rfl
  have htaken := taken grown_new.dirs (nothing_in_the_way ("digests" :: repoPath repoA.name)) htakes
  rwa [← put_eq] at htaken

theorem soleTree_built {content : Bytes} (hjson : (SerdeJson.fromSlice content).isSome) :
    Built (soleTree content) := by
  have htarget : parseReference (hashContent .sha256 content).toString =
      .digest (hashContent .sha256 content) := by
    rw [parseReference, fromStr_toString]
  have hstore : storageOf (fun _ => none) (.fs 0 0) (.manifestPut repoA.name
      (parseReference (hashContent .sha256 content).toString) content) (fun _ => new) =
        (.ok (hashContent .sha256 content), soleTree content) := by
    rw [storageOf_fs, htarget, soleTree_ok, soleTree]
  obtain ⟨reply, hput⟩ := run_accepted repoA.valid
    (by simpa [Option.isSome_iff_ne_none] using hjson) none hstore
    fun want hwant => Disk.Reference.digest.inj (hwant.symm.trans htarget)
  exact .put _ _ .empty hput

omit [SerdeJson] in
-- The manifest is all there is.
theorem soleTree_only {content body : Bytes} {d : Digest} {roots : List RootId}
    (h : manifestIn (soleTree content) roots repoA.name d = some body) : body = content := by
  obtain ⟨root, -, hfile⟩ := Places.exists_of_first h
  have hnone : new.fileAt (manifestDigestPath repoA.name d) = none := no_file_new _
  by_cases hroot : root = 0
  · rw [hroot, manifestSlot, soleTree, Function.update_self] at hfile
    rcases put_content new repoA.name d repoA.name (.digest (hashContent .sha256 content)) content with
      hsame | ⟨hcontent, -⟩
    · rw [put_eq, hsame, hnone] at hfile
      cases hfile
    · rw [put_eq, hcontent] at hfile
      exact (Option.some.inj hfile).symm
  · rw [manifestSlot, soleTree, Function.update_of_ne hroot, hnone] at hfile
    cases hfile

omit [SerdeJson] in
theorem soleTree_held (content : Bytes) : manifestIn (soleTree content) [0] repoA.name
    (hashContent .sha256 content) = some content := by
  have hstored : Put repoA content new (soleTree content 0) := by
    have hput := put_stores (.digest (hashContent .sha256 content)) content grown_new.dirs
      (nothing_in_the_way ("digests" :: repoPath repoA.name))
    rwa [← put_eq, ← soleTree_zero] at hput
  rw [manifestIn, Places.first, List.findSome?_cons, manifestSlot, hstored.stored]

omit [SerdeJson] in
theorem soleTree_clear (content : Bytes) : Clear (soleTree content) (.fs 0 0) repoA.name := by
  intro root hroot
  obtain rfl := List.mem_singleton.mp hroot
  obtain ⟨root, hroot, hfile⟩ := Places.exists_of_first (soleTree_held content)
  obtain rfl := List.mem_singleton.mp hroot
  obtain ⟨inode, hnode, -⟩ := Tree.fileAt_eq_some.mp hfile
  rintro ⟨above, other, habove, hthere⟩
  have hne : above ≠ manifestDigestPath repoA.name (hashContent .sha256 content) := by
    intro heq
    have hlen := habove.length_le
    rw [heq, manifestDigestPath, List.length_cons] at hlen
    omega
  rw [Tree.dir_above hnode (habove.trans (List.suffix_cons _ _)) hne] at hthere
  cases hthere

end Pushed

-- A subject without its media type, which the parser asks for, and one with it.
def bareReferrer : Bytes := Sample.text
  "\x7b\"subject\":\x7b\"digest\":\"sha256:44136fa355b3678a1146ad16f7e8649e94fb4fc21fe77e8310c060f61caaff8a\"\x7d\x7d"

def typedReferrer : Bytes := Sample.text
  "\x7b\"subject\":\x7b\"mediaType\":\"m\",\"digest\":\"sha256:44136fa355b3678a1146ad16f7e8649e94fb4fc21fe77e8310c060f61caaff8a\"\x7d\x7d"

def referrerHashes : List (Bytes × String × Nat) :=
  [(bareReferrer, "4cb708c3e6cfb55c65ce1185bd153e307b748282729067eb7a6b6a6c07f550c1",
      0x43455e151816db56cd67ec5abb170c6105a9a303ed66fbc8b98531f365739b41fb743b990ead5cdc79b1da9f0ba250e3da3175ae8b83e70f6e51b54d9fe8ee7c),
    (typedReferrer, "dc4c1ab4e6a191fe435da096d25df81309b295dec47c9af079c74600e3904a9a",
      0xdd3e9556b46c3219e3dbfe5e4764d85e92404e53e2a72492671ebbbbe82df318b27a517ce0b70d0cbcac4ccdfbd1bb58d2c1fe7179077f5a39d2b46b7350185a)]

def referrerHex (algorithm : Algorithm) (content : Bytes) : String :=
  match algorithm, referrerHashes.lookup content with
  | .sha256, some (hex, _) => hex
  | .sha512, some (_, n) => String.ofList (Sample.hexDigits 128 n)
  | _, none => Sample.hexOf algorithm content

theorem referrerHashes_valid : ∀ entry ∈ referrerHashes, ValidHex .sha256 entry.2.1 := by
  decide +kernel

theorem referrerHex_valid (algorithm : Algorithm) (content : Bytes) :
    ValidHex algorithm (referrerHex algorithm content) := by
  unfold referrerHex
  split
  · rename_i hex n hfound
    obtain ⟨l₁, l₂, heq, -⟩ := List.lookup_eq_some_iff.mp hfound
    exact referrerHashes_valid (content, hex, n) (by rw [heq]; simp)
  · exact Sample.hexDigits_valid .sha512 _
  · exact Sample.hexOf_valid _ _

abbrev referrerSha2 : Sha2 where
  hexHash := referrerHex
  hexHash_valid := referrerHex_valid

def subjectOf (members : List (String × Json)) : Json := .obj [("subject", .obj (members ++
  [("digest", .str "sha256:44136fa355b3678a1146ad16f7e8649e94fb4fc21fe77e8310c060f61caaff8a")]))]

abbrev referrerSerdeJson : SerdeJson where
  fromSlice content :=
    if content = bareReferrer then some (subjectOf [])
    else if content = typedReferrer then some (subjectOf [("mediaType", .str "m")])
    else Sample.serdeJson.fromSlice content

section

attribute [local instance] referrerSha2 referrerSerdeJson

theorem fromSlice_bare : SerdeJson.fromSlice bareReferrer = some (subjectOf []) := if_pos rfl

theorem fromSlice_typed :
    SerdeJson.fromSlice typedReferrer = some (subjectOf [("mediaType", .str "m")]) := by
  have hne : typedReferrer ≠ bareReferrer := by decide +kernel
  exact (if_neg hne).trans (if_pos rfl)

theorem typed_referrer_listed :
    (Built (soleTree typedReferrer) ∧ validateRepoName repoA.name = .ok ()) ∧
      ReferrersExact (fun _ => none) (soleTree typedReferrer) (.fs 0 0) repoA.name
        (hashContent .sha256 Sample.braces) none := by
  have hbuilt : Built (soleTree typedReferrer) := soleTree_built (by rw [fromSlice_typed]; rfl)
  refine ⟨⟨hbuilt, repoA.valid⟩, ?_⟩
  refine (referrers_exact_iff _ hbuilt _ repoA.valid _ none).mpr ⟨soleTree_clear _,
    fun d body hheld _ _ => ?_, fun d body m hheld _ _ => ?_, ?_⟩
  · rw [soleTree_only hheld, parseManifestRefs, fromSlice_typed]
    decide +kernel
  · rw [soleTree_only hheld]
    exact ⟨_, _, fromSlice_typed, rfl⟩
  · simp [LeavesOut, OfType, TypedAs]

-- A referrer whose subject has no media type is accepted, and it is not listed.
theorem bare_referrer_missed :
    ¬(∀ trees, Built trees → ∀ apart b repo, validateRepoName repo = .ok () →
      ∀ subject filter, ReferrersExact apart trees b repo subject filter) ∧
    ¬ReferrersExact (fun _ => none) (soleTree bareReferrer) (.fs 0 0) repoA.name
      (hashContent .sha256 Sample.braces) none := by
  have hbuilt : Built (soleTree bareReferrer) := soleTree_built (by rw [fromSlice_bare]; rfl)
  have hmissed : ¬ReferrersExact (fun _ => none) (soleTree bareReferrer) (.fs 0 0) repoA.name
      (hashContent .sha256 Sample.braces) none := by
    intro hexact
    have halike := hexact.readAlike _ hbuilt repoA.valid
    have hrefers : RefersTo bareReferrer (hashContent .sha256 Sample.braces) := by
      rw [RefersTo, subjectDigest, fromSlice_bare]
      decide +kernel
    have hparsed := halike.parsed _ _ (soleTree_held bareReferrer) hrefers nofun
    rw [parseManifestRefs, fromSlice_bare] at hparsed
    exact absurd hparsed (by decide)
  exact ⟨fun hall => hmissed (hall _ hbuilt _ _ _ repoA.valid _ _), hmissed⟩

end

end RspaceRegistry.Http
