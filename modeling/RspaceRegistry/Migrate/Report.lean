import RspaceRegistry.Calls.Trace
import RspaceRegistry.Migrate.Run
import RspaceRegistry.Migrate.Uses

namespace RspaceRegistry

open Calls Fallible

namespace Op

-- Where a call brings something, and where it takes something away.

def writesTo : Op → Option RootId
  | .fs root (.blobWrite _ _) => some root
  | .fs root (.manifestPut _ _ _) => some root
  | _ => none

def deletesFrom : Op → Option RootId
  | .fs root (.blobDelete _) => some root
  | .fs root (.manifestDelete _ _) => some root
  | _ => none

def isBlobWrite : Op → Bool
  | .fs _ (.blobWrite _ _) => true
  | _ => false

def isDigestPut : Op → Bool
  | .fs _ (.manifestPut _ (.digest _) _) => true
  | _ => false

def bytesWritten : Op → Nat
  | .fs _ (.blobWrite _ content) => content.length
  | _ => 0

theorem Confined.writesTo {writes deletes : List RootId} {op : Op} {root : RootId}
    (h : op.Confined writes deletes) (hop : op.writesTo = some root) : root ∈ writes := by
  cases op with
  | fs at' call =>
      cases call with
      | blobWrite expected content => exact Option.some.inj hop ▸ h
      | manifestPut repo reference content => exact Option.some.inj hop ▸ h
      | _ => cases hop
  | _ => cases hop

theorem Confined.deletesFrom {writes deletes : List RootId} {op : Op} {root : RootId}
    (h : op.Confined writes deletes) (hop : op.deletesFrom = some root) : root ∈ deletes := by
  cases op with
  | fs at' call =>
      cases call with
      | blobDelete digest => exact Option.some.inj hop ▸ h
      | manifestDelete repo reference => exact Option.some.inj hop ▸ h
      | _ => cases hop
  | _ => cases hop

theorem Confined.no_write {deletes : List RootId} {op : Op} (h : op.Confined [] deletes) :
    op.writesTo = none := by
  cases hop : op.writesTo with
  | none => rfl
  | some root => exact absurd (h.writesTo hop) List.not_mem_nil

theorem Confined.no_delete {writes : List RootId} {op : Op} (h : op.Confined writes []) :
    op.deletesFrom = none := by
  cases hop : op.deletesFrom with
  | none => rfl
  | some root => exact absurd (h.deletesFrom hop) List.not_mem_nil

theorem counts_of_no_write {op : Op} (h : op.writesTo = none) :
    op.isBlobWrite = false ∧ op.isDigestPut = false ∧ op.bytesWritten = 0 := by
  cases op with
  | fs at' call =>
      cases call with
      | blobWrite expected content => cases h
      | manifestPut repo reference content => cases h
      | _ => exact ⟨rfl, rfl, rfl⟩
  | _ => exact ⟨rfl, rfl, rfl⟩

end Op

namespace Migrate

variable {ι : Type}

-- A write that was not acknowledged.
inductive Refused : Event ι Op Op.Ans → Prop
  | error {i : ι} {root : RootId} {call : FsCall} {err : StorageError}
      (h : (Op.fs root call).writesTo = some root) : Refused ⟨i, .fs root call, .error err⟩

theorem not_refused {e : Event ι Op Op.Ans} (h : e.op.writesTo = none) : ¬Refused e := by
  rintro ⟨hop⟩
  rw [hop] at h
  cases h

-- What a call of a migration has behind it: whatever it writes goes to the new volume
-- once the overlay is in place, the new volume is by itself once every write was
-- acknowledged, and only then is anything deleted, if at all.
structure Orderly (i : ι) (pattern : String) (newBackend : Backend) (drain : Bool)
    (before : List (Event ι Op Op.Ans)) (op : Op) : Prop where
  write : ∀ root, op.writesTo = some root → root = newBackend.head ∧
    (∃ overlay added, overlay ≠ newBackend ∧ ⟨i, .upsert pattern overlay, added⟩ ∈ before) ∧
    ∀ e ∈ before, e.op.deletesFrom = none
  cutover : op = .upsert pattern newBackend → ∀ e ∈ before, ¬Refused e
  delete : ∀ root, op.deletesFrom = some root → drain = true ∧
    (∃ old, old ≠ newBackend ∧ root ∈ old.leaves ∧
      ⟨i, .backendForPattern pattern, some old⟩ ∈ before) ∧
    (∃ added, ⟨i, .upsert pattern newBackend, added⟩ ∈ before) ∧ ∀ e ∈ before, ¬Refused e

-- What copying adds to a report, call by call.
structure Copied (report report' : MigrateReport) (calls : List (Event ι Op Op.Ans)) : Prop where
  acknowledged : ∀ e ∈ calls, ¬Refused e
  blobs : report'.blobsCopied = report.blobsCopied + calls.countP (·.op.isBlobWrite)
  bytes : report'.bytesCopied = report.bytesCopied + (calls.map (·.op.bytesWritten)).sum
  manifests : report'.manifestsCopied = report.manifestsCopied + calls.countP (·.op.isDigestPut)
  repos : report'.reposMigrated = report.reposMigrated
  purged : report'.blobsPurged = report.blobsPurged ∧ report'.bytesPurged = report.bytesPurged
  cutover : report'.cutover = report.cutover

theorem Copied.of_no_write (report : MigrateReport) {calls : List (Event ι Op Op.Ans)}
    (h : ∀ e ∈ calls, e.op.writesTo = none) : Copied report report calls where
  acknowledged e he := not_refused (h e he)
  blobs := by
    rw [List.countP_eq_zero.mpr, Nat.add_zero]
    intro e he
    simp [(Op.counts_of_no_write (h e he)).1]
  bytes := by
    rw [List.sum_eq_zero, Nat.add_zero]
    intro n hn
    obtain ⟨e, he, rfl⟩ := List.mem_map.mp hn
    exact (Op.counts_of_no_write (h e he)).2.2
  manifests := by
    rw [List.countP_eq_zero.mpr, Nat.add_zero]
    intro e he
    simp [(Op.counts_of_no_write (h e he)).2.1]
  repos := rfl
  purged := ⟨rfl, rfl⟩
  cutover := rfl

theorem Copied.trans {first second third : MigrateReport} {calls calls' : List (Event ι Op Op.Ans)}
    (h : Copied first second calls) (h' : Copied second third calls') :
    Copied first third (calls ++ calls') where
  acknowledged e he := (List.mem_append.mp he).elim (h.acknowledged e) (h'.acknowledged e)
  blobs := by rw [h'.blobs, h.blobs, List.countP_append, Nat.add_assoc]
  bytes := by rw [h'.bytes, h.bytes, List.map_append, List.sum_append, Nat.add_assoc]
  manifests := by rw [h'.manifests, h.manifests, List.countP_append, Nat.add_assoc]
  repos := h'.repos.trans h.repos
  purged := ⟨h'.purged.1.trans h.purged.1, h'.purged.2.trans h.purged.2⟩
  cutover := h'.cutover.trans h.cutover

def resolvesTo (old : Backend) : Event ι Op Op.Ans → Bool
  | ⟨_, .backendFor _, b⟩ => b.ptrEq old
  | _ => false

-- A report says what was done, and no more.
structure Exact (i : ι) (pattern : String) (newBackend : Backend) (drain : Bool)
    (report : MigrateReport) (t : List (Event ι Op Op.Ans)) : Prop where
  repos : ∀ old, (⟨i, .backendForPattern pattern, some old⟩ : Event ι Op Op.Ans) ∈ t →
    report.reposMigrated = t.countP (resolvesTo old)
  blobs : report.blobsCopied = t.countP (·.op.isBlobWrite)
  bytes : report.bytesCopied = (t.map (·.op.bytesWritten)).sum
  manifests : report.manifestsCopied = t.countP (·.op.isDigestPut)
  acknowledged : ∀ e ∈ t, ¬Refused e
  cutover : report.cutover = true ↔
    ∃ added, (⟨i, .upsert pattern newBackend, added⟩ : Event ι Op Op.Ans) ∈ t
  kept : drain = false → report.blobsPurged = 0 ∧ report.bytesPurged = 0 ∧
    ∀ e ∈ t, e.op.deletesFrom = none

-- A part of the copying, with the report it is given and the one it ends with.
abbrev Copies (i : ι) {α : Type} (prog : StoreM α) (report : MigrateReport)
    (after : α → MigrateReport) : Prop :=
  ∀ t, prog.wp (traced i) Eq (fun _ _ _ _ => True) (Outcome (fun value t' =>
    ∃ calls, t' = t ++ calls ∧ Copied report (after value) calls) fun _ _ => True) t

theorem Copies.bind {i : ι} {α β : Type} {prog : StoreM α} {rest : α → StoreM β}
    {report : MigrateReport} {mid : α → MigrateReport} {after : β → MigrateReport}
    (h : Copies i prog report mid) (hrest : ∀ value, Copies i (rest value) (mid value) after) :
    Copies i (prog >>= rest) report after := by
  intro t
  rw [Fallible.wp_bind]
  refine Fallible.wp_post (h t) ?_
  rintro (err | value) t₁ h₁
  · trivial
  · obtain ⟨calls, rfl, hcopied⟩ := h₁
    refine Fallible.wp_post (hrest value _) ?_
    rintro (err | value') t₂ h₂
    · trivial
    · obtain ⟨calls', rfl, hcopied'⟩ := h₂
      exact ⟨calls ++ calls', List.append_assoc .., hcopied.trans hcopied'⟩

theorem copies_pure (i : ι) {α : Type} (value : α) (after : α → MigrateReport) :
    Copies i (pure value) (after value) after :=
  fun _ => ⟨[], by simp, .of_no_write (after value) (by simp)⟩

theorem copies_fail {i : ι} {α : Type} (err : StorageError) (report : MigrateReport)
    (after : α → MigrateReport) : Copies i (fail err) report after := fun _ => trivial

theorem copies_look {i : ι} {α : Type} {prog : StoreM α} (h : ReadOnly prog)
    (report : MigrateReport) :
    Copies i prog report fun _ => report := by
  intro t
  refine Prog.wp_post (Prog.wp_traced_of_uses h t) ?_
  rintro (err | value) t' ⟨calls, rfl, hcalls⟩
  · trivial
  · exact ⟨calls, rfl, .of_no_write report fun e he => (hcalls e he).2.no_write⟩

theorem copies_attempt {i : ι} {α : Type} {prog : StoreM α} (h : ReadOnly prog)
    (report : MigrateReport) : Copies i (attempt prog) report fun _ => report :=
  copies_look h.attempt report

-- One acknowledged write.
theorem copies_fs {i : ι} {root : RootId} {call : FsCall} {report : MigrateReport}
    {after : MigrateReport}
    (h : ∀ value, Copied report after [(⟨i, .fs root call, .ok value⟩ : Event ι Op Op.Ans)]) :
    Copies i (StoreM.fs root call) report fun _ => after := by
  intro t
  rintro _ rfl answer t' rfl
  refine ⟨trivial, ?_⟩
  change Except StorageError call.Value at answer
  rcases answer with err | value
  · trivial
  · exact ⟨_, rfl, h value⟩

section Copy

variable {i : ι} (src dst : Backend)

theorem copies_copyBlobs (repo : RepoName) (blobs : List Digest) (report : MigrateReport) :
    Copies i (copyBlobs src.storage dst.storage repo blobs report) report id := by
  induction blobs generalizing report with
  | nil => exact copies_pure i report id
  | cons d rest ih =>
      rw [copyBlobs]
      refine (copies_look (dst.readOnly_blobExists repo.text d) report).bind ?_
      intro found
      split
      · exact ih report
      · refine (copies_attempt (src.readOnly_blobRead repo.text d) report).bind ?_
        intro result
        rcases result with err | bytes
        · cases err with
          | notFound => exact ih report
          | _ => exact copies_fail _ _ _
        · have hwrite : Copies i (dst.storage.blobWrite repo.text d bytes) report fun _ =>
              { report with
                blobsCopied := report.blobsCopied + 1
                bytesCopied := report.bytesCopied + bytes.length } := by
            rw [Backend.blobWrite_flat]
            apply copies_fs
            intro value
            refine ⟨?_, rfl, by simp [Op.bytesWritten], rfl, rfl, ⟨rfl, rfl⟩, rfl⟩
            rintro e he ⟨_⟩
            cases List.mem_singleton.mp he
          exact hwrite.bind fun _ => ih _

theorem copies_copyManifests (repo : RepoName) (digests : List Digest) (report : MigrateReport) :
    Copies i (copyManifests src.storage dst.storage repo digests report) report id := by
  induction digests generalizing report with
  | nil => exact copies_pure i report id
  | cons d rest ih =>
      rw [copyManifests]
      refine (copies_attempt (dst.readOnly_manifestGet repo (.digest d)) report).bind ?_
      intro found
      rcases found with err | bytes
      · refine (copies_attempt (src.readOnly_manifestGet repo (.digest d)) report).bind ?_
        intro result
        rcases result with err | bytes
        · cases err with
          | notFound => exact ih report
          | _ => exact copies_fail _ _ _
        · have hput : Copies i (dst.storage.manifestPut repo (.digest d) bytes) report fun _ =>
              { report with manifestsCopied := report.manifestsCopied + 1 } := by
            rw [Backend.manifestPut_flat]
            apply copies_fs
            intro value
            refine ⟨?_, rfl, rfl, rfl, rfl, ⟨rfl, rfl⟩, rfl⟩
            rintro e he ⟨_⟩
            cases List.mem_singleton.mp he
          exact hput.bind fun _ => ih _
      · exact ih report

theorem copies_copyTags (repo : RepoName) (entries : List (TagName × Digest))
    (report : MigrateReport) :
    Copies i (copyTags src.storage dst.storage repo entries) report fun _ => report := by
  induction entries with
  | nil => exact copies_pure i () fun _ => report
  | cons entry rest ih =>
      obtain ⟨tag, d⟩ := entry
      rw [copyTags]
      refine (copies_attempt (src.readOnly_manifestGet repo (.digest d)) report).bind ?_
      intro result
      rcases result with err | bytes
      · cases err with
        | notFound => exact ih
        | _ => exact copies_fail _ _ _
      · have hput : Copies i (dst.storage.manifestPut repo (.tag tag) bytes) report fun _ =>
            report := by
          rw [Backend.manifestPut_flat]
          apply copies_fs
          intro value
          refine ⟨?_, rfl, rfl, rfl, rfl, ⟨rfl, rfl⟩, rfl⟩
          rintro e he ⟨_⟩
          cases List.mem_singleton.mp he
        exact hput.bind fun _ => ih

variable [Sha2] [SerdeJson]

theorem copies_copyRepo (repo : RepoName) (report : MigrateReport) :
    Copies i (copyRepo src.storage dst.storage repo report) report id := by
  refine (copies_look (src.readOnly_listTags repo) report).bind fun listed => ?_
  refine (copies_look (readOnly_walkTags src repo _ _ _) report).bind fun walked => ?_
  refine (copies_look (src.readOnly_listManifestDigests repo) report).bind fun digests => ?_
  refine (copies_look (readOnly_walkDetached src repo _ _) report).bind fun walked' => ?_
  refine (copies_copyBlobs src dst repo _ report).bind fun report₁ => ?_
  refine (copies_copyManifests src dst repo _ report₁).bind fun report₂ => ?_
  refine (copies_copyTags src dst repo _ report₂).bind fun _ => ?_
  exact copies_pure i report₂ id

theorem copies_copyRepos (repos : List RepoName) (report : MigrateReport) :
    Copies i (copyRepos src.storage dst.storage repos report) report id := by
  induction repos generalizing report with
  | nil => exact copies_pure i report id
  | cons repo rest ih => exact (copies_copyRepo src dst repo report).bind ih

end Copy

section Run

variable {i : ι} {pattern : String} {newBackend : Backend} {drain : Bool}
variable {t : List (Event ι Op Op.Ans)}

-- A call that no condition is about.
theorem orderly_of_quiet {op : Op} (hwrite : op.writesTo = none) (hdelete : op.deletesFrom = none)
    (hop : ∀ pattern b, op ≠ .upsert pattern b) : Orderly i pattern newBackend drain t op where
  write root h := by
    rw [hwrite] at h
    cases h
  cutover h := absurd h (hop _ _)
  delete root h := by
    rw [hdelete] at h
    cases h

theorem orderly_of_look {op : Op} (h : op.Confined [] []) :
    Orderly i pattern newBackend drain t op := by
  refine orderly_of_quiet h.no_write h.no_delete ?_
  rintro pattern b rfl
  exact h

-- The rule is given a backend.
theorem orderly_upsert {b : Backend} (h : ∀ e ∈ t, ¬Refused e) :
    Orderly i pattern newBackend drain t (.upsert pattern b) where
  write _ hop := by cases hop
  cutover _ := h
  delete _ hop := by cases hop

-- What is called from the overlay on, up to the second cutover.
theorem orderly_copy {overlay : Backend} {added : Bool} {op : Op} (hne : overlay ≠ newBackend)
    (hover : (⟨i, .upsert pattern overlay, added⟩ : Event ι Op Op.Ans) ∈ t)
    (hdeletes : ∀ e ∈ t, e.op.deletesFrom = none) (hop : op.Confined [newBackend.head] []) :
    Orderly i pattern newBackend drain t op where
  write root h :=
    ⟨List.mem_singleton.mp (hop.writesTo h), ⟨overlay, added, hne, hover⟩, hdeletes⟩
  cutover h := by
    subst h
    exact hop.elim
  delete root h := by
    rw [hop.no_delete] at h
    cases h

-- And after it.
theorem orderly_drain {old : Backend} {added : Bool} {op : Op} (hmoves : old ≠ newBackend)
    (hread : (⟨i, .backendForPattern pattern, some old⟩ : Event ι Op Op.Ans) ∈ t)
    (hcut : (⟨i, .upsert pattern newBackend, added⟩ : Event ι Op Op.Ans) ∈ t)
    (haccepted : ∀ e ∈ t, ¬Refused e) (hop : op.Confined [] old.leaves) :
    Orderly i pattern newBackend true t op where
  write root h := by
    rw [hop.no_write] at h
    cases h
  cutover h := by
    subst h
    exact hop.elim
  delete root h :=
    ⟨rfl, ⟨old, hmoves, hop.deletesFrom h, hread⟩, ⟨added, hcut⟩, haccepted⟩

-- A migration on the way, each call in order.
abbrev Goes (i : ι) (pattern : String) (newBackend : Backend) (drain : Bool) {α : Type}
    (prog : StoreM α) (post : Except StorageError α → List (Event ι Op Op.Ans) → Prop)
    (t : List (Event ι Op Op.Ans)) : Prop :=
  prog.wp (traced i) Eq (fun op t _ _ => Orderly i pattern newBackend drain t op) post t

theorem goes_bind {α β : Type} {prog : StoreM α} {rest : α → StoreM β}
    {post : Except StorageError β → List (Event ι Op Op.Ans) → Prop}
    (hfail : ∀ err t, post (.error err) t)
    (h : Goes i pattern newBackend drain prog (Outcome (fun value t' =>
      Goes i pattern newBackend drain (rest value) post t') fun _ _ => True) t) :
    Goes i pattern newBackend drain (prog >>= rest) post t := by
  refine (Fallible.wp_bind prog rest post t).mpr (Fallible.wp_post h ?_)
  rintro (err | value) t' h'
  · exact hfail err t'
  · exact h'

theorem goes_ask {op : Op} {α : Type} {rest : op.Ans → StoreM α}
    {post : Except StorageError α → List (Event ι Op Op.Ans) → Prop}
    (horder : Orderly i pattern newBackend drain t op)
    (h : ∀ answer, Goes i pattern newBackend drain (rest answer) post (t ++ [⟨i, op, answer⟩])) :
    Goes i pattern newBackend drain
      ((Prog.call op fun answer => .pure (.ok answer) : StoreM op.Ans) >>= rest) post t := by
  rintro _ rfl answer _ rfl
  exact ⟨horder, h answer⟩

theorem goes_uses {α : Type} {prog : StoreM α} {allowed : Op → Prop} (hprog : prog.Uses allowed)
    (horder : ∀ calls : List (Event ι Op Op.Ans), (∀ e ∈ calls, allowed e.op) →
      ∀ op, allowed op → Orderly i pattern newBackend drain (t ++ calls) op) :
    Goes i pattern newBackend drain prog (fun _ t' => ∃ calls, t' = t ++ calls ∧
      ∀ e ∈ calls, allowed e.op) t := Prog.wp_traced_uses hprog horder

-- What a call is that only asks which backend a repository has.
def AsksBackend : Op → Prop
  | .backendFor _ => True
  | _ => False

theorem AsksBackend.quiet {op : Op} (h : AsksBackend op) :
    op.writesTo = none ∧ op.deletesFrom = none := by
  cases op with
  | backendFor key => exact ⟨rfl, rfl⟩
  | _ => exact h.elim

theorem goes_selectRepos (old : Backend) (listed : List RepoName) :
    Goes i pattern newBackend drain (selectRepos pattern old listed)
      (Outcome (fun repos t' => ∃ calls, t' = t ++ calls ∧ (∀ e ∈ calls, AsksBackend e.op) ∧
        repos.length = calls.countP (resolvesTo old)) fun _ _ => True) t := by
  induction listed generalizing t with
  | nil => exact ⟨[], by simp, by simp, rfl⟩
  | cons repo rest ih =>
      rw [selectRepos]
      split
      · refine goes_ask (orderly_of_quiet rfl rfl fun _ _ h => by cases h) ?_
        intro backend
        change Backend at backend
        refine goes_bind (fun _ _ => trivial) (Fallible.wp_post ih ?_)
        rintro (err | repos) t' h'
        · trivial
        · obtain ⟨calls, rfl, hasks, hlength⟩ := h'
          refine ⟨⟨i, .backendFor repo.text, backend⟩ :: calls, by simp, ?_, ?_⟩
          · intro e he
            rcases List.mem_cons.mp he with rfl | he
            · trivial
            · exact hasks e he
          · rw [List.countP_cons, ← hlength]
            by_cases hold : backend.ptrEq old = true <;> simp [resolvesTo, hold]
      · exact ih

theorem resolvesTo_of_confined {writes deletes : List RootId} {e : Event ι Op Op.Ans}
    (old : Backend) (h : e.op.Confined writes deletes) : resolvesTo old e = false := by
  obtain ⟨j, op, answer⟩ := e
  cases op with
  | fs root call => rfl
  | _ => exact h.elim

theorem count_of_confined {writes deletes : List RootId} {calls : List (Event ι Op Op.Ans)}
    (old : Backend) (h : ∀ e ∈ calls, e.op.Confined writes deletes) :
    calls.countP (resolvesTo old) = 0 := by
  rw [List.countP_eq_zero]
  intro e he
  simp [resolvesTo_of_confined old (h e he)]

-- What a migration has looked up before it starts to move.
structure LookedUp (i : ι) (pattern : String) (old : Backend) (repos : List RepoName)
    (t : List (Event ι Op Op.Ans)) : Prop where
  read : ∀ b, (⟨i, .backendForPattern pattern, b⟩ : Event ι Op Op.Ans) ∈ t ↔ b = some old
  quiet : ∀ e ∈ t, e.op.writesTo = none ∧ e.op.deletesFrom = none
  repos : repos.length = t.countP (resolvesTo old)

-- The calls between the survey and the copies.
def covering (i : ι) (pattern : String) (arc : Nat) (overlay : Backend) (covered : Bool) :
    List (Event ι Op Op.Ans) := [⟨i, .newArc, arc⟩, ⟨i, .upsert pattern overlay, covered⟩]

theorem LookedUp.covered {old overlay : Backend} {repos : List RepoName}
    (h : LookedUp i pattern old repos t) {arc : Nat} {covered : Bool} :
    ∀ e ∈ t ++ covering i pattern arc overlay covered,
      e.op.writesTo = none ∧ e.op.deletesFrom = none := by
  intro e he
  rcases List.mem_append.mp he with he | he
  · exact h.quiet e he
  · simp only [covering, List.mem_cons, List.not_mem_nil, or_false] at he
    rcases he with rfl | rfl <;> exact ⟨rfl, rfl⟩

theorem LookedUp.exact {old overlay : Backend} {repos : List RepoName}
    (h : LookedUp i pattern old repos t) {arc blobs bytes : Nat} {covered added : Bool}
    {report : MigrateReport} {calls drained : List (Event ι Op Op.Ans)}
    (hconfined : ∀ e ∈ calls, e.op.Confined [newBackend.head] [])
    (hcopied : Copied { MigrateReport.empty with reposMigrated := repos.length } report calls)
    (hdrained : ∀ e ∈ drained, e.op.Confined [] old.leaves)
    (hkept : drain = false → drained = [] ∧ blobs = 0 ∧ bytes = 0) :
    Exact i pattern newBackend drain
      { report with cutover := true, blobsPurged := blobs, bytesPurged := bytes }
      (t ++ covering i pattern arc overlay covered ++ calls ++
        [⟨i, .upsert pattern newBackend, added⟩] ++ drained) := by
  have hbefore : ∀ e ∈ t ++ covering i pattern arc overlay covered,
      e.op.writesTo = none ∧ e.op.deletesFrom = none := h.covered
  have hafter : ∀ e ∈ [(⟨i, .upsert pattern newBackend, added⟩ : Event ι Op Op.Ans)] ++ drained,
      e.op.writesTo = none := by
    intro e he
    rcases List.mem_append.mp he with he | he
    · obtain rfl := List.mem_singleton.mp he
      rfl
    · exact (hdrained e he).no_write
  have hall : Copied { MigrateReport.empty with reposMigrated := repos.length } report
      (t ++ covering i pattern arc overlay covered ++ calls ++
        [⟨i, .upsert pattern newBackend, added⟩] ++ drained) := by
    rw [List.append_assoc (_ ++ calls)]
    exact ((Copied.of_no_write _ fun e he => (hbefore e he).1).trans hcopied).trans
      (.of_no_write report hafter)
  refine ⟨?_, ?_, ?_, ?_, hall.acknowledged, ?_, ?_⟩
  · intro b hb
    obtain rfl : b = old := by
      simp only [List.mem_append] at hb
      rcases hb with (((hb | hb) | hb) | hb) | hb
      · exact Option.some.inj ((h.read _).mp hb)
      · simp [covering] at hb
      · exact (hconfined _ hb).elim
      · cases List.mem_singleton.mp hb
      · exact (hdrained _ hb).elim
    rw [hall.repos]
    simp [h.repos, covering, List.countP_append, resolvesTo, count_of_confined b hconfined,
      count_of_confined b hdrained]
  · simpa [MigrateReport.empty] using hall.blobs
  · simpa [MigrateReport.empty] using hall.bytes
  · simpa [MigrateReport.empty] using hall.manifests
  · exact iff_of_true rfl ⟨added, by simp⟩
  · intro hdrain
    obtain ⟨rfl, rfl, rfl⟩ := hkept hdrain
    refine ⟨rfl, rfl, ?_⟩
    intro e he
    rw [List.append_nil, List.append_assoc] at he
    rcases List.mem_append.mp he with he | he
    · exact (hbefore e he).2
    · rcases List.mem_append.mp he with he | he
      · exact (hconfined e he).no_delete
      · obtain rfl := List.mem_singleton.mp he
        rfl

variable [SerdeJson]

theorem goes_drainOld {old : Backend} {added : Bool} (hmoves : old ≠ newBackend)
    (hread : (⟨i, .backendForPattern pattern, some old⟩ : Event ι Op Op.Ans) ∈ t)
    (hcut : (⟨i, .upsert pattern newBackend, added⟩ : Event ι Op Op.Ans) ∈ t)
    (haccepted : ∀ e ∈ t, ¬Refused e) (repos : List RepoName) (report : MigrateReport) :
    Goes i pattern newBackend true (drainOld old repos report)
      (Outcome (fun report' t' => ∃ calls blobs bytes, t' = t ++ calls ∧
        (∀ e ∈ calls, e.op.Confined [] old.leaves) ∧
        report' = { report with blobsPurged := blobs, bytesPurged := bytes })
      fun _ _ => True) t := by
  have hsteps : ∀ {α : Type} {prog : StoreM α}, prog.Uses (Op.Confined [] old.leaves) →
      ∀ calls : List (Event ι Op Op.Ans), (∀ e ∈ calls, e.op.Confined [] old.leaves) →
        Goes i pattern newBackend true prog (fun _ t' => ∃ calls', t' = t ++ calls ++ calls' ∧
          ∀ e ∈ calls', e.op.Confined [] old.leaves) (t ++ calls) := by
    intro α prog huses calls hcalls
    refine goes_uses huses ?_
    intro calls' hcalls' op hop
    have hcut' : (⟨i, .upsert pattern newBackend, added⟩ : Event ι Op Op.Ans) ∈
        t ++ calls ++ calls' := by simp [hcut]
    refine orderly_drain hmoves ?_ hcut' ?_ hop
    · simp [hread]
    · intro e he
      simp only [List.append_assoc, List.mem_append] at he
      rcases he with he | he | he
      · exact haccepted e he
      · exact not_refused (hcalls e he).no_write
      · exact not_refused (hcalls' e he).no_write
  rw [drainOld]
  have hpurge := hsteps (uses_purgeRepos old repos) [] (by simp)
  rw [List.append_nil] at hpurge
  refine goes_bind (fun _ _ => trivial) (Fallible.wp_post hpurge ?_)
  rintro (err | _) t₁ ⟨calls, rfl, hcalls⟩
  · trivial
  · refine goes_bind (fun _ _ => trivial) (Fallible.wp_post (hsteps (uses_gc old) calls hcalls) ?_)
    rintro (err | gc) t₂ ⟨calls', rfl, hcalls'⟩
    · trivial
    · refine ⟨calls ++ calls', gc.deletedBlobs, gc.deletedBytes, List.append_assoc .., ?_, rfl⟩
      intro e he
      exact (List.mem_append.mp he).elim (hcalls e) (hcalls' e)

-- The end of a migration, after its second cutover.
theorem goes_finish {old : Backend} {added : Bool} (hmoves : old ≠ newBackend)
    (hread : (⟨i, .backendForPattern pattern, some old⟩ : Event ι Op Op.Ans) ∈ t)
    (hcut : (⟨i, .upsert pattern newBackend, added⟩ : Event ι Op Op.Ans) ∈ t)
    (haccepted : ∀ e ∈ t, ¬Refused e) (repos : List RepoName) {report : MigrateReport}
    (hblobs : report.blobsPurged = 0) (hbytes : report.bytesPurged = 0) :
    Goes i pattern newBackend drain (if drain then drainOld old repos report else pure report)
      (Outcome (fun report' t' => ∃ calls blobs bytes, t' = t ++ calls ∧
        (∀ e ∈ calls, e.op.Confined [] old.leaves) ∧
        report' = { report with blobsPurged := blobs, bytesPurged := bytes } ∧
        (drain = false → calls = [] ∧ blobs = 0 ∧ bytes = 0)) fun _ _ => True) t := by
  cases drain with
  | false =>
      refine ⟨[], report.blobsPurged, report.bytesPurged, by simp, by simp, rfl, ?_⟩
      exact fun _ => ⟨rfl, hblobs, hbytes⟩
  | true =>
      refine Fallible.wp_post (goes_drainOld hmoves hread hcut haccepted repos report) ?_
      rintro (err | report') t' h'
      · trivial
      · obtain ⟨calls, blobs, bytes, rfl, hcalls, rfl⟩ := h'
        exact ⟨calls, blobs, bytes, rfl, hcalls, rfl, fun h => by cases h⟩

variable [Sha2]

-- The copies, from an overlay that is in place.
theorem goes_copies {old overlay : Backend} {added : Bool} (hne : overlay ≠ newBackend)
    (hover : (⟨i, .upsert pattern overlay, added⟩ : Event ι Op Op.Ans) ∈ t)
    (hdeletes : ∀ e ∈ t, e.op.deletesFrom = none) (repos : List RepoName) (report : MigrateReport) :
    Goes i pattern newBackend drain
      (copyRepos old.storage newBackend.storage repos report)
      (Outcome (fun report' t' => ∃ calls, t' = t ++ calls ∧
        (∀ e ∈ calls, e.op.Confined [newBackend.head] []) ∧ Copied report report' calls)
        fun _ _ => True) t := by
  have horder : Goes i pattern newBackend drain
      (copyRepos old.storage newBackend.storage repos report) (fun _ t' => ∃ calls,
        t' = t ++ calls ∧ ∀ e ∈ calls, e.op.Confined [newBackend.head] []) t := by
    refine goes_uses (uses_copyRepos old newBackend repos report) ?_
    intro calls hcalls op hop
    refine orderly_copy hne (List.mem_append_left _ hover) ?_ hop
    intro e he
    exact (List.mem_append.mp he).elim (hdeletes e) fun he => (hcalls e he).no_delete
  have hcounts := copies_copyRepos (i := i) old newBackend repos report t
  refine Prog.wp_mono (Prog.wp_and horder hcounts) (fun _ _ _ _ => id) (fun _ _ => id)
    (fun _ _ _ _ _ h => h.1) ?_
  rintro (err | report') t' ⟨⟨calls, hcalls, hconfined⟩, hcopied⟩
  · trivial
  · obtain ⟨calls', rfl, hcopied⟩ := hcopied
    exact ⟨calls', rfl, List.append_cancel_left hcalls ▸ hconfined, hcopied⟩

theorem goes_move {old : Backend} {repos : List RepoName} (hmoves : old ≠ newBackend)
    (h : LookedUp i pattern old repos t) :
    Goes i pattern newBackend drain (move pattern old newBackend drain repos)
      (Outcome (fun report t' => Exact i pattern newBackend drain report t') fun _ _ => True)
      t := by
  have hread : (⟨i, .backendForPattern pattern, some old⟩ : Event ι Op Op.Ans) ∈ t :=
    (h.read _).mpr rfl
  rw [move, newOverlay, bind_assoc]
  refine goes_ask (orderly_of_quiet rfl rfl fun _ _ h => by cases h) ?_
  intro arc
  change Nat at arc
  -- The overlay is put in place.
  change Goes i pattern newBackend drain (StoreM.upsert pattern (overlay arc newBackend old) >>= _)
    _ _
  refine goes_ask (orderly_upsert fun e he => ?_) ?_
  · rcases List.mem_append.mp he with he | he
    · exact not_refused (h.quiet e he).1
    · obtain rfl := List.mem_singleton.mp he
      exact not_refused rfl
  intro covered
  change Bool at covered
  have hsplit : (t ++ [(⟨i, .newArc, arc⟩ : Event ι Op Op.Ans)]) ++
      [⟨i, .upsert pattern (overlay arc newBackend old), covered⟩] =
        t ++ covering i pattern arc (overlay arc newBackend old) covered := by simp [covering]
  rw [hsplit]
  have hdeletes : ∀ e ∈ t ++ covering i pattern arc (overlay arc newBackend old) covered,
      e.op.deletesFrom = none := fun e he => (h.covered e he).2
  -- The backfill.
  refine goes_bind (fun _ _ => trivial) (Fallible.wp_post
    (goes_copies (overlay_ne arc newBackend old)
      (List.mem_append_right t (List.mem_cons_of_mem _ (List.mem_singleton_self _)))
      hdeletes repos _) ?_)
  rintro (err | report) t₁ hcopied
  · trivial
  obtain ⟨calls, rfl, hconfined, hcopied⟩ := hcopied
  have haccepted : ∀ e ∈ t ++ covering i pattern arc (overlay arc newBackend old) covered ++ calls,
      ¬Refused e := by
    intro e he
    rcases List.mem_append.mp he with he | he
    · exact not_refused (h.covered e he).1
    · exact hcopied.acknowledged e he
  refine goes_ask (orderly_upsert haccepted) ?_
  intro added
  change Bool at added
  -- The rule has the new backend alone.
  have hcut : (⟨i, .upsert pattern newBackend, added⟩ : Event ι Op Op.Ans) ∈
      t ++ covering i pattern arc (overlay arc newBackend old) covered ++ calls ++
        [⟨i, .upsert pattern newBackend, added⟩] := by simp
  refine Fallible.wp_post (goes_finish hmoves (by simp [hread]) hcut ?_ repos
    hcopied.purged.1 hcopied.purged.2) ?_
  · intro e he
    rcases List.mem_append.mp he with he | he
    · exact haccepted e he
    · obtain rfl := List.mem_singleton.mp he
      exact not_refused rfl
  · rintro (err | report') t' h'
    · trivial
    · obtain ⟨drained, blobs, bytes, rfl, hdrained, rfl, hkept⟩ := h'
      show Exact i pattern newBackend drain
        { report with cutover := true, blobsPurged := blobs, bytesPurged := bytes } _
      exact h.exact hconfined hcopied hdrained hkept

theorem goes_run : Goes i pattern newBackend drain (run pattern newBackend drain)
    (Outcome (fun report t' => Exact i pattern newBackend drain report t') fun _ _ => True)
    ([] : List (Event ι Op Op.Ans)) := by
  rw [run]
  refine goes_ask (orderly_of_quiet rfl rfl fun _ _ h => by cases h) ?_
  intro answer
  change Option Backend at answer
  rcases answer with _ | old
  · trivial
  dsimp only
  split
  · refine ⟨?_, rfl, rfl, rfl, ?_, ?_, ?_⟩
    · exact fun _ _ => rfl
    · intro e he
      obtain rfl := List.mem_singleton.mp he
      exact not_refused rfl
    · simp [MigrateReport.empty]
    · refine fun _ => ⟨rfl, rfl, ?_⟩
      intro e he
      obtain rfl := List.mem_singleton.mp he
      rfl
  · rename_i hmoves
    have hlook : (old.storage.listRepos).Uses (Op.Confined [] []) := old.readOnly_listRepos
    refine goes_bind (fun _ _ => trivial) (Fallible.wp_post (goes_uses hlook
      fun calls hcalls op hop => orderly_of_look hop) ?_)
    rintro (err | listed) t₁ ⟨calls, rfl, hcalls⟩
    · trivial
    refine goes_bind (fun _ _ => trivial) (Fallible.wp_post (goes_selectRepos old listed.toList) ?_)
    rintro (err | repos) t₂ h₂
    · trivial
    obtain ⟨asked, rfl, hasked, hlength⟩ := h₂
    refine goes_move (by simpa [Backend.ptrEq] using hmoves) ⟨?_, ?_, ?_⟩
    · intro b
      constructor
      · intro hb
        simp only [List.nil_append, List.mem_append] at hb
        rcases hb with (hb | hb) | hb
        · cases List.mem_singleton.mp hb
          rfl
        · exact (hcalls _ hb).elim
        · exact (hasked _ hb).elim
      · rintro rfl
        simp
    · intro e he
      simp only [List.nil_append, List.mem_append] at he
      rcases he with (he | he) | he
      · obtain rfl := List.mem_singleton.mp he
        exact ⟨rfl, rfl⟩
      · exact ⟨(hcalls e he).no_write, (hcalls e he).no_delete⟩
      · exact (hasked e he).quiet
    · simp [List.countP_append, hlength, count_of_confined old hcalls, resolvesTo]

end Run

end Migrate

end RspaceRegistry
