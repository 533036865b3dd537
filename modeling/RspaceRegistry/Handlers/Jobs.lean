import Mathlib.Data.List.AList
import RspaceRegistry.Calls.Condition
import RspaceRegistry.Handlers
import RspaceRegistry.Migrate.Report
import RspaceRegistry.Sample
import RspaceRegistry.World.Recorded

namespace RspaceRegistry

open Calls

-- The table of the background jobs.

inductive JobState
  | running
  | done
  | failed
deriving DecidableEq

structure MigrateParams where
  pattern : String
  toRoot : RootId
  drain : Bool
deriving DecidableEq

-- `migrate_report_json`, without the time the migration took.
structure MigrateReply where
  params : MigrateParams
  report : Migrate.MigrateReport
deriving DecidableEq

-- An error is kept as it is; its text is what a client is shown.
structure JobRecord where
  id : String
  kind : String
  state : JobState
  params : MigrateParams
  report : Option MigrateReply
  error : Option StorageError
deriving DecidableEq

abbrev Jobs := AList fun _ : String => JobRecord

namespace Jobs

-- `id` is the one that `Uuid::new_v4` draws.
def start (jobs : Jobs) (id kind : String) (params : MigrateParams) : Jobs :=
  jobs.insert id ⟨id, kind, .running, params, none, none⟩

def finish (jobs : Jobs) (id : String) (report : MigrateReply) : Jobs :=
  match jobs.lookup id with
  | some record => jobs.insert id { record with state := .done, report := some report }
  | none => jobs

def fail (jobs : Jobs) (id : String) (error : StorageError) : Jobs :=
  match jobs.lookup id with
  | some record => jobs.insert id { record with state := .failed, error := some error }
  | none => jobs

def get (jobs : Jobs) (id : String) : Option JobRecord := jobs.lookup id

def list (jobs : Jobs) : List JobRecord := jobs.entries.map Sigma.snd

end Jobs

namespace Handlers

open Migrate (MigrateReport)

def jobsList (jobs : Jobs) : List JobRecord := jobs.list

def jobGet (jobs : Jobs) (id : String) : Except OciError JobRecord :=
  match jobs.get id with
  | some record => .ok record
  | none => .error (.new .nameUnknown "job not found")

theorem jobGet_eq_ok {jobs : Jobs} {id : String} {record : JobRecord} :
    jobGet jobs id = .ok record ↔ jobs.lookup id = some record := by
  unfold jobGet Jobs.get
  cases jobs.lookup id with
  | none => simp
  | some record' => simp

-- From one state to a later one: a record stays, and a settled one stays as it is.
structure Follows (record record' : JobRecord) : Prop where
  id : record'.id = record.id
  kind : record'.kind = record.kind
  params : record'.params = record.params
  settled : record.state ≠ .running → record' = record

theorem Follows.refl (record : JobRecord) : Follows record record := ⟨rfl, rfl, rfl, fun _ => rfl⟩

theorem Follows.trans {first second third : JobRecord} (h : Follows first second)
    (h' : Follows second third) : Follows first third where
  id := h'.id.trans h.id
  kind := h'.kind.trans h.kind
  params := h'.params.trans h.params
  settled := by
    intro hsettled
    obtain rfl := h.settled hsettled
    exact h'.settled hsettled

theorem follows_insert {jobs : Jobs} {id ended : String} {record running settled : JobRecord}
    (hjob : jobs.lookup id = some record) (hrunning : jobs.lookup ended = some running)
    (hstate : running.state = .running)
    (hsame : (settled.id, settled.kind, settled.params) =
      (running.id, running.kind, running.params)) :
    ∃ record', (jobs.insert ended settled).lookup id = some record' ∧ Follows record record' := by
  by_cases hid : id = ended
  · subst hid
    obtain rfl := Option.some.inj (hjob.symm.trans hrunning)
    simp only [Prod.mk.injEq] at hsame
    exact ⟨settled, AList.lookup_insert _, hsame.1, hsame.2.1, hsame.2.2,
      fun hsettled => absurd hstate hsettled⟩
  · exact ⟨record, (AList.lookup_insert_ne hid).trans hjob, .refl record⟩

inductive Party
  | job (id : String)
  | client
deriving DecidableEq

-- A task that was spawned for a job, with what it still has to do.
structure Task where
  params : MigrateParams
  left : StoreM MigrateReport

structure Server [Sha2] where
  now : History Party
  jobs : Jobs
  tasks : String → Option Task

section

variable [Sha2]

theorem own_of_client {op : Op} {s s' : History Party} {answer : op.Ans}
    (h : recorded .client op s answer s') (id : String) :
    own (.job id) s'.2 = own (.job id) s.2 := own_of_other (by simp) h

-- A new job with its task.
def Server.spawn (s : Server) (now : History Party) (id : String) (params : MigrateParams)
    (job : StoreM MigrateReport) : Server where
  now := now
  jobs := s.jobs.start id "repo-migrate" params
  tasks := Function.update s.tasks id (some ⟨params, job⟩)

variable [SerdeJson]

def Server.start (w : World) : Server := ⟨(w, []), ∅, fun _ => none⟩

-- What can happen next: a request is accepted, a job makes a call or is over, or
-- somebody else makes a call.
inductive Step : Server → Server → Prop
  | accept {s : Server} {id pattern : String} {body : RepoMigrateRequest}
      {job : StoreM MigrateReport} {now : History Party} (hkey : body.key = some pattern)
      (hrequest : Prog.Reaches (recorded .client) (repoMigrate body, s.now)
        (.pure (.ok (.ok (.accepted job))), now))
      (hfresh : id ∉ s.jobs) :
      Step s (s.spawn now id ⟨pattern, body.toRoot, body.drain⟩ job)
  | turn {s : Server} {id : String} {params : MigrateParams} {op : Op}
      {next : op.Ans → Prog Op Op.Ans (Except StorageError MigrateReport)} {answer : op.Ans}
      {now : History Party} (htask : s.tasks id = some ⟨params, .call op next⟩)
      (hcall : recorded (.job id) op s.now answer now) :
      Step s ⟨now, s.jobs, Function.update s.tasks id (some ⟨params, next answer⟩)⟩
  | finish {s : Server} {id : String} {params : MigrateParams} {report : MigrateReport}
      (htask : s.tasks id = some ⟨params, .pure (.ok report)⟩) :
      Step s ⟨s.now, s.jobs.finish id ⟨params, report⟩, Function.update s.tasks id none⟩
  | fail {s : Server} {id : String} {params : MigrateParams} {err : StorageError}
      (htask : s.tasks id = some ⟨params, .pure (.error err)⟩) :
      Step s ⟨s.now, s.jobs.fail id err, Function.update s.tasks id none⟩
  | client {s : Server} {op : Op} {answer : op.Ans} {now : History Party}
      (hcall : recorded .client op s.now answer now) : Step s ⟨now, s.jobs, s.tasks⟩

abbrev Steps : Server → Server → Prop := Relation.ReflTransGen Step

-- The migration of a job.
def migration (params : MigrateParams) (arc : Nat) : StoreM MigrateReport :=
  Migrate.run params.pattern (.fs arc params.toRoot) params.drain

-- The migration that a record is about has come to this by these calls of its own.
def Came (id : String) (params : MigrateParams) (left : StoreM MigrateReport)
    (trace : List (Event Party Op Op.Ans)) : Prop :=
  ∃ arc, Prog.Reaches (traced (.job id)) (migration params arc, []) (left, trace)

-- A record is true of the job's task, if it is still there, and of its calls.
inductive Tells (id : String) : Option Task → List (Event Party Op Op.Ans) → JobRecord → Prop
  | running {params : MigrateParams} {left : StoreM MigrateReport}
      {trace : List (Event Party Op Op.Ans)} (h : Came id params left trace) :
      Tells id (some ⟨params, left⟩) trace ⟨id, "repo-migrate", .running, params, none, none⟩
  | done {params : MigrateParams} {report : MigrateReport} {trace : List (Event Party Op Op.Ans)}
      (h : Came id params (pure report) trace) :
      Tells id none trace ⟨id, "repo-migrate", .done, params, some ⟨params, report⟩, none⟩
  | failed {params : MigrateParams} {err : StorageError} {trace : List (Event Party Op Op.Ans)}
      (h : Came id params (Fallible.fail err) trace) :
      Tells id none trace ⟨id, "repo-migrate", .failed, params, none, some err⟩

def Server.Tells (s : Server) (id : String) (record : JobRecord) : Prop :=
  Handlers.Tells id (s.tasks id) (own (.job id) s.now.2) record

-- What an accepted request has spawned.
theorem repoMigrate_accepted {body : RepoMigrateRequest} {pattern : String}
    {job : StoreM MigrateReport} {s now : History Party} (hkey : body.key = some pattern)
    (hrequest : Prog.Reaches (recorded .client) (repoMigrate body, s)
      (.pure (.ok (.ok (.accepted job))), now)) :
    (∃ arc, job = migration ⟨pattern, body.toRoot, body.drain⟩ arc) ∧
      ∀ id, own (.job id) now.2 = own (.job id) s.2 := by
  have hwp : (repoMigrate body).wp (recorded .client) Eq (fun _ _ _ _ => True)
      (fun result now => ∀ job, result = .ok (.ok (.accepted job)) →
        (∃ arc, job = migration ⟨pattern, body.toRoot, body.drain⟩ arc) ∧
          ∀ id, own (.job id) now.2 = own (.job id) s.2) s := by
    rw [repoMigrate, hkey]
    rintro _ rfl arc s₁ hcall
    refine ⟨trivial, ?_⟩
    change Nat at arc
    change Fallible.wp _ _ _ (if body.background then pure _ else _) _ s₁
    split
    · intro job hjob
      cases hjob
      exact ⟨⟨arc, rfl⟩, own_of_client hcall⟩
    · rw [Fallible.wp_bind]
      refine Fallible.wp_post (Prog.wp_trivial _ s₁) ?_
      rintro (err | report) s₂ _ job hjob
      · cases hjob
      · cases hjob
  exact Prog.wp_reaches hrequest hwp job rfl

-- What holds between two steps: every record is true, and no task is without one.
structure Sound (s : Server) : Prop where
  tells : ∀ id record, s.jobs.lookup id = some record → s.Tells id record
  idle : ∀ id, s.jobs.lookup id = none → s.tasks id = none ∧ own (.job id) s.now.2 = []

theorem sound_start (w : World) : Sound (.start w) where
  tells id record h := by cases h
  idle _ _ := ⟨rfl, rfl⟩

-- What a step leaves alone of a job.
theorem Sound.other {s s' : Server} (h : Sound s) {id : String}
    (hjobs : s'.jobs.lookup id = s.jobs.lookup id) (htasks : s'.tasks id = s.tasks id)
    (hown : own (.job id) s'.now.2 = own (.job id) s.now.2) :
    (∀ record, s'.jobs.lookup id = some record → s'.Tells id record) ∧
      (s'.jobs.lookup id = none → s'.tasks id = none ∧ own (.job id) s'.now.2 = []) := by
  unfold Server.Tells
  rw [hjobs, htasks, hown]
  exact ⟨h.tells id, h.idle id⟩

theorem Sound.of_jobs {s' : Server} (h : ∀ id,
    (∀ record, s'.jobs.lookup id = some record → s'.Tells id record) ∧
      (s'.jobs.lookup id = none → s'.tasks id = none ∧ own (.job id) s'.now.2 = [])) : Sound s' :=
  ⟨fun id => (h id).1, fun id => (h id).2⟩

-- The record of a task that is still there.
theorem Sound.running {s : Server} (h : Sound s) {id : String} {params : MigrateParams}
    {left : StoreM MigrateReport} (htask : s.tasks id = some ⟨params, left⟩) :
    s.jobs.lookup id = some ⟨id, "repo-migrate", .running, params, none, none⟩ ∧
      Came id params left (own (.job id) s.now.2) := by
  cases hjob : s.jobs.lookup id with
  | none =>
      rw [(h.idle id hjob).1] at htask
      cases htask
  | some record =>
      have htells := h.tells id record hjob
      rw [Server.Tells, htask] at htells
      cases htells with
      | running hcame => exact ⟨rfl, hcame⟩

theorem Sound.accept {s : Server} (h : Sound s) {id pattern : String} {body : RepoMigrateRequest}
    {job : StoreM MigrateReport} {now : History Party} (hkey : body.key = some pattern)
    (hrequest : Prog.Reaches (recorded .client) (repoMigrate body, s.now)
      (.pure (.ok (.ok (.accepted job))), now))
    (hfresh : id ∉ s.jobs) :
    Sound (s.spawn now id ⟨pattern, body.toRoot, body.drain⟩ job) := by
  obtain ⟨⟨arc, rfl⟩, hown⟩ := repoMigrate_accepted hkey hrequest
  apply Sound.of_jobs
  intro other
  by_cases hother : other = id
  · subst hother
    have hidle := h.idle other (AList.lookup_eq_none.mpr hfresh)
    simp only [Server.spawn, Jobs.start, AList.lookup_insert, Server.Tells, Function.update_self,
      hown, hidle.2]
    refine ⟨?_, fun hnone => by cases hnone⟩
    rintro record hrecord
    obtain rfl := Option.some.inj hrecord
    exact .running ⟨arc, .refl⟩
  · exact h.other (AList.lookup_insert_ne hother) (Function.update_of_ne hother _ _) (hown other)

theorem Came.call {id : String} {params : MigrateParams} {op : Op}
    {next : op.Ans → Prog Op Op.Ans (Except StorageError MigrateReport)} {answer : op.Ans}
    {s s' : History Party} (h : Came id params (.call op next) (own (.job id) s.2))
    (hcall : recorded (.job id) op s answer s') :
    Came id params (next answer) (own (.job id) s'.2) := by
  obtain ⟨arc, hreach⟩ := h
  exact ⟨arc, hreach.tail (.call (own_record hcall))⟩

theorem Sound.turn {s : Server} (h : Sound s) {id : String} {params : MigrateParams} {op : Op}
    {next : op.Ans → Prog Op Op.Ans (Except StorageError MigrateReport)} {answer : op.Ans}
    {now : History Party} (htask : s.tasks id = some ⟨params, .call op next⟩)
    (hcall : recorded (.job id) op s.now answer now) :
    Sound ⟨now, s.jobs, Function.update s.tasks id (some ⟨params, next answer⟩)⟩ := by
  obtain ⟨hjob, hcame⟩ := h.running htask
  apply Sound.of_jobs
  intro other
  by_cases hother : other = id
  · subst hother
    simp only [Server.Tells, Function.update_self, hjob]
    refine ⟨?_, fun hnone => by cases hnone⟩
    rintro record hrecord
    obtain rfl := Option.some.inj hrecord
    exact .running (hcame.call hcall)
  · exact h.other rfl (Function.update_of_ne hother _ _)
      (own_of_other (by simpa using hother) hcall)

-- A task that is over leaves the record of its result behind.
theorem Sound.settle {s : Server} (h : Sound s) {id : String} {record : JobRecord}
    (htells : Handlers.Tells id none (own (.job id) s.now.2) record) :
    Sound ⟨s.now, s.jobs.insert id record, Function.update s.tasks id none⟩ := by
  apply Sound.of_jobs
  intro other
  by_cases hother : other = id
  · subst hother
    simp only [AList.lookup_insert, Server.Tells, Function.update_self]
    refine ⟨?_, fun hnone => by cases hnone⟩
    rintro record' hrecord
    obtain rfl := Option.some.inj hrecord
    exact htells
  · exact h.other (AList.lookup_insert_ne hother) (Function.update_of_ne hother _ _) rfl

theorem Sound.finish_eq {s : Server} (h : Sound s) {id : String} {params : MigrateParams}
    {left : StoreM MigrateReport} (htask : s.tasks id = some ⟨params, left⟩)
    (reply : MigrateReply) :
    s.jobs.finish id reply =
      s.jobs.insert id ⟨id, "repo-migrate", .done, params, some reply, none⟩ := by
  rw [Jobs.finish, (h.running htask).1]

theorem Sound.fail_eq {s : Server} (h : Sound s) {id : String} {params : MigrateParams}
    {left : StoreM MigrateReport} (htask : s.tasks id = some ⟨params, left⟩) (err : StorageError) :
    s.jobs.fail id err =
      s.jobs.insert id ⟨id, "repo-migrate", .failed, params, none, some err⟩ := by
  rw [Jobs.fail, (h.running htask).1]

theorem Sound.step {s s' : Server} (h : Sound s) (hstep : Step s s') : Sound s' := by
  cases hstep with
  | accept hkey hrequest hfresh => exact h.accept hkey hrequest hfresh
  | turn htask hcall => exact h.turn htask hcall
  | finish htask =>
      rw [h.finish_eq htask]
      exact h.settle (.done (h.running htask).2)
  | fail htask =>
      rw [h.fail_eq htask]
      exact h.settle (.failed (h.running htask).2)
  | client hcall =>
      exact .of_jobs fun id => h.other rfl rfl (own_of_client hcall id)

theorem Sound.steps {s s' : Server} (h : Sound s) (hsteps : Steps s s') : Sound s' := by
  induction hsteps with
  | refl => exact h
  | tail _ hstep ih => exact ih.step hstep

-- In every company and under any faults, a record says what the migration that was
-- accepted under its id has come to.
theorem job_tells {w : World} {s : Server} (hsteps : Steps (.start w) s) {id : String}
    {record : JobRecord} (hget : jobGet s.jobs id = .ok record) : s.Tells id record :=
  ((sound_start w).steps hsteps).tells id record (jobGet_eq_ok.mp hget)

theorem Sound.follows {s s' : Server} (h : Sound s) (hstep : Step s s') {id : String}
    {record : JobRecord} (hjob : s.jobs.lookup id = some record) :
    ∃ record', s'.jobs.lookup id = some record' ∧ Follows record record' := by
  cases hstep with
  | accept hkey hrequest hfresh =>
      rename_i new _ _ _ _
      have hne : id ≠ new := by
        rintro rfl
        rw [AList.lookup_eq_none.mpr hfresh] at hjob
        cases hjob
      exact ⟨record, (AList.lookup_insert_ne hne).trans hjob, .refl record⟩
  | turn htask hcall => exact ⟨record, hjob, .refl record⟩
  | client hcall => exact ⟨record, hjob, .refl record⟩
  | finish htask =>
      rw [h.finish_eq htask]
      exact follows_insert hjob (h.running htask).1 rfl rfl
  | fail htask =>
      rw [h.fail_eq htask]
      exact follows_insert hjob (h.running htask).1 rfl rfl

-- A job never goes away, and once it is over its record is final.
theorem job_final {w : World} {s s' : Server} (hstart : Steps (.start w) s) (hsteps : Steps s s')
    {id : String} {record : JobRecord} (hget : jobGet s.jobs id = .ok record) :
    ∃ record', jobGet s'.jobs id = .ok record' ∧ Follows record record' := by
  have hsound := (sound_start w).steps hstart
  rw [jobGet_eq_ok] at hget
  suffices hlast : ∃ record', s'.jobs.lookup id = some record' ∧ Follows record record' by
    obtain ⟨record', hjob, hfollows⟩ := hlast
    exact ⟨record', jobGet_eq_ok.mpr hjob, hfollows⟩
  induction hsteps with
  | refl => exact ⟨record, hget, .refl record⟩
  | tail hbefore hstep ih =>
      obtain ⟨mid, hmid, hfirst⟩ := ih
      obtain ⟨record', hjob, hsecond⟩ := (hsound.steps hbefore).follows hstep hmid
      exact ⟨record', hjob, hfirst.trans hsecond⟩

-- The calls of a job's own, up to any moment.
theorem Sound.came {s : Server} (h : Sound s) {id : String} {record : JobRecord}
    (hjob : s.jobs.lookup id = some record) :
    ∃ left, Came id record.params left (own (.job id) s.now.2) := by
  have htells := h.tells id record hjob
  rw [Server.Tells] at htells
  generalize s.tasks id = task at htells
  cases htells with
  | running hcame => exact ⟨_, hcame⟩
  | done hcame => exact ⟨_, hcame⟩
  | failed hcame => exact ⟨_, hcame⟩

-- However a job is interleaved with others and whatever fails, its calls are in order.
theorem job_orderly {w : World} {s : Server} (hsteps : Steps (.start w) s) {id : String}
    {record : JobRecord} (hget : jobGet s.jobs id = .ok record) :
    ∃ arc, Throughout (fun before e => Migrate.Orderly (.job id) record.params.pattern
      (.fs arc record.params.toRoot) record.params.drain before e.op) (own (.job id) s.now.2) := by
  have hsound := (sound_start w).steps hsteps
  obtain ⟨left, arc, hreach⟩ := hsound.came (jobGet_eq_ok.mp hget)
  refine ⟨arc, throughout_of_wp hreach Migrate.goes_run ?_⟩
  intro before e after h
  exact absurd h (by simp)

-- The report of a job that is done counts what the job has done.
theorem job_report {w : World} {s : Server} (hsteps : Steps (.start w) s) {id : String}
    {record : JobRecord} (hget : jobGet s.jobs id = .ok record) {reply : MigrateReply}
    (hreply : record.report = some reply) : reply.params = record.params ∧
      ∃ arc, Migrate.Exact (.job id) record.params.pattern (.fs arc record.params.toRoot)
        record.params.drain reply.report (own (.job id) s.now.2) := by
  have htells := ((sound_start w).steps hsteps).tells id record (jobGet_eq_ok.mp hget)
  rw [Server.Tells] at htells
  generalize s.tasks id = task at htells
  cases htells with
  | running hcame => cases hreply
  | failed hcame => cases hreply
  | done hcame =>
      obtain rfl := Option.some.inj hreply
      obtain ⟨arc, hreach⟩ := hcame
      exact ⟨rfl, arc, Prog.wp_reaches hreach Migrate.goes_run⟩

-- What a job's record is when it is over.
def settled (id : String) (params : MigrateParams) : Except StorageError MigrateReport → JobRecord
  | .ok report => ⟨id, "repo-migrate", .done, params, some ⟨params, report⟩, none⟩
  | .error err => ⟨id, "repo-migrate", .failed, params, none, some err⟩

-- What a program calls and is answered when nobody comes between.
def calls (id : String) {α : Type} : Prog Op Op.Ans α → World → List (Event Party Op Op.Ans)
  | .pure _, _ => []
  | .call op next, w => ⟨.job id, op, (World.handle op w).1⟩ ::
      calls id (next (World.handle op w).1) (World.handle op w).2

-- A job that nobody comes between goes on to its end.
theorem steps_run {id : String} {params : MigrateParams} (prog : StoreM MigrateReport)
    {s : Server} (htask : s.tasks id = some ⟨params, prog⟩) :
    Steps s ⟨((prog.run World.handle s.now.1).2, s.now.2 ++ calls id prog s.now.1), s.jobs,
      Function.update s.tasks id (some ⟨params, .pure (prog.run World.handle s.now.1).1⟩)⟩ := by
  suffices h : ∀ (prog : Prog Op Op.Ans (Except StorageError MigrateReport)) (s : Server),
      s.tasks id = some ⟨params, prog⟩ →
      Steps s ⟨((prog.run World.handle s.now.1).2, s.now.2 ++ calls id prog s.now.1), s.jobs,
        Function.update s.tasks id (some ⟨params, .pure (prog.run World.handle s.now.1).1⟩)⟩
    from h prog s htask
  intro prog
  induction prog with
  | pure result =>
      intro s htask
      have hsame : Function.update s.tasks id (some ⟨params, Prog.pure result⟩) = s.tasks := by
        rw [← htask]
        exact Function.update_eq_self id s.tasks
      show Steps s ⟨(s.now.1, s.now.2 ++ []), s.jobs,
        Function.update s.tasks id (some ⟨params, Prog.pure result⟩)⟩
      rw [hsame, List.append_nil]
  | call op next ih =>
      intro s htask
      let s₁ : Server := ⟨((World.handle op s.now.1).2,
        s.now.2 ++ [⟨.job id, op, (World.handle op s.now.1).1⟩]), s.jobs,
        Function.update s.tasks id (some ⟨params, next (World.handle op s.now.1).1⟩)⟩
      have hturn : Step s s₁ := .turn htask ⟨.regular op s.now.1, rfl⟩
      have hrest := ih (World.handle op s.now.1).1 s₁ (Function.update_self ..)
      rw [show s₁.tasks = Function.update s.tasks id _ from rfl, Function.update_idem] at hrest
      have hrecord : s₁.now.2 ++ calls id (next (World.handle op s.now.1).1) s₁.now.1 =
          s.now.2 ++ calls id (.call op next) s.now.1 := List.append_assoc _ _ _
      rw [hrecord] at hrest
      exact .head hturn hrest

theorem steps_settle {id : String} {params : MigrateParams} {s : Server} (h : Sound s)
    {result : Except StorageError MigrateReport}
    (htask : s.tasks id = some ⟨params, .pure result⟩) :
    ∃ s', Step s s' ∧ s'.now = s.now ∧ s'.jobs.lookup id = some (settled id params result) := by
  cases result with
  | ok report =>
      refine ⟨_, .finish htask, rfl, ?_⟩
      rw [h.finish_eq htask]
      exact AList.lookup_insert _
  | error err =>
      refine ⟨_, .fail htask, rfl, ?_⟩
      rw [h.fail_eq htask]
      exact AList.lookup_insert _

-- The synchronous request in the place of a background one.
theorem run_foreground {body : RepoMigrateRequest} {pattern : String}
    (hkey : body.key = some pattern) (w : World) :
    (repoMigrate { body with background := false }).run World.handle w =
      ((((migration ⟨pattern, body.toRoot, body.drain⟩ w.nextArc).run World.handle w.newArc).1.map
        fun report => .ok (.report report)),
        ((migration ⟨pattern, body.toRoot, body.drain⟩ w.nextArc).run World.handle
          w.newArc).2) := by
  have hkey' : ({ body with background := false } : RepoMigrateRequest).key = some pattern := hkey
  rw [repoMigrate, hkey']
  show (migration ⟨pattern, body.toRoot, body.drain⟩ w.nextArc >>= fun report =>
    (pure (Except.ok (.report report)) : StoreM (Except OciError RepoMigrateResponse))).run
      World.handle w.newArc = _
  rw [Fallible.run_bind]
  rcases (migration ⟨pattern, body.toRoot, body.drain⟩ w.nextArc).run World.handle w.newArc with
    ⟨err | report, w'⟩
  · rfl
  · rfl

theorem exists_settled (w : World) {body : RepoMigrateRequest} {pattern : String}
    (hbackground : body.background = true) (hkey : body.key = some pattern) (id : String) :
    ∃ s, Steps (.start w) s ∧
      s.now.1 = ((migration ⟨pattern, body.toRoot, body.drain⟩ w.nextArc).run World.handle
        w.newArc).2 ∧
      s.now.2 = ⟨.client, .newArc, w.nextArc⟩ ::
        calls id (migration ⟨pattern, body.toRoot, body.drain⟩ w.nextArc) w.newArc ∧
      jobGet s.jobs id = .ok (settled id ⟨pattern, body.toRoot, body.drain⟩
        ((migration ⟨pattern, body.toRoot, body.drain⟩ w.nextArc).run World.handle
          w.newArc).1) := by
  have hrequest : Prog.Reaches (recorded .client) (repoMigrate body, (Server.start w).now)
      (.pure (.ok (.ok (.accepted (migration ⟨pattern, body.toRoot, body.drain⟩ w.nextArc)))),
        (w.newArc, [⟨.client, .newArc, w.nextArc⟩])) := by
    rw [repoMigrate, hkey]
    simp only [hbackground, if_true]
    exact .single (.call ⟨.regular .newArc w, rfl⟩)
  have haccept := Step.accept hkey hrequest (List.not_mem_nil : id ∉ (Server.start w).jobs)
  have hrun := @steps_run _ _ id ⟨pattern, body.toRoot, body.drain⟩
    (migration ⟨pattern, body.toRoot, body.drain⟩ w.nextArc)
    ((Server.start w).spawn (w.newArc, [⟨.client, .newArc, w.nextArc⟩]) id
      ⟨pattern, body.toRoot, body.drain⟩
      (migration ⟨pattern, body.toRoot, body.drain⟩ w.nextArc))
    (Function.update_self ..)
  have hsteps := hrun.head haccept
  obtain ⟨s, hsettle, hnow, hjob⟩ :=
    steps_settle ((sound_start w).steps hsteps) (Function.update_self ..)
  exact ⟨s, hsteps.tail hsettle, congrArg Prod.fst hnow, congrArg Prod.snd hnow,
    jobGet_eq_ok.mpr hjob⟩

-- Left alone, a migration in the background does what it does in a request, and its
-- record ends with what the request would have been answered.
theorem job_like_request (w : World) {body : RepoMigrateRequest} {pattern : String}
    (hbackground : body.background = true) (hkey : body.key = some pattern) (id : String) :
    ∃ s result, Steps (.start w) s ∧
      (repoMigrate { body with background := false }).run World.handle w =
        (result.map fun report => .ok (.report report), s.now.1) ∧
      jobGet s.jobs id = .ok (settled id ⟨pattern, body.toRoot, body.drain⟩ result) := by
  obtain ⟨s, hsteps, hnow, -, hjob⟩ := exists_settled w hbackground hkey id
  refine ⟨s, _, hsteps, ?_, hjob⟩
  rw [run_foreground hkey, hnow]

end

section

attribute [local instance] Sample.sha2 Sample.serdeJson

-- An image with its config in the one directory, and nothing in the other.
def imaged : World where
  roots := Sample.roots ((FsStorage.new.manifestPut Sample.dataX (.tag Sample.v1)
    Sample.typed).2.blobWrite (hashContent .sha256 Sample.x) Sample.x).2 .new
  router := .single (.fs 0 0)
  nextArc := 1
  arcs_allocated := Sample.arcs_one

-- Everything is moved there, and the old directory drained.
def moveAll : RepoMigrateRequest := ⟨some "*", none, 1, true, true⟩

-- The image, its config and its tag are copied, and the config is purged.
def movedReport : MigrateReport :=
  { Migrate.MigrateReport.empty with
    reposMigrated := 1, blobsCopied := 1, bytesCopied := 1, manifestsCopied := 1
    blobsPurged := 1, bytesPurged := 1, cutover := true }

def movedRecord : JobRecord :=
  ⟨"0f", "repo-migrate", .done, ⟨"*", 1, true⟩, some ⟨⟨"*", 1, true⟩, movedReport⟩, none⟩

theorem imaged_outcome : ((migration ⟨"*", 1, true⟩ 1).run World.handle imaged.newArc).1 =
      .ok movedReport ∧
    (own (.job "0f") (⟨.client, .newArc, 1⟩ ::
      calls "0f" (migration ⟨"*", 1, true⟩ 1) imaged.newArc)).length = 27 := by
  decide +kernel

-- The job has come to its end, and afterwards a client reads the image.
theorem moved : ∃ s s', Steps (.start imaged) s ∧ Step s s' ∧ s.now.2.length < s'.now.2.length ∧
    (own (.job "0f") s'.now.2).length = 27 ∧ jobGet s.jobs "0f" = .ok movedRecord ∧
    jobGet s'.jobs "0f" = .ok movedRecord := by
  have hkey : moveAll.key = some "*" := rfl
  obtain ⟨s, hsteps, -, htrace, hjob⟩ := exists_settled imaged rfl hkey "0f"
  obtain ⟨hresult, hlength⟩ := imaged_outcome
  have hended : jobGet s.jobs "0f" = .ok movedRecord := by
    rw [hjob]
    exact congrArg (fun result => Except.ok (settled "0f" ⟨"*", 1, true⟩ result)) hresult
  let op : Op := .fs 1 (.manifestGet Sample.dataX (.tag Sample.v1))
  have hread : recorded .client op s.now (World.handle op s.now.1).1
      ((World.handle op s.now.1).2, s.now.2 ++ [⟨.client, op, (World.handle op s.now.1).1⟩]) :=
    ⟨.regular op s.now.1, rfl⟩
  refine ⟨s, _, hsteps, .client hread, by simp, ?_, hended, hended⟩
  rw [own_of_client hread, htrace]
  exact hlength

theorem moved_tells : ∃ s, Steps (.start imaged) s ∧ (own (.job "0f") s.now.2).length = 27 ∧
    s.Tells "0f" movedRecord := by
  obtain ⟨s, s', hsteps, hstep, -, hlength, -, hjob⟩ := moved
  exact ⟨s', hsteps.tail hstep, hlength, job_tells (hsteps.tail hstep) hjob⟩

theorem moved_final : ∃ s s', Steps (.start imaged) s ∧ Step s s' ∧
    s.now.2.length < s'.now.2.length ∧ (own (.job "0f") s'.now.2).length = 27 ∧
    ∃ record, jobGet s'.jobs "0f" = .ok record ∧ Follows movedRecord record := by
  obtain ⟨s, s', hsteps, hstep, hlater, hlength, hjob, -⟩ := moved
  exact ⟨s, s', hsteps, hstep, hlater, hlength, job_final hsteps (.single hstep) hjob⟩

theorem moved_orderly : ∃ s, Steps (.start imaged) s ∧ (own (.job "0f") s.now.2).length = 27 ∧
    ∃ arc, Throughout (fun before e => Migrate.Orderly (.job "0f") "*" (.fs arc 1) true before e.op)
      (own (.job "0f") s.now.2) := by
  obtain ⟨s, s', hsteps, hstep, -, hlength, -, hjob⟩ := moved
  exact ⟨s', hsteps.tail hstep, hlength, job_orderly (hsteps.tail hstep) hjob⟩

theorem moved_report : ∃ s, Steps (.start imaged) s ∧ ∃ arc,
    Migrate.Exact (.job "0f") "*" (.fs arc 1) true movedReport (own (.job "0f") s.now.2) := by
  obtain ⟨s, s', hsteps, hstep, -, -, -, hjob⟩ := moved
  exact ⟨s', hsteps.tail hstep, (job_report (hsteps.tail hstep) hjob rfl).2⟩

theorem moved_like_request : ∃ s, Steps (.start imaged) s ∧
    (repoMigrate { moveAll with background := false }).run World.handle imaged =
      (.ok (.ok (.report movedReport)), s.now.1) ∧ jobGet s.jobs "0f" = .ok movedRecord := by
  have hkey : moveAll.key = some "*" := rfl
  obtain ⟨s, result, hsteps, hrun, hjob⟩ := job_like_request imaged rfl hkey "0f"
  have hresult : result = .ok movedReport := by
    have hsame := congrArg Prod.fst hrun
    rw [run_foreground hkey] at hsame
    rw [show ((migration ⟨"*", moveAll.toRoot, moveAll.drain⟩ imaged.nextArc).run World.handle
      imaged.newArc).1 = .ok movedReport from imaged_outcome.1] at hsame
    cases result with
    | error err => cases hsame
    | ok report =>
        simp only [Except.map, Except.ok.injEq, RepoMigrateResponse.report.injEq] at hsame
        rw [hsame]
  subst hresult
  exact ⟨s, hsteps, hrun, hjob⟩

end

end Handlers

end RspaceRegistry
