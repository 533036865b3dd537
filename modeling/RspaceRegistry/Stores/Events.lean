import RspaceRegistry.Calls.Amid
import RspaceRegistry.Disk.Lives
import RspaceRegistry.Stores.Safe

namespace RspaceRegistry.Stores

open Calls Disk Files Ordered

-- The stores of a server at work, and all that comes to them.

section Registries

variable [Sha2]

-- The backend that works for a repository.
def Registry.home (repo : String) : Registry → Backend
  | .plain b => b
  | .routed router => router.resolve repo
  | .quota router _ _ => router.resolve repo

variable (registry : Registry) (m : Moment) {s : QuotaState Trees} {op : StorageOp} {repo : String}

omit [Sha2] in
theorem router_serve_of_repo (disk : RootId → Store Trees) (router : RepoRouter)
    (hop : op.repo = some repo) :
    router.serve disk (.request op) = (router.resolve repo).serve disk (.request op) := by
  cases op <;> cases hop <;> rfl

-- The calls that a quota can refuse.
def Weighed : StorageOp → Prop
  | .blobWrite _ _ _ | .uploadFinalize _ _ _ => True
  | _ => False

-- A call that names a repository is one of the backend that works for it, or it is refused.
theorem storage_cases (h : Sound s.store) (hop : op.repo = some repo) :
    ((registry.storage m op s).1 =
        ((registry.home repo).serve (onTrees m.apart) (.request op) s.store).1 ∧
      (registry.storage m op s).2.store =
        ((registry.home repo).serve (onTrees m.apart) (.request op) s.store).2) ∨
      Weighed op ∧ (∃ message, (registry.storage m op s).1 = .error (.quotaExceeded message)) ∧
        (registry.storage m op s).2.store = s.store := by
  cases registry with
  | plain b => exact .inl ⟨rfl, rfl⟩
  | routed router =>
      have hserve := router_serve_of_repo (onTrees m.apart) router hop
      left
      show (router.serve (onTrees m.apart) (.request op) s.store).1 = _ ∧
        (router.serve (onTrees m.apart) (.request op) s.store).2 = _
      rw [hserve]
      exact ⟨rfl, rfl⟩
  | quota router quotas ttl =>
      have hguarded : ∀ {d : Digest} {incoming : Nat} {write : Method Trees Unit}
          {result : Except StorageError Unit × QuotaState Trees},
          result = (Layer.quota router quotas ttl).guarded m repo d incoming write s →
          (result.1 = (write s.store).1 ∧ result.2.store = (write s.store).2) ∨
            (∃ message, result.1 = .error (.quotaExceeded message)) ∧ result.2.store = s.store := by
        intro d incoming write result heq
        rw [heq]
        rcases Layer.guarded_cases (.quota router quotas ttl) m h repo d incoming with
          ⟨-, hanswer, hstore⟩ | ⟨-, ⟨message, hanswer⟩, hstore⟩
        · exact .inl ⟨hanswer, hstore⟩
        · exact .inr ⟨⟨message, hanswer⟩, hstore⟩
      cases op with
      | blobWrite repo' d content =>
          cases hop
          have hwrite :=
            hguarded (Layer.storage_blobWrite (.quota router quotas ttl) m h repo d content)
          exact hwrite.imp_right fun hrefused => ⟨trivial, hrefused⟩
      | uploadFinalize repo' id d =>
          cases hop
          have hwrite :=
            hguarded (Layer.storage_uploadFinalize (.quota router quotas ttl) m h repo id d)
          exact hwrite.imp_right fun hrefused => ⟨trivial, hrefused⟩
      | listRepos => cases hop
      | _ =>
          cases hop
          exact .inl ⟨rfl, rfl⟩

-- What the calls of the directories keep, a call through the server keeps.
theorem storage_keeps {I : Trees → Prop} (h : Sound s.store) (hinv : I s.store)
    (hcall : ∀ root trees, Sound trees → I trees →
      I (onTrees m.apart root (.request op) trees).2) :
    Sound (registry.storage m op s).2.store ∧ I (registry.storage m op s).2.store := by
  have hsteps : ∀ root, Steps (fun trees => Sound trees ∧ I trees) (fun _ _ => True)
      (onTrees m.apart root (.request op)) :=
    fun root trees hboth => ⟨⟨hboth.1.onTrees root _, hcall root trees hboth.1 hboth.2⟩, trivial⟩
  have hbackend : ∀ b : Backend, Sound (b.serve (onTrees m.apart) (.request op) s.store).2 ∧
      I (b.serve (onTrees m.apart) (.request op) s.store).2 :=
    fun b => (b.steps_serve (fun _ => trivial) (fun _ _ _ _ _ => trivial)
      (fun root _ => hsteps root) s.store ⟨h, hinv⟩).1
  have hrouter : ∀ router : RepoRouter,
      Sound (router.serve (onTrees m.apart) (.request op) s.store).2 ∧
        I (router.serve (onTrees m.apart) (.request op) s.store).2 :=
    fun router => (router.steps_serve (fun _ => trivial) (fun _ _ _ _ _ => trivial) hsteps
      s.store ⟨h, hinv⟩).1
  cases hrepo : op.repo with
  | some repo =>
      rcases storage_cases registry m h hrepo with ⟨-, hstore⟩ | ⟨-, -, hstore⟩
      · rw [hstore]
        exact hbackend (registry.home repo)
      · rw [hstore]
        exact ⟨h, hinv⟩
  | none =>
      cases op with
      | listRepos =>
          cases registry with
          | plain b => exact hbackend b
          | routed router => exact hrouter router
          | quota router quotas ttl => exact hrouter router
      | _ => cases hrepo

end Registries

-- A call that a handler makes, through the registry as it is set up then; or what befalls
-- a directory otherwise: a call of a job, a call that meets with faults, a process that dies,
-- a process that starts. Calls come one after another.
inductive ServerEvent
  | call (registry : Registry) (m : Moment) (op : StorageOp)
  | disk (root : RootId) (e : Happening)

def ServerEvent.op : ServerEvent → Option StorageOp
  | .call _ _ op => some op
  | .disk _ e => e.op

-- No copy of a session is cut short.
def ServerEvent.Whole : ServerEvent → Prop
  | .call _ _ _ => True
  | .disk _ e => e.Whole

section Events

variable [Sha2]

-- What is kept in memory of usages may be lost at any time.
inductive Leads : ServerEvent → QuotaState Trees → QuotaState Trees → Prop
  | call (registry : Registry) (m : Moment) (op : StorageOp) (s : QuotaState Trees) :
      Leads (.call registry m op) s (registry.storage m op s).2
  | disk {root : RootId} {e : Happening} {s : QuotaState Trees} {tree : Tree}
      (h : Turn e (s.store root) tree) (usage : Backend → Option Cached) :
      Leads (.disk root e) s ⟨usage, Function.update s.store root tree⟩

-- Some events that are allowed, and that leave no half of a blob.
def Happens (allowed : ServerEvent → Prop) : QuotaState Trees → QuotaState Trees → Prop :=
  Relation.ReflTransGen fun s s' => ∃ e, allowed e ∧ e.Whole ∧ Leads e s s'

variable {s s' : QuotaState Trees} {e : ServerEvent} {allowed : ServerEvent → Prop}
  {P : Tree → Prop} {root : RootId}

theorem Leads.sound (hleads : Leads e s s') (hwhole : e.Whole) (h : Sound s.store) :
    Sound s'.store := by
  cases hleads with
  | call registry m op =>
      exact (storage_keeps (I := fun _ => True) registry m h trivial fun _ _ _ _ => trivial).1
  | @disk root e _ tree hturn usage =>
      intro other
      show Disk.Sound (Function.update s.store root tree other)
      by_cases heq : other = root
      · subst heq
        rw [Function.update_self]
        exact hturn.sound hwhole (h other)
      · rw [Function.update_of_ne heq]
        exact h other

-- To one directory an event is one of its own, or none.
theorem Leads.keeps_at (hleads : Leads e s s') (hwhole : e.Whole) (h : Sound s.store)
    (hturn : ∀ turn tree tree', turn.op = e.op → turn.Whole → Disk.Sound tree →
      Turn turn tree tree' → P tree → P tree') (hP : P (s.store root)) : P (s'.store root) := by
  cases hleads with
  | call registry m op =>
      refine (storage_keeps (I := fun trees => P (trees root)) registry m h hP ?_).2
      intro other trees hsound hinv
      by_cases heq : root = other
      · rw [heq] at hinv ⊢
        rw [onTrees_self]
        exact hturn (.call (.request op) (m.apart other)) _ _ rfl (fun _ => id) (hsound other)
          (.call _ _ _) hinv
      · rw [onTrees_other heq]
        exact hinv
  | @disk other e _ tree hdisk usage =>
      show P (Function.update s.store other tree root)
      by_cases heq : root = other
      · subst heq
        rw [Function.update_self]
        exact hturn e _ _ rfl hwhole (h root) hdisk hP
      · rw [Function.update_of_ne heq]
        exact hP

theorem Happens.sound (hhappens : Happens allowed s s') (h : Sound s.store) : Sound s'.store := by
  induction hhappens with
  | refl => exact h
  | tail _ hlast ih =>
      obtain ⟨e, -, hwhole, hleads⟩ := hlast
      exact hleads.sound hwhole ih

theorem Happens.keeps_at (hhappens : Happens allowed s s') (h : Sound s.store)
    (hturn : ∀ e, allowed e → ∀ turn tree tree', turn.op = e.op → turn.Whole → Disk.Sound tree →
      Turn turn tree tree' → P tree → P tree') (hP : P (s.store root)) : P (s'.store root) := by
  induction hhappens with
  | refl => exact hP
  | tail hbefore hlast ih =>
      obtain ⟨e, hallowed, hwhole, hleads⟩ := hlast
      exact hleads.keeps_at hwhole (Happens.sound hbefore h) (hturn e hallowed) ih

end Events

end RspaceRegistry.Stores
