import RspaceRegistry.Calls.Pool
import RspaceRegistry.RepoRouter.Theorems
import RspaceRegistry.Stores.Quota
import RspaceRegistry.Sample

namespace RspaceRegistry.Stores

open Calls Disk Fallible

-- The usage cache by the addresses of the backends, with writes and changes of the
-- rules in any order. Every backend that was ever allocated is a value of its own;
-- its address is free for another one once no rule holds it.

namespace Reuse

-- A usage, and what the number does not tell: where it was measured, and where the
-- writes went that it was counted up for.
structure Usage where
  value : Nat
  measuredOn : Backend
  bumpedFor : List Backend

structure Entry extends Usage where
  expires : Nat

structure Memory where
  router : RepoRouter
  usage : Nat → Option Entry
  clock : Nat

inductive MemOp
  | backendFor (repo : String)
  | cached (b : Backend)
  | usedBytes (b : Backend)
  | remember (b : Backend) (used : Nat)
  | compare (repo : String) (usage : Usage) (incoming : Nat) (quota : Quota)
  | blobExists (repo : String) (d : Digest)
  | uploadStatus (repo id : String)
  | write (op : StorageOp) (repo : String)
  | bump (b : Backend) (delta : Nat) (written : Backend)
  | upsert (pattern : String) (b : Backend)
  | repoint (pattern : String) (b : Backend)

-- A write through the router tells which backend it was made on.
abbrev MemOp.Ans : MemOp → Type
  | .backendFor _ => Backend
  | .cached _ => Option Usage
  | .usedBytes _ => Except StorageError Nat
  | .remember _ _ => Unit
  | .compare _ _ _ _ => Bool
  | .blobExists _ _ => Except StorageError Bool
  | .uploadStatus _ _ => Except StorageError UploadStatus
  | .write _ _ => Except StorageError Backend
  | .bump _ _ _ => Unit
  | .upsert _ _ => Bool
  | .repoint _ _ => Nat

abbrev MemM := Fallible StorageError MemOp MemOp.Ans

def ask (op : MemOp) : MemM op.Ans := Prog.call op fun answer => .pure (.ok answer)

-- Calls of the stores below, under `?`.

def measure (b : Backend) : MemM Nat := Prog.call (.usedBytes b) .pure

def blobExists (repo : String) (d : Digest) : MemM Bool := Prog.call (.blobExists repo d) .pure

def write (op : StorageOp) (repo : String) : MemM Backend := Prog.call (.write op repo) .pure

section Programs

variable (quotas : List Quota)

def usageOf (b : Backend) : MemM Usage := do
  match ← ask (.cached b) with
  | some usage => pure usage
  | none => do
      let used ← measure b
      ask (.remember b used)
      pure ⟨used, b, []⟩

def enforce (repo : String) (incoming : Nat) : MemM Unit :=
  match matchingQuota quotas repo with
  | none => pure ()
  | some quota => do
      let b ← ask (.backendFor repo)
      let usage ← usageOf b
      if ← ask (.compare repo usage incoming quota) then
        fail (QuotaStorage.exceeded quota usage.value incoming)
      else pure ()

-- A write that brings new bytes.
def guarded (repo : String) (incoming : Nat) (op : StorageOp) : MemM Unit := do
  enforce quotas repo incoming
  let written ← write op repo
  let b ← ask (.backendFor repo)
  ask (.bump b incoming written)

def blobWrite (repo : String) (expected : Digest) (content : Bytes) : MemM Unit := do
  if ← blobExists repo expected then do
    let _ ← write (.blobWrite repo expected content) repo
    pure ()
  else guarded quotas repo content.length (.blobWrite repo expected content)

def uploadFinalize (repo id : String) (expected : Digest) : MemM Unit := do
  if ← blobExists repo expected then do
    let _ ← write (.uploadFinalize repo id expected) repo
    pure ()
  else do
    let status ← ask (.uploadStatus repo id)
    let size := match status with
      | .ok status => status.offset
      | .error _ => 0
    guarded quotas repo size (.uploadFinalize repo id expected)

-- Changes of the rules, one after the other.
def reroute : List (String × Backend × Bool) → MemM Unit
  | [] => pure ()
  | (pattern, b, true) :: rest => do
      let _ ← ask (.upsert pattern b)
      reroute rest
  | (pattern, b, false) :: rest => do
      let _ ← ask (.repoint pattern b)
      reroute rest

end Programs

section Semantics

variable (address : Backend → Nat) (ttl : Nat)

def Memory.Live (s : Memory) (b : Backend) : Prop := ∃ rule ∈ s.router.rules, rule.backend = b

-- A backend that comes into the rules is in them already, or has just been
-- allocated, beside those that are live.
def Memory.Allocated (s : Memory) (b : Backend) : Prop :=
  s.Live b ∨ ∀ rule ∈ s.router.rules, address rule.backend ≠ address b

-- The call itself, at a moment. What the stores below answer is up to them.
def Memory.Answers : (op : MemOp) → Memory → op.Ans → Memory → Prop
  | .backendFor repo, s, answer, s' => answer = s.router.resolve repo ∧ s' = s
  | .cached b, s, answer, s' =>
      answer = ((s.usage (address b)).filter fun entry => s.clock < entry.expires).map Entry.toUsage ∧
        s' = s
  | .usedBytes _, s, _, s' => s' = s
  | .remember b used, s, _, s' => s' = { s with
      usage := Function.update s.usage (address b) (some ⟨⟨used, b, []⟩, s.clock + ttl⟩) }
  | .compare _ usage incoming quota, s, answer, s' =>
      answer = decide (saturatingAdd usage.value incoming > quota.maxBytes.toNat) ∧ s' = s
  | .blobExists _ _, s, _, s' => s' = s
  | .uploadStatus _ _, s, _, s' => s' = s
  | .write _ repo, s, answer, s' => (∀ b, answer = .ok b → b = s.router.resolve repo) ∧ s' = s
  | .bump b delta written, s, _, s' => s' = { s with
      usage := Function.update s.usage (address b) ((s.usage (address b)).map fun entry =>
        { entry with
          value := saturatingAdd entry.value delta
          bumpedFor := written :: entry.bumpedFor }) }
  | .upsert pattern b, s, answer, s' => s.Allocated address b ∧
      answer = (s.router.upsert pattern b).1 ∧ s' = { s with router := (s.router.upsert pattern b).2 }
  | .repoint pattern b, s, answer, s' => s.Allocated address b ∧
      answer = (s.router.repoint pattern b).1 ∧ s' = { s with router := (s.router.repoint pattern b).2 }

-- Time passes between any two calls.
def sem : Sem MemOp MemOp.Ans Memory := fun op s answer s' =>
  ∃ clock ≥ s.clock, Memory.Answers address ttl op { s with clock } answer s'

end Semantics

-- What a party of the run does.
inductive Task
  | blobWrite (repo : String) (expected : Digest) (content : Bytes)
  | uploadFinalize (repo id : String) (expected : Digest)
  | reroute (changes : List (String × Backend × Bool))

def Task.program (quotas : List Quota) : Task → MemM Unit
  | .blobWrite repo expected content => Reuse.blobWrite quotas repo expected content
  | .uploadFinalize repo id expected => Reuse.uploadFinalize quotas repo id expected
  | .reroute changes => Reuse.reroute changes

-- The repository that a write is for.
def Task.repo : Task → Option String
  | .blobWrite repo _ _ => some repo
  | .uploadFinalize repo _ _ => some repo
  | .reroute _ => none

section Owned

variable (address : Backend → Nat) (ttl : Nat)

-- The number belongs to this backend alone.
def Usage.Of (usage : Usage) (b : Backend) : Prop :=
  usage.measuredOn = b ∧ ∀ other ∈ usage.bumpedFor, other = b

-- Live backends have addresses of their own, and the entries there are theirs.
structure Owned (s : Memory) : Prop where
  distinct : ∀ b b', s.Live b → s.Live b' → address b = address b' → b = b'
  own : ∀ b, s.Live b → ∀ entry, s.usage (address b) = some entry → entry.toUsage.Of b

variable {address ttl} {s s' : Memory} {repo : String}

theorem live_resolve (s : Memory) (repo : String) : s.Live (s.router.resolve repo) :=
  s.router.mem_of_resolve repo

theorem Owned.of_same (h : Owned address s) (hrouter : s'.router = s.router)
    (husage : s'.usage = s.usage) : Owned address s' := by
  have hlive : ∀ b, s'.Live b ↔ s.Live b := fun b => by rw [Memory.Live, hrouter, Memory.Live]
  constructor
  · intro b b' hb hb'
    exact h.distinct b b' ((hlive b).mp hb) ((hlive b').mp hb')
  · intro b hb entry hentry
    rw [husage] at hentry
    exact h.own b ((hlive b).mp hb) entry hentry

-- An entry of the backend itself may be written over.
theorem Owned.update (h : Owned address s) (hrouter : s'.router = s.router) {b : Backend}
    (hb : s.Live b) {found : Option Entry} (hentry : ∀ entry, found = some entry → entry.toUsage.Of b)
    (husage : s'.usage = Function.update s.usage (address b) found) : Owned address s' := by
  have hlive : ∀ b, s'.Live b ↔ s.Live b := fun b => by rw [Memory.Live, hrouter, Memory.Live]
  constructor
  · intro b₁ b₂ hb₁ hb₂
    exact h.distinct b₁ b₂ ((hlive b₁).mp hb₁) ((hlive b₂).mp hb₂)
  · intro other hother entry hget
    rw [husage] at hget
    have hlive' := (hlive other).mp hother
    by_cases haddress : address other = address b
    · rw [haddress, Function.update_self] at hget
      rw [h.distinct other b hlive' hb haddress]
      exact hentry entry hget
    · rw [Function.update_of_ne haddress] at hget
      exact h.own other hlive' entry hget

-- New rules are in order when the backends that they bring have no entries yet.
theorem Owned.rerouted (h : Owned address s) {b : Backend} (halloc : s.Allocated address b)
    (husage : s'.usage = s.usage) (hlive : ∀ other, s'.Live other → s.Live other ∨ other = b)
    (hfresh : ∀ other, s'.Live other → s.Live other ∨ s.usage (address other) = none) :
    Owned address s' := by
  constructor
  · intro b₁ b₂ hb₁ hb₂ haddress
    rcases hlive b₁ hb₁ with hold₁ | rfl
    · rcases hlive b₂ hb₂ with hold₂ | rfl
      · exact h.distinct b₁ b₂ hold₁ hold₂ haddress
      · rcases halloc with hold | hnew
        · exact h.distinct b₁ b₂ hold₁ hold haddress
        · obtain ⟨rule, hrule, rfl⟩ := hold₁
          exact absurd haddress (hnew rule hrule)
    · rcases hlive b₂ hb₂ with hold₂ | rfl
      · rcases halloc with hold | hnew
        · exact h.distinct b₁ b₂ hold hold₂ haddress
        · obtain ⟨rule, hrule, rfl⟩ := hold₂
          exact absurd haddress.symm (hnew rule hrule)
      · rfl
  · intro other hother entry hentry
    rw [husage] at hentry
    rcases hfresh other hother with hold | hnone
    · exact h.own other hold entry hentry
    · rw [hnone] at hentry
      cases hentry

end Owned

section Writes

variable (address : Backend → Nat) (ttl : Nat) (repo : String)

-- What a write relies on while it is in progress.
def Unmoved (s s' : Memory) : Prop :=
  Owned address s' ∧ s'.router.resolve repo = s.router.resolve repo

-- The usage that is compared is that of the backend the repository resolves to.
def Correct : MemOp → Memory → Prop
  | .compare repo usage _ _, s => usage.Of (s.router.resolve repo)
  | _, _ => True

def Promise (op : MemOp) (s : Memory) (_ : op.Ans) (s' : Memory) : Prop :=
  Correct op s ∧ Owned address s' ∧ s'.router = s.router

variable {address ttl repo} {s s' : Memory} {b : Backend}

theorem promise_of_same (op : MemOp) {answer : op.Ans} (h : Owned address s) (hop : Correct op s)
    (hrouter : s'.router = s.router) (husage : s'.usage = s.usage) :
    Promise address op s answer s' :=
  ⟨hop, h.of_same hrouter husage, hrouter⟩

-- Where a write stands: the repository still resolves to this backend.
def At (address : Backend → Nat) (repo : String) (b : Backend) (s : Memory) : Prop :=
  Owned address s ∧ s.router.resolve repo = b

theorem At.unmoved (h : At address repo b s) (hmove : Unmoved address repo s s') :
    At address repo b s' := ⟨hmove.1, hmove.2.trans h.2⟩

theorem At.promised {op : MemOp} {answer : op.Ans} (h : At address repo b s)
    (hpromise : Promise address op s answer s') : At address repo b s' :=
  ⟨hpromise.2.1, (congrArg (·.resolve repo) hpromise.2.2).trans h.2⟩

theorem At.live (h : At address repo b s) : s.Live b := h.2 ▸ live_resolve s repo

theorem wp_usageOf (h : At address repo b s) :
    (usageOf b).wp (sem address ttl) (Unmoved address repo) (Promise address)
      (Outcome (fun usage s' => At address repo b s' ∧ usage.Of b) fun _ s' => Owned address s') s := by
  refine fun s₁ h₁ answer s₂ ⟨clock, _, hanswer, hs₂⟩ => ?_
  have hat := h.unmoved h₁
  have hcached : Promise address (.cached b) s₁ answer s₂ := by
    apply promise_of_same (.cached b) hat.1 trivial <;> rw [hs₂]
  refine ⟨hcached, ?_⟩
  have hat₂ := hat.promised hcached
  cases hfound : answer with
  | some usage =>
      rw [hanswer] at hfound
      obtain ⟨entry, hentry, rfl⟩ := Option.map_eq_some_iff.mp hfound
      exact ⟨hat₂, hat.1.own b hat.live entry (Option.filter_eq_some_iff.mp hentry).1⟩
  | none =>
      refine fun s₃ h₃ used s₄ ⟨clock', _, hs₄⟩ => ?_
      have hat₃ := hat₂.unmoved h₃
      have hmeasured : Promise address (.usedBytes b) s₃ used s₄ := by
        apply promise_of_same (.usedBytes b) hat₃.1 trivial <;> rw [hs₄]
      refine ⟨hmeasured, ?_⟩
      cases used with
      | error err => exact (hat₃.promised hmeasured).1
      | ok used =>
          refine fun s₅ h₅ answer' s₆ ⟨clock'', _, hs₆⟩ => ?_
          have hat₅ := (hat₃.promised hmeasured).unmoved h₅
          have hof : Usage.Of ⟨used, b, []⟩ b := ⟨rfl, by simp⟩
          have hremember : Promise address (.remember b used) s₅ answer' s₆ := by
            refine ⟨trivial, hat₅.1.update (by rw [hs₆]) hat₅.live ?_ (by rw [hs₆]), by rw [hs₆]⟩
            intro entry hentry
            rw [← Option.some.inj hentry]
            exact hof
          exact ⟨hremember, hat₅.promised hremember, hof⟩

theorem wp_enforce (quotas : List Quota) (incoming : Nat) (h : Owned address s) :
    (enforce quotas repo incoming).wp (sem address ttl) (Unmoved address repo) (Promise address)
      (fun _ s' => Owned address s') s := by
  unfold enforce
  cases matchingQuota quotas repo with
  | none => exact h
  | some quota =>
      refine fun s₁ h₁ b s₂ ⟨clock, _, hb, hs₂⟩ => ?_
      have hresolve : Promise address (.backendFor repo) s₁ b s₂ := by
        apply promise_of_same (.backendFor repo) h₁.1 trivial <;> rw [hs₂]
      refine ⟨hresolve, ?_⟩
      have hat : At address repo b s₁ := ⟨h₁.1, hb.symm⟩
      show (usageOf b >>= fun usage => _).wp _ _ _ _ _
      refine (wp_bind _ _ _ _).mpr (wp_post (wp_usageOf (hat.promised hresolve)) ?_)
      intro result s₃ hresult
      cases result with
      | error err => exact hresult
      | ok usage =>
          refine fun s₄ h₄ exceeds s₅ ⟨clock', _, hover, hs₅⟩ => ?_
          have hat₄ := hresult.1.unmoved h₄
          have hcompare : Promise address (.compare repo usage incoming quota) s₄ exceeds s₅ := by
            apply promise_of_same (.compare repo usage incoming quota) hat₄.1
            · show usage.Of (s₄.router.resolve repo)
              rw [hat₄.2]
              exact hresult.2
            · rw [hs₅]
            · rw [hs₅]
          refine ⟨hcompare, ?_⟩
          cases exceeds with
          | true => exact (hat₄.promised hcompare).1
          | false => exact (hat₄.promised hcompare).1

theorem wp_guarded (quotas : List Quota) (incoming : Nat) (op : StorageOp) (h : Owned address s) :
    (guarded quotas repo incoming op).wp (sem address ttl) (Unmoved address repo) (Promise address)
      (fun _ _ => True) s := by
  refine (wp_bind _ _ _ _).mpr (wp_post (wp_enforce quotas incoming h) ?_)
  intro result s₁ howned
  cases result with
  | error err => trivial
  | ok _ =>
      refine fun s₂ h₂ answer s₃ ⟨clock, _, hwritten, hs₃⟩ => ?_
      have hwrite : Promise address (.write op repo) s₂ answer s₃ := by
        apply promise_of_same (.write op repo) h₂.1 trivial <;> rw [hs₃]
      refine ⟨hwrite, ?_⟩
      cases answer with
      | error err => trivial
      | ok written =>
          have hat : At address repo written s₂ := ⟨h₂.1, (hwritten written rfl).symm⟩
          refine fun s₄ h₄ b s₅ ⟨clock', _, hb, hs₅⟩ => ?_
          have hat₄ := (hat.promised hwrite).unmoved h₄
          obtain rfl : b = written := hb.trans hat₄.2
          have hresolve : Promise address (.backendFor repo) s₄ b s₅ := by
            apply promise_of_same (.backendFor repo) hat₄.1 trivial <;> rw [hs₅]
          refine ⟨hresolve, fun s₆ h₆ answer' s₇ ⟨clock'', _, hs₇⟩ => ⟨?_, trivial⟩⟩
          have hat₆ := (hat₄.promised hresolve).unmoved h₆
          refine ⟨trivial, hat₆.1.update (by rw [hs₇]) hat₆.live ?_ (by rw [hs₇]), by rw [hs₇]⟩
          intro entry hentry
          obtain ⟨counted, hcounted, rfl⟩ := Option.map_eq_some_iff.mp hentry
          have hof := hat₆.1.own b hat₆.live counted hcounted
          exact ⟨hof.1, List.forall_mem_cons.mpr ⟨rfl, hof.2⟩⟩

-- What every write does first, and what it does with a blob that is there.
theorem wp_unlessHeld {d : Digest} {op : StorageOp} {rest : MemM Unit}
    (hrest : ∀ s', Owned address s' →
      rest.wp (sem address ttl) (Unmoved address repo) (Promise address) (fun _ _ => True) s') :
    (do
      if ← blobExists repo d then do
        let _ ← write op repo
        pure ()
      else rest : MemM Unit).wp (sem address ttl) (Unmoved address repo) (Promise address)
        (fun _ _ => True) s := by
  refine fun s₁ h₁ answer s₂ ⟨clock, _, hs₂⟩ => ?_
  have hexists : Promise address (.blobExists repo d) s₁ answer s₂ := by
    apply promise_of_same (.blobExists repo d) h₁.1 trivial <;> rw [hs₂]
  refine ⟨hexists, ?_⟩
  rcases answer with err | found
  · trivial
  · cases found with
    | false => exact hrest s₂ hexists.2.1
    | true =>
        refine fun s₃ h₃ answer' s₄ ⟨clock', _, _, hs₄⟩ => ?_
        have hwrite : Promise address (.write op repo) s₃ answer' s₄ := by
          apply promise_of_same (.write op repo) h₃.1 trivial <;> rw [hs₄]
        refine ⟨hwrite, ?_⟩
        cases answer' <;> trivial

theorem wp_task (quotas : List Quota) (task : Task) (hrepo : task.repo = some repo) :
    (task.program quotas).wp (sem address ttl) (Unmoved address repo) (Promise address)
      (fun _ _ => True) s := by
  cases task with
  | blobWrite repo' expected content =>
      obtain rfl := Option.some.inj hrepo
      exact wp_unlessHeld fun s' howned => wp_guarded quotas content.length _ howned
  | uploadFinalize repo' id expected =>
      obtain rfl := Option.some.inj hrepo
      refine wp_unlessHeld fun s' _ => ?_
      refine fun s₁ h₁ answer s₂ ⟨clock, _, hs₂⟩ => ?_
      have hstatus : Promise address (.uploadStatus repo' id) s₁ answer s₂ := by
        apply promise_of_same (.uploadStatus repo' id) h₁.1 trivial <;> rw [hs₂]
      exact ⟨hstatus, wp_guarded quotas _ _ hstatus.2.1⟩
  | reroute changes => cases hrepo

end Writes

section Runs

variable (address : Backend → Nat) (ttl : Nat) (quotas : List Quota) {ι : Type}
variable (tasks : ι → Task)

abbrev Parties (ι : Type) : Type :=
  Pool ι MemOp MemOp.Ans (fun _ => Except StorageError Unit) Memory

def start (s : Memory) : Parties ι := ⟨fun i => (tasks i).program quotas, (s, [])⟩

-- The party has begun and is not done.
def InProgress (pool : Parties ι) (i : ι) : Prop :=
  (∃ event ∈ pool.now.2, event.party = i) ∧ (pool.parties i).isCall = true

-- No backend comes to an address under which a usage is kept, and no repository is
-- rerouted while a write to it is in progress.
structure Undisturbed (pool pool' : Parties ι) : Prop where
  fresh : ∀ b, pool'.now.1.Live b → pool.now.1.Live b ∨ pool.now.1.usage (address b) = none
  unmoved : ∀ i repo, InProgress pool i → (tasks i).repo = some repo →
    pool'.now.1.router.resolve repo = pool.now.1.router.resolve repo

-- A run whose every step meets the condition.
abbrev UndisturbedRuns [DecidableEq ι] : Parties ι → Parties ι → Prop :=
  Relation.ReflTransGen fun pool pool' =>
    Pool.Turn (sem address ttl) pool pool' ∧ Undisturbed address tasks pool pool'

-- Whatever usage a write is about to compare is the one of the backend that its
-- repository resolves to at that moment.
def OwnUsage (pool : Parties ι) : Prop :=
  ∀ i repo usage incoming quota next,
    pool.parties i = .call (.compare repo usage incoming quota) next →
      usage.Of (pool.now.1.router.resolve repo)

def IsReroute : MemOp → Prop
  | .upsert _ _ => True
  | .repoint _ _ => True
  | _ => False

theorem uses_reroute (changes : List (String × Backend × Bool)) : (reroute changes).Uses IsReroute := by
  induction changes with
  | nil => trivial
  | cons change rest ih =>
      obtain ⟨pattern, b, isNew⟩ := change
      cases isNew
      · exact ⟨trivial, fun _ => ih⟩
      · exact ⟨trivial, fun _ => ih⟩

-- Where one party stands.
def Standing (pool : Parties ι) (i : ι) : Prop :=
  match (tasks i).repo with
  | none => (pool.parties i).Uses IsReroute
  | some repo => (¬(∃ event ∈ pool.now.2, event.party = i) ∧
      pool.parties i = (tasks i).program quotas) ∨
    ((∃ event ∈ pool.now.2, event.party = i) ∧ (pool.parties i).wp (sem address ttl)
      (Unmoved address repo) (Promise address) (fun _ _ => True) pool.now.1)

variable {address ttl quotas tasks} {pool pool' : Parties ι}

theorem standing_write {i : ι} {repo : String} (hrepo : (tasks i).repo = some repo)
    (h : Standing address ttl quotas tasks pool i) : (pool.parties i).wp (sem address ttl)
      (Unmoved address repo) (Promise address) (fun _ _ => True) pool.now.1 := by
  unfold Standing at h
  rw [hrepo] at h
  rcases h with ⟨-, hstart⟩ | ⟨-, hwp⟩
  · rw [hstart]
    exact wp_task quotas (tasks i) hrepo
  · exact hwp

theorem standing_reroute {i : ι} (hrepo : (tasks i).repo = none)
    (h : Standing address ttl quotas tasks pool i) : (pool.parties i).Uses IsReroute := by
  unfold Standing at h
  rwa [hrepo] at h

theorem live_upsert {s : Memory} {pattern : String} {b other : Backend}
    (h : Memory.Live { s with router := (s.router.upsert pattern b).2 } other) :
    s.Live other ∨ other = b := by
  obtain ⟨rule, hrule, rfl⟩ := h
  exact (RepoRouter.mem_upsertRules pattern b s.router.rules rule hrule).imp_left
    fun hmem => ⟨rule, hmem, rfl⟩

theorem live_repoint {s : Memory} {pattern : String} {b other : Backend}
    (h : Memory.Live { s with router := (s.router.repoint pattern b).2 } other) :
    s.Live other ∨ other = b := by
  obtain ⟨rule, hrule, rfl⟩ := h
  obtain ⟨old, hold, rfl⟩ := List.mem_map.mp hrule
  split
  · exact .inr rfl
  · exact .inl ⟨old, hold, rfl⟩

-- A change of the rules keeps the entries in order.
theorem owned_reroute {op : MemOp} (hop : IsReroute op) {s s' : Memory} {answer : op.Ans}
    (hs : sem address ttl op s answer s') (h : Owned address s)
    (hfresh : ∀ b, s'.Live b → s.Live b ∨ s.usage (address b) = none) : Owned address s' := by
  obtain ⟨clock, -, hanswer⟩ := hs
  cases op with
  | upsert pattern b =>
      obtain ⟨halloc, -, rfl⟩ := hanswer
      exact h.rerouted halloc rfl (fun other hother => live_upsert hother) hfresh
  | repoint pattern b =>
      obtain ⟨halloc, -, rfl⟩ := hanswer
      exact h.rerouted halloc rfl (fun other hother => live_repoint hother) hfresh
  | _ => cases hop

variable [DecidableEq ι]

theorem standing_turn (hturn : Pool.Turn (sem address ttl) pool pool')
    (hquiet : Undisturbed address tasks pool pool') (howned : Owned address pool.now.1)
    (h : ∀ i, Standing address ttl quotas tasks pool i) :
    Owned address pool'.now.1 ∧ ∀ i, Standing address ttl quotas tasks pool' i := by
  obtain ⟨hj, hs, hrecord⟩ := hturn
  rename_i j op next answer s'
  have hself : ∃ event ∈ s'.2, event.party = j := by
    rw [hrecord]
    exact ⟨⟨j, op, answer⟩, by simp, rfl⟩
  -- The state is in order, and what the party itself is left with.
  have hafter : Owned address s'.1 ∧ Standing address ttl quotas tasks
      ⟨Function.update pool.parties j (next answer), s'⟩ j := by
    unfold Standing
    simp only [Function.update_self]
    cases hrepo : (tasks j).repo with
    | none =>
        have huses := standing_reroute hrepo (h j)
        rw [hj] at huses
        exact ⟨owned_reroute huses.1 hs howned hquiet.fresh, huses.2 answer⟩
    | some repo =>
        have hwp := standing_write hrepo (h j)
        rw [hj] at hwp
        obtain ⟨hpromise, hnext⟩ := hwp pool.now.1 ⟨howned, rfl⟩ answer s'.1 hs
        exact ⟨hpromise.2.1, .inr ⟨hself, hnext⟩⟩
  refine ⟨hafter.1, fun i => ?_⟩
  by_cases hij : i = j
  · rw [hij]
    exact hafter.2
  · have hi := h i
    unfold Standing at hi ⊢
    simp only [Function.update_of_ne hij]
    have hevent : (∃ event ∈ s'.2, event.party = i) ↔ ∃ event ∈ pool.now.2, event.party = i := by
      rw [hrecord]
      simp only [List.mem_append, List.mem_singleton, or_and_right, exists_or, exists_eq_left,
        Ne.symm hij, or_false]
    cases hrepo : (tasks i).repo with
    | none =>
        rw [hrepo] at hi
        exact hi
    | some repo =>
        rw [hrepo] at hi
        simp only at hi ⊢
        rw [hevent]
        refine hi.imp_right fun hwp => ⟨hwp.1, ?_⟩
        obtain ⟨hbegun, hwp⟩ := hwp
        cases hcall : pool.parties i with
        | pure value => trivial
        | call op' next' =>
            have hprogress : InProgress pool i := ⟨hbegun, by rw [hcall]; rfl⟩
            have hmove : Unmoved address repo pool.now.1 s'.1 :=
              ⟨hafter.1, hquiet.unmoved i repo hprogress hrepo⟩
            rw [hcall] at hwp
            refine Prog.wp_rely hwp hmove ?_ fun _ _ _ _ _ => trivial
            exact fun s₁ s₂ s₃ h₁₂ h₂₃ => ⟨h₂₃.1, h₂₃.2.trans h₁₂.2⟩

omit [DecidableEq ι] in
theorem own_usage_of_standing (howned : Owned address pool.now.1)
    (h : ∀ i, Standing address ttl quotas tasks pool i) : OwnUsage pool := by
  intro i repo usage incoming quota next hcall
  have hi := h i
  cases hrepo : (tasks i).repo with
  | none =>
      have huses := standing_reroute hrepo hi
      rw [hcall] at huses
      exact huses.1.elim
  | some repo' =>
      have hwp := standing_write hrepo hi
      rw [hcall] at hwp
      have hs : sem address ttl (.compare repo usage incoming quota) pool.now.1
          (decide (saturatingAdd usage.value incoming > quota.maxBytes.toNat)) pool.now.1 :=
        ⟨pool.now.1.clock, Nat.le_refl _, rfl, rfl⟩
      exact (hwp pool.now.1 ⟨howned, rfl⟩ _ _ hs).1.1

-- At the start nothing has been measured, and the backends of the rules are apart.
structure Initial (address : Backend → Nat) (s : Memory) : Prop where
  unmeasured : ∀ a, s.usage a = none
  distinct : ∀ b b', s.Live b → s.Live b' → address b = address b' → b = b'

-- While nobody reuses an address or reroutes a write in progress, each check goes
-- by the usage of its own backend.
theorem own_usage_compared {s : Memory} (hinitial : Initial address s)
    (hrun : UndisturbedRuns address ttl tasks (start quotas tasks s) pool) : OwnUsage pool := by
  have hstart : Owned address (start quotas tasks s).now.1 ∧
      ∀ i, Standing address ttl quotas tasks (start quotas tasks s) i := by
    refine ⟨⟨hinitial.distinct, fun b _ entry hentry => ?_⟩, fun i => ?_⟩
    · rw [show (start quotas tasks s).now.1.usage (address b) = none from hinitial.unmeasured _] at hentry
      cases hentry
    · unfold Standing
      cases htask : tasks i with
      | reroute changes =>
          show (((tasks i).program quotas).Uses IsReroute)
          rw [htask]
          exact uses_reroute changes
      | blobWrite repo expected content =>
          exact .inl ⟨by simp [start], by rw [← htask]; rfl⟩
      | uploadFinalize repo id expected =>
          exact .inl ⟨by simp [start], by rw [← htask]; rfl⟩
  have hend : Owned address pool.now.1 ∧ ∀ i, Standing address ttl quotas tasks pool i := by
    induction hrun with
    | refl => exact hstart
    | tail _ hstep ih => exact standing_turn hstep.1 hstep.2 ih.1 ih.2
  exact own_usage_of_standing hend.1 hend.2

end Runs

section Alone

variable {σ : Type} (qs : QuotaStorage σ) (address : Backend → Nat) (clock : Clock)

-- One write by itself, over real stores.
def alone : Handler MemOp MemOp.Ans (Memory × σ)
  | .backendFor repo, s => (qs.router.resolve repo, s)
  | .cached b, s => (((s.1.usage (address b)).filter fun entry => clock.now < entry.expires).map
      Entry.toUsage, s)
  | .usedBytes b, s =>
      ((Stores.usedBytes (b.serve qs.disk) s.2).1, (s.1, (Stores.usedBytes (b.serve qs.disk) s.2).2))
  | .remember b used, s => ((), ({ s.1 with
      usage := Function.update s.1.usage (address b)
        (some ⟨⟨used, b, []⟩, clock.later + qs.ttl⟩) }, s.2))
  | .compare _ usage incoming quota, s =>
      (decide (saturatingAdd usage.value incoming > quota.maxBytes.toNat), s)
  | .blobExists repo d, s =>
      let answered := qs.router.serve qs.disk (.request (.blobExists repo d)) s.2
      (answered.1, (s.1, answered.2))
  | .uploadStatus repo id, s =>
      let answered := qs.router.serve qs.disk (.request (.uploadStatus repo id)) s.2
      (answered.1, (s.1, answered.2))
  | .write op repo, s =>
      let answered := qs.router.serve qs.disk (.request op) s.2
      (answered.1.map fun _ => qs.router.resolve repo, (s.1, answered.2))
  | .bump b delta written, s => ((), ({ s.1 with
      usage := Function.update s.1.usage (address b) ((s.1.usage (address b)).map fun entry =>
        { entry with
          value := saturatingAdd entry.value delta
          bumpedFor := written :: entry.bumpedFor }) }, s.2))
  | .upsert _ _, s => (false, s)
  | .repoint _ _, s => (0, s)

def Entry.toCached (entry : Entry) : Cached := ⟨entry.value, entry.expires⟩

-- The numbers of the cache, for backends that all have addresses of their own.
def erase (s : Memory × σ) : QuotaState σ :=
  ⟨fun b => (s.1.usage (address b)).map Entry.toCached, s.2⟩

variable {address} (hinjective : Function.Injective address)

include hinjective

omit qs clock in
theorem erase_update (s : Memory × σ) (b : Backend) (found : Option Entry) :
    erase address ({ s.1 with usage := Function.update s.1.usage (address b) found }, s.2) =
      { erase address s with
        usage := Function.update (erase address s).usage b (found.map Entry.toCached) } := by
  unfold erase
  congr 1
  funext other
  by_cases h : other = b
  · rw [h]
    simp only [Function.update_self]
  · simp only [Function.update_of_ne h, Function.update_of_ne (mt (@hinjective _ _) h)]

-- The parts of a write, each on what is left of the cache without the ghosts.

theorem usageOf_alone (b : Backend) (s : Memory × σ) :
    ∃ result s', (usageOf b).run (alone qs address clock) s = (result, s') ∧
      qs.usageOf clock b (erase address s) = (result.map (·.value), erase address s') := by
  have hcached : ((erase address s).usage b).filter (fun cached => clock.now < cached.expires) =
      ((s.1.usage (address b)).filter fun entry => clock.now < entry.expires).map Entry.toCached :=
    Option.filter_map
  unfold QuotaStorage.usageOf usageOf
  rw [hcached]
  cases hfound : (s.1.usage (address b)).filter fun entry => clock.now < entry.expires with
  | some entry =>
      have hlook : (ask (.cached b)).run (alone qs address clock) s = (.ok (some entry.toUsage), s) := by
        show (Except.ok (((s.1.usage (address b)).filter fun entry =>
          clock.now < entry.expires).map Entry.toUsage), s) = _
        rw [hfound]
        rfl
      rw [run_bind_of_ok hlook]
      exact ⟨_, _, rfl, rfl⟩
  | none =>
      have hlook : (ask (.cached b)).run (alone qs address clock) s = (.ok none, s) := by
        show (Except.ok (((s.1.usage (address b)).filter fun entry =>
          clock.now < entry.expires).map Entry.toUsage), s) = _
        rw [hfound]
        rfl
      rw [run_bind_of_ok hlook]
      have hmeasure : (measure b).run (alone qs address clock) s =
          ((Stores.usedBytes (b.serve qs.disk) s.2).1,
            (s.1, (Stores.usedBytes (b.serve qs.disk) s.2).2)) := rfl
      have hused : Stores.usedBytes (b.serve qs.disk) (erase address s).store =
          Stores.usedBytes (b.serve qs.disk) s.2 := rfl
      simp only [hused, Option.map_none]
      rcases hanswer : Stores.usedBytes (b.serve qs.disk) s.2 with ⟨_ | used, store⟩ <;>
        rw [hanswer] at hmeasure
      · rw [run_bind_of_error hmeasure]
        exact ⟨_, _, rfl, rfl⟩
      · rw [run_bind_of_ok hmeasure]
        refine ⟨_, _, rfl, congrArg (Prod.mk _) ?_⟩
        exact (erase_update hinjective (s.1, store) b
          (some ⟨⟨used, b, []⟩, clock.later + qs.ttl⟩)).symm

theorem enforce_alone (repo : String) (incoming : Nat) (s : Memory × σ) :
    ∃ result s', (enforce qs.quotas repo incoming).run (alone qs address clock) s = (result, s') ∧
      qs.enforce clock repo incoming (erase address s) = (result, erase address s') := by
  unfold enforce QuotaStorage.enforce
  cases matchingQuota qs.quotas repo with
  | none => exact ⟨_, _, rfl, rfl⟩
  | some quota =>
      obtain ⟨result, s', hrun, husage⟩ := usageOf_alone qs clock hinjective (qs.router.resolve repo) s
      have hresolve : (ask (.backendFor repo)).run (alone qs address clock) s =
        (.ok (qs.router.resolve repo), s) := rfl
      simp only [husage]
      rw [run_bind_of_ok hresolve]
      cases result with
      | error err =>
          rw [run_bind_of_error hrun]
          exact ⟨_, _, rfl, rfl⟩
      | ok usage =>
          rw [run_bind_of_ok hrun]
          have hcompare : (ask (.compare repo usage incoming quota)).run (alone qs address clock) s' =
            (.ok (decide (saturatingAdd usage.value incoming > quota.maxBytes.toNat)), s') := rfl
          rw [run_bind_of_ok hcompare]
          by_cases hover : saturatingAdd usage.value incoming > quota.maxBytes.toNat
          · simp only [hover, decide_true, if_true, Except.map]
            exact ⟨_, _, rfl, rfl⟩
          · simp only [hover, decide_false, Bool.false_eq_true, if_false, Except.map]
            exact ⟨_, _, rfl, rfl⟩

theorem guarded_alone {op : StorageOp} {below : Method (QuotaState σ) Unit}
    (hbelow : ∀ usage store, below ⟨usage, store⟩ =
      ((qs.router.serve qs.disk (.request op) store).1.map fun _ => (),
        ⟨usage, (qs.router.serve qs.disk (.request op) store).2⟩))
    (repo : String) (incoming : Nat) (s : Memory × σ) : ∃ result s',
      (guarded qs.quotas repo incoming op).run (alone qs address clock) s = (result, s') ∧
      qs.guarded clock repo incoming below (erase address s) = (result, erase address s') := by
  obtain ⟨result, s₁, hrun, henforce⟩ := enforce_alone qs clock hinjective repo incoming s
  unfold guarded QuotaStorage.guarded
  simp only [henforce]
  cases result with
  | error err =>
      rw [run_bind_of_error hrun]
      exact ⟨_, _, rfl, rfl⟩
  | ok _ =>
      rw [run_bind_of_ok hrun]
      have hwrite : (write op repo).run (alone qs address clock) s₁ =
          ((qs.router.serve qs.disk (.request op) s₁.2).1.map fun _ => qs.router.resolve repo,
            (s₁.1, (qs.router.serve qs.disk (.request op) s₁.2).2)) := rfl
      have hdone : below (erase address s₁) =
          ((qs.router.serve qs.disk (.request op) s₁.2).1.map fun _ => (),
            erase address (s₁.1, (qs.router.serve qs.disk (.request op) s₁.2).2)) := hbelow _ _
      simp only [hdone]
      rcases hanswer : qs.router.serve qs.disk (.request op) s₁.2 with ⟨_ | value, store⟩ <;>
        rw [hanswer] at hwrite
      · rw [run_bind_of_error hwrite]
        exact ⟨_, _, rfl, rfl⟩
      · rw [run_bind_of_ok hwrite]
        refine ⟨_, _, rfl, congrArg (Prod.mk _) ?_⟩
        rw [QuotaStorage.bump]
        have hsame := erase_update hinjective (s₁.1, store) (qs.router.resolve repo)
          ((s₁.1.usage (address (qs.router.resolve repo))).map fun entry => { entry with
            value := saturatingAdd entry.value incoming
            bumpedFor := qs.router.resolve repo :: entry.bumpedFor })
        refine Eq.trans ?_ hsame.symm
        simp only [erase, Option.map_map]
        rfl

omit hinjective in
theorem unlessHeld_alone {op : StorageOp} {below : Method (QuotaState σ) Unit}
    (hbelow : ∀ usage store, below ⟨usage, store⟩ =
      ((qs.router.serve qs.disk (.request op) store).1.map fun _ => (),
        ⟨usage, (qs.router.serve qs.disk (.request op) store).2⟩))
    (repo : String) (d : Digest) {rest : MemM Unit} {rest' : Method (QuotaState σ) Unit}
    (hrest : ∀ s : Memory × σ, ∃ result s', rest.run (alone qs address clock) s = (result, s') ∧
      rest' (erase address s) = (result, erase address s')) (s : Memory × σ) :
    ∃ result s', (do
      if ← blobExists repo d then do
        let _ ← write op repo
        pure ()
      else rest : MemM Unit).run (alone qs address clock) s = (result, s') ∧
      (match qs.below (.request (.blobExists repo d)) (erase address s) with
      | (.error err, s) => (.error err, s)
      | (.ok true, s) => below s
      | (.ok false, s) => rest' s) = (result, erase address s') := by
  have hexists : (blobExists repo d).run (alone qs address clock) s =
      ((qs.router.serve qs.disk (.request (.blobExists repo d)) s.2).1,
        (s.1, (qs.router.serve qs.disk (.request (.blobExists repo d)) s.2).2)) := rfl
  have hdone : qs.below (.request (.blobExists repo d)) (erase address s) =
      ((qs.router.serve qs.disk (.request (.blobExists repo d)) s.2).1,
        erase address (s.1, (qs.router.serve qs.disk (.request (.blobExists repo d)) s.2).2)) := rfl
  simp only [hdone]
  rcases hanswer : qs.router.serve qs.disk (.request (.blobExists repo d)) s.2 with
    ⟨err | found, store⟩ <;> rw [hanswer] at hexists
  · rw [run_bind_of_error hexists]
    exact ⟨_, _, rfl, rfl⟩
  · rw [run_bind_of_ok hexists]
    cases found with
    | false => exact hrest (s.1, store)
    | true =>
        have hwrite : (write op repo).run (alone qs address clock) (s.1, store) =
            ((qs.router.serve qs.disk (.request op) store).1.map fun _ => qs.router.resolve repo,
              (s.1, (qs.router.serve qs.disk (.request op) store).2)) := rfl
        simp only [if_true]
        have hput : below (erase address (s.1, store)) =
          ((qs.router.serve qs.disk (.request op) store).1.map fun _ => (),
            erase address (s.1, (qs.router.serve qs.disk (.request op) store).2)) := hbelow _ _
        rw [hput]
        rcases hanswer : qs.router.serve qs.disk (.request op) store with ⟨_ | value, store'⟩ <;>
          rw [hanswer] at hwrite
        · rw [run_bind_of_error hwrite]
          exact ⟨_, _, rfl, rfl⟩
        · rw [run_bind_of_ok hwrite]
          exact ⟨_, _, rfl, rfl⟩

omit hinjective qs clock in
theorem map_unit (answer : Except StorageError Unit) : answer.map (fun _ => ()) = answer := by
  cases answer <;> rfl

-- A write that nothing interrupts does what the cache by backends does.
theorem blobWrite_alone (repo : String) (d : Digest) (content : Bytes) (s : Memory × σ) :
    ∃ result s', (blobWrite qs.quotas repo d content).run (alone qs address clock) s = (result, s') ∧
      qs.blobWrite clock repo d content (erase address s) = (result, erase address s') := by
  have hbelow : ∀ usage store, qs.below (.request (.blobWrite repo d content)) ⟨usage, store⟩ =
      ((qs.router.serve qs.disk (.request (.blobWrite repo d content)) store).1.map fun _ => (),
        ⟨usage, (qs.router.serve qs.disk (.request (.blobWrite repo d content)) store).2⟩) := by
    intro usage store
    rw [map_unit (qs.router.serve qs.disk (.request (.blobWrite repo d content)) store).1]
    rfl
  exact unlessHeld_alone qs clock hbelow repo d
    (fun s => guarded_alone qs clock hinjective hbelow repo content.length s) s

theorem uploadFinalize_alone (repo id : String) (d : Digest) (s : Memory × σ) :
    ∃ result s', (uploadFinalize qs.quotas repo id d).run (alone qs address clock) s = (result, s') ∧
      qs.uploadFinalize clock repo id d (erase address s) = (result, erase address s') := by
  have hbelow : ∀ usage store, qs.below (.request (.uploadFinalize repo id d)) ⟨usage, store⟩ =
      ((qs.router.serve qs.disk (.request (.uploadFinalize repo id d)) store).1.map fun _ => (),
        ⟨usage, (qs.router.serve qs.disk (.request (.uploadFinalize repo id d)) store).2⟩) := by
    intro usage store
    rw [map_unit (qs.router.serve qs.disk (.request (.uploadFinalize repo id d)) store).1]
    rfl
  refine unlessHeld_alone qs clock hbelow repo d (fun s => ?_) s
  have hstatus : (ask (.uploadStatus repo id)).run (alone qs address clock) s =
      (.ok (qs.router.serve qs.disk (.request (.uploadStatus repo id)) s.2).1,
        (s.1, (qs.router.serve qs.disk (.request (.uploadStatus repo id)) s.2).2)) := rfl
  rw [run_bind_of_ok hstatus]
  exact guarded_alone qs clock hinjective hbelow repo _ _

end Alone

section Example

-- Empty volumes that take every write.
def willing (address : Backend → Nat) (ttl : Nat) : Handler MemOp MemOp.Ans Memory
  | .backendFor repo, s => (s.router.resolve repo, s)
  | .cached b, s =>
      (((s.usage (address b)).filter fun entry => s.clock < entry.expires).map Entry.toUsage, s)
  | .usedBytes _, s => (.ok 0, s)
  | .remember b used, s => ((), { s with
      usage := Function.update s.usage (address b) (some ⟨⟨used, b, []⟩, s.clock + ttl⟩) })
  | .compare _ usage incoming quota, s =>
      (decide (saturatingAdd usage.value incoming > quota.maxBytes.toNat), s)
  | .blobExists _ _, s => (.ok false, s)
  | .uploadStatus _ _, s => (.error .notFound, s)
  | .write _ repo, s => (.ok (s.router.resolve repo), s)
  | .bump b delta written, s => ((), { s with
      usage := Function.update s.usage (address b) ((s.usage (address b)).map fun entry =>
        { entry with
          value := saturatingAdd entry.value delta
          bumpedFor := written :: entry.bumpedFor }) })
  | .upsert pattern b, s =>
      ((s.router.upsert pattern b).1, { s with router := (s.router.upsert pattern b).2 })
  | .repoint pattern b, s =>
      ((s.router.repoint pattern b).1, { s with router := (s.router.repoint pattern b).2 })

def isReroute : MemOp → Bool
  | .upsert _ _ => true
  | .repoint _ _ => true
  | _ => false

theorem sem_willing (address : Backend → Nat) (ttl : Nat) {op : MemOp} {s : Memory}
    (hop : isReroute op = false ∨ ∃ pattern b, op = .upsert pattern b ∧ s.Allocated address b) :
    sem address ttl op s (willing address ttl op s).1 (willing address ttl op s).2 := by
  refine ⟨s.clock, Nat.le_refl _, ?_⟩
  rcases hop with hop | ⟨pattern, b, rfl, halloc⟩
  · cases op with
    | upsert pattern b => cases hop
    | repoint pattern b => cases hop
    | usedBytes b => rfl
    | remember b used => rfl
    | blobExists repo d => rfl
    | uploadStatus repo id => rfl
    | bump b delta written => rfl
    | write op repo => exact ⟨fun b hb => (Except.ok.inj hb).symm, rfl⟩
    | backendFor repo => exact ⟨rfl, rfl⟩
    | cached b => exact ⟨rfl, rfl⟩
    | compare repo usage incoming quota => exact ⟨rfl, rfl⟩
  · exact ⟨halloc, rfl, rfl⟩

variable {address : Backend → Nat} {ttl : Nat}

theorem turn_willing {pool : Parties ℕ} {i : ℕ} {op : MemOp}
    {next : op.Ans → Prog MemOp MemOp.Ans (Except StorageError Unit)}
    (hi : pool.parties i = .call op next)
    (hop : isReroute op = false ∨ ∃ pattern b, op = .upsert pattern b ∧
      pool.now.1.Allocated address b) :
    Pool.Turn (sem address ttl) pool (pool.step (willing address ttl) i) := by
  unfold Pool.step
  rw [hi]
  exact .call hi ⟨sem_willing address ttl hop, rfl⟩

theorem willing_router {op : MemOp} (hop : isReroute op = false) (s : Memory) :
    (willing address ttl op s).2.router = s.router := by
  cases op <;> first | rfl | cases hop

-- The next call of the party is one of a write.
def writes (pool : Parties ℕ) (i : ℕ) : Bool :=
  match pool.parties i with
  | .pure _ => false
  | .call op _ => !isReroute op

def allWrite (address : Backend → Nat) (ttl : Nat) : List ℕ → Parties ℕ → Bool
  | [], _ => true
  | i :: rest, pool =>
      writes pool i && allWrite address ttl rest (pool.step (willing address ttl) i)

theorem runs_writes (tasks : ℕ → Task) (schedule : List ℕ) {pool : Parties ℕ}
    (h : allWrite address ttl schedule pool = true) :
    UndisturbedRuns address ttl tasks pool (pool.play (willing address ttl) schedule) := by
  induction schedule generalizing pool with
  | nil => exact .refl
  | cons i rest ih =>
      rw [allWrite, Bool.and_eq_true] at h
      obtain ⟨hwrites, hrest⟩ := h
      unfold writes at hwrites
      split at hwrites
      · cases hwrites
      · rename_i op next hi
        have hop : isReroute op = false := by simpa using hwrites
        refine .head ⟨turn_willing hi (.inl hop), ?_⟩ (ih hrest)
        have hrouter : (pool.step (willing address ttl) i).now.1.router = pool.now.1.router := by
          unfold Pool.step
          rw [hi]
          exact willing_router hop pool.now.1
        constructor
        · rintro b ⟨rule, hrule, hb⟩
          rw [hrouter] at hrule
          exact .inl ⟨rule, hrule, hb⟩
        · intro _ repo _ _
          rw [hrouter]

-- Two cells of memory, which the allocator hands out in turn.
def twoCells (b : Backend) : Nat := b.arc % 2

def fresh : Memory := ⟨.single (.fs 0 0), fun _ => none, 0⟩

theorem fresh_initial : Initial twoCells fresh := by
  refine ⟨fun _ => rfl, ?_⟩
  rintro b b' ⟨rule, hrule, rfl⟩ ⟨rule', hrule', rfl⟩ -
  rw [List.mem_singleton.mp hrule, List.mem_singleton.mp hrule']

section

attribute [local instance] Sample.sha2

-- A write, changes of the rule, and another write.
def aroundReroute (changes : List (String × Backend × Bool)) : ℕ → Task
  | 0 => .blobWrite "data/x" (hashContent .sha256 Sample.x) Sample.x
  | 1 => .reroute changes
  | _ => .blobWrite "data/y" (hashContent .sha256 Sample.x) Sample.x

def begun (changes : List (String × Backend × Bool)) : Parties ℕ :=
  start [⟨"*", 9⟩] (aroundReroute changes) fresh

-- The volume of the rule is replaced between two writes, by one at an address of its own.
def oneMove : List (String × Backend × Bool) := [("*", .fs 1 1, true)]

def written (changes : List (String × Backend × Bool)) : Parties ℕ :=
  (begun changes).play (willing twoCells 30) [0, 0, 0, 0, 0, 0, 0, 0, 0]

def movedOnce : Parties ℕ := (written oneMove).step (willing twoCells 30) 1

-- The first write is over by then, and the second has not begun.
theorem undisturbed_move :
    Undisturbed twoCells (aroundReroute oneMove) (written oneMove) movedOnce := by
  constructor
  · rintro b ⟨rule, hrule, rfl⟩
    rw [show movedOnce.now.1.router.rules = [⟨"*", .fs 1 1⟩] from rfl, List.mem_singleton] at hrule
    subst hrule
    exact .inr rfl
  · rintro i repo ⟨⟨event, hevent, rfl⟩, hcall⟩ -
    have hparty : ∀ event ∈ (written oneMove).now.2, event.party = 0 := by decide
    rw [hparty event hevent] at hcall
    cases hcall

theorem same_volume_compared : OwnUsage (movedOnce.play (willing twoCells 30) [2, 2, 2]) :=
  own_usage_compared fresh_initial (((runs_writes (aroundReroute oneMove) _ (by decide)).tail
    ⟨turn_willing rfl (.inr ⟨"*", .fs 1 1, rfl, .inr (by decide)⟩), undisturbed_move⟩).trans
      (runs_writes (aroundReroute oneMove) _ (by decide)))

-- The second volume that takes the place of the first comes to its address.
def twoMoves : List (String × Backend × Bool) := [("*", .fs 1 1, true), ("*", .fs 2 2, true)]

def moved : Parties ℕ :=
  ((written twoMoves).step (willing twoCells 30) 1).step (willing twoCells 30) 1

theorem runs_moved : Pool.Runs (sem twoCells 30) (begun twoMoves) moved := by
  have hwritten : Pool.Runs (sem twoCells 30) (begun twoMoves) (written twoMoves) :=
    Relation.ReflTransGen.mono (fun _ _ hstep => hstep.1) _ _
      (runs_writes (aroundReroute twoMoves) _ (by decide))
  have hfirst : Pool.Turn (sem twoCells 30) (written twoMoves)
      ((written twoMoves).step (willing twoCells 30) 1) :=
    turn_willing rfl (.inr ⟨"*", .fs 1 1, rfl, .inr (by decide)⟩)
  have hsecond : Pool.Turn (sem twoCells 30)
      ((written twoMoves).step (willing twoCells 30) 1) moved :=
    turn_willing rfl (.inr ⟨"*", .fs 2 2, rfl, .inr (by decide)⟩)
  exact (hwritten.tail hfirst).tail hsecond

theorem other_volume_compared :
    ¬∀ (address : Backend → Nat) (ttl : Nat) (quotas : List Quota) (tasks : ℕ → Task) (s : Memory)
      (pool : Parties ℕ), Initial address s →
        Pool.Runs (sem address ttl) (start quotas tasks s) pool → OwnUsage pool := by
  intro hall
  have hchecked : Pool.Runs (sem twoCells 30) moved (moved.play (willing twoCells 30) [2, 2, 2]) :=
    Relation.ReflTransGen.mono (fun _ _ hstep => hstep.1) _ _
      (runs_writes (aroundReroute twoMoves) _ (by decide))
  have hown := hall twoCells 30 _ (aroundReroute twoMoves) fresh _ fresh_initial
    (runs_moved.trans hchecked) 2 _ _ _ _ _ rfl
  exact absurd hown.1 (by decide)

end

end Example

end Reuse

end RspaceRegistry.Stores
