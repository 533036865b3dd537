import RspaceRegistry.Calls.Trace
import RspaceRegistry.Migrate.Run
import RspaceRegistry.Migrate.Uses
import RspaceRegistry.RepoRouter.Reads
import RspaceRegistry.Sample
import RspaceRegistry.World.Item
import RspaceRegistry.World.Recorded

namespace RspaceRegistry.Migrate.Updating

open Calls Fallible Ordered Places MultiStore

-- A migration, the clients that put and delete one tag one after another, and
-- everybody else.
inductive Party
  | migration
  | client
  | others
deriving DecidableEq

inductive TagRequest
  | put (content : Bytes)
  | delete
deriving DecidableEq

namespace TagRequest

variable (repo : RepoName) (t : TagName)

def send : TagRequest → StoreM Unit
  | .put content => do
      let _ ← RepoRouter.storage.manifestPut repo (.tag t) content
      pure ()
  | .delete => RepoRouter.storage.manifestDelete repo (.tag t)

-- The requests that are acknowledged.
def serve : List TagRequest → List TagRequest → StoreM (List TagRequest)
  | [], acknowledged => pure acknowledged
  | request :: rest, acknowledged => do
      match ← attempt (request.send repo t) with
      | .ok () => serve rest (acknowledged ++ [request])
      | .error _ => serve rest acknowledged

variable [Sha2]

-- Where the tag points after the request.
def target : TagRequest → Option Digest
  | .put content => some (sha256Digest content)
  | .delete => none

-- The directories of a backend that the request goes to.
def places (b : Backend) : TagRequest → List RootId
  | .put _ => [b.head]
  | .delete => b.leaves

-- What a client reads of the tag when the request was the last one.
def Reads (answer : Except StorageError Bytes) : TagRequest → Prop
  | .put content => ∃ bytes, answer = .ok bytes ∧ sha256Digest bytes = sha256Digest content
  | .delete => answer = .error .notFound

end TagRequest

section

variable [Sha2]

-- What a call of a client has made of the tag in a directory.
def tagged (root : RootId) : Event Party Op Op.Ans → Option (Option Digest)
  | ⟨.client, .fs p (.manifestPut _ (.tag _) content), .ok _⟩ =>
      if p = root then some (some (sha256Digest content)) else none
  | ⟨.client, .fs p (.manifestDelete _ (.tag _)), .ok _⟩ => if p = root then some none else none
  | ⟨.client, .fs p (.manifestDelete _ (.tag _)), .error .notFound⟩ =>
      if p = root then some none else none
  | _ => none

-- The last one of these, if there is any yet.
def lastAt (root : RootId) (record : List (Event Party Op Op.Ans)) : Option (Option Digest) :=
  (record.filterMap (tagged root)).getLast?

theorem lastAt_append (root : RootId) (record : List (Event Party Op Op.Ans))
    (e : Event Party Op Op.Ans) :
    lastAt root (record ++ [e]) = (tagged root e).or (lastAt root record) := by
  rw [lastAt, List.filterMap_append, List.getLast?_append]
  cases h : tagged root e <;> simp [h, lastAt]

theorem tagged_of_other {root : RootId} {e : Event Party Op Op.Ans} (h : e.party ≠ .client) :
    tagged root e = none := by
  obtain ⟨i, op, answer⟩ := e
  cases i with
  | client => exact absurd rfl h
  | _ => rfl

theorem lastAt_own (root : RootId) (record : List (Event Party Op Op.Ans)) :
    lastAt root (own .client record) = lastAt root record := by
  unfold lastAt own
  rw [List.filterMap_filter]
  congr 2
  funext e
  by_cases h : e.party = .client
  · simp [h]
  · simp [h, tagged_of_other h]

-- A backend that writes where the new one writes, and deletes wherever it deletes.
structure Leads (newBackend b : Backend) : Prop where
  head : b.head = newBackend.head
  leaves : ∀ root ∈ newBackend.leaves, root ∈ b.leaves

section Client

variable (newBackend : Backend) (repo : RepoName) (t : TagName)

-- What the trace of the clients takes for granted of the rest of the system.
structure Faithful (trace : List (Event Party Op Op.Ans)) : Prop where
  routed : ∀ b, ⟨.client, .backendFor repo.text, b⟩ ∈ trace → Leads newBackend b
  carriedOut : ∀ root err, ⟨.client, .fs root (.manifestDelete repo (.tag t)), .error err⟩ ∈ trace →
    err = .notFound
  answered : ∀ root before after,
    trace = before ++ ⟨.client, .fs root (.manifestDelete repo (.tag t)), .error .notFound⟩ :: after →
    ∀ d, lastAt root before ≠ some (some d)

variable {newBackend repo t}

theorem Faithful.before {trace calls : List (Event Party Op Op.Ans)}
    (h : Faithful newBackend repo t (trace ++ calls)) : Faithful newBackend repo t trace where
  routed b hb := h.routed b (List.mem_append_left _ hb)
  carriedOut root err he := h.carriedOut root err (List.mem_append_left _ he)
  answered := by
    intro root before after heq
    refine h.answered root before (after ++ calls) ?_
    rw [heq, List.append_assoc, List.cons_append]

-- A delete that goes through the directories.
structure Deleting (roots : List RootId) (trace : List (Event Party Op Op.Ans))
    (result : Except StorageError Unit) (trace' : List (Event Party Op Op.Ans)) : Prop where
  gone : ∀ root ∈ roots, lastAt root trace' = some none
  kept : ∀ root, root ∉ roots → lastAt root trace' = lastAt root trace
  absent : ∀ err, result = .error err → ∀ root ∈ roots, ∀ d, lastAt root trace ≠ some (some d)

-- One directory's part of it.
theorem lastAt_delete (repo : RepoName) (t : TagName) (trace : List (Event Party Op Op.Ans))
    (root p : RootId) {answer : Except StorageError Unit}
    (h : ∀ err, answer = .error err → err = .notFound) :
    lastAt p (trace ++ [⟨.client, .fs root (.manifestDelete repo (.tag t)), answer⟩]) =
      if p = root then some none else lastAt p trace := by
  have htagged : tagged p ⟨.client, .fs root (.manifestDelete repo (.tag t)), answer⟩ =
      if root = p then some none else none := by
    rcases answer with err | _
    · obtain rfl := h err rfl
      rfl
    · rfl
  rw [lastAt_append, htagged]
  by_cases hp : p = root
  · simp [hp]
  · simp [hp, Ne.symm hp]

theorem wp_deletes (newBackend : Backend) (roots : List RootId) (deletedAny : Bool)
    (lastErr : Option StorageError)
    (trace : List (Event Party Op Op.Ans)) :
    (deleteFromAll (fun root => StoreM.fs root (.manifestDelete repo (.tag t))) roots deletedAny
      lastErr).wp (traced .client) Eq (fun _ _ _ _ => True)
      (fun result trace' => (∃ calls, trace' = trace ++ calls) ∧
        (deletedAny = true → result = .ok ()) ∧
        (Faithful newBackend repo t trace' → Deleting roots trace result trace')) trace := by
  induction roots generalizing deletedAny lastErr trace with
  | nil =>
      have hnone : ∀ result, Deleting [] trace result trace :=
        fun _ => ⟨by simp, fun _ _ => rfl, by simp⟩
      cases deletedAny with
      | true => exact ⟨⟨[], by simp⟩, fun _ => rfl, fun _ => hnone _⟩
      | false => cases lastErr <;> exact ⟨⟨[], by simp⟩, by simp, fun _ => hnone _⟩
  | cons root rest ih =>
      rw [deleteFromAll, Fallible.wp_bind, Fallible.wp_attempt]
      refine (Prog.wp_traced_call _ _ _ _).mpr ?_
      intro answer
      rw [Prog.wp_pure, outcome_ok]
      change Except StorageError Unit at answer
      -- The rest of the delete, with what is counted of this answer.
      have hrest : ∀ deletedAny' lastErr', (deletedAny = true → deletedAny' = true) →
          (∀ value, answer = .ok value → deletedAny' = true) →
          (deleteFromAll (fun root => StoreM.fs root (.manifestDelete repo (.tag t))) rest deletedAny'
            lastErr').wp (traced .client) Eq (fun _ _ _ _ => True)
            (fun result trace' => (∃ calls, trace' = trace ++ calls) ∧
              (deletedAny = true → result = .ok ()) ∧
              (Faithful newBackend repo t trace' → Deleting (root :: rest) trace result trace'))
            (trace ++ [⟨.client, .fs root (.manifestDelete repo (.tag t)), answer⟩]) := by
        intro deletedAny' lastErr' hany hok
        refine Fallible.wp_post (ih deletedAny' lastErr' _) ?_
        rintro result trace' ⟨⟨calls, rfl⟩, hany', hdeleting⟩
        refine ⟨⟨_, List.append_assoc ..⟩, fun h => hany' (hany h), ?_⟩
        intro hf
        have hd := hdeleting hf
        have hnotFound : ∀ err, answer = .error err → err = .notFound := by
          rintro err rfl
          exact hf.carriedOut root err (by simp)
        have hlast := fun p => lastAt_delete repo t trace root p hnotFound
        refine ⟨?_, ?_, ?_⟩
        · intro p hp
          by_cases hpr : p ∈ rest
          · exact hd.gone p hpr
          · have hpr' : p = root := by simpa [hpr] using hp
            rw [hd.kept p hpr, hlast, if_pos hpr']
        · intro p hp
          rw [List.mem_cons, not_or] at hp
          rw [hd.kept p hp.2, hlast, if_neg hp.1]
        · intro err herr p hp d hpd
          by_cases hpr : p = root
          · subst hpr
            have hmissing : answer = .error .notFound := by
              rcases answer with e | value
              · rw [hnotFound e rfl]
              · rw [hany' (hok value rfl)] at herr
                cases herr
            subst hmissing
            exact hf.answered p trace calls (by simp) d hpd
          · have hmem : p ∈ rest := by simpa [hpr] using hp
            refine hd.absent err herr p hmem d ?_
            rw [hlast, if_neg hpr, hpd]
      rcases answer with err | value
      · cases err <;> exact hrest _ _ id (fun _ h => by cases h)
      · exact hrest _ _ (fun _ => rfl) (fun _ _ => rfl)

-- A request that is refused leaves everything as it is, as far as its clients can tell.
theorem wp_send (newBackend : Backend) (request : TagRequest) (trace : List (Event Party Op Op.Ans)) :
    (request.send repo t).wp (traced .client) Eq (fun _ _ _ _ => True)
      (fun result trace' => (∃ calls, trace' = trace ++ calls) ∧
        (Faithful newBackend repo t trace' →
          (result = .ok () → ∀ p ∈ request.places newBackend, lastAt p trace' = some request.target) ∧
          (∀ err, result = .error err → ∀ p now, lastAt p trace = some now →
            lastAt p trace' = some now))) trace := by
  cases request with
  | put content =>
      refine (Prog.wp_traced_call _ _ _ _).mpr ?_
      intro b
      change Backend at b
      change (b.storage.manifestPut repo (.tag t) content >>= fun _ => pure ()).wp _ _ _ _ _
      rw [b.manifestPut_flat]
      refine (Prog.wp_traced_call _ _ _ _).mpr ?_
      intro answer
      change Except StorageError Digest at answer
      rcases answer with err | d
      · refine ⟨⟨_, List.append_assoc ..⟩, fun _ => ⟨nofun, fun _ _ p now hnow => ?_⟩⟩
        rw [lastAt_append, lastAt_append]
        exact hnow
      · refine ⟨⟨_, List.append_assoc ..⟩, fun hf => ⟨fun _ p hp => ?_, nofun⟩⟩
        have hhead := (hf.routed b (by simp)).head
        rw [List.mem_singleton.mp hp, ← hhead, lastAt_append]
        simp [tagged, TagRequest.target]
  | delete =>
      refine (Prog.wp_traced_call _ _ _ _).mpr ?_
      intro b
      change Backend at b
      change (b.storage.manifestDelete repo (.tag t)).wp _ _ _ _ _
      rw [b.manifestDelete_flat]
      refine Fallible.wp_post (wp_deletes newBackend b.leaves false none _) ?_
      rintro result trace' ⟨⟨calls, rfl⟩, _, hdeleting⟩
      refine ⟨⟨_, List.append_assoc ..⟩, ?_⟩
      intro hf
      have hd := hdeleting hf
      have hdispatch : ∀ p, lastAt p (trace ++ [⟨.client, .backendFor repo.text, b⟩]) =
          lastAt p trace := by
        intro p
        rw [lastAt_append]
        rfl
      constructor
      · intro _ p hp
        exact hd.gone p ((hf.routed b (by simp)).leaves p hp)
      · intro err herr p now hnow
        by_cases hp : p ∈ b.leaves
        · rw [hd.gone p hp]
          cases now with
          | none => rfl
          | some d =>
              rw [← hdispatch p] at hnow
              exact absurd hnow (hd.absent err herr p hp d)
        · rw [hd.kept p hp, hdispatch, hnow]

-- The last request that was acknowledged is the last one that shows in any directory.
def Shown (newBackend : Backend) (repo : RepoName) (t : TagName) (acknowledged : List TagRequest)
    (trace : List (Event Party Op Op.Ans)) : Prop :=
  Faithful newBackend repo t trace → ∀ request, acknowledged.getLast? = some request →
    ∀ p ∈ request.places newBackend, lastAt p trace = some request.target

theorem wp_serve (requests acknowledged : List TagRequest) (trace : List (Event Party Op Op.Ans))
    (h : Shown newBackend repo t acknowledged trace) :
    (TagRequest.serve repo t requests acknowledged).wp (traced .client) Eq (fun _ _ _ _ => True)
      (Outcome (fun acknowledged' trace' => Shown newBackend repo t acknowledged' trace')
        fun _ _ => True) trace := by
  induction requests generalizing acknowledged trace with
  | nil => exact h
  | cons request rest ih =>
      rw [TagRequest.serve, Fallible.wp_bind, Fallible.wp_attempt]
      refine Fallible.wp_post (wp_send newBackend request trace) ?_
      rintro (err | _) trace' ⟨⟨calls, rfl⟩, hsent⟩
      · refine ih acknowledged _ ?_
        intro hf last hlast p hp
        exact (hsent hf).2 err rfl p _ (h hf.before last hlast p hp)
      · refine ih (acknowledged ++ [request]) _ ?_
        intro hf last hlast p hp
        obtain rfl : request = last := by simpa using hlast
        exact (hsent hf).1 rfl p hp

end Client

section Migration

variable [SerdeJson]

-- What the migration puts behind its rule.
def MigrationCall (pattern : String) (newBackend : Backend) : Op → Prop
  | .upsert key b => key = pattern ∧ Leads newBackend b
  | _ => True

def Unrouted : Op → Prop
  | .upsert _ _ => False
  | _ => True

omit [Sha2] [SerdeJson] in
theorem unrouted_of_confined {writes deletes : List RootId} {op : Op}
    (h : op.Confined writes deletes) : Unrouted op := by
  cases op with
  | upsert pattern backend => exact h
  | _ => trivial

-- The backends that the migration has put behind the rule.
def routes (record : List (Event Party Op Op.Ans)) : List Backend :=
  record.filterMap fun
    | ⟨.migration, .upsert _ b, _⟩ => some b
    | _ => none

omit [Sha2] [SerdeJson] in
theorem routes_append (record : List (Event Party Op Op.Ans)) (e : Event Party Op Op.Ans) :
    routes (record ++ [e]) = routes record ++ routes [e] := by
  simp [routes]

omit [Sha2] [SerdeJson] in
theorem routes_own (record : List (Event Party Op Op.Ans)) :
    routes (own .migration record) = routes record := by
  unfold routes own
  rw [List.filterMap_filter]
  congr 1
  funext ⟨i, op, answer⟩
  cases i <;> rfl

omit [Sha2] [SerdeJson] in
theorem uses_selectRepos (pattern : String) (old : Backend) (listed : List RepoName) :
    (selectRepos pattern old listed).Uses Unrouted := by
  induction listed with
  | nil => exact uses_pure _ _
  | cons repo rest ih =>
      rw [selectRepos]
      split
      · have hask : (StoreM.backendFor repo.text).Uses Unrouted := ⟨trivial, fun _ => trivial⟩
        exact hask.bind fun _ => ih.bind fun _ => uses_pure _ _
      · exact ih

theorem uses_run (pattern : String) (newBackend : Backend) (drain : Bool) :
    (run pattern newBackend drain).Uses (MigrationCall pattern newBackend) := by
  have hquiet : ∀ op, Unrouted op → MigrationCall pattern newBackend op := by
    intro op h
    cases op with
    | upsert key b => exact h.elim
    | _ => trivial
  have hask : (StoreM.backendForPattern pattern).Uses (MigrationCall pattern newBackend) :=
    ⟨trivial, fun _ => trivial⟩
  have hupsert : ∀ b, Leads newBackend b →
      (StoreM.upsert pattern b).Uses (MigrationCall pattern newBackend) :=
    fun b hb => ⟨⟨rfl, hb⟩, fun _ => trivial⟩
  refine hask.bind ?_
  intro backend
  cases backend with
  | none => exact uses_fail _ _
  | some old =>
      change (if old.ptrEq newBackend = true then _ else _ : StoreM MigrateReport).Uses _
      split
      · exact uses_pure _ _
      · refine (old.readOnly_listRepos.mono fun op h => hquiet op (unrouted_of_confined h)).bind ?_
        intro listed
        refine ((uses_selectRepos pattern old _).mono hquiet).bind ?_
        intro repos
        have harc : StoreM.newArc.Uses (MigrationCall pattern newBackend) :=
          ⟨trivial, fun _ => trivial⟩
        have hoverlay : newOverlay newBackend old =
            StoreM.newArc >>= fun arc => pure (overlay arc newBackend old) := rfl
        rw [move, hoverlay, bind_assoc]
        refine harc.bind ?_
        intro arc
        rw [pure_bind]
        refine (hupsert (overlay arc newBackend old) ⟨rfl, ?_⟩).bind ?_
        · intro root hroot
          rw [overlay_leaves]
          exact List.mem_append_left _ hroot
        intro _
        refine ((uses_copyRepos old newBackend repos _).mono
          fun op h => hquiet op (unrouted_of_confined h)).bind ?_
        intro report
        refine (hupsert newBackend ⟨rfl, fun _ => id⟩).bind ?_
        intro _
        split
        · exact (uses_drainOld old repos _).mono fun op h => hquiet op (unrouted_of_confined h)
        · exact uses_pure _ _

omit [Sha2] [SerdeJson] in
theorem wp_unrouted {α : Type} {prog : StoreM α} (h : prog.Uses Unrouted)
    (trace : List (Event Party Op Op.Ans)) :
    prog.wp (traced .migration) Eq (fun _ _ _ _ => True)
      (fun _ trace' => routes trace' = routes trace) trace := by
  refine Fallible.wp_post (Prog.wp_traced_of_uses h trace) ?_
  rintro _ _ ⟨calls, rfl, hcalls⟩
  have hnone : routes calls = [] := by
    unfold routes
    rw [List.filterMap_eq_nil_iff]
    rintro ⟨i, op, answer⟩ he
    obtain ⟨rfl, hop⟩ := hcalls _ he
    cases op with
    | upsert pattern backend => exact hop.elim
    | _ => rfl
  unfold routes at hnone ⊢
  rw [List.filterMap_append, hnone, List.append_nil]

-- A finished migration has its rule point at the new backend, or has left it alone.
def Routed (newBackend : Backend) (trace : List (Event Party Op Op.Ans)) : Prop :=
  routes trace = [] ∨ (routes trace).getLast? = some newBackend

theorem wp_move_routes (pattern : String) (old newBackend : Backend) (drain : Bool)
    (repos : List RepoName) (trace : List (Event Party Op Op.Ans)) :
    (move pattern old newBackend drain repos).wp (traced .migration) Eq (fun _ _ _ _ => True)
      (Outcome (fun _ => Routed newBackend) fun _ _ => True) trace := by
  have hoverlay : newOverlay newBackend old =
      StoreM.newArc >>= fun arc => pure (overlay arc newBackend old) := rfl
  rw [move, hoverlay, bind_assoc]
  refine wp_traced_ask fun arc => ?_
  rw [pure_bind]
  refine wp_traced_ask fun _ => ?_
  rw [Fallible.wp_bind]
  refine Fallible.wp_post ((Prog.wp_traced_of_uses (uses_copyRepos old newBackend repos _)) _) ?_
  rintro (err | report) trace₁ _
  · trivial
  refine wp_traced_ask fun added => ?_
  have hrouted : (routes (trace₁ ++ [⟨.migration, .upsert pattern newBackend, added⟩])).getLast? =
      some newBackend := by
    rw [routes_append]
    exact List.getLast?_concat
  dsimp only
  split
  · refine Fallible.wp_post (wp_unrouted ((uses_drainOld old repos _).mono
      fun op h => unrouted_of_confined h) _) ?_
    rintro (err | _) trace₂ hsame
    · trivial
    · exact .inr (hsame ▸ hrouted)
  · exact .inr hrouted

theorem wp_run_routes (pattern : String) (newBackend : Backend) (drain : Bool) :
    (run pattern newBackend drain).wp (traced .migration) Eq (fun _ _ _ _ => True)
      (Outcome (fun _ => Routed newBackend) fun _ _ => True) [] := by
  refine wp_traced_ask fun backend => ?_
  cases backend with
  | none => trivial
  | some old =>
      dsimp only
      split
      · exact .inl rfl
      · rw [Fallible.wp_bind]
        refine Fallible.wp_post (Prog.wp_traced_of_uses old.readOnly_listRepos _) ?_
        rintro (err | listed) trace₁ _
        · trivial
        rw [outcome_ok, Fallible.wp_bind]
        refine Fallible.wp_post (Prog.wp_traced_of_uses (uses_selectRepos pattern old _) _) ?_
        rintro (err | repos) trace₂ _
        · trivial
        · exact wp_move_routes pattern old newBackend drain repos trace₂

end Migration

-- The clients have gone through the router after the overlay cutover.
def Dispatched (record : List (Event Party Op Op.Ans)) : Prop :=
  ∀ before e after, record = before ++ e :: after → e.party = .client → routes before ≠ []

-- A call that fits what the clients have last made of the tag in its directory.
def Respects (repo : RepoName) (t : TagName) (last : Option (Option Digest)) : FsCall → Prop
  | .manifestPut r (.tag t') content =>
      r = repo → t' = t → ∀ now, last = some now → now = some (sha256Digest content)
  | .manifestDelete r (.tag t') => r = repo → t' = t → ∀ now, last = some now → now = none
  | .manifestDelete r (.digest d) => r = repo → last ≠ some (some d)
  | _ => True

-- The migration writes and deletes nothing of the tag where a client has been before.
def Unspoiled (repo : RepoName) (t : TagName) (record : List (Event Party Op Op.Ans)) : Prop :=
  ∀ before root call answer after, record = before ++ ⟨.migration, .fs root call, answer⟩ :: after →
    Respects repo t (lastAt root before) call

def ClientCall (repo : RepoName) (t : TagName) : Op → Prop
  | .backendFor key => key = repo.text
  | .fs _ (.manifestPut r reference _) => r = repo ∧ reference = .tag t
  | .fs _ (.manifestDelete r reference) => r = repo ∧ reference = .tag t
  | _ => False

-- Calls that have nothing to do with the tag, tag updates above all.
def Elsewhere (repo : RepoName) (t : TagName) : Op → Prop
  | .fs _ (.manifestPut r reference _) => ¬(r = repo ∧ reference = .tag t)
  | .fs _ (.manifestDelete r reference) => (∃ t', reference = .tag t') ∧ ¬(r = repo ∧ reference = .tag t)
  | .upsert _ _ => False
  | _ => True

def allowed (pattern : String) (newBackend : Backend) (repo : RepoName) (t : TagName) :
    Party → Op → Prop
  | .migration => MigrationCall pattern newBackend
  | .client => ClientCall repo t
  | .others => Elsewhere repo t

variable {pattern : String} {newBackend : Backend} {repo : RepoName} {t : TagName}

-- Where the clients are sent.
structure Watched (pattern : String) (newBackend : Backend) (repo : RepoName)
    (s : History Party) : Prop where
  through : s.1.router.RoutedThrough pattern repo.text
  routed : ∀ b, (routes s.2).getLast? = some b → s.1.router.resolve repo.text = b
  leads : ∀ b ∈ routes s.2, Leads newBackend b
  sent : Dispatched s.2 → ∀ b, Did .client s (.backendFor repo.text) b → Leads newBackend b

-- What the directories hold of the tag.
structure Followed (repo : RepoName) (t : TagName) (s : History Party) : Prop where
  tag : ∀ root now, lastAt root s.2 = some now → (s.1.volumes root).tag repo t = now
  manifest : ∀ root d, lastAt root s.2 = some (some d) → ((s.1.volumes root).manifest repo d).isSome
  answered : ∀ root before after,
    s.2 = before ++ ⟨.client, .fs root (.manifestDelete repo (.tag t)), .error .notFound⟩ :: after →
    ∀ d, lastAt root before ≠ some (some d)

section Call

variable {i : Party} {op : Op} {s s' : History Party} {answer : op.Ans}
variable (hs : recorded i op s answer s') (hg : allowed pattern newBackend repo t i op)

include hs

theorem Dispatched.before (h : Dispatched s'.2) : Dispatched s.2 := by
  intro before e after heq
  refine h before e (after ++ [⟨i, op, answer⟩]) ?_
  rw [hs.2, heq, List.append_assoc, List.cons_append]

theorem Unspoiled.before (h : Unspoiled repo t s'.2) : Unspoiled repo t s.2 := by
  intro before root call a after heq
  refine h before root call a (after ++ [⟨i, op, answer⟩]) ?_
  rw [hs.2, heq, List.append_assoc, List.cons_append]

include hg

theorem Watched.call (h : Watched pattern newBackend repo s) : Watched pattern newBackend repo s' := by
  have hsent : Dispatched s'.2 → ∀ b, Did .client s' (.backendFor repo.text) b →
      Leads newBackend b := by
    intro hd b hdid
    rcases (did_record_iff hs).mp hdid with hold | hnow
    · exact h.sent (hd.before hs) b hold
    · cases hnow
      have hany : routes s.2 ≠ [] := hd s.2 _ [] hs.2 rfl
      obtain ⟨last, hlast⟩ : ∃ last, (routes s.2).getLast? = some last :=
        ⟨_, List.getLast?_eq_some_getLast hany⟩
      have hb : b = s.1.router.resolve repo.text :=
        (Prod.mk.inj (World.handle_of_faulty rfl hs.1)).1.symm
      rw [hb, h.routed last hlast]
      exact h.leads last (List.mem_of_getLast? hlast)
  cases op with
  | upsert key backend =>
      cases i with
      | migration =>
          obtain ⟨rfl, hleads⟩ := hg
          have hworld : s'.1 = s.1.upsert key backend :=
            (Prod.mk.inj (World.handle_of_faulty rfl hs.1)).2.symm
          have hroutes : routes s'.2 = routes s.2 ++ [backend] := by
            rw [hs.2, routes_append]
            rfl
          refine ⟨?_, ?_, ?_, hsent⟩
          · rw [hworld]
            exact (RepoRouter.routedThrough_upsert h.through repo.text).mpr h.through
          · intro b hb
            rw [hroutes, List.getLast?_concat] at hb
            rw [hworld, ← Option.some.inj hb]
            exact RepoRouter.resolve_upsert_through h.through h.through
          · intro b hb
            rw [hroutes, List.mem_append, List.mem_singleton] at hb
            rcases hb with hb | rfl
            · exact h.leads b hb
            · exact hleads
      | client => exact hg.elim
      | others => exact hg.elim
  | _ =>
      have hrouter := World.router_of_faulty (by intro _ _ heq; cases heq) hs.1
      have hroutes : routes s'.2 = routes s.2 := by
        rw [hs.2, routes_append]
        cases i <;> exact List.append_nil _
      refine ⟨?_, ?_, ?_, hsent⟩
      · rw [hrouter]
        exact h.through
      · rw [hroutes, hrouter]
        exact h.routed
      · rw [hroutes]
        exact h.leads

omit hg

-- A call that shows in a directory.
theorem tagged_holds {root : RootId} {now : Option Digest} (hop : ClientCall repo t op)
    (h : tagged root ⟨i, op, answer⟩ = some now) : (s'.1.volumes root).tag repo t = now ∧
      ∀ d, now = some d → ((s'.1.volumes root).manifest repo d).isSome := by
  unfold tagged at h
  split at h
  · rename_i p r t' content d heq
    cases heq
    obtain ⟨rfl, ht⟩ := hop
    cases ht
    obtain ⟨rfl, hnow⟩ := Option.ite_none_right_eq_some.mp h
    obtain rfl := Option.some.inj hnow
    rw [World.volumes_of_put hs.1, Volumes.onRoots_of_mem List.mem_cons_self]
    refine ⟨by simp [Contents.put_tag], ?_⟩
    intro e he
    obtain rfl := Option.some.inj he
    simp [Contents.put_manifest]
  · rename_i p r t' value heq
    cases heq
    obtain ⟨rfl, ht⟩ := hop
    cases ht
    obtain ⟨rfl, hnow⟩ := Option.ite_none_right_eq_some.mp h
    obtain rfl := Option.some.inj hnow
    rw [World.volumes_of_delete hs.1 nofun, Volumes.onRoots_of_mem List.mem_cons_self]
    exact ⟨by simp [Contents.delete, Contents.setTag], nofun⟩
  · rename_i p r t' heq
    cases heq
    obtain ⟨rfl, ht⟩ := hop
    cases ht
    obtain ⟨rfl, hnow⟩ := Option.ite_none_right_eq_some.mp h
    obtain rfl := Option.some.inj hnow
    have hmissed : ∀ err, (Except.error .notFound : Except StorageError Unit) = .error err →
        err = .notFound := fun err h => (Except.error.inj h).symm
    rw [World.volumes_of_delete hs.1 hmissed, Volumes.onRoots_of_mem List.mem_cons_self]
    exact ⟨by simp [Contents.delete, Contents.setTag], nofun⟩
  · cases h

include hg

-- A call that shows in no directory, or in another one.
theorem tag_kept (hrespects : ∀ root call, i = .migration → op = .fs root call →
      Respects repo t (lastAt root s.2) call) {root : RootId} {now : Option Digest}
    (hlast : lastAt root s.2 = some now) (hnone : tagged root ⟨i, op, answer⟩ = none)
    (htag : (s.1.volumes root).tag repo t = now) : (s'.1.volumes root).tag repo t = now := by
  have hfailed : ∀ call : FsCall, ∀ a : Except StorageError call.Value,
      World.Faulty (.fs root call) s.1 a s'.1 → (∃ err, a = .error err ∧ err ≠ .notFound) →
      (s'.1.volumes root).tag repo t = now := by
    rintro call a ha ⟨err, rfl, hne⟩
    rw [World.tag_of_failed ha hne, htag]
  rcases World.effect_of_faulty hs.1 root with hsame | ⟨call, rfl, heffect⟩
  · rw [hsame, htag]
  rcases heffect.tag_after repo t with hsame | ⟨content, rfl, hput⟩ | ⟨rfl, hdelete⟩
  · rw [hsame, htag]
  · cases i with
    | migration =>
        rw [hput]
        exact (hrespects root _ rfl rfl rfl rfl now hlast).symm
    | client =>
        change Except StorageError Digest at answer
        rcases answer with err | d
        · refine hfailed _ _ hs.1 ⟨err, rfl, ?_⟩
          rintro rfl
          have hmissed := World.handle_of_answer hs.1 fun err h => (Except.error.inj h).symm
          have hok := (s.1.roots root).manifestPut_answer repo (.tag t) content
          exact nomatch (congrArg Prod.fst hmissed).symm.trans hok
        · simp [tagged] at hnone
    | others => exact absurd ⟨rfl, rfl⟩ hg
  · cases i with
    | migration =>
        rw [hdelete]
        exact (hrespects root _ rfl rfl rfl rfl now hlast).symm
    | client =>
        change Except StorageError Unit at answer
        rcases answer with err | _
        · refine hfailed _ _ hs.1 ⟨err, rfl, ?_⟩
          rintro rfl
          simp [tagged] at hnone
        · simp [tagged] at hnone
    | others => exact absurd ⟨rfl, rfl⟩ hg.2

include hg in
theorem Followed.call (hspoiled : Unspoiled repo t s'.2) (h : Followed repo t s) :
    Followed repo t s' := by
  have hrespects : ∀ root call, i = .migration → op = .fs root call →
      Respects repo t (lastAt root s.2) call := by
    rintro root call rfl rfl
    exact hspoiled s.2 root call answer [] hs.2
  -- The case of a call that does not show is the one where others could interfere.
  have hboth : ∀ root now, lastAt root s'.2 = some now →
      (s'.1.volumes root).tag repo t = now ∧
        ∀ d, now = some d → ((s'.1.volumes root).manifest repo d).isSome := by
    intro root now hlast
    rw [hs.2, lastAt_append] at hlast
    cases hshows : tagged root ⟨i, op, answer⟩ with
    | some shown =>
        rw [hshows, Option.some_or] at hlast
        obtain rfl := Option.some.inj hlast
        have hi : i = .client := by
          by_contra hne
          rw [tagged_of_other hne] at hshows
          cases hshows
        subst hi
        exact tagged_holds hs hg hshows
    | none =>
        rw [hshows, Option.none_or] at hlast
        refine ⟨tag_kept hs hg hrespects hlast hshows (h.tag root now hlast), ?_⟩
        rintro d rfl
        refine World.manifest_kept hs.1 ?_ (h.manifest root d hlast)
        rintro rfl
        cases i with
        | migration => exact hrespects root _ rfl rfl rfl hlast
        | client => cases hg.2
        | others =>
            obtain ⟨tag, htag⟩ := hg.1
            cases htag
  refine ⟨fun root now hlast => (hboth root now hlast).1,
    fun root d hlast => (hboth root _ hlast).2 d rfl, ?_⟩
  intro root before after heq d hlast
  rw [hs.2] at heq
  rcases append_singleton_split heq with ⟨hnow, rfl⟩ | ⟨after', hold⟩
  · cases hnow
    -- A delete does not miss a tag that is there.
    have hmissed := World.handle_of_answer hs.1 fun err h => (Except.error.inj h).symm
    have hanswer := (s.1.roots root).manifestDelete_answer repo (.tag t)
    have htag : (s.1.roots root).contents.tag repo t = some d := h.tag root _ hlast
    rw [Contents.present, htag] at hanswer
    cases (congrArg Prod.fst hmissed).symm.trans hanswer
  · exact h.answered root before after' hold d hlast

end Call

omit [Sha2] in
theorem uses_serve (requests acknowledged : List TagRequest) :
    (TagRequest.serve repo t requests acknowledged).Uses (ClientCall repo t) := by
  induction requests generalizing acknowledged with
  | nil => exact uses_pure _ _
  | cons request rest ih =>
      have hask : (StoreM.backendFor repo.text).Uses (ClientCall repo t) := ⟨rfl, fun _ => trivial⟩
      have hsend : (request.send repo t).Uses (ClientCall repo t) := by
        cases request with
        | put content =>
            refine (hask.bind fun b => ?_).bind fun _ => uses_pure _ _
            rw [b.manifestPut_flat]
            exact ⟨⟨rfl, rfl⟩, fun _ => trivial⟩
        | delete =>
            refine hask.bind fun b => ?_
            have hdelete : ∀ root ∈ b.leaves,
                (StoreM.fs root (.manifestDelete repo (.tag t))).Uses (ClientCall repo t) :=
              fun _ _ => ⟨⟨rfl, rfl⟩, fun _ => trivial⟩
            rw [b.manifestDelete_flat]
            exact uses_deleteFromAll b.leaves hdelete false none
      refine hsend.attempt.bind fun result => ?_
      rcases result with err | _
      · exact ih acknowledged
      · exact ih _

section Run

variable [SerdeJson] {β : Type}

abbrev Result (β : Type) : Party → Type
  | .migration => Except StorageError MigrateReport
  | .client => Except StorageError (List TagRequest)
  | .others => β

abbrev Live (β : Type) : Type := Pool Party Op Op.Ans (Result β) World

def start (pattern : String) (newBackend : Backend) (drain : Bool) (repo : RepoName) (t : TagName)
    (requests : List TagRequest) (others : Prog Op Op.Ans β) (w : World) : Live β where
  parties
    | .migration => run pattern newBackend drain
    | .client => TagRequest.serve repo t requests []
    | .others => others
  now := (w, [])

def concluded (newBackend : Backend) (repo : RepoName) (t : TagName) :
    (i : Party) → Result β i → List (Event Party Op Op.Ans) → Prop
  | .migration, .ok _, trace => Routed newBackend trace
  | .client, .ok acknowledged, trace => Shown newBackend repo t acknowledged trace
  | _, _, _ => True

theorem meets_start (pattern : String) (newBackend : Backend) (drain : Bool)
    (requests : List TagRequest) {others : Prog Op Op.Ans β}
    (hothers : others.Uses (Elsewhere repo t)) (w : World) :
    (start pattern newBackend drain repo t requests others w).Meets World.Faulty (fun i => Apart i)
      (fun i op _ _ _ => allowed pattern newBackend repo t i op)
      fun i value s => concluded newBackend repo t i value (own i s.2) := by
  apply Pool.meets_of_traced rfl
  · intro i
    cases i with
    | migration => exact uses_run pattern newBackend drain
    | client => exact uses_serve requests []
    | others => exact hothers
  · intro i
    cases i with
    | migration =>
        refine Prog.wp_post (wp_run_routes pattern newBackend drain) ?_
        rintro (err | report) trace h
        · trivial
        · exact h
    | client =>
        have hshown : Shown newBackend repo t [] [] := fun _ _ h => nomatch h
        refine Prog.wp_post (wp_serve requests [] [] hshown) ?_
        rintro (err | acknowledged) trace h
        · trivial
        · exact h
    | others => exact Prog.wp_post (Prog.wp_traced_of_uses hothers []) fun _ _ _ => trivial

omit [SerdeJson] in
-- A client's call on record has been sent somewhere.
theorem routes_of_lastAt {root : RootId} {now : Option Digest}
    {record : List (Event Party Op Op.Ans)} (hdispatched : Dispatched record)
    (hlast : lastAt root record = some now) : routes record ≠ [] := by
  obtain ⟨e, he, hshows⟩ := List.mem_filterMap.mp (List.mem_of_getLast? hlast)
  obtain ⟨before, after, rfl⟩ := List.append_of_mem he
  have hclient : e.party = .client := by
    by_contra hne
    rw [tagged_of_other hne] at hshows
    cases hshows
  have hbefore := hdispatched before e after rfl hclient
  rw [routes, List.filterMap_append]
  exact fun h => hbefore (List.append_eq_nil_iff.mp h).1

omit [SerdeJson] in
theorem reads_of_places {request : TagRequest} {w : World}
    (hroute : w.router.resolve repo.text = newBackend)
    (htag : ∀ p ∈ request.places newBackend, (w.volumes p).tag repo t = request.target)
    (hmanifest : ∀ p ∈ request.places newBackend, ∀ d, request.target = some d →
      ((w.volumes p).manifest repo d).isSome) :
    request.Reads (w.manifestGet repo (.tag t)) := by
  rw [TagRequest.Reads.eq_def, w.manifestGet_eq, hroute]
  cases request with
  | put content =>
      have hhead := htag _ (List.mem_singleton_self _)
      obtain ⟨bytes, hbytes⟩ :=
        Option.isSome_iff_exists.mp (hmanifest _ (List.mem_singleton_self _) _ rfl)
      have hread : newBackend.read w.volumes repo (.tag t) = some bytes := by
        obtain ⟨rest, horder⟩ := newBackend.readOrder_eq_cons
        rw [Backend.read, horder]
        apply first_cons_of_some
        exact (Contents.read_eq_some ..).mpr ⟨_, hhead, hbytes⟩
      refine ⟨bytes, by rw [hread]; rfl, ?_⟩
      exact (w.volumes_wellFormed newBackend.head).manifest_addressed repo _ bytes hbytes
  | delete =>
      have hnone : (Item.tag repo t).read newBackend w = .error .notFound := by
        apply Item.read_of_not_held
        intro root hroot h
        rw [Item.Held, htag root hroot] at h
        cases h
      rw [← hnone]
      exact (newBackend.manifestGet_eq w repo (.tag t)).symm

-- The last acknowledged update of a tag is what is read after the migration, if the
-- migration did not write over it.
theorem last_update_read {drain : Bool} {requests : List TagRequest} {others : Prog Op Op.Ans β}
    {w : World} {q : Live β} {report : MigrateReport} {acknowledged : List TagRequest}
    (hthrough : w.router.RoutedThrough pattern repo.text) (hothers : others.Uses (Elsewhere repo t))
    (hrun : Pool.Runs World.Faulty (start pattern newBackend drain repo t requests others w) q)
    (hmigrated : q.parties .migration = .pure (.ok report))
    (hserved : q.parties .client = .pure (.ok acknowledged)) (hdispatched : Dispatched q.now.2)
    (hcarriedOut : ∀ root err, Did .client q.now (.fs root (.manifestDelete repo (.tag t)))
      (.error err) → err = .notFound)
    (hunspoiled : Unspoiled repo t q.now.2) {request : TagRequest}
    (hlast : acknowledged.getLast? = some request) :
    request.Reads (q.now.1.manifestGet repo (.tag t)) := by
  have hmeets := meets_start pattern newBackend drain requests hothers w
  have hcomp := Pool.compatible_of_traced (ρ := Result β) World.Faulty
    (fun i op _ _ _ => allowed pattern newBackend repo t i op) (concluded newBackend repo t)
  have hwatched : Watched pattern newBackend repo q.now := by
    apply hmeets.invariant hcomp hrun (Watched pattern newBackend repo)
    · exact ⟨hthrough, nofun, nofun, fun _ _ h => nomatch h⟩
    · exact fun i op s answer s' hs hg h => h.call hs hg
  have hfollowed : Unspoiled repo t q.now.2 → Followed repo t q.now := by
    apply hmeets.invariant hcomp hrun fun s => Unspoiled repo t s.2 → Followed repo t s
    · exact fun _ => ⟨nofun, nofun, fun root before after heq => by simp [start] at heq⟩
    · exact fun i op s answer s' hs hg h hspoiled => (h (hspoiled.before hs)).call hs hg hspoiled
  have hfollowed := hfollowed hunspoiled
  have hend := hmeets.runs hcomp hrun
  have hrouted := hend .migration
  have hshown := hend .client
  rw [hmigrated] at hrouted
  rw [hserved] at hshown
  -- What the clients took for granted was so.
  have hfaithful : Faithful newBackend repo t (own .client q.now.2) := by
    refine ⟨?_, ?_, ?_⟩
    · intro b hb
      exact hwatched.sent hdispatched b (mem_own.mp hb).1
    · intro root err he
      exact hcarriedOut root err (mem_own.mp he).1
    · intro root before after heq d hd
      obtain ⟨before', after', hrecord, rfl⟩ := own_split heq
      rw [lastAt_own] at hd
      exact hfollowed.answered root before' after' hrecord d hd
  have hplaces : ∀ p ∈ request.places newBackend, lastAt p q.now.2 = some request.target := by
    intro p hp
    rw [← lastAt_own]
    exact hshown hfaithful request hlast p hp
  have hhead : newBackend.head ∈ request.places newBackend := by
    cases request with
    | put content => exact List.mem_singleton_self _
    | delete => exact newBackend.head_mem_leaves
  have hroute : q.now.1.router.resolve repo.text = newBackend := by
    have hany := routes_of_lastAt hdispatched (hplaces _ hhead)
    have hnew : Routed newBackend (own .migration q.now.2) := hrouted
    rw [Routed, routes_own] at hnew
    exact hwatched.routed _ (hnew.resolve_left hany)
  refine reads_of_places hroute ?_ ?_
  · exact fun p hp => hfollowed.tag p _ (hplaces p hp)
  · exact fun p hp d hd => hfollowed.manifest p d (hd ▸ hplaces p hp)

-- Runs in which the clients come after some part of the migration.

omit [Sha2] [SerdeJson] in
theorem dispatched_of_first {first rest : List (Event Party Op Op.Ans)}
    (hfirst : ∀ e ∈ first, e.party ≠ .client) (hroutes : routes first ≠ []) :
    Dispatched (first ++ rest) := by
  intro before e after heq he
  rcases List.append_eq_append_iff.mp heq with ⟨middle, rfl, _⟩ | ⟨middle, rfl, hrest⟩
  · rw [routes, List.filterMap_append]
    exact fun h => hroutes (List.append_eq_nil_iff.mp h).1
  · cases middle with
    | nil => simpa using hroutes
    | cons x middle =>
        obtain ⟨rfl, _⟩ := List.cons.inj hrest
        exact absurd he (hfirst e (by simp))

omit [SerdeJson] in
theorem unspoiled_of_first {first rest : List (Event Party Op Op.Ans)}
    (hfirst : ∀ e ∈ first, e.party ≠ .client)
    (hrest : ∀ e ∈ rest, e.party = .migration → e.op.isFs = false) :
    Unspoiled repo t (first ++ rest) := by
  intro before root call answer after heq
  have hnone : lastAt root before = none := by
    rcases List.append_eq_append_iff.mp heq with ⟨middle, rfl, hmiddle⟩ | ⟨middle, rfl, _⟩
    · have hmem : (⟨.migration, .fs root call, answer⟩ : Event Party Op Op.Ans) ∈ rest := by
        rw [hmiddle]
        simp
      cases hrest _ hmem rfl
    · have hshows : before.filterMap (tagged root) = [] := by
        rw [List.filterMap_eq_nil_iff]
        exact fun e he => tagged_of_other (hfirst e (List.mem_append_left _ he))
      rw [lastAt, hshows]
      rfl
  rw [hnone]
  cases call with
  | manifestPut r reference content =>
      cases reference with
      | tag t' => exact fun _ _ => nofun
      | digest d => trivial
  | manifestDelete r reference =>
      cases reference with
      | tag t' => exact fun _ _ => nofun
      | digest d => exact fun _ => nofun
  | _ => trivial

end Run

end

section

attribute [local instance] Sample.sha2 Sample.serdeJson

-- One image moves to another volume, and a client puts another one under its tag.
def retagging : Live Unit :=
  start "*" (.fs 1 1) false Sample.dataX Sample.v1 [.put Sample.brackets] (.pure ()) Sample.stored

def retagged (turns : Nat) : Live Unit :=
  retagging.play World.handle
    (List.replicate turns .migration ++ [.client, .client] ++ List.replicate (14 - turns) .migration)

-- The client comes right before the backfill writes the tag.
theorem retagged_before : ((retagged 12).parties .migration).isCall = false ∧
    ((retagged 12).parties .client).result = some (.ok [.put Sample.brackets]) ∧
    (∀ e ∈ (retagged 12).now.2.take 12, e.party ≠ .client) ∧
    routes ((retagged 12).now.2.take 12) ≠ [] ∧
    (retagged 12).now.1.manifestGet Sample.dataX (.tag Sample.v1) = .ok Sample.braces := by
  decide +kernel

def isDelete : Op → Bool
  | .fs _ (.manifestDelete _ _) => true
  | _ => false

-- And right after that.
theorem retagged_after : ((retagged 13).parties .migration).result =
      some (.ok { MigrateReport.empty with reposMigrated := 1, manifestsCopied := 1, cutover := true }) ∧
    ((retagged 13).parties .client).result = some (.ok [.put Sample.brackets]) ∧
    (∀ e ∈ (retagged 13).now.2.take 13, e.party ≠ .client) ∧
    routes ((retagged 13).now.2.take 13) ≠ [] ∧
    (∀ e ∈ (retagged 13).now.2.drop 13, e.party = .migration → e.op.isFs = false) ∧
    ∀ e ∈ (retagged 13).now.2, isDelete e.op = false := by
  decide +kernel

theorem retagged_reverted : ∃ q : Live Unit, Pool.Runs World.handle.sem retagging q ∧
    Dispatched q.now.2 ∧ (q.parties .migration).isCall = false ∧
    q.parties .client = .pure (.ok [.put Sample.brackets]) ∧
    q.now.1.manifestGet Sample.dataX (.tag Sample.v1) = .ok Sample.braces ∧
    ¬(TagRequest.put Sample.brackets).Reads (q.now.1.manifestGet Sample.dataX (.tag Sample.v1)) := by
  obtain ⟨hover, hserved, hfirst, hroutes, hread⟩ := retagged_before
  refine ⟨retagged 12, Pool.runs_play _ _ _, ?_, hover, Prog.eq_pure_of_result hserved, hread, ?_⟩
  · rw [← List.take_append_drop 12 (retagged 12).now.2]
    exact dispatched_of_first hfirst hroutes
  · rw [hread]
    rintro ⟨bytes, hbytes, hdigest⟩
    rw [← Except.ok.inj hbytes] at hdigest
    exact absurd hdigest (by decide)

theorem retagged_read : (TagRequest.put Sample.brackets).Reads
    ((retagged 13).now.1.manifestGet Sample.dataX (.tag Sample.v1)) := by
  obtain ⟨hmigrated, hserved, hfirst, hroutes, hrest, hdeletes⟩ := retagged_after
  have hothers : (Prog.pure () : Prog Op Op.Ans Unit).Uses (Elsewhere Sample.dataX Sample.v1) :=
    trivial
  have hsplit := List.take_append_drop 13 (retagged 13).now.2
  have hdispatched : Dispatched (retagged 13).now.2 := by
    rw [← hsplit]
    exact dispatched_of_first hfirst hroutes
  have hunspoiled : Unspoiled Sample.dataX Sample.v1 (retagged 13).now.2 := by
    rw [← hsplit]
    exact unspoiled_of_first hfirst hrest
  have hlast : [TagRequest.put Sample.brackets].getLast? = some (.put Sample.brackets) := rfl
  have hrun : Pool.Runs World.Faulty retagging (retagged 13) :=
    (Pool.runs_play _ _ _).mono World.faulty_of_handle
  have hthrough : Sample.stored.router.RoutedThrough "*" Sample.dataX.text := by decide
  refine last_update_read hthrough hothers hrun (Prog.eq_pure_of_result hmigrated)
    (Prog.eq_pure_of_result hserved) hdispatched ?_ hunspoiled hlast
  intro root err hdid
  cases hdeletes _ hdid

end

end RspaceRegistry.Migrate.Updating
