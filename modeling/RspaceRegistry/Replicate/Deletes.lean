import RspaceRegistry.Backend.Sourced
import RspaceRegistry.Migrate.Uses
import RspaceRegistry.Multi.Refine
import RspaceRegistry.World.Item

namespace RspaceRegistry.Replicate

open Calls Fallible Ordered MultiStore

-- A pass while a client deletes something and others are at work.
inductive Party
  | pass
  | deleter
  | clients
deriving DecidableEq

section

variable [Sha2]

section Pass

variable {src : Backend} {rely : History Party → History Party → Prop}
variable (hrely : ∀ s s', rely s s' → Steady .pass s s')

include hrely

theorem wp_copyBlobs_sourced (dst : Backend) (entries : List Key) (report : ReplicateReport)
    (s : History Party) :
    (copyBlobs src.storage dst.storage entries report).wp (recorded .pass) rely (Sourced .pass src)
      (Outcome (fun _ s' => Adds .pass (fun _ _ => True) s s') fun _ _ => True) s := by
  induction entries generalizing report s with
  | nil => exact .refl s
  | cons entry rest ih =>
      have hrest : ∀ report s', Adds .pass (fun _ _ => True) s s' →
          (copyBlobs src.storage dst.storage rest report).wp (recorded .pass) rely
            (Sourced .pass src)
            (Outcome (fun _ s' => Adds .pass (fun _ _ => True) s s') fun _ _ => True) s' := by
        intro report s' h
        refine Fallible.wp_post (ih report s') ?_
        rintro (err | report') s'' h'
        · trivial
        · exact h.trans h'
      rw [copyBlobs]
      apply wp_sourcedBlob hrely
      · exact fun s' h => hrest report s' h
      · exact fun bytes s' h => hrest _ s' h
      · exact fun _ _ => trivial

theorem wp_copyManifests_sourced (dst : Backend) (entries : List Key) (report : ReplicateReport)
    (s : History Party) :
    (copyManifests src.storage dst.storage entries report).wp (recorded .pass) rely
      (Sourced .pass src)
      (Outcome (fun _ s' => Adds .pass (fun _ _ => True) s s') fun _ _ => True) s := by
  induction entries generalizing report s with
  | nil => exact .refl s
  | cons entry rest ih =>
      have hrest : ∀ report s', Adds .pass (fun _ _ => True) s s' →
          (copyManifests src.storage dst.storage rest report).wp (recorded .pass) rely
            (Sourced .pass src)
            (Outcome (fun _ s' => Adds .pass (fun _ _ => True) s s') fun _ _ => True) s' := by
        intro report s' h
        refine Fallible.wp_post (ih report s') ?_
        rintro (err | report') s'' h'
        · trivial
        · exact h.trans h'
      rw [copyManifests]
      refine wp_attemptThen hrely (fun _ _ _ _ => sourced_of_looks)
        (dst.readOnly_manifestGet _ _) ?_
      intro result s₁ h₁
      have h₁ : Adds .pass (fun _ _ => True) s s₁ := h₁.mono fun _ _ _ => trivial
      rcases result with err | bytes
      · by_cases hne : err = .notFound
        · subst hne
          apply wp_sourcedManifest hrely
          · intro t h
            cases h
          · exact fun s' h => hrest report s' (h₁.trans h)
          · exact fun s' h => hrest _ s' (h₁.trans h)
          · exact fun _ _ => trivial
        · cases err <;> first | exact absurd rfl hne | trivial
      · exact hrest report s₁ h₁

theorem wp_copyTags_sourced (dst : Backend) (entries : List (RepoName × TagName × Digest))
    (s : History Party) (htags : ∀ e ∈ entries, TagRead .pass src e.1 e.2.1 s) :
    (copyTags src.storage dst.storage entries).wp (recorded .pass) rely (Sourced .pass src)
      (Outcome (fun _ s' => Adds .pass (fun _ _ => True) s s') fun _ _ => True) s := by
  induction entries generalizing s with
  | nil => exact .refl s
  | cons entry rest ih =>
      obtain ⟨repo, t, d⟩ := entry
      have hrest : ∀ s', Adds .pass (fun _ _ => True) s s' →
          (copyTags src.storage dst.storage rest).wp (recorded .pass) rely (Sourced .pass src)
            (Outcome (fun _ s' => Adds .pass (fun _ _ => True) s s') fun _ _ => True) s' := by
        intro s' h
        refine Fallible.wp_post (ih s' fun e he => ?_) ?_
        · exact (htags e (List.mem_cons_of_mem _ he)).adds h
        · rintro (err | _) s'' h'
          · trivial
          · exact h.trans h'
      rw [copyTags]
      apply wp_sourcedManifest hrely
      · rintro t' heq
        cases heq
        exact htags _ List.mem_cons_self
      · exact hrest
      · exact hrest
      · exact fun _ _ => trivial

theorem wp_fanOut_sourced (wanted : Wanted) (dsts : List Backend) (report : ReplicateReport)
    (s : History Party) (htags : ∀ e ∈ wanted.tags, TagRead .pass src e.1 e.2.1 s) :
    (fanOut src.storage wanted (dsts.map Backend.storage) report).wp (recorded .pass) rely
      (Sourced .pass src) (fun _ _ => True) s := by
  induction dsts generalizing report s with
  | nil => trivial
  | cons dst rest ih =>
      rw [List.map_cons, fanOut, Fallible.wp_bind, copyInto, Fallible.wp_bind]
      refine Fallible.wp_post (wp_copyBlobs_sourced hrely dst _ _ s) ?_
      rintro (err | report₁) s₁ h₁
      · trivial
      rw [outcome_ok, Fallible.wp_bind]
      refine Fallible.wp_post (wp_copyManifests_sourced hrely dst _ _ s₁) ?_
      rintro (err | report₂) s₂ h₂
      · trivial
      rw [outcome_ok, Fallible.wp_bind]
      refine Fallible.wp_post (wp_copyTags_sourced hrely dst _ s₂ fun e he => ?_) ?_
      · exact (htags e he).adds (h₁.trans h₂)
      rintro (err | _) s₃ h₃
      · trivial
      · exact ih report₂ s₃ fun e he => (htags e he).adds ((h₁.trans h₂).trans h₃)

variable [SerdeJson]

theorem wp_walkTags_sourced (repo : RepoName) (listed : List TagName)
    (tags : List (TagName × Digest)) (walked : Migrate.Walked) (s : History Party)
    (htags : ∀ e ∈ tags, TagRead .pass src repo e.1 s) :
    (Migrate.walkTags src.storage repo listed tags walked).wp (recorded .pass) rely
      (Sourced .pass src)
      (Outcome (fun found s' => Adds .pass (fun _ _ => True) s s' ∧
        ∀ e ∈ found.1, TagRead .pass src repo e.1 s') fun _ _ => True) s := by
  induction listed generalizing tags walked s with
  | nil => exact ⟨.refl s, htags⟩
  | cons tag rest ih =>
      have hguar : ∀ op s answer s', op.Looks → Sourced Party.pass src op s answer s' :=
        fun _ _ _ _ => sourced_of_looks
      have hcall : ∀ root, (Op.fs root (.manifestGet repo (.tag tag))).Confined [] [] :=
        fun _ => trivial
      rw [Migrate.walkTags, src.manifestGet_flat, Fallible.wp_bind]
      refine Fallible.wp_post (wp_readSecondaries hrely hguar hcall src.readOrder s) ?_
      rintro (err | bytes) s₁ h₁
      · trivial
      obtain ⟨hadds₁, p, hp, hdid⟩ := h₁
      have hread : TagRead .pass src repo tag s₁ := ⟨p, (src.mem_readOrder p).mp hp, bytes, hdid⟩
      have hadds₁ : Adds .pass (fun _ _ => True) s s₁ := hadds₁.mono fun _ _ _ => trivial
      refine wp_readThen hrely hguar (Migrate.readOnly_walk src repo _ bytes walked) ?_
        fun _ _ => trivial
      intro walked' s₂ hadds₂
      have hadds₂ : Adds .pass (fun _ _ => True) s₁ s₂ := hadds₂.mono fun _ _ _ => trivial
      refine Fallible.wp_post (ih _ walked' s₂ ?_) ?_
      · intro e he
        rcases List.mem_append.mp he with he | he
        · exact ((htags e he).adds hadds₁).adds hadds₂
        · rw [List.mem_singleton.mp he]
          exact hread.adds hadds₂
      · rintro (err | found) s₃ h₃
        · trivial
        · exact ⟨(hadds₁.trans hadds₂).trans h₃.1, h₃.2⟩

theorem wp_gather_sourced (cfg : ReplicateConfig) (repos : List RepoName) (wanted : Wanted)
    (s : History Party) (htags : ∀ e ∈ wanted.tags, TagRead .pass src e.1 e.2.1 s) :
    (gather src.storage cfg repos wanted).wp (recorded .pass) rely (Sourced .pass src)
      (Outcome (fun wanted' s' => ∀ e ∈ wanted'.tags, TagRead .pass src e.1 e.2.1 s')
        fun _ _ => True) s := by
  induction repos generalizing wanted s with
  | nil => exact htags
  | cons repo rest ih =>
      have hguar : ∀ op s answer s', op.Looks → Sourced Party.pass src op s answer s' :=
        fun _ _ _ _ => sourced_of_looks
      have hgathered : ∀ entries walked s', Adds .pass (fun _ _ => True) s s' →
          (∀ e ∈ entries, TagRead .pass src repo e.1 s') →
          ∀ e ∈ (wanted.gathered repo (entries, walked)).tags, TagRead .pass src e.1 e.2.1 s' := by
        intro entries walked s' h hentries e he
        rcases List.mem_append.mp he with he | he
        · exact (htags e he).adds h
        · obtain ⟨entry, hentry, rfl⟩ := List.mem_map.mp he
          exact hentries entry hentry
      rw [gather, gatherRepo_eq, bind_assoc]
      refine wp_readThen hrely hguar (src.readOnly_listTags repo) ?_ fun _ _ => trivial
      intro tags s₁ h₁
      have h₁ : Adds .pass (fun _ _ => True) s s₁ := h₁.mono fun _ _ _ => trivial
      rw [bind_assoc, Fallible.wp_bind]
      refine Fallible.wp_post (wp_walkTags_sourced hrely repo _ [] _ s₁ (by simp)) ?_
      rintro (err | ⟨entries, walked⟩) s₂ h₂
      · trivial
      obtain ⟨h₂, hentries⟩ := h₂
      rw [outcome_ok]
      split
      · rw [bind_assoc]
        refine wp_readThen hrely hguar (src.readOnly_listManifestDigests repo) ?_ fun _ _ => trivial
        intro digests s₃ h₃
        have h₃ : Adds .pass (fun _ _ => True) s₂ s₃ := h₃.mono fun _ _ _ => trivial
        rw [bind_assoc]
        refine wp_readThen hrely hguar (Migrate.readOnly_walkDetached src repo _ _) ?_
          fun _ _ => trivial
        intro walked' s₄ h₄
        have h₄ : Adds .pass (fun _ _ => True) s₃ s₄ := h₄.mono fun _ _ _ => trivial
        refine ih _ s₄ (hgathered _ _ s₄ (((h₁.trans h₂).trans h₃).trans h₄) ?_)
        exact fun e he => ((hentries e he).adds h₃).adds h₄
      · exact ih _ s₂ (hgathered _ _ s₂ (h₁.trans h₂) hentries)

theorem wp_run_sourced (m : MultiHandle) (hsrc : m.primary = src) (cfg : ReplicateConfig)
    (s : History Party) :
    (run m.multi cfg).wp (recorded .pass) rely (Sourced .pass src) (fun _ _ => True) s := by
  subst hsrc
  rw [run, MultiHandle.multi, secondaries_multi]
  refine wp_readThen hrely (fun _ _ _ _ => sourced_of_looks) m.primary.readOnly_listRepos ?_
    fun _ _ => trivial
  intro repos s₁ _
  rw [Fallible.wp_bind]
  refine Fallible.wp_post (wp_gather_sourced hrely cfg repos.toList .empty s₁ (by simp [Wanted.empty])) ?_
  rintro (err | wanted) s₂ htags
  · trivial
  · exact wp_fanOut_sourced hrely wanted _ _ s₂ htags

end Pass

section Delete

variable (item : Item)

-- The delete has been through the directory, which carried its part out.
def Visited (root : RootId) (record : List (Event Party Op Op.Ans)) : Prop :=
  ∃ answer : Except StorageError item.deleteCall.Value,
    (∀ err, answer = .error err → err = .notFound) ∧
      ⟨.deleter, .fs root item.deleteCall, answer⟩ ∈ record

-- Each directory was called for its part.
def Called (root : RootId) (s : History Party) : Prop :=
  ∃ answer, Did .deleter s (.fs root item.deleteCall) answer

variable {item} {rely : History Party → History Party → Prop}

def OnlyDeletes (item : Item) (op : Op) (_ : History Party) (_ : op.Ans) (_ : History Party) : Prop :=
  ∃ root, op = .fs root item.deleteCall

theorem Called.adds {New : (op : Op) → op.Ans → Prop} {root : RootId} {s s' : History Party}
    (h : Called item root s) (hadds : Adds .deleter New s s') : Called item root s' := by
  obtain ⟨answer, hd⟩ := h
  exact ⟨answer, hadds.kept _ _ hd⟩

variable (hrely : ∀ s s', rely s s' → Steady .deleter s s')

include hrely

theorem wp_deleteAt (root : RootId) (s : History Party) :
    (item.deleteAt root).wp (recorded .deleter) rely (OnlyDeletes item)
      (fun _ s' => Adds .deleter (fun _ _ => True) s s' ∧ Called item root s') s := by
  have hcalled : ∀ s₁, rely s s₁ → ∀ answer s',
      recorded .deleter (.fs root item.deleteCall) s₁ answer s' →
        Adds .deleter (fun _ _ => True) s s' ∧ Called item root s' := by
    intro s₁ hr answer s' hs
    have hne : ∀ pattern backend, Op.fs root item.deleteCall ≠ .upsert pattern backend := by
      intro pattern backend h
      cases h
    refine ⟨(Adds.of_steady (hrely s s₁ hr)).trans ?_, answer, did_of_record hs⟩
    exact (Adds.of_record hne hs).mono fun _ _ _ => trivial
  cases item with
  | blob repo d => exact fun s₁ hr answer s' hs => ⟨⟨root, rfl⟩, hcalled s₁ hr answer s' hs⟩
  | manifest repo d => exact fun s₁ hr answer s' hs => ⟨⟨root, rfl⟩, hcalled s₁ hr answer s' hs⟩
  | tag repo t => exact fun s₁ hr answer s' hs => ⟨⟨root, rfl⟩, hcalled s₁ hr answer s' hs⟩

-- A delete goes on through all directories, whatever they answer.
theorem wp_delete (b : Backend) (s : History Party) :
    (item.delete b).wp (recorded .deleter) rely (OnlyDeletes item)
      (fun _ s' => ∀ root ∈ b.leaves, Called item root s') s := by
  have hall : ∀ (roots : List RootId) deletedAny lastErr s,
      (deleteFromAll (fun root => item.deleteAt root) roots deletedAny lastErr).wp
        (recorded .deleter) rely (OnlyDeletes item)
        (fun _ s' => Adds .deleter (fun _ _ => True) s s' ∧ ∀ root ∈ roots, Called item root s') s := by
    intro roots
    induction roots with
    | nil =>
        intro deletedAny lastErr s
        cases deletedAny with
        | true => exact ⟨.refl s, by simp⟩
        | false => cases lastErr <;> exact ⟨.refl s, by simp⟩
    | cons root rest ih =>
        intro deletedAny lastErr s
        rw [deleteFromAll, Fallible.wp_bind, Fallible.wp_attempt]
        refine Fallible.wp_post (wp_deleteAt hrely root s) ?_
        rintro result s₁ ⟨h₁, hcalled⟩
        have hrest : ∀ deletedAny lastErr,
            (deleteFromAll (fun root => item.deleteAt root) rest deletedAny lastErr).wp
              (recorded .deleter) rely (OnlyDeletes item) (fun _ s' =>
                Adds .deleter (fun _ _ => True) s s' ∧ ∀ r ∈ root :: rest, Called item r s') s₁ := by
          intro deletedAny lastErr
          refine Fallible.wp_post (ih deletedAny lastErr s₁) ?_
          rintro result s₂ ⟨h₂, hcalls⟩
          refine ⟨h₁.trans h₂, ?_⟩
          intro r hr
          rcases List.mem_cons.mp hr with rfl | hr
          · exact hcalled.adds h₂
          · exact hcalls r hr
        rw [outcome_ok]
        rcases result with err | _
        · cases err <;> exact hrest _ _
        · exact hrest _ _
  rw [item.delete_flat]
  exact Fallible.wp_post (hall b.leaves false none s) fun _ _ h => h.2

end Delete

section Pool

variable [SerdeJson] {α : Type}

abbrev Result (α : Type) : Party → Type
  | .pass => Except StorageError ReplicateReport
  | .deleter => Except StorageError Unit
  | .clients => α

abbrev Deleting (α : Type) : Type := Pool Party Op Op.Ans (Result α) World

def start (m : MultiHandle) (cfg : ReplicateConfig) (item : Item) (clients : Prog Op Op.Ans α)
    (w : World) : Deleting α where
  parties
    | .pass => run m.multi cfg
    | .deleter => item.delete m.backend
    | .clients => clients
  now := (w, [])

-- Calls that put the item nowhere, and leave the rules alone.
def Spares (item : Item) : Op → Prop
  | .fs _ call => ¬item.Writes call
  | .upsert _ _ => False
  | _ => True

-- The delete has been through a directory, but the pass has read the item before the
-- delete came to the place where it read it.
def Stale (m : MultiHandle) (item : Item) (root : RootId) (record : List (Event Party Op Op.Ans)) :
    Prop :=
  Visited item root record ∧ ∃ p ∈ m.primary.leaves, ∃ bytes before after,
    record = before ++ ⟨.pass, .fs p item.readCall, .ok bytes⟩ :: after ∧ ¬Visited item p before

-- The pass puts no copy back that it took before the delete.
def Fresh (m : MultiHandle) (item : Item) (record : List (Event Party Op Op.Ans)) : Prop :=
  ∀ before root call answer after, record = before ++ ⟨.pass, .fs root call, answer⟩ :: after →
    item.Writes call → ¬Stale m item root before

variable {m : MultiHandle} {item : Item}

-- What each party goes by.
def promise (m : MultiHandle) (item : Item) : Party → Sem Op Op.Ans (History Party)
  | .pass => Sourced .pass m.primary
  | .deleter => OnlyDeletes item
  | .clients => fun op _ _ _ => Spares item op

omit [SerdeJson] in
theorem not_upsert {i : Party} {op : Op} {s s' : History Party} {answer : op.Ans}
    (h : promise m item i op s answer s') (pattern : String) (backend : Backend) :
    op ≠ .upsert pattern backend := by
  cases i with
  | pass => exact h.rules pattern backend
  | deleter =>
      obtain ⟨root, rfl⟩ := h
      intro heq
      cases heq
  | clients =>
      rintro rfl
      exact h

omit [SerdeJson] in
theorem compatible {post : (i : Party) → Result α i → History Party → Prop}
    (hpost : ∀ i value s s', Steady i s s' → post i value s → post i value s') :
    Pool.Compatible World.Faulty (fun i => Steady i) (promise m item) post where
  refl := Steady.refl
  trans := fun _ _ _ _ => Steady.trans
  others := fun _ _ hij _ _ _ _ hs hg =>
    ⟨World.router_of_faulty (not_upsert hg) hs.1, fun _ _ => did_of_other hij hs⟩
  stable := hpost

-- The delete ends when every directory has been called.
def AllCalled (m : MultiHandle) (item : Item) : (i : Party) → Result α i → History Party → Prop
  | .deleter, _, s => ∀ root ∈ m.backend.leaves, Called item root s
  | _, _, _ => True

omit [SerdeJson] in
theorem allCalled_steady (i : Party) (value : Result α i) (s s' : History Party)
    (h : Steady i s s') (hcalled : AllCalled m item i value s) : AllCalled m item i value s' := by
  cases i with
  | deleter =>
      have hadds : Adds .deleter (fun _ _ => True) s s' := .of_steady h
      exact fun root hroot => (hcalled root hroot).adds hadds
  | _ => trivial

theorem meets_start (cfg : ReplicateConfig) {clients : Prog Op Op.Ans α}
    (hclients : clients.Uses (Spares item)) (w : World) :
    (start m cfg item clients w).Meets World.Faulty (fun i => Steady i) (promise m item)
      (AllCalled m item) := by
  intro i
  cases i with
  | pass => exact wp_run_sourced (fun _ _ h => h) m rfl cfg _
  | deleter => exact wp_delete (fun _ _ h => h) m.backend _
  | clients => exact Prog.wp_calls hclients _ _ _

-- What is known of a run in which the pass puts no stale copy back.
structure Deleted (m : MultiHandle) (item : Item) (s : History Party) : Prop where
  addressed : ∀ root repo d bytes, Did .pass s (.fs root (.manifestGet repo (.digest d))) (.ok bytes) →
    sha256Digest bytes = d
  unread : ∀ p bytes before after,
    s.2 = before ++ ⟨.pass, .fs p item.readCall, .ok bytes⟩ :: after → ¬Visited item p before
  gone : ∀ root, Visited item root s.2 → ¬item.Held (s.1.volumes root)

section Call

variable {i : Party} {op : Op} {s s' : History Party} {answer : op.Ans}
variable (hs : recorded i op s answer s') (hg : promise m item i op s answer s')

include hs

omit [SerdeJson] in
theorem Fresh.before (h : Fresh m item s'.2) : Fresh m item s.2 := by
  intro before root call a after heq
  refine h before root call a (after ++ [⟨i, op, answer⟩]) ?_
  rw [hs.2, heq, List.append_assoc, List.cons_append]

omit [SerdeJson] in
theorem visited_before {root : RootId} (h : Visited item root s'.2) :
    Visited item root s.2 ∨ ∃ a : Except StorageError item.deleteCall.Value,
      (∀ err, a = .error err → err = .notFound) ∧
        (⟨.deleter, .fs root item.deleteCall, a⟩ : Event Party Op Op.Ans) = ⟨i, op, answer⟩ := by
  obtain ⟨a, ha, hmem⟩ := h
  rw [hs.2, List.mem_append, List.mem_singleton] at hmem
  exact hmem.imp (fun hold => ⟨a, ha, hold⟩) fun hnew => ⟨a, ha, hnew⟩

include hg

omit [SerdeJson] in
-- The read that a copy of the item follows.
theorem exists_read (hd : Deleted m item s) {root : RootId} {call : FsCall} (hi : i = .pass)
    (hop : op = .fs root call) (hwrites : item.Writes call) :
    ∃ p ∈ m.primary.leaves, ∃ bytes, Did .pass s (.fs p item.readCall) (.ok bytes) := by
  subst hi
  cases call with
  | blobWrite d content =>
      obtain ⟨repo, rfl⟩ := hwrites
      exact hg.blob root d content hop
  | manifestPut repo reference content =>
      rcases hwrites with rfl | ⟨t, rfl, rfl⟩
      · obtain ⟨p, hp, d, hdid⟩ := hg.manifest root repo reference content hop
        have haddr := hd.addressed p repo d content hdid
        subst haddr
        exact ⟨p, hp, content, hdid⟩
      · exact hg.tag root repo t content hop
  | _ => exact hwrites.elim

omit [SerdeJson] in
theorem Deleted.call (hfresh : Fresh m item s'.2) (hd : Deleted m item s) : Deleted m item s' where
  addressed := by
    intro root repo d bytes hdid
    rcases (did_record_iff hs).mp hdid with hdid | hnow
    · exact hd.addressed root repo d bytes hdid
    · cases hnow
      have hheld := congrArg Prod.fst (World.handle_of_answer hs.1 nofun)
      have hread : (s.1.roots root).manifestGet repo (.digest d) = .ok bytes := hheld
      rw [FsStorage.manifestGet_eq, orNotFound_eq_ok] at hread
      exact (s.1.volumes_wellFormed root).manifest_addressed repo d bytes hread
  unread := by
    intro p bytes before after heq
    rw [hs.2] at heq
    rcases append_singleton_split heq with ⟨hnow, rfl⟩ | ⟨after', hold⟩
    · cases hnow
      exact fun hvisited => hd.gone p hvisited (Item.held_of_read hs.1)
    · exact hd.unread p bytes before after' hold
  gone := by
    intro root hvisited hheld
    -- Who has put the item there?
    have hbefore : item.Held (s.1.volumes root) ∨
        ∃ call, op = .fs root call ∧ item.Writes call := by
      rcases World.effect_of_faulty hs.1 root with hsame | ⟨call, rfl, heffect⟩
      · exact .inl (hsame ▸ hheld)
      · exact (Item.held_of_effect heffect hheld).imp_right fun hw => ⟨call, rfl, hw⟩
    rcases visited_before hs hvisited with hvisited | ⟨a, ha, hnow⟩
    · rcases hbefore with hheld | ⟨call, rfl, hwrites⟩
      · exact hd.gone root hvisited hheld
      · cases i with
        | pass =>
            obtain ⟨p, hp, bytes, hdid⟩ := exists_read hs hg hd rfl rfl hwrites
            obtain ⟨before, after, heq⟩ := List.append_of_mem hdid
            exact hfresh s.2 root call answer [] hs.2 hwrites
              ⟨hvisited, p, hp, bytes, before, after, heq, hd.unread p bytes before after heq⟩
        | deleter =>
            obtain ⟨p, hop⟩ := hg
            cases hop
            cases item <;> exact hwrites
        | clients => exact hg hwrites
    · cases hnow
      exact Item.not_held_of_delete hs.1 ha hheld

end Call

-- What a client has deleted stays deleted, when the pass puts no stale copy back.
theorem deleted_not_found {cfg : ReplicateConfig} {clients : Prog Op Op.Ans α}
    (hclients : clients.Uses (Spares item)) {w : World} {q : Deleting α}
    (hrun : Pool.Runs World.Faulty (start m cfg item clients w) q)
    (hdeleted : q.parties .deleter = .pure (.ok ()))
    (hcarried : ∀ root err, Did .deleter q.now (.fs root item.deleteCall) (.error err) →
      err = .notFound)
    (hfresh : Fresh m item q.now.2) : item.read m.backend q.now.1 = .error .notFound := by
  have hmeets := meets_start (m := m) cfg hclients w
  have hgone : Fresh m item q.now.2 → Deleted m item q.now := by
    apply hmeets.invariant (compatible allCalled_steady) hrun fun s => Fresh m item s.2 → Deleted m item s
    · intro _
      constructor
      · intro root repo d bytes hd
        cases hd
      · intro p bytes before after heq
        simp [start] at heq
      · rintro root ⟨a, _, hmem⟩
        cases hmem
    · intro i op s answer s' hs hg hinv hfresh
      exact (hinv (hfresh.before hs)).call hs hg hfresh
  have hcalled : ∀ root ∈ m.backend.leaves, Called item root q.now := by
    have hend := (hmeets.runs (compatible allCalled_steady) hrun) .deleter
    rw [hdeleted] at hend
    exact hend
  apply Item.read_of_not_held
  intro root hroot
  obtain ⟨answer, hdid⟩ := hcalled root hroot
  refine (hgone hfresh).gone root ⟨answer, ?_, hdid⟩
  rintro err rfl
  exact hcarried root err hdid

end Pool

end

section

attribute [local instance] Sample.sha2 Sample.serdeJson

-- One image on the primary of a pair, and the delete of its tag.
def deletingTag : Deleting Unit :=
  start pair ⟨none⟩ (.tag Sample.dataX Sample.v1) (.pure ()) Sample.stored

-- The pass has gathered, and copied the manifest; then the tag is deleted, and then the
-- pass copies the tag.
def resurrected : Deleting Unit :=
  deletingTag.play World.handle (List.replicate 7 .pass ++ [.deleter, .deleter, .pass, .pass])

theorem deleted_tag_resurrected : ∃ q : Deleting Unit,
    Pool.Runs World.handle.sem deletingTag q ∧ (q.parties .pass).isCall = false ∧
      q.parties .deleter = .pure (.ok ()) ∧
      (Item.tag Sample.dataX Sample.v1).read pair.backend q.now.1 = .ok Sample.braces := by
  have hend : (resurrected.parties .pass).isCall = false ∧
      (resurrected.parties .deleter).result = some (.ok ()) ∧
      (Item.tag Sample.dataX Sample.v1).read pair.backend resurrected.now.1 = .ok Sample.braces := by
    decide +kernel
  exact ⟨resurrected, Pool.runs_play _ _ _, hend.1, Prog.eq_pure_of_result hend.2.1, hend.2.2⟩

-- The same delete after the pass.
def outlived : Deleting Unit :=
  deletingTag.play World.handle (List.replicate 9 .pass ++ [.deleter, .deleter])

-- A directory has done its part of a tag's delete.
def carriedOut : Event Party Op Op.Ans → Bool
  | ⟨.deleter, .fs _ (.manifestDelete _ _), .error err⟩ => err = .notFound
  | _ => true

theorem outlived_end : (outlived.parties .pass).isCall = false ∧
    (outlived.parties .deleter).result = some (.ok ()) ∧
    outlived.now.2.map Event.party = List.replicate 9 .pass ++ [.deleter, .deleter] ∧
    outlived.now.2.all carriedOut := by
  decide +kernel

-- Nothing is on record of the delete before the pass is over.
theorem outlived_fresh : Fresh pair (.tag Sample.dataX Sample.v1) outlived.now.2 := by
  intro before root call answer after heq _ hstale
  obtain ⟨⟨a, _, hmem⟩, _⟩ := hstale
  have horder : (outlived.now.2.map Event.party).Pairwise fun i j => i = .deleter → j ≠ .pass := by
    rw [outlived_end.2.2.1]
    decide
  rw [heq, List.map_append, List.pairwise_append] at horder
  exact horder.2.2 .deleter (List.mem_map_of_mem hmem) .pass List.mem_cons_self rfl rfl

theorem outlived_carriedOut : ∀ root err, Did .deleter outlived.now
    (.fs root (Item.tag Sample.dataX Sample.v1).deleteCall) (.error err) → err = .notFound := by
  intro root err hdid
  have hall := List.all_eq_true.mp outlived_end.2.2.2 _ hdid
  exact of_decide_eq_true hall

theorem outlived_not_found :
    (Item.tag Sample.dataX Sample.v1).read pair.backend outlived.now.1 = .error .notFound := by
  have hclients : (Prog.pure () : Prog Op Op.Ans Unit).Uses
      (Spares (.tag Sample.dataX Sample.v1)) := trivial
  exact deleted_not_found hclients ((Pool.runs_play _ _ _).mono World.faulty_of_handle)
    (Prog.eq_pure_of_result outlived_end.2.1) outlived_carriedOut outlived_fresh

end

end RspaceRegistry.Replicate
