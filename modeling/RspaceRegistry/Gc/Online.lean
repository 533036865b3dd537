import RspaceRegistry.Gc
import RspaceRegistry.RepoRouter.Storage
import RspaceRegistry.World.Effect
import RspaceRegistry.World.Recorded

namespace RspaceRegistry

open Calls Fallible Ordered MultiStore

namespace RepoRouter

theorem listRepos_flat : storage.listRepos = StoreM.distinctBackends >>= fun backends =>
    listUnion (fun root => StoreM.fs root .listRepos) (backends.flatMap Backend.leaves) := by
  have hflat : (fun backends => listUnion (fun b : Backend => b.storage.listRepos) backends) =
      fun backends : List Backend =>
        listUnion (fun root => StoreM.fs root .listRepos) (backends.flatMap Backend.leaves) := by
    funext backends
    exact Backend.unionInto_flat (m := fun s => s.listRepos) ⟨fun _ => rfl, fun _ => rfl⟩
      backends .empty
  exact congrArg (StoreM.distinctBackends >>= ·) hflat

theorem listManifestDigests_flat (repo : RepoName) : storage.listManifestDigests repo =
    StoreM.backendFor repo.text >>= fun b =>
      listUnion (fun root => StoreM.fs root (.listManifestDigests repo)) b.leaves :=
  congrArg (StoreM.backendFor repo.text >>= ·) (funext fun b => b.listManifestDigests_flat repo)

theorem manifestGet_flat (repo : RepoName) (reference : Reference) :
    storage.manifestGet repo reference = StoreM.backendFor repo.text >>= fun b =>
      readSecondaries (fun root => StoreM.fs root (.manifestGet repo reference)) b.readOrder :=
  congrArg (StoreM.backendFor repo.text >>= ·) (funext fun b => b.manifestGet_flat repo reference)

end RepoRouter

namespace Gc

-- A collection while a client is at work.
inductive Party
  | collector
  | client
deriving DecidableEq

-- The calls of the three phases: looking for repositories, marking, and what
-- comes after that.

def MarkOp : Op → Prop
  | .backendFor _ => True
  | .fs _ (.manifestGet _ _) => True
  | _ => False

def ScanOp : Op → Prop
  | .backendFor _ => True
  | .fs _ (.manifestGet _ _) => True
  | .fs _ (.listManifestDigests _) => True
  | _ => False

def SweepOp : Op → Prop
  | .upsert _ _ => False
  | .fs _ .listRepos => False
  | .fs _ (.listManifestDigests _) => False
  | .fs _ (.manifestGet _ _) => False
  | .fs _ (.blobDelete _) => True
  | op => op.Looks

variable [Sha2]

omit [Sha2] in
theorem SweepOp.cases {op : Op} (h : SweepOp op) :
    op.Looks ∨ ∃ root d, op = .fs root (.blobDelete d) := by
  cases op with
  | fs root call =>
      cases call with
      | blobDelete d => exact .inr ⟨root, d, rfl⟩
      | listRepos => exact h.elim
      | listManifestDigests repo => exact h.elim
      | manifestGet repo reference => exact h.elim
      | _ => exact .inl h
  | _ => exact .inl h

omit [Sha2] in
theorem scanOp_of_markOp {op : Op} (h : MarkOp op) : ScanOp op := by
  cases op with
  | fs root call => cases call <;> first | exact h | exact h.elim
  | _ => exact h

section Record

variable [SerdeJson] (x : Digest)

-- What the collector has on record about a digest: that no text which was read names
-- it, and that every manifest which was listed was looked at and is another one.

def Clean (s : History Party) : Prop :=
  ∀ root repo d bytes, Did .collector s (.fs root (.manifestGet repo (.digest d))) (.ok bytes) →
    x ∉ references bytes

def Looked (s : History Party) (repo : RepoName) (d : Digest) : Prop :=
  (∃ root bytes, Did .collector s (.fs root (.manifestGet repo (.digest d))) (.ok bytes)) ∨
    ∀ root ∈ (s.1.router.resolve repo.text).leaves,
      Did .collector s (.fs root (.manifestGet repo (.digest d))) (.error .notFound)

structure Unmarked (s : History Party) : Prop where
  clean : Clean x s
  looked : ∀ root repo (digests : BTreeSet Digest),
    Did .collector s (.fs root (.listManifestDigests repo)) (.ok digests) →
      ∀ d ∈ digests, d ≠ x ∧ Looked s repo d

-- Every directory that the repository is routed to was listed for it.
def Scanned (s : History Party) (repo : RepoName) : Prop :=
  ∀ root ∈ (s.1.router.resolve repo.text).leaves, ∃ digests : BTreeSet Digest,
    Did .collector s (.fs root (.listManifestDigests repo)) (.ok digests)

-- The mark is over and has not come upon the digest.
structure Overlooked (s : History Party) : Prop where
  unmarked : Unmarked x s
  listed : ∀ b ∈ s.1.router.distinctBackends, ∀ root ∈ b.leaves, ∃ repos : BTreeSet RepoName,
    Did .collector s (.fs root .listRepos) (.ok repos)
  scanned : ∀ root (repos : BTreeSet RepoName), Did .collector s (.fs root .listRepos) (.ok repos) →
    ∀ repo ∈ repos, Scanned s repo

-- What the collector promises: it only looks, and sweeps, and it sweeps nothing that
-- the mark has come upon.
def Founded (op : Op) (s : History Party) (_ : op.Ans) (_ : History Party) : Prop :=
  op.Looks ∨ ∃ root d, op = .fs root (.blobDelete d) ∧ (d = x → Overlooked x s)

variable {x} {New : (op : Op) → op.Ans → Prop} {s s' : History Party}

omit [SerdeJson] in
theorem Looked.adds (h : Adds .collector New s s') {repo : RepoName} {d : Digest}
    (hl : Looked s repo d) : Looked s' repo d := by
  rcases hl with ⟨root, bytes, hd⟩ | hall
  · exact .inl ⟨root, bytes, h.kept _ _ hd⟩
  · right
    rw [h.router]
    exact fun root hroot => h.kept _ _ (hall root hroot)

omit [SerdeJson] in
theorem Scanned.adds (h : Adds .collector New s s') {repo : RepoName} (hs : Scanned s repo) :
    Scanned s' repo := by
  intro root hroot
  rw [h.router] at hroot
  obtain ⟨digests, hd⟩ := hs root hroot
  exact ⟨digests, h.kept _ _ hd⟩

theorem Clean.adds (h : Adds .collector New s s')
    (hnew : ∀ root repo d bytes, New (.fs root (.manifestGet repo (.digest d))) (.ok bytes) →
      x ∉ references bytes)
    (hs : Clean x s) : Clean x s' := by
  intro root repo d bytes hd
  rcases h.new _ _ hd with hd | hn
  · exact hs root repo d bytes hd
  · exact hnew root repo d bytes hn

theorem Unmarked.adds (h : Adds .collector New s s')
    (hget : ∀ root repo d bytes, New (.fs root (.manifestGet repo (.digest d))) (.ok bytes) →
      x ∉ references bytes)
    (hlist : ∀ root repo (digests : BTreeSet Digest),
      New (.fs root (.listManifestDigests repo)) (.ok digests) →
        ∀ d ∈ digests, d ≠ x ∧ Looked s' repo d)
    (hs : Unmarked x s) : Unmarked x s' where
  clean := hs.clean.adds h hget
  looked := by
    intro root repo digests hd d hmem
    rcases h.new _ _ hd with hd | hn
    · exact (hs.looked root repo digests hd d hmem).imp_right fun hl => hl.adds h
    · exact hlist root repo digests hn d hmem

theorem Overlooked.adds (h : Adds .collector (fun op _ => SweepOp op) s s')
    (hs : Overlooked x s) : Overlooked x s' where
  unmarked := hs.unmarked.adds h (fun _ _ _ _ hn => hn.elim) fun _ _ _ hn => hn.elim
  listed := by
    intro b hb root hroot
    rw [h.router] at hb
    obtain ⟨repos, hd⟩ := hs.listed b hb root hroot
    exact ⟨repos, h.kept _ _ hd⟩
  scanned := by
    intro root repos hd repo hrepo
    rcases h.new _ _ hd with hd | hn
    · exact (hs.scanned root repos hd repo hrepo).adds h
    · exact hn.elim

end Record

section Mark

variable [SerdeJson] {x : Digest} {α : Type}

def listing (repo : RepoName) (root : RootId) (digests : BTreeSet Digest) : Event Party Op Op.Ans :=
  ⟨.collector, .fs root (.listManifestDigests repo), .ok digests⟩

-- One repository has been gone through.
theorem Unmarked.repo {repo : RepoName} {digests : BTreeSet Digest} {s s₁ s₂ s₃ : History Party}
    (hask : Adds .collector (fun op _ => op = .backendFor repo.text) s s₁)
    (hlist : Adds .collector (ListCalls .collector (listing repo) digests) s₁ s₂)
    (hmark : Adds .collector (fun op _ => MarkOp op) s₂ s₃) (hclean : Clean x s₂ → Clean x s₃)
    (hlooked : ∀ d ∈ digests, d ≠ x ∧ Looked s₃ repo d) (hs : Unmarked x s) : Unmarked x s₃ where
  clean := by
    apply hclean
    refine (hs.clean.adds hask ?_).adds hlist ?_
    · intro root r d bytes hn
      cases hn
    · rintro root r d bytes ⟨p, values, hn, _⟩
      cases hn
  looked := by
    intro root r digests' hd
    rcases hmark.new _ _ hd with hd | hn
    · rcases hlist.new _ _ hd with hd | ⟨p, values, hn, hsub⟩
      · rcases hask.new _ _ hd with hd | hn
        · intro d hmem
          obtain ⟨hne, hl⟩ := hs.looked root r digests' hd d hmem
          exact ⟨hne, ((hl.adds hask).adds hlist).adds hmark⟩
        · cases hn
      · cases hn
        exact fun d hmem => hlooked d (hsub d hmem)
    · exact hn.elim

variable {rely : History Party → History Party → Prop}
variable {guar : Sem Op Op.Ans (History Party)}
variable (hrely : ∀ s s', rely s s' → Steady .collector s s')
variable (hguar : ∀ op s answer s', op.Looks → guar op s answer s')

omit [SerdeJson] in
-- The calls that look one manifest up through the router.
def GetCalls (repo : RepoName) (d : Digest) (found : Except StorageError Bytes) (op : Op)
    (answer : op.Ans) : Prop :=
  op = .backendFor repo.text ∨
    ReadCalls Party.collector (.manifestGet repo (.digest d)) found op answer

omit [Sha2] [SerdeJson] in
theorem GetCalls.markOp {repo : RepoName} {d : Digest} {found : Except StorageError Bytes} {op : Op}
    {answer : op.Ans} (h : GetCalls repo d found op answer) : MarkOp op := by
  rcases h with rfl | ⟨root, h | h⟩
  · trivial
  · exact h.op ▸ trivial
  · exact h.op ▸ trivial

omit [Sha2] [SerdeJson] in
theorem GetCalls.bytes_eq {root : RootId} {repo r : RepoName} {d e : Digest}
    {found : Except StorageError Bytes} {bytes : Bytes}
    (h : GetCalls repo d found (.fs root (.manifestGet r (.digest e))) (.ok bytes)) :
    found = .ok bytes := by
  rcases h with h | ⟨p, h | h⟩
  · cases h
  · cases h
  · cases h
    rfl

include hrely hguar

omit [SerdeJson] in
theorem wp_manifestGet {repo : RepoName} {d : Digest} {rest : Except StorageError Bytes → StoreM α}
    {post : Except StorageError α → History Party → Prop} {s : History Party}
    (hok : ∀ bytes s', Adds .collector (GetCalls repo d (.ok bytes)) s s' →
      (∃ root, Did .collector s' (.fs root (.manifestGet repo (.digest d))) (.ok bytes)) →
      (rest (.ok bytes)).wp (recorded .collector) rely guar post s')
    (hmissing : ∀ s', Adds .collector (GetCalls repo d (.error .notFound)) s s' →
      (∀ root ∈ (s.1.router.resolve repo.text).leaves,
        Did .collector s' (.fs root (.manifestGet repo (.digest d))) (.error .notFound)) →
      (rest (.error .notFound)).wp (recorded .collector) rely guar post s')
    (herror : ∀ err s', err ≠ .notFound →
      (rest (.error err)).wp (recorded .collector) rely guar post s') :
    (attempt (RepoRouter.storage.manifestGet repo (.digest d)) >>= rest).wp (recorded .collector) rely
      guar post s := by
  rw [RepoRouter.manifestGet_flat, Fallible.wp_bind, Fallible.wp_attempt]
  refine wp_askBackend hrely hguar ?_
  intro s₁ hask
  have hask : Adds .collector (GetCalls repo d (.error .notFound)) s s₁ :=
    hask.mono fun op a h => .inl h
  have hcall : ∀ root, (Op.fs root (.manifestGet repo (.digest d))).Confined [] [] :=
    fun _ => trivial
  refine Fallible.wp_post (wp_readSecondaries hrely hguar hcall _ s₁) ?_
  rintro (err | bytes) s₂ hfetched
  · by_cases herr : err = .notFound
    · subst herr
      obtain ⟨hadds, hall⟩ := hfetched rfl
      refine hmissing s₂ (hask.trans (hadds.mono fun op a h => .inr h)) ?_
      intro root hroot
      exact hall root ((Backend.mem_readOrder root _).mpr hroot)
    · exact herror err s₂ herr
  · obtain ⟨hadds, root, _, hdid⟩ := hfetched
    refine hok bytes s₂ ((hask.mono ?_).trans (hadds.mono fun op a h => .inr h)) ⟨root, hdid⟩
    rintro op a (h | ⟨p, h | h⟩)
    · exact .inl h
    · exact .inr ⟨p, .inl h⟩
    · exact .inr ⟨p, .inl h⟩

theorem wp_markDigests (repo : RepoName) (digests : List Digest) (reachable : BTreeSet Digest)
    (report : GcReport) (s : History Party) :
    (markDigests RepoRouter.storage repo digests reachable report).wp (recorded .collector) rely guar
      (Outcome (fun marked s' => Adds .collector (fun op _ => MarkOp op) s s' ∧
          (x ∉ marked.1 → x ∉ reachable ∧ (Clean x s → Clean x s') ∧
            ∀ d ∈ digests, d ≠ x ∧ Looked s' repo d))
        fun _ _ => True) s := by
  induction digests generalizing reachable report s with
  | nil => exact ⟨.refl s, fun hx => ⟨hx, id, by simp⟩⟩
  | cons digest rest ih =>
      rw [markDigests]
      apply wp_manifestGet hrely hguar
      · intro bytes s₁ hadds hdid
        refine Fallible.wp_post (ih _ _ s₁) ?_
        rintro (err | marked) s₂ h
        · trivial
        · obtain ⟨hrest, hx⟩ := h
          refine ⟨(hadds.mono fun op a h => h.markOp).trans hrest, ?_⟩
          intro hnot
          obtain ⟨hreach, hclean, hall⟩ := hx hnot
          simp only [BTreeSet.mem_extend, BTreeSet.mem_insert, not_or] at hreach
          obtain ⟨hnew, hne, hold⟩ := hreach
          refine ⟨hold, ?_, ?_⟩
          · intro hc
            apply hclean
            refine hc.adds hadds ?_
            intro root r e bytes' hcall
            cases hcall.bytes_eq
            exact hnew
          · intro d hd
            rcases List.mem_cons.mp hd with rfl | hd
            · obtain ⟨root, hdid⟩ := hdid
              exact ⟨fun heq => hne heq.symm, .inl ⟨root, bytes, hrest.kept _ _ hdid⟩⟩
            · exact hall d hd
      · intro s₁ hadds hdid
        refine Fallible.wp_post (ih _ _ s₁) ?_
        rintro (err | marked) s₂ h
        · trivial
        · obtain ⟨hrest, hx⟩ := h
          refine ⟨(hadds.mono fun op a h => h.markOp).trans hrest, ?_⟩
          intro hnot
          obtain ⟨hreach, hclean, hall⟩ := hx hnot
          simp only [BTreeSet.mem_insert, not_or] at hreach
          obtain ⟨hne, hold⟩ := hreach
          refine ⟨hold, ?_, ?_⟩
          · intro hc
            apply hclean
            refine hc.adds hadds ?_
            intro root r e bytes' hcall
            cases hcall.bytes_eq
          · intro d hd
            rcases List.mem_cons.mp hd with rfl | hd
            · refine ⟨fun heq => hne heq.symm, Looked.adds hrest (.inr ?_)⟩
              rw [hadds.router]
              exact hdid
            · exact hall d hd
      · intro err s₁ hne
        cases err with
        | notFound => exact absurd rfl hne
        | _ => trivial

theorem wp_markRepos (repos : List RepoName) (reachable : BTreeSet Digest) (report : GcReport)
    (s : History Party) :
    (markRepos RepoRouter.storage repos reachable report).wp (recorded .collector) rely guar
      (Outcome (fun marked s' => Adds .collector (fun op _ => ScanOp op) s s' ∧
          (x ∉ marked.1 → x ∉ reachable ∧ (Unmarked x s → Unmarked x s') ∧
            ∀ repo ∈ repos, Scanned s' repo))
        fun _ _ => True) s := by
  induction repos generalizing reachable report s with
  | nil => exact ⟨.refl s, fun hx => ⟨hx, id, by simp⟩⟩
  | cons repo rest ih =>
      rw [markRepos, RepoRouter.listManifestDigests_flat, bind_assoc]
      refine wp_askBackend hrely hguar ?_
      intro s₁ hask
      rw [Fallible.wp_bind]
      refine Fallible.wp_post (wp_listUnion (listing repo) (fun _ _ => rfl) ?_ _ s₁) ?_
      · intro root s
        refine wp_fs hrely hguar trivial ?_
        rintro (err | digests) s' hadds hdid
        · trivial
        · exact ⟨hadds, hdid⟩
      rintro (err | digests) s₂ h₂
      · trivial
      obtain ⟨hlist, hlisted⟩ := h₂
      rw [outcome_ok, Fallible.wp_bind]
      refine Fallible.wp_post
        (wp_markDigests hrely hguar (x := x) repo digests.toList reachable report s₂) ?_
      rintro (err | ⟨reachable', report'⟩) s₃ h₃
      · trivial
      obtain ⟨hmark, hx⟩ := h₃
      refine Fallible.wp_post (ih reachable' report' s₃) ?_
      rintro (err | marked) s₄ h₄
      · trivial
      obtain ⟨hrest, hx'⟩ := h₄
      have hlistOp : Adds .collector (fun op _ => ScanOp op) s₁ s₂ := by
        refine hlist.mono ?_
        rintro op a ⟨root, values, he, _⟩
        cases he
        trivial
      have hmarkOp : Adds .collector (fun op _ => ScanOp op) s₂ s₄ :=
        (hmark.mono fun op _ h => scanOp_of_markOp h).trans hrest
      refine ⟨((hask.mono ?_).trans hlistOp).trans hmarkOp, ?_⟩
      · rintro op _ rfl
        trivial
      intro hnot
      obtain ⟨hreach', hkept', hscanned⟩ := hx' hnot
      obtain ⟨hreach, hclean, hlooked⟩ := hx hreach'
      refine ⟨hreach, fun hs => hkept' (hs.repo hask hlist hmark hclean hlooked), ?_⟩
      intro r hr
      rcases List.mem_cons.mp hr with rfl | hr
      · intro root hroot
        have hrouter := hmarkOp.router.trans (hlistOp.router.trans hask.router)
        rw [hrouter] at hroot
        obtain ⟨values, hevent⟩ := hlisted root hroot
        exact ⟨values, hmarkOp.kept _ _ hevent⟩
      · exact hscanned r hr

end Mark

-- The calls of a sweep with a given set of marks.
def Sweeps (reachable : BTreeSet Digest) (op : Op) : Prop :=
  SweepOp op ∧ ∀ root d, op = .fs root (.blobDelete d) → d ∉ reachable

section Sweep

open StoreM

variable (reachable : BTreeSet Digest)

omit [Sha2] in
theorem uses_backendFor {α : Type} {repo : String} {rest : Backend → StoreM α}
    (h : ∀ b, (rest b).Uses (Sweeps reachable)) :
    (StoreM.backendFor repo >>= rest).Uses (Sweeps reachable) :=
  ⟨⟨trivial, nofun⟩, h⟩

omit [Sha2] in
theorem uses_locateOwner (d : Digest) (repos : List RepoName) :
    (locateOwner RepoRouter.storage d repos).Uses (Sweeps reachable) := by
  induction repos with
  | nil => exact uses_pure _ _
  | cons repo rest ih =>
      refine Uses.bind (Uses.attempt (uses_backendFor reachable fun b => ?_)) ?_
      · rw [b.blobExists_flat]
        exact uses_existsInAny _ fun root _ => uses_fs ⟨trivial, nofun⟩
      · rintro (err | found)
        · exact ih
        · cases found with
          | true => exact uses_pure _ _
          | false => exact ih

omit [Sha2] in
theorem uses_sweep (repos : List RepoName) (blobs : List Digest) (report : GcReport) :
    (sweep RepoRouter.storage repos reachable blobs report).Uses (Sweeps reachable) := by
  induction blobs generalizing report with
  | nil => exact uses_pure _ _
  | cons blob rest ih =>
      rw [sweep]
      split
      · exact ih report
      · rename_i hblob
        refine (uses_locateOwner reachable blob repos).bind fun owner => ?_
        refine Uses.bind (Uses.attempt (uses_backendFor reachable fun b => ?_)) fun size => ?_
        · rw [b.blobSize_flat]
          exact uses_readSecondaries _ fun root _ => uses_fs ⟨trivial, nofun⟩
        · refine Uses.bind (Uses.attempt (uses_backendFor reachable fun b => ?_)) ?_
          · rw [b.blobDelete_flat]
            refine uses_deleteFromAll _ (fun root _ => uses_fs ⟨trivial, ?_⟩) _ _
            rintro p d heq
            cases heq
            exact hblob
          · rintro (err | value)
            · cases err with
              | notFound => exact ih report
              | _ => exact uses_fail _ _
            · exact ih _

omit [Sha2] in
theorem uses_listAllBlobs {α : Type} {rest : BTreeSet Digest → StoreM α}
    (h : ∀ blobs, (rest blobs).Uses (Sweeps reachable)) :
    (RepoRouter.storage.listAllBlobs >>= rest).Uses (Sweeps reachable) := by
  have hask : StoreM.distinctBackends.Uses (Sweeps reachable) := ⟨⟨trivial, nofun⟩, fun _ => trivial⟩
  refine (hask.bind fun backends => uses_listUnion _ fun b _ => ?_).bind h
  rw [b.listAllBlobs_flat]
  exact uses_listUnion _ fun root _ => uses_fs ⟨trivial, nofun⟩

end Sweep

section Run

variable [SerdeJson] (x : Digest) {rely : History Party → History Party → Prop}
variable (hrely : ∀ s s', rely s s' → Steady .collector s s')

def shown (root : RootId) (repos : BTreeSet RepoName) : Event Party Op Op.Ans :=
  ⟨.collector, .fs root .listRepos, .ok repos⟩

include hrely

-- What follows the mark.
theorem wp_swept {reachable : BTreeSet Digest} {prog : StoreM GcReport}
    (hprog : prog.Uses (Sweeps reachable)) {s : History Party}
    (hmarked : x ∉ reachable → Overlooked x s) :
    prog.wp (recorded .collector) rely (Founded x) (fun _ _ => True) s := by
  refine Fallible.wp_post (wp_adds hprog hrely (fun pattern backend h => h.1) ?_) fun _ _ _ => trivial
  intro op s₁ hop hadds answer s'
  rcases hop.1.cases with hlooks | ⟨root, d, rfl⟩
  · exact .inl hlooks
  · refine .inr ⟨root, d, rfl, ?_⟩
    rintro rfl
    exact (hmarked (hop.2 root d rfl)).adds (hadds.mono fun op _ h => h.1)

-- The collection by itself, whatever the others do around it.
theorem wp_run {s : History Party} (hfresh : ∀ op answer, ¬Did .collector s op answer) :
    (run RepoRouter.storage).wp (recorded .collector) rely (Founded x) (fun _ _ => True) s := by
  have hguar : ∀ op s answer s', op.Looks → Founded x op s answer s' :=
    fun op s answer s' h => .inl h
  rw [run, RepoRouter.listRepos_flat, bind_assoc]
  refine wp_askDistinct hrely hguar ?_
  intro s₁ hask
  rw [Fallible.wp_bind]
  refine Fallible.wp_post (wp_listUnion shown (fun _ _ => rfl) ?_ _ s₁) ?_
  · intro root s
    refine wp_fs hrely hguar trivial ?_
    rintro (err | repos) s' hadds hdid
    · trivial
    · exact ⟨hadds, hdid⟩
  rintro (err | repos) s₂ h₂
  · trivial
  obtain ⟨hlist, hlisted⟩ := h₂
  rw [outcome_ok, Fallible.wp_bind]
  refine Fallible.wp_post (wp_markRepos hrely hguar (x := x) repos.toList _ _ s₂) ?_
  rintro (err | ⟨reachable, report⟩) s₃ h₃
  · trivial
  obtain ⟨hmark, hx⟩ := h₃
  refine wp_swept x hrely (uses_listAllBlobs reachable fun blobs => uses_sweep reachable _ _ _) ?_
  intro hnot
  obtain ⟨_, hkept, hscanned⟩ := hx hnot
  have hempty : ∀ op answer, Did .collector s₂ op answer →
      op = .distinctBackends ∨ ListCalls .collector shown repos op answer := by
    intro op answer hd
    rcases hlist.new _ _ hd with hd | hn
    · exact .inl ((hask.new _ _ hd).resolve_left (hfresh op answer))
    · exact .inr hn
  have hclean : Unmarked x s₂ := by
    constructor
    · intro root repo d bytes hd
      rcases hempty _ _ hd with h | ⟨p, values, h, _⟩ <;> cases h
    · intro root repo digests hd
      rcases hempty _ _ hd with h | ⟨p, values, h, _⟩ <;> cases h
  refine ⟨hkept hclean, ?_, ?_⟩
  · intro b hb root hroot
    have hrouter := hmark.router.trans (hlist.router.trans hask.router)
    rw [hrouter] at hb
    obtain ⟨values, hevent⟩ := hlisted root (List.mem_flatMap.mpr ⟨b, hb, hroot⟩)
    exact ⟨values, hmark.kept _ _ hevent⟩
  · intro root shows hd repo hrepo
    rcases hmark.new _ _ hd with hd | hn
    · rcases hempty _ _ hd with h | ⟨p, values, h, hsub⟩
      · cases h
      · cases h
        exact hscanned repo (hsub repo hrepo)
    · exact hn.elim

end Run

end Gc

end RspaceRegistry
