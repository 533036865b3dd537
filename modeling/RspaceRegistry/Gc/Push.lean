import RspaceRegistry.Gc.Online
import RspaceRegistry.Gc.Routed
import RspaceRegistry.RepoRouter.Reads
import RspaceRegistry.Sample

namespace RspaceRegistry.Gc

open Calls Fallible Ordered

section

variable [Sha2] [SerdeJson] {α : Type}

-- A client that checks, uploads and puts, and deletes nothing.
def Pushes (texts : Bytes → Prop) : Op → Prop
  | .fs _ (.blobWrite _ content) => texts content
  | .fs _ (.manifestPut _ _ content) => texts content
  | op => op.Looks

abbrev Result (α : Type) : Party → Type
  | .collector => Except StorageError GcReport
  | .client => α

abbrev Online (α : Type) : Type := Pool Party Op Op.Ans (Result α) World

def start (client : Prog Op Op.Ans α) (w : World) : Online α where
  parties
    | .collector => run RepoRouter.storage
    | .client => client
  now := (w, [])

def finished (pool : Online α) : Bool :=
  !(pool.parties .collector).isCall && !(pool.parties .client).isCall

-- The collector has not taken a look yet that should have shown it the manifest and
-- did not.
structure Unmissed (s : History Party) (root : RootId) (repo : RepoName) (d : Digest) : Prop where
  repos : (∀ repos : BTreeSet RepoName, ¬Did .collector s (.fs root .listRepos) (.ok repos)) ∨
    ∃ repos : BTreeSet RepoName, Did .collector s (.fs root .listRepos) (.ok repos) ∧ repo ∈ repos
  digests : (∀ digests : BTreeSet Digest,
      ¬Did .collector s (.fs root (.listManifestDigests repo)) (.ok digests)) ∨
    ∃ digests : BTreeSet Digest,
      Did .collector s (.fs root (.listManifestDigests repo)) (.ok digests) ∧ d ∈ digests
  bytes : ¬Did .collector s (.fs root (.manifestGet repo (.digest d))) (.error .notFound)

-- A manifest of which this is true, and which protects the blob.
structure Protects (b : Digest) (s : History Party) (root : RootId) (repo : RepoName) (d : Digest)
    (text : Bytes) : Prop where
  routed : root ∈ (s.1.router.resolve repo.text).leaves
  stored : (s.1.volumes root).manifest repo d = some text
  names : b = d ∨ b ∈ references text
  unmissed : Unmissed s root repo d

-- The rest of the collection does not delete the blob, whatever it comes upon.
def Spares (b : Digest) (pool : Online α) : Prop :=
  (pool.parties .collector).Uses fun op => ∀ root, op ≠ .fs root (.blobDelete b)

-- A put comes in time for a blob that its text names: the mark may still find the new
-- manifest, or another one that names the blob, or the sweep leaves the blob alone.
def InTime (pool : Online α) (repo : RepoName) (content : Bytes) (b : Digest) : Prop :=
  Unmissed pool.now (pool.now.1.router.resolve repo.text).head repo (sha256Digest content) ∨
    (∃ root r d text, Protects b pool.now root r d text) ∨ Spares b pool

section Invariant

variable {texts : Bytes → Prop} {b : Digest}

-- What each party goes by.
def promise (texts : Bytes → Prop) (b : Digest) : Party → Sem Op Op.Ans (History Party)
  | .collector => Founded b
  | .client => fun op _ _ _ => Pushes texts op

theorem not_upsert {i : Party} {op : Op} {s s' : History Party} {answer : op.Ans}
    (h : promise texts b i op s answer s') (pattern : String) (backend : Backend) :
    op ≠ .upsert pattern backend := by
  rintro rfl
  cases i with
  | collector =>
      rcases h with h | ⟨root, d, h, _⟩
      · exact h
      · cases h
  | client => exact h

theorem compatible : Pool.Compatible (ρ := Result α) World.Faulty (fun i => Steady i)
    (promise texts b) fun _ _ _ => True where
  refl := Steady.refl
  trans := fun _ _ _ _ => Steady.trans
  others := fun _ _ hij _ _ _ _ hs hg =>
    ⟨World.router_of_faulty (not_upsert hg) hs.1, fun _ _ => did_of_other hij hs⟩
  stable := fun _ _ _ _ _ _ => trivial

-- What holds at every point of a run.
structure Facts (texts : Bytes → Prop) (w : World) (s : History Party) : Prop where
  router : s.1.router = w.router
  stored : ∀ content, s.1.volumes.Stores content → texts content
  read : ∀ root repo d bytes, Did .collector s (.fs root (.manifestGet repo (.digest d)))
    (.ok bytes) → sha256Digest bytes = d ∧ texts bytes

section Call

variable {w : World} {i : Party} {op : Op} {s s' : History Party} {answer : op.Ans}
variable (hs : recorded i op s answer s') (hg : promise texts b i op s answer s')

include hg in
theorem texts_of_brings {content : Bytes} (hbrings : op.Brings content) : texts content := by
  cases i with
  | collector =>
      rcases hg with hlooks | ⟨root, d, rfl, _⟩
      · cases op with
        | fs root call => cases call <;> first | exact hbrings.elim | cases hlooks
        | _ => exact hbrings.elim
      · exact hbrings.elim
  | client =>
      cases op with
      | fs root call =>
          cases call with
          | blobWrite d text => exact hbrings ▸ hg
          | manifestPut repo reference text => exact hbrings ▸ hg
          | _ => exact hbrings.elim
      | _ => exact hbrings.elim

include hs hg

theorem Facts.call (h : Facts texts w s) : Facts texts w s' where
  router := (World.router_of_faulty (not_upsert hg) hs.1).trans h.router
  stored := by
    intro content hc
    rcases World.stores_new hs.1 hc with hold | hbrings
    · exact h.stored content hold
    · exact texts_of_brings hg hbrings
  read := by
    intro root repo d bytes hd
    rcases (did_record_iff hs).mp hd with hd | hnow
    · exact h.read root repo d bytes hd
    · cases hnow
      have hheld := congrArg Prod.fst (World.handle_of_answer hs.1 nofun)
      have hread : (s.1.roots root).manifestGet repo (.digest d) = .ok bytes := hheld
      rw [FsStorage.manifestGet_eq, orNotFound_eq_ok] at hread
      exact ⟨(s.1.volumes_wellFormed root).manifest_addressed repo d bytes hread,
        h.stored bytes ⟨root, .inr ⟨repo, d, hread⟩⟩⟩

-- Nobody takes a manifest away, and what is put in its place is the same text.
theorem manifest_stays (htexts : Volumes.TellsApart texts) (h : Facts texts w s) {root : RootId}
    {repo : RepoName} {d : Digest} {text : Bytes}
    (hstored : (s.1.volumes root).manifest repo d = some text) :
    (s'.1.volumes root).manifest repo d = some text := by
  have hne : op ≠ .fs root (.manifestDelete repo (.digest d)) := by
    rintro rfl
    cases i with
    | collector =>
        rcases hg with hlooks | ⟨root, d, heq, _⟩
        · cases hlooks
        · cases heq
    | client => cases hg
  obtain ⟨text', hnow⟩ := Option.isSome_iff_exists.mp
    (World.manifest_kept hs.1 hne (by rw [hstored]; rfl))
  rcases World.effect_of_faulty hs.1 root with hsame | ⟨call, rfl, heffect⟩
  · rwa [hsame]
  · rw [hnow]
    rcases heffect.manifest_new hnow with hold | ⟨reference, hdigest, rfl⟩
    · exact hold.symm.trans hstored
    · congr 1
      refine htexts .sha256 text' text (texts_of_brings hg rfl)
        (h.stored text ⟨root, .inr ⟨repo, d, hstored⟩⟩) ?_
      exact hdigest.trans ((s.1.volumes_wellFormed root).manifest_addressed repo d text hstored).symm

theorem Unmissed.call {root : RootId} {repo : RepoName} {d : Digest} {text : Bytes}
    (hstored : (s.1.volumes root).manifest repo d = some text) (h : Unmissed s root repo d) :
    Unmissed s' root repo d where
  repos := by
    by_cases hnow : ∃ repos : BTreeSet RepoName,
        (⟨i, op, answer⟩ : Event Party Op Op.Ans) = ⟨.collector, .fs root .listRepos, .ok repos⟩
    · obtain ⟨repos, hnow⟩ := hnow
      cases hnow
      have hheld := congrArg Prod.fst (World.handle_of_answer hs.1 nofun)
      have hlist : (s.1.roots root).listRepos = repos := Except.ok.inj hheld
      have hmem := (s.1.volumes_wellFormed root).manifest_listed repo d text hstored
      refine .inr ⟨repos, did_of_record hs, ?_⟩
      rw [← hlist]
      exact hmem
    · rcases h.repos with hnone | ⟨repos, hd, hmem⟩
      · refine .inl fun repos hd => ?_
        rcases (did_record_iff hs).mp hd with hd | heq
        · exact hnone repos hd
        · exact hnow ⟨repos, heq.symm⟩
      · exact .inr ⟨repos, hd.record hs, hmem⟩
  digests := by
    by_cases hnow : ∃ digests : BTreeSet Digest, (⟨i, op, answer⟩ : Event Party Op Op.Ans) =
        ⟨.collector, .fs root (.listManifestDigests repo), .ok digests⟩
    · obtain ⟨digests, hnow⟩ := hnow
      cases hnow
      have hheld := congrArg Prod.fst (World.handle_of_answer hs.1 nofun)
      have hlist : (s.1.roots root).listManifestDigests repo = digests := Except.ok.inj hheld
      refine .inr ⟨digests, did_of_record hs, ?_⟩
      rw [← hlist, FsStorage.mem_listManifestDigests]
      exact Option.isSome_iff_exists.mpr ⟨text, hstored⟩
    · rcases h.digests with hnone | ⟨digests, hd, hmem⟩
      · refine .inl fun digests hd => ?_
        rcases (did_record_iff hs).mp hd with hd | heq
        · exact hnone digests hd
        · exact hnow ⟨digests, heq.symm⟩
      · exact .inr ⟨digests, hd.record hs, hmem⟩
  bytes := by
    intro hd
    rcases (did_record_iff hs).mp hd with hd | hnow
    · exact h.bytes hd
    · cases hnow
      have hheld := congrArg Prod.fst (World.handle_of_answer hs.1 fun _ h => (Except.error.inj h).symm)
      have hread : (s.1.roots root).manifestGet repo (.digest d) = .error .notFound := hheld
      rw [FsStorage.manifestGet_eq, orNotFound_eq_notFound] at hread
      exact absurd (hread.symm.trans hstored) nofun

theorem Protects.call (htexts : Volumes.TellsApart texts) (hf : Facts texts w s) {root : RootId}
    {repo : RepoName} {d : Digest} {text : Bytes} (h : Protects b s root repo d text) :
    Protects b s' root repo d text where
  routed := by
    rw [World.router_of_faulty (not_upsert hg) hs.1]
    exact h.routed
  stored := manifest_stays hs hg htexts hf h.stored
  names := h.names
  unmissed := h.unmissed.call hs hg h.stored

end Call

-- A mark that has found everything has found the manifest.
theorem Protects.not_overlooked (htexts : Volumes.TellsApart texts) {w : World} {s : History Party}
    (hf : Facts texts w s) {root : RootId} {repo : RepoName} {d : Digest} {text : Bytes}
    (h : Protects b s root repo d text) : ¬Overlooked b s := by
  intro ho
  obtain ⟨shows, hdid⟩ := ho.listed (s.1.router.resolve repo.text)
    (s.1.router.resolve_mem_distinctBackends repo.text) root h.routed
  obtain ⟨repos, hrepos, hrepo⟩ := h.unmissed.repos.resolve_left fun hnone => hnone shows hdid
  obtain ⟨lists, hdid⟩ := ho.scanned root repos hrepos repo hrepo root h.routed
  obtain ⟨digests, hdigests, hd⟩ := h.unmissed.digests.resolve_left fun hnone => hnone lists hdid
  obtain ⟨hne, hlooked⟩ := ho.unmarked.looked root repo digests hdigests d hd
  rcases hlooked with ⟨p, bytes, hget⟩ | hmissing
  · obtain ⟨haddr, hbytes⟩ := hf.read p repo d bytes hget
    have hsame : bytes = text := by
      refine htexts .sha256 bytes text hbytes (hf.stored text ⟨root, .inr ⟨repo, d, h.stored⟩⟩) ?_
      exact haddr.trans
        ((s.1.volumes_wellFormed root).manifest_addressed repo d text h.stored).symm
    rcases h.names with rfl | hnamed
    · exact hne rfl
    · exact ho.unmarked.clean p repo d bytes hget (hsame ▸ hnamed)
  · exact h.unmissed.bytes (hmissing root h.routed)

omit [SerdeJson] in
theorem Unmissed.of_steady {s s' : History Party} (h : Steady .collector s s') {root : RootId}
    {repo : RepoName} {d : Digest} (hm : Unmissed s root repo d) : Unmissed s' root repo d where
  repos := by
    simp only [h.record]
    exact hm.repos
  digests := by
    simp only [h.record]
    exact hm.digests
  bytes := by
    rw [h.record]
    exact hm.bytes

section Run

variable {w : World} {p q : Online α}

theorem meets_start {client : Prog Op Op.Ans α} (hclient : client.Uses (Pushes texts)) :
    (start client w).Meets World.Faulty (fun i => Steady i) (promise texts b) fun _ _ _ => True := by
  intro i
  cases i with
  | collector =>
      exact wp_run b (fun _ _ h => h) fun _ _ => List.not_mem_nil
  | client => exact Prog.wp_calls hclient _ _ _

theorem Facts.runs (hfacts : Facts texts w p.now)
    (hmeets : p.Meets World.Faulty (fun i => Steady i) (promise texts b) fun _ _ _ => True)
    (hrun : Pool.Runs World.Faulty p q) : Facts texts w q.now :=
  hmeets.invariant compatible hrun (Facts texts w) hfacts fun _ _ _ _ _ => Facts.call

-- A manifest that protects the blob keeps it where it is.
theorem blob_stays_of_protected (htexts : Volumes.TellsApart texts)
    (hmeets : p.Meets World.Faulty (fun i => Steady i) (promise texts b) fun _ _ _ => True)
    (hfacts : Facts texts w p.now) (hrun : Pool.Runs World.Faulty p q) {root : RootId}
    {repo : RepoName} {d : Digest} {text : Bytes} (h : Protects b p.now root repo d text)
    {home : RootId} (hblob : ((p.now.1.volumes home).blob b).isSome) :
    ((q.now.1.volumes home).blob b).isSome := by
  have hall : Facts texts w q.now ∧ Protects b q.now root repo d text ∧
      ((q.now.1.volumes home).blob b).isSome := by
    apply hmeets.invariant compatible hrun (fun s => Facts texts w s ∧
      Protects b s root repo d text ∧ ((s.1.volumes home).blob b).isSome) ⟨hfacts, h, hblob⟩
    rintro i op s answer s' hs hg ⟨hf, hp, hb⟩
    refine ⟨hf.call hs hg, hp.call hs hg htexts hf, World.blob_kept hs.1 ?_ hb⟩
    rintro rfl
    cases i with
    | collector =>
        rcases hg with hlooks | ⟨root, e, heq, hover⟩
        · cases hlooks
        · cases heq
          exact hp.not_overlooked htexts hf (hover rfl)
    | client => cases hg
  exact hall.2.2

-- A collection that will not delete the blob leaves it where it is.
theorem blob_stays_of_spared
    (hmeets : p.Meets World.Faulty (fun i => Steady i) (promise texts b) fun _ _ _ => True)
    (hrun : Pool.Runs World.Faulty p q) (h : Spares b p) {home : RootId}
    (hblob : ((p.now.1.volumes home).blob b).isSome) : ((q.now.1.volumes home).blob b).isSome := by
  have hboth : p.Meets World.Faulty (fun i => Steady i)
      (fun i op s answer s' => promise texts b i op s answer s' ∧
        (i = .collector → ∀ root, op ≠ .fs root (.blobDelete b))) fun _ _ _ => True := by
    intro i
    cases i with
    | collector =>
        refine Prog.wp_mono (Prog.wp_and (hmeets .collector) (Prog.wp_calls h _ _ _))
          (fun _ _ _ _ => id) (fun _ _ => id) ?_ fun _ _ _ => trivial
        exact fun op s answer s' _ hg => ⟨hg.1, fun _ => hg.2⟩
    | client => exact Prog.wp_guar (hmeets .client) fun op s answer s' _ hg => ⟨hg, nofun⟩
  apply hboth.invariant (compatible.and _) hrun
    (fun s => ((s.1.volumes home).blob b).isSome) hblob
  rintro i op s answer s' hs ⟨hg, hspares⟩ hb
  refine World.blob_kept hs.1 ?_ hb
  rintro rfl
  cases i with
  | collector => exact hspares rfl home rfl
  | client => cases hg

end Run

-- A blob that is there when a manifest which names it is put stays readable, when the
-- put comes in time for it.
theorem pushed_blob_kept (htexts : Volumes.TellsApart texts) {w : World}
    (hstored : ∀ content, w.volumes.Stores content → texts content) {client : Prog Op Op.Ans α}
    (hclient : client.Uses (Pushes texts)) {p p' q : Online α}
    (hbefore : Pool.Runs World.Faulty (start client w) p) (hput : Pool.Turn World.Faulty p p')
    {repo : RepoName} {reference : Reference} {content : Bytes} {digest : Digest}
    (hevent : p'.now.2 = p.now.2 ++ [⟨.client, .fs (w.router.resolve repo.text).head
      (.manifestPut repo reference content), .ok digest⟩])
    (hnamed : b ∈ references content) {bytes : Bytes} (hpresent : p.now.1.blobRead repo b = .ok bytes)
    (htime : InTime p repo content b) (hafter : Pool.Runs World.Faulty p' q) :
    ∃ bytes, q.now.1.blobRead repo b = .ok bytes := by
  have hmeets := (meets_start (w := w) (b := b) hclient).runs compatible hbefore
  have hfacts : Facts texts w p.now := by
    refine Facts.runs ⟨rfl, hstored, ?_⟩ (meets_start (b := b) hclient) hbefore
    exact fun _ _ _ _ hd => absurd hd List.not_mem_nil
  have hmeets' := hmeets.turn compatible hput
  rw [← hfacts.router] at hevent
  obtain ⟨hcalls, hs⟩ := hput
  rename_i next s'
  have hg := hmeets.guarantee compatible hcalls hs
  have hlast := List.append_cancel_left (hs.2.symm.trans hevent)
  cases List.singleton_injective hlast
  rename_i rest
  have hfacts' : Facts texts w s' := hfacts.call hs hg
  -- Where the blob is at that moment.
  obtain ⟨home, hhome, hblob⟩ :=
    Backend.exists_of_blob ((p.now.1.blobRead_eq_ok repo b bytes).mp hpresent)
  have hblob' : ((s'.1.volumes home).blob b).isSome :=
    World.blob_kept hs.1 nofun (Option.isSome_iff_exists.mpr ⟨bytes, hblob⟩)
  have hstays : ((q.now.1.volumes home).blob b).isSome := by
    rcases htime with hnew | ⟨root, r, d, text, hprotects⟩ | hspares
    · have hsteady : Steady .collector p.now s' :=
        compatible.others (ρ := Result α) .collector .client nofun _ _ _ _ hs hg
      have hroot : (p.now.1.router.resolve repo.text).head ∈
          (s'.1.router.resolve repo.text).leaves := by
        rw [hsteady.router]
        exact Backend.head_mem_leaves _
      refine blob_stays_of_protected htexts hmeets' hfacts' hafter
        ⟨hroot, ?_, .inr hnamed, hnew.of_steady hsteady⟩ hblob'
      rw [World.volumes_of_put hs.1, Volumes.onRoots_of_mem List.mem_cons_self,
        Contents.put_manifest, if_pos ⟨rfl, rfl⟩]
    · exact blob_stays_of_protected htexts hmeets' hfacts' hafter
        (hprotects.call hs hg htexts hfacts) hblob'
    · refine blob_stays_of_spared hmeets' hafter ?_ hblob'
      have hother : Function.update p.parties .client (rest (.ok digest)) .collector =
          p.parties .collector := Function.update_of_ne (by decide) _ _
      rw [Spares, ← hother] at hspares
      exact hspares
  have hrouter := (hfacts'.runs hmeets' hafter).router.trans hfacts.router.symm
  obtain ⟨bytes', hread⟩ := Option.isSome_iff_exists.mp
    (((q.now.1.router.resolve repo.text).blob_isSome q.now.1.volumes b).mpr
      ⟨home, hrouter ▸ hhome, hstays⟩)
  exact ⟨bytes', (q.now.1.blobRead_eq_ok repo b bytes').mpr hread⟩

end Invariant

end

section

attribute [local instance] Sample.sha2 Sample.serdeJson

-- The blob is uploaded, its image is about to be put.
def uploaded : World where
  roots := Sample.roots (FsStorage.new.blobWrite (hashContent .sha256 Sample.x) Sample.x).2 .new
  router := .single (.fs 0 0)
  nextArc := 1
  arcs_allocated := Sample.arcs_one

def pushing : Online (Except StorageError Digest) :=
  start (RepoRouter.storage.manifestPut Sample.dataX (.tag Sample.v1) Sample.typed) uploaded

-- The collector has listed everything that it will sweep, and then the image is put.
def late : Online (Except StorageError Digest) :=
  pushing.play World.handle [.collector, .collector, .collector, .collector, .client]

def lateSwept : Online (Except StorageError Digest) :=
  (late.step World.handle .client).play World.handle
    [.collector, .collector, .collector, .collector]

-- The image that comes in time, before the collector has looked at anything.
def early : Online (Except StorageError Digest) := pushing.play World.handle [.client]

def earlyKept : Online (Except StorageError Digest) :=
  (early.step World.handle .client).play World.handle (List.replicate 8 .collector)

theorem pushing_outcome : (hashContent .sha256 Sample.x ∈ references Sample.typed ∧
      (late.parties .client).isCall = true ∧
      late.now.1.blobRead Sample.dataX (hashContent .sha256 Sample.x) = .ok Sample.x ∧
      finished lateSwept = true ∧
      lateSwept.now.1.blobRead Sample.dataX (hashContent .sha256 Sample.x) = .error .notFound) ∧
    ((early.parties .client).isCall = true ∧
      early.now.1.blobRead Sample.dataX (hashContent .sha256 Sample.x) = .ok Sample.x) ∧
    (uploaded.roots 0).texts ⊆ [Sample.x, Sample.typed] ∧
    (uploaded.roots 1).texts ⊆ [Sample.x, Sample.typed] ∧
    ∀ algorithm ∈ [Algorithm.sha256, .sha512], ∀ a ∈ [Sample.x, Sample.typed],
      ∀ b ∈ [Sample.x, Sample.typed], hashContent algorithm a = hashContent algorithm b → a = b := by
  decide +kernel

theorem late_push_swept : ∃ p p' q : Online (Except StorageError Digest),
    Pool.Runs World.handle.sem pushing p ∧ Pool.Turn World.handle.sem p p' ∧
      (p'.now.2 = p.now.2 ++ [⟨.client, .fs (uploaded.router.resolve Sample.dataX.text).head
        (.manifestPut Sample.dataX (.tag Sample.v1) Sample.typed), .ok (sha256Digest Sample.typed)⟩]) ∧
      hashContent .sha256 Sample.x ∈ references Sample.typed ∧
      p.now.1.blobRead Sample.dataX (hashContent .sha256 Sample.x) = .ok Sample.x ∧
      Pool.Runs World.handle.sem p' q ∧ finished q = true ∧
      q.now.1.blobRead Sample.dataX (hashContent .sha256 Sample.x) = .error .notFound := by
  obtain ⟨⟨hnamed, hcall, hbefore, hswept⟩, -⟩ := pushing_outcome
  exact ⟨late, late.step World.handle .client, lateSwept, Pool.runs_play _ _ _,
    Pool.turn_step hcall, rfl, hnamed, hbefore, Pool.runs_play _ _ _, hswept⟩

theorem pushing_texts : Volumes.TellsApart (· ∈ [Sample.x, Sample.typed]) := by
  obtain ⟨-, -, -, -, hdistinct⟩ := pushing_outcome
  exact fun algorithm a b ha hb => hdistinct algorithm (by cases algorithm <;> simp) a ha b hb

theorem early_unmissed (root : RootId) (repo : RepoName) (d : Digest) :
    Unmissed early.now root repo d where
  repos := by
    refine .inl fun repos hd => ?_
    cases List.mem_singleton.mp hd
  digests := by
    refine .inl fun digests hd => ?_
    cases List.mem_singleton.mp hd
  bytes := by
    intro hd
    cases List.mem_singleton.mp hd

theorem uploaded_texts : ∀ content, uploaded.volumes.Stores content →
    content ∈ [Sample.x, Sample.typed] := by
  rintro content ⟨root, hheld⟩
  obtain ⟨-, -, hzero, hone, -⟩ := pushing_outcome
  have htexts : (uploaded.roots root).texts ⊆ [Sample.x, Sample.typed] :=
    Sample.texts_roots hzero hone root
  exact htexts ((uploaded.roots root).mem_texts content hheld)

theorem putting_pushes : (RepoRouter.storage.manifestPut Sample.dataX (.tag Sample.v1)
    Sample.typed).Uses (Pushes (· ∈ [Sample.x, Sample.typed])) := by
  have hask : (StoreM.backendFor Sample.dataX.text).Uses (Pushes (· ∈ [Sample.x, Sample.typed])) :=
    ⟨trivial, fun _ => trivial⟩
  refine hask.bind fun b => ?_
  rw [b.manifestPut_flat]
  exact StoreM.uses_fs (List.mem_cons_of_mem _ List.mem_cons_self)

theorem early_push_kept : ∃ bytes,
    earlyKept.now.1.blobRead Sample.dataX (hashContent .sha256 Sample.x) = .ok bytes := by
  obtain ⟨⟨hnamed, -⟩, ⟨hcall, hread⟩, -⟩ := pushing_outcome
  have hbefore : Pool.Runs World.Faulty pushing early :=
    (Pool.runs_play _ _ _).mono World.faulty_of_handle
  have hput : Pool.Turn World.Faulty early (early.step World.handle .client) :=
    (Pool.turn_step hcall).mono World.faulty_of_handle
  have hafter : Pool.Runs World.Faulty (early.step World.handle .client) earlyKept :=
    (Pool.runs_play _ _ _).mono World.faulty_of_handle
  exact pushed_blob_kept pushing_texts uploaded_texts putting_pushes hbefore hput rfl hnamed hread
    (.inl (early_unmissed _ _ _)) hafter

end

end RspaceRegistry.Gc
