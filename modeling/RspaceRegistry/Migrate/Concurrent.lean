import RspaceRegistry.Migrate.Looks
import RspaceRegistry.Migrate.Uses
import RspaceRegistry.Migrate.ZeroMiss

namespace RspaceRegistry.Migrate.Concurrent

open Calls Fallible Ordered Places

section

variable [Sha2] {ι : Type} {pattern : String} {jobs : ι → Job} {w₀ : World} {i : ι} {old : Backend}
variable {s s₁ s' : History ι}

section Walk

variable [SerdeJson] {σ : Type} {sem : Sem Op Op.Ans σ} {rely : σ → σ → Prop}
variable (src : Storage) (repo : RepoName)

-- A walk takes in the digest it starts from and loses none, whatever it is answered.

omit [Sha2] [SerdeJson] in
theorem wp_walkChildren {walk : Digest → Bytes → Walked → StoreM Walked}
    (hwalk : ∀ d bytes walked s, (walk d bytes walked).wp sem rely (fun _ _ _ _ => True)
      (Outcome (fun walked' _ => ∀ e ∈ walked.manifests, e ∈ walked'.manifests) fun _ _ => True) s)
    (children : List Digest) (walked : Walked) (s : σ) :
    (walkChildren src repo walk children walked).wp sem rely (fun _ _ _ _ => True)
      (Outcome (fun walked' _ => ∀ e ∈ walked.manifests, e ∈ walked'.manifests) fun _ _ => True)
      s := by
  induction children generalizing walked s with
  | nil => exact fun _ => id
  | cons child rest ih =>
      rw [walkChildren]
      split
      · exact ih walked s
      · rw [Fallible.wp_bind, Fallible.wp_attempt]
        refine Fallible.wp_post (Prog.wp_trivial _ s) ?_
        rintro (err | bytes) s₁ _
        · cases err with
          | notFound => exact ih walked s₁
          | _ => trivial
        · rw [outcome_ok]
          dsimp only
          rw [Fallible.wp_bind]
          refine Fallible.wp_post (hwalk child bytes walked s₁) ?_
          rintro (err | walked₁) s₂ h₁
          · trivial
          · refine Fallible.wp_post (ih walked₁ s₂) ?_
            rintro (err | walked') s' h'
            · trivial
            · exact fun e he => h' e (h₁ e he)

omit [Sha2] in
theorem wp_walkFrom (steps : Nat) (d : Digest) (bytes : Bytes) (walked : Walked) (s : σ) :
    (walkFrom src repo steps d bytes walked).wp sem rely (fun _ _ _ _ => True)
      (Outcome (fun walked' _ => (∀ e ∈ walked.manifests, e ∈ walked'.manifests) ∧
        (0 < steps → d ∈ walked'.manifests)) fun _ _ => True) s := by
  induction steps generalizing d bytes walked s with
  | zero => exact ⟨fun _ => id, nofun⟩
  | succ steps ih =>
      have hvisit : (∀ e ∈ walked.manifests, e ∈ (walked.visit d).manifests) ∧
          d ∈ (walked.visit d).manifests :=
        ⟨fun e he => (BTreeSet.mem_insert ..).mpr (.inr he), (BTreeSet.mem_insert ..).mpr (.inl rfl)⟩
      rw [walkFrom]
      split
      · rename_i hd
        exact ⟨fun _ => id, fun _ => hd⟩
      · cases parseManifestRefs bytes with
        | none => exact ⟨hvisit.1, fun _ => hvisit.2⟩
        | some m =>
            dsimp only
            rw [Fallible.wp_bind]
            have hwalk : ∀ d bytes walked s, (walkFrom src repo steps d bytes walked).wp sem rely
                (fun _ _ _ _ => True) (Outcome (fun walked' _ =>
                  ∀ e ∈ walked.manifests, e ∈ walked'.manifests) fun _ _ => True) s := by
              intro d bytes walked s
              refine Fallible.wp_post (ih d bytes walked s) ?_
              rintro (err | walked') s' h
              · trivial
              · exact h.1
            refine Fallible.wp_post (wp_walkChildren src repo hwalk m.childDigests _ s) ?_
            rintro (err | walked') s' h
            · trivial
            · exact ⟨fun e he => h e (hvisit.1 e he), fun _ => h d hvisit.2⟩

omit [Sha2] in
theorem wp_walk_takes (d : Digest) (bytes : Bytes) (walked : Walked) (s : σ) :
    (walk src repo d bytes walked).wp sem rely (fun _ _ _ _ => True)
      (Outcome (fun walked' _ => (∀ e ∈ walked.manifests, e ∈ walked'.manifests) ∧
        d ∈ walked'.manifests) fun _ _ => True) s := by
  refine Fallible.wp_post (wp_walkFrom src repo (Digest.count + 1) d bytes walked s) ?_
  rintro (err | walked') s' h
  · trivial
  · exact ⟨h.1, h.2 (Nat.succ_pos _)⟩

end Walk

section Copy

-- What the copies bring to the new backend.

theorem does_put {repo : RepoName} {bytes : Bytes} (hstocked : Stocked w₀ repo bytes)
    (reference : Reference) (h : Ready pattern jobs w₀ i old s) :
    Does pattern jobs w₀ i ((jobs i).newBackend.storage.manifestPut repo reference bytes)
      (Outcome (fun _ s' => Later pattern jobs w₀ i old s s' ∧
        ((jobs i).newBackend.read s'.1.volumes repo (.digest (sha256Digest bytes))).isSome ∧
        ∀ t, reference = .tag t →
          ((jobs i).newBackend.read s'.1.volumes repo (.tag t)).isSome) fun _ _ => True) s := by
  rw [Backend.manifestPut_flat]
  intro s₁ hr answer s₂ hs
  have hfirst := h.rely hr
  have hpromise : Promise pattern jobs w₀ s₁ s₂ := promise_of_put hstocked hs
  have hnext := hfirst.ready.call (by intro h; cases h) hs hpromise
  have hvolumes : s₂.1.volumes = s₁.1.volumes.onRoots [(jobs i).newBackend.head]
      fun c => c.put repo reference bytes := by
    rw [(Prod.mk.inj hs.2.1).2.symm]
    exact s₁.1.setRoot_volumes _ _ _
      ((s₁.1.roots (jobs i).newBackend.head).manifestPut_contents repo reference bytes)
  have hhead : s₂.1.volumes (jobs i).newBackend.head =
      (s₁.1.volumes (jobs i).newBackend.head).put repo reference bytes := by
    rw [hvolumes, Volumes.onRoots_of_mem (List.mem_singleton_self _)]
  refine ⟨hpromise, ?_⟩
  change Outcome _ _ answer s₂
  change Except StorageError Digest at answer
  rcases answer with err | d
  · trivial
  · refine ⟨hfirst.trans hnext, ?_, ?_⟩
    · refine (Backend.read_isSome _ _ repo _).mpr ⟨_, (jobs i).newBackend.head_mem_leaves, ?_⟩
      rw [hhead, Contents.read_digest, Contents.put_manifest, if_pos ⟨rfl, rfl⟩]
      rfl
    · rintro t rfl
      refine (Backend.read_isSome _ _ repo _).mpr ⟨_, (jobs i).newBackend.head_mem_leaves, ?_⟩
      rw [hhead, Contents.read_tag, Contents.put_tag, if_pos ⟨rfl, rfl⟩, Option.bind_some,
        Contents.put_manifest, if_pos ⟨rfl, rfl⟩]
      rfl

theorem does_copyBlobs (repo : RepoName) (blobs : List Digest) (report : MigrateReport)
    (h : Ready pattern jobs w₀ i old s) :
    Does pattern jobs w₀ i
      (copyBlobs old.storage (jobs i).newBackend.storage repo blobs report)
      (fun _ s' => Later pattern jobs w₀ i old s s') s := by
  refine does_quiet ?_ h
  have hlooks : ∀ {α : Type} {prog : StoreM α}, ReadOnly prog → prog.Uses Quiet :=
    fun hprog => hprog.mono fun _ => quiet_of_confined
  clear h
  induction blobs generalizing report with
  | nil => exact uses_pure _ _
  | cons d rest ih =>
      refine (hlooks ((jobs i).newBackend.readOnly_blobExists repo.text d)).bind ?_
      intro found
      split
      · exact ih report
      · refine (hlooks (old.readOnly_blobRead repo.text d)).attempt.bind ?_
        intro result
        rcases result with err | bytes
        · cases err with
          | notFound => exact ih report
          | _ => exact uses_fail _ _
        · have hwrite : ((jobs i).newBackend.storage.blobWrite repo.text d bytes).Uses Quiet := by
            rw [Backend.blobWrite_flat]
            exact StoreM.uses_fs trivial
          exact hwrite.bind fun _ => ih _

omit [Sha2] in
theorem concerns_old : Concerns jobs i old old := .inl rfl

omit [Sha2] in
theorem concerns_new : Concerns jobs i old (jobs i).newBackend := .inr rfl

theorem does_copyManifests (repo : RepoName) (digests : List Digest) (report : MigrateReport)
    (h : Ready pattern jobs w₀ i old s) :
    Does pattern jobs w₀ i
      (copyManifests old.storage (jobs i).newBackend.storage repo digests report)
      (Outcome (fun _ s' => Later pattern jobs w₀ i old s s' ∧ ∀ d ∈ digests,
        (old.read s.1.volumes repo (.digest d)).isSome →
          ((jobs i).newBackend.read s'.1.volumes repo (.digest d)).isSome) fun _ _ => True) s := by
  induction digests generalizing report s with
  | nil => exact ⟨h.now, nofun⟩
  | cons d rest ih =>
      -- The rest of the loop, once the digest has been dealt with.
      have hrest : ∀ report s₁, Later pattern jobs w₀ i old s s₁ →
          ((old.read s.1.volumes repo (.digest d)).isSome →
            ((jobs i).newBackend.read s₁.1.volumes repo (.digest d)).isSome) →
          Does pattern jobs w₀ i
            (copyManifests old.storage (jobs i).newBackend.storage repo rest report)
            (Outcome (fun _ s' => Later pattern jobs w₀ i old s s' ∧ ∀ e ∈ d :: rest,
              (old.read s.1.volumes repo (.digest e)).isSome →
                ((jobs i).newBackend.read s'.1.volumes repo (.digest e)).isSome)
              fun _ _ => True) s₁ := by
        intro report s₁ h₁ hd
        refine Fallible.wp_post (ih report h₁.ready) ?_
        rintro (err | report') s' h'
        · trivial
        · obtain ⟨hlater, hcopied⟩ := h'
          refine ⟨h₁.trans hlater, ?_⟩
          intro e he hold
          rcases List.mem_cons.mp he with rfl | he
          · exact hlater.read concerns_new (hd hold)
          · exact hcopied e he (h₁.read concerns_old hold)
      rw [copyManifests]
      refine does_attempt (Fallible.wp_post (does_get concerns_new repo (.digest d) h) ?_)
      rintro (err | bytes) s₁ hget
      · obtain ⟨_, h₁, _⟩ := hget
        refine does_attempt (Fallible.wp_post (does_get concerns_old repo (.digest d) h₁.ready) ?_)
        rintro (err | bytes) s₂ hget
        · obtain ⟨rfl, h₂, hnone⟩ := hget
          exact hrest report s₂ (h₁.trans h₂) fun hold => absurd (h₁.read concerns_old hold) hnone
        · obtain ⟨h₂, hfound⟩ := hget
          refine does_bind (Fallible.wp_post (does_put hfound.stocked (.digest d) h₂.ready) ?_)
          rintro (err | put) s₃ hput
          · trivial
          · obtain ⟨h₃, hthere, _⟩ := hput
            rw [hfound.addressed d rfl] at hthere
            exact hrest _ s₃ ((h₁.trans h₂).trans h₃) fun _ => hthere
      · obtain ⟨h₁, hfound⟩ := hget
        exact hrest report s₁ h₁ fun _ => hfound.there

theorem does_copyTags (repo : RepoName) (entries : List (TagName × Digest))
    (h : Ready pattern jobs w₀ i old s)
    (hentries : ∀ e ∈ entries, (old.read s.1.volumes repo (.digest e.2)).isSome) :
    Does pattern jobs w₀ i (copyTags old.storage (jobs i).newBackend.storage repo entries)
      (Outcome (fun _ s' => Later pattern jobs w₀ i old s s' ∧ ∀ e ∈ entries,
        ((jobs i).newBackend.read s'.1.volumes repo (.tag e.1)).isSome) fun _ _ => True) s := by
  induction entries generalizing s with
  | nil => exact ⟨h.now, nofun⟩
  | cons entry rest ih =>
      obtain ⟨tag, d⟩ := entry
      rw [copyTags]
      refine does_attempt (Fallible.wp_post (does_get concerns_old repo (.digest d) h) ?_)
      rintro (err | bytes) s₁ hget
      · exact absurd (hentries (tag, d) List.mem_cons_self) hget.2.2
      · obtain ⟨h₁, hfound⟩ := hget
        refine does_bind (Fallible.wp_post (does_put hfound.stocked (.tag tag) h₁.ready) ?_)
        rintro (err | put) s₂ hput
        · trivial
        · obtain ⟨h₂, _, htag⟩ := hput
          have hrest : ∀ e ∈ rest, (old.read s₂.1.volumes repo (.digest e.2)).isSome :=
            fun e he => (h₁.trans h₂).read concerns_old (hentries e (List.mem_cons_of_mem _ he))
          refine Fallible.wp_post (ih h₂.ready hrest) ?_
          rintro (err | value) s' h'
          · trivial
          · obtain ⟨hlater, htags⟩ := h'
            refine ⟨(h₁.trans h₂).trans hlater, ?_⟩
            intro e he
            rcases List.mem_cons.mp he with rfl | he
            · exact hlater.read concerns_new (htag tag rfl)
            · exact htags e he

variable [SerdeJson]

theorem does_walkTags (repo : RepoName) (listed : List TagName) (tags : List (TagName × Digest))
    (walked : Walked) (h : Ready pattern jobs w₀ i old s)
    (htags : ∀ e ∈ tags, (old.read s.1.volumes repo (.digest e.2)).isSome) :
    Does pattern jobs w₀ i (walkTags old.storage repo listed tags walked)
      (Outcome (fun found s' => Later pattern jobs w₀ i old s s' ∧
        ((∀ e ∈ tags, e ∈ found.1) ∧ ∀ t ∈ listed, ∃ d, (t, d) ∈ found.1) ∧
        ∀ e ∈ found.1, (old.read s'.1.volumes repo (.digest e.2)).isSome) fun _ _ => True) s := by
  induction listed generalizing tags walked s with
  | nil => exact ⟨h.now, ⟨fun _ => id, nofun⟩, htags⟩
  | cons tag rest ih =>
      rw [walkTags]
      refine does_bind (Fallible.wp_post (does_get concerns_old repo (.tag tag) h) ?_)
      rintro (err | bytes) s₁ hget
      · trivial
      · obtain ⟨h₁, hfound⟩ := hget
        refine does_bind (Fallible.wp_post (does_quiet ((readOnly_walk old repo _ bytes walked).mono
          fun _ => quiet_of_confined) h₁.ready) ?_)
        rintro (err | walked₁) s₂ h₂
        · trivial
        · have hmore : ∀ e ∈ tags ++ [(tag, sha256Digest bytes)],
              (old.read s₂.1.volumes repo (.digest e.2)).isSome := by
            intro e he
            rcases List.mem_append.mp he with he | he
            · exact (h₁.trans h₂).read concerns_old (htags e he)
            · obtain rfl := List.mem_singleton.mp he
              exact h₂.read concerns_old hfound.manifest
          refine Fallible.wp_post (ih _ walked₁ h₂.ready hmore) ?_
          rintro (err | found) s' h'
          · trivial
          · obtain ⟨hlater, ⟨hkept, hlisted⟩, hthere⟩ := h'
            refine ⟨(h₁.trans h₂).trans hlater, ⟨?_, ?_⟩, hthere⟩
            · exact fun e he => hkept e (List.mem_append_left _ he)
            · intro t ht
              rcases List.mem_cons.mp ht with rfl | ht
              · exact ⟨_, hkept _ (List.mem_append_right _ (List.mem_singleton_self _))⟩
              · exact hlisted t ht

theorem does_walkDetached (repo : RepoName) (digests : List Digest) (walked : Walked)
    (h : Ready pattern jobs w₀ i old s) :
    Does pattern jobs w₀ i (walkDetached old.storage repo digests walked)
      (Outcome (fun walked' s' => Later pattern jobs w₀ i old s s' ∧
        (∀ e ∈ walked.manifests, e ∈ walked'.manifests) ∧ ∀ d ∈ digests,
          (old.read s.1.volumes repo (.digest d)).isSome → d ∈ walked'.manifests)
        fun _ _ => True) s := by
  induction digests generalizing walked s with
  | nil => exact ⟨h.now, fun _ => id, nofun⟩
  | cons d rest ih =>
      -- The rest of the loop, with the digest walked or not to be found.
      have hrest : ∀ walked₁ s₁, Later pattern jobs w₀ i old s s₁ →
          (∀ e ∈ walked.manifests, e ∈ walked₁.manifests) →
          ((old.read s.1.volumes repo (.digest d)).isSome → d ∈ walked₁.manifests) →
          Does pattern jobs w₀ i (walkDetached old.storage repo rest walked₁)
            (Outcome (fun walked' s' => Later pattern jobs w₀ i old s s' ∧
              (∀ e ∈ walked.manifests, e ∈ walked'.manifests) ∧ ∀ e ∈ d :: rest,
                (old.read s.1.volumes repo (.digest e)).isSome → e ∈ walked'.manifests)
              fun _ _ => True) s₁ := by
        intro walked₁ s₁ h₁ hkept hd
        refine Fallible.wp_post (ih walked₁ h₁.ready) ?_
        rintro (err | walked') s' h'
        · trivial
        · obtain ⟨hlater, hkept', hlisted⟩ := h'
          refine ⟨h₁.trans hlater, fun e he => hkept' e (hkept e he), ?_⟩
          intro e he hold
          rcases List.mem_cons.mp he with rfl | he
          · exact hkept' e (hd hold)
          · exact hlisted e he (h₁.read concerns_old hold)
      rw [walkDetached]
      split
      · rename_i hd
        exact hrest walked s h.now (fun _ => id) fun _ => hd
      · refine does_attempt (Fallible.wp_post (does_get concerns_old repo (.digest d) h) ?_)
        rintro (err | bytes) s₁ hget
        · obtain ⟨rfl, h₁, hnone⟩ := hget
          exact hrest walked s₁ h₁ (fun _ => id) fun hold => absurd hold hnone
        · obtain ⟨h₁, hfound⟩ := hget
          refine does_bind (Fallible.wp_post (does_look (readOnly_walk old repo d bytes walked)
            (fun sem rely s => wp_walk_takes old.storage repo d bytes walked s) h₁.ready) ?_)
          rintro (err | walked₁) s₂ hwalk
          · trivial
          · obtain ⟨h₂, hkept, hd⟩ := hwalk
            exact hrest walked₁ s₂ (h₁.trans h₂) hkept fun _ => hd

theorem does_copyRepo (repo : RepoName) (report : MigrateReport)
    (h : Ready pattern jobs w₀ i old s) :
    Does pattern jobs w₀ i (copyRepo old.storage (jobs i).newBackend.storage repo report)
      (Outcome (fun _ s' => Later pattern jobs w₀ i old s s' ∧ ∀ reference,
        (old.read s.1.volumes repo reference).isSome →
          ((jobs i).newBackend.read s'.1.volumes repo reference).isSome) fun _ _ => True) s := by
  rw [copyRepo]
  refine does_bind (Fallible.wp_post (does_listTags concerns_old repo h) ?_)
  rintro (err | listed) s₁ h₁
  · trivial
  obtain ⟨h₁, hlisted⟩ := h₁
  refine does_bind (Fallible.wp_post (does_walkTags repo listed.toList [] .empty h₁.ready nofun) ?_)
  rintro (err | ⟨tags, walked⟩) s₂ h₂
  · trivial
  obtain ⟨h₂, ⟨_, htags⟩, hthere⟩ := h₂
  refine does_bind (Fallible.wp_post (does_listDigests concerns_old repo h₂.ready) ?_)
  rintro (err | digests) s₃ h₃
  · trivial
  obtain ⟨h₃, hdigests⟩ := h₃
  refine does_bind (Fallible.wp_post
    (does_walkDetached repo digests.toList walked h₃.ready) ?_)
  rintro (err | walked') s₄ h₄
  · trivial
  obtain ⟨h₄, _, hwalked⟩ := h₄
  refine does_bind (Fallible.wp_post (does_copyBlobs repo walked'.blobs.toList report h₄.ready) ?_)
  rintro (err | report₁) s₅ h₅
  · trivial
  refine does_bind (Fallible.wp_post
    (does_copyManifests repo walked'.manifests.toList report₁ h₅.ready) ?_)
  rintro (err | report₂) s₆ h₆
  · trivial
  obtain ⟨h₆, hmanifests⟩ := h₆
  have hlast := (h₃.trans h₄).trans (h₅.trans h₆)
  refine does_bind (Fallible.wp_post (does_copyTags repo tags h₆.ready
    fun e he => hlast.read concerns_old (hthere e he)) ?_)
  rintro (err | value) s₇ h₇
  · trivial
  obtain ⟨h₇, hcopied⟩ := h₇
  refine ⟨(h₁.trans h₂).trans (hlast.trans h₇), ?_⟩
  intro reference hold
  cases reference with
  | digest d =>
      have hthird := (h₁.trans h₂).read concerns_old hold
      have hmem := hwalked d (hdigests d hthird) (h₃.read concerns_old hthird)
      have hfifth := (h₃.trans (h₄.trans h₅)).read concerns_old hthird
      exact h₇.read concerns_new (hmanifests d hmem hfifth)
  | tag t =>
      obtain ⟨d, hd⟩ := htags t (hlisted t hold)
      exact hcopied (t, d) hd

theorem does_copyRepos (repos : List RepoName) (report : MigrateReport)
    (h : Ready pattern jobs w₀ i old s) :
    Does pattern jobs w₀ i (copyRepos old.storage (jobs i).newBackend.storage repos report)
      (Outcome (fun _ s' => Later pattern jobs w₀ i old s s' ∧ ∀ repo ∈ repos, ∀ reference,
        (old.read s.1.volumes repo reference).isSome →
          ((jobs i).newBackend.read s'.1.volumes repo reference).isSome) fun _ _ => True) s := by
  induction repos generalizing report s with
  | nil => exact ⟨h.now, nofun⟩
  | cons repo rest ih =>
      rw [copyRepos]
      refine does_bind (Fallible.wp_post (does_copyRepo repo report h) ?_)
      rintro (err | report₁) s₁ h₁
      · trivial
      · obtain ⟨h₁, hcopied⟩ := h₁
        refine Fallible.wp_post (ih report₁ h₁.ready) ?_
        rintro (err | report₂) s' h'
        · trivial
        · obtain ⟨hlater, hrest⟩ := h'
          refine ⟨h₁.trans hlater, ?_⟩
          intro r hr reference hold
          rcases List.mem_cons.mp hr with rfl | hr
          · exact hlater.read concerns_new (hcopied reference hold)
          · exact hrest r hr reference (h₁.read concerns_old hold)

end Copy

section Run

-- What the new backend has of everything that the rule's clients could read.
def Reached (w₀ : World) (b : Backend) (v : Volumes) (repo : RepoName) : Prop :=
  ∀ reference, ((w₀.router.resolve repo.text).read w₀.volumes repo reference).isSome →
    (b.read v repo reference).isSome

theorem Later.reached {b : Backend} (h : Later pattern jobs w₀ i old s s')
    (hb : Concerns jobs i old b) {repo : RepoName} (hreached : Reached w₀ b s.1.volumes repo) :
    Reached w₀ b s'.1.volumes repo :=
  fun reference hread => h.read hb (hreached reference hread)

-- A repository that is left out has been copied before.
theorem does_selectRepos (listed : List RepoName) (h : Ready pattern jobs w₀ i old s) :
    Does pattern jobs w₀ i (selectRepos pattern old listed)
      (Outcome (fun repos s' => Later pattern jobs w₀ i old s s' ∧ ∀ repo ∈ listed,
        w₀.router.RoutedBy pattern repo.text →
          repo ∈ repos ∨ Reached w₀ (jobs i).newBackend s'.1.volumes repo) fun _ _ => True) s := by
  induction listed generalizing s with
  | nil => exact ⟨h.now, nofun⟩
  | cons repo rest ih =>
      rw [selectRepos]
      split
      · refine does_bind (does_call trivial h ?_)
        intro s₁ backend s₂ h₁ hs h₂
        change Backend at backend
        obtain ⟨hmet, hs⟩ := hs
        have hbackend : s₁.1.router.resolve repo.text = backend := (Prod.mk.inj hs.1).1
        change Does pattern jobs w₀ i (_ >>= _) _ s₂
        refine does_bind (Fallible.wp_post (ih h₂.ready) ?_)
        rintro (err | repos) s' h'
        · trivial
        · obtain ⟨hlater, hselected⟩ := h'
          refine ⟨(h₁.trans h₂).trans hlater, ?_⟩
          intro r hr hrouted
          rcases List.mem_cons.mp hr with rfl | hr
          · have hby := (h₁.ready.safe.routed r).mpr hrouted
            rcases hmet r rfl hby old h₁.ready.underWay with hold | hcopied
            · refine .inl ?_
              rw [if_pos (by simp [Backend.ptrEq, ← hbackend, hold])]
              exact List.mem_cons_self
            · refine .inr ((h₂.trans hlater).reached concerns_new ?_)
              exact fun reference hread =>
                hcopied reference (h₁.ready.carries r hrouted reference hread)
          · refine (hselected r hr hrouted).imp_left fun hmem => ?_
            split
            · exact List.mem_cons_of_mem repo hmem
            · exact hmem
      · rename_i hglob
        refine Fallible.wp_post (ih h) ?_
        rintro (err | repos) s' h'
        · trivial
        · refine ⟨h'.1, ?_⟩
          intro r hr hrouted
          rcases List.mem_cons.mp hr with rfl | hr
          · exact absurd (w₀.router.globMatch_of_routedBy hrouted) hglob
          · exact h'.2 r hr hrouted

variable [SerdeJson]

-- The end of a migration, after its cutover.
theorem does_drain (repos : List RepoName) (drain : Bool) (report : MigrateReport)
    (s : History ι) : Does pattern jobs w₀ i
      (if drain then drainOld old repos report else pure report) (fun _ _ => True) s := by
  have huses : Fallible.Uses Quiet
      (if drain then drainOld old repos report else pure report : StoreM MigrateReport) := by
    split
    · exact (uses_drainOld old repos report).mono fun _ => quiet_of_confined
    · exact uses_pure _ _
  exact Prog.wp_promise huses _ (fun _ hop _ _ _ hs => promise_of_quiet hop hs) s

theorem does_move (drain : Bool) (repos : List RepoName) {k : Nat}
    (hkey : w₀.router.keyIndex pattern = some k) (h : Ready pattern jobs w₀ i old s)
    (hrepos : ∀ repo : RepoName, w₀.router.RoutedBy pattern repo.text →
      repo ∈ repos ∨ Reached w₀ (jobs i).newBackend s.1.volumes repo) :
    Does pattern jobs w₀ i (move pattern old (jobs i).newBackend drain repos) (fun _ _ => True)
      s := by
  have hoverlay : newOverlay (jobs i).newBackend old =
      StoreM.newArc >>= fun arc => pure (overlay arc (jobs i).newBackend old) := rfl
  rw [move, hoverlay, bind_assoc]
  refine does_bind (does_call trivial h ?_)
  intro s₁ arc s₂ h₁ _ h₂
  change Nat at arc
  change Does pattern jobs w₀ i (StoreM.upsert pattern (overlay arc _ old) >>= _) _ s₂
  refine does_bind ?_
  intro s₃ hr added s₄ hs
  have h₃ := h₂.ready.rely hr
  have hcarries : Carries pattern w₀ (overlay arc (jobs i).newBackend old) s₃.1.volumes := by
    intro repo hrepo reference hread
    obtain ⟨root, hroot, hat⟩ :=
      (old.read_isSome _ repo reference).mp (h₃.ready.carries repo hrepo reference hread)
    refine (Backend.read_isSome _ _ repo reference).mpr ⟨root, ?_, hat⟩
    rw [overlay_leaves]
    exact List.mem_append_right _ hroot
  have hpromise := promise_of_upsert hkey hcarries hs
  have hne : Op.upsert pattern (overlay arc (jobs i).newBackend old) ≠
      .upsert pattern (jobs i).newBackend := by
    intro heq
    exact overlay_ne arc _ old (Op.upsert.inj heq).2
  have h₄ := (h₁.trans h₂).trans (h₃.trans (h₃.ready.call hne hs hpromise))
  refine ⟨hpromise, ?_⟩
  change Does pattern jobs w₀ i (copyRepos _ _ repos _ >>= _) _ s₄
  refine does_bind (Fallible.wp_post (does_copyRepos repos _ h₄.ready) ?_)
  rintro (err | report) s₅ h₅
  · trivial
  obtain ⟨h₅, hcopied⟩ := h₅
  change Does pattern jobs w₀ i (StoreM.upsert pattern (jobs i).newBackend >>= _) _ s₅
  refine does_bind ?_
  intro s₆ hr added s₇ hs
  have h₆ := h₅.ready.rely hr
  have hcarries : Carries pattern w₀ (jobs i).newBackend s₆.1.volumes := by
    intro repo hrepo reference hread
    rcases hrepos repo hrepo with hmem | hreached
    · have hold := h₄.ready.carries repo hrepo reference hread
      exact h₆.read concerns_new (hcopied repo hmem reference hold)
    · exact ((h₄.trans h₅).trans h₆).reached concerns_new hreached reference hread
  exact ⟨promise_of_upsert hkey hcarries hs, does_drain repos drain _ s₇⟩

theorem does_run (hs : Safe pattern w₀ s.1) (hnew : ∀ op answer, ¬Did i s op answer) :
    Does pattern jobs w₀ i (run pattern (jobs i).newBackend (jobs i).drain) (fun _ _ => True) s := by
  rw [run]
  refine does_bind ?_
  intro s₁ hr backend s₂ hcall
  change Option Backend at backend
  have hsafe := hr.safe hs
  have hquiet : Quiet (.backendForPattern pattern) := trivial
  have hpromise : Promise pattern jobs w₀ s₁ s₂ := promise_of_quiet hquiet hcall
  have hrule : s₁.1.router.backendForPattern pattern = backend := (Prod.mk.inj hcall.2.1).1
  have hworld : s₁.1 = s₂.1 := (Prod.mk.inj hcall.2.1).2
  refine ⟨hpromise, ?_⟩
  cases backend with
  | none => trivial
  | some old =>
      change Does pattern jobs w₀ i (if old.ptrEq (jobs i).newBackend = true then _ else _) _ s₂
      split
      · trivial
      · rename_i hmoves
        have hcarries := hsafe.carries old hrule
        rw [hworld] at hcarries
        obtain ⟨k, hkey⟩ := s₁.1.router.exists_keyIndex hrule
        rw [hsafe.key] at hkey
        have h₂ : Ready pattern jobs w₀ i old s₂ := by
          refine ⟨hpromise.safe hsafe, ⟨?_, did_of_record hcall.2, ?_⟩, hcarries⟩
          · simpa [Backend.ptrEq] using hmoves
          · intro added hdid
            rcases (did_record_iff hcall.2).mp hdid with hbefore | hnow
            · exact hnew _ _ ((hr.record _ _).mp hbefore)
            · cases hnow
        refine does_bind (Fallible.wp_post (does_listRepos concerns_old h₂) ?_)
        rintro (err | listed) s₃ h₃
        · trivial
        obtain ⟨h₃, hlisted⟩ := h₃
        refine does_bind (Fallible.wp_post (does_selectRepos listed.toList h₃.ready) ?_)
        rintro (err | repos) s₄ h₄
        · trivial
        obtain ⟨h₄, hselected⟩ := h₄
        refine does_move (jobs i).drain repos hkey h₄.ready ?_
        intro repo hrepo
        by_cases hany : ∃ reference,
            ((w₀.router.resolve repo.text).read w₀.volumes repo reference).isSome
        · obtain ⟨reference, hread⟩ := hany
          exact hselected repo
            (hlisted repo reference (h₂.carries repo hrepo reference hread)) hrepo
        · exact .inr fun reference hread => absurd ⟨reference, hread⟩ hany

end Run

-- The migrations at their start.
def together [SerdeJson] (pattern : String) (jobs : ι → Job) (w : World) :
    Pool ι Op Op.Ans (fun _ => Except StorageError MigrateReport) World :=
  ⟨fun i => run pattern (jobs i).newBackend (jobs i).drain, (w, [])⟩

theorem compatible : Pool.Compatible (ρ := fun _ => Except StorageError MigrateReport)
    World.handle.sem (Rely pattern jobs w₀) (fun _ _ s _ s' => Promise pattern jobs w₀ s s')
    (fun _ _ _ => True) where
  refl := Rely.refl
  trans _ _ _ _ := Rely.trans
  others _ _ hij _ _ _ _ hs hp := .of_promise hij hs hp
  stable _ _ _ _ _ h := h

-- A manifest that is read where the repository is looked up is the one read at the start.
theorem Safe.noMiss_of_kept {w : World} (h : Safe pattern w₀ w)
    (hfree : w₀.volumes.CollisionFree) {repo : RepoName}
    (hkept : ∀ reference, ((w₀.router.resolve repo.text).read w₀.volumes repo reference).isSome →
      ((w.router.resolve repo.text).read w.volumes repo reference).isSome) : NoMiss w₀ w repo := by
  constructor
  · intro d bytes hread
    rw [World.manifestGet_eq_ok] at hread ⊢
    have hthere := hkept (.digest d) (Option.isSome_iff_exists.mpr ⟨bytes, hread⟩)
    obtain ⟨bytes', hread'⟩ := Option.isSome_iff_exists.mp hthere
    obtain ⟨p, _, hp⟩ := Backend.exists_of_read hread
    obtain ⟨q, _, hq⟩ := Backend.exists_of_read hread'
    obtain ⟨q₀, hq₀⟩ := h.stocked q repo d bytes' hq
    rw [(w.volumes_wellFormed q).manifest_addressed repo d bytes' hq] at hq₀
    rw [hread', hfree.coherent w₀.volumes_wellFormed repo d q₀ p bytes' bytes hq₀ hp]
  · intro tag bytes hread
    rw [World.manifestGet_eq_ok] at hread
    have hthere := hkept (.tag tag) (Option.isSome_iff_exists.mpr ⟨bytes, hread⟩)
    obtain ⟨bytes', hread'⟩ := Option.isSome_iff_exists.mp hthere
    exact ⟨bytes', (World.manifestGet_eq_ok ..).mpr hread'⟩

-- A matching repository is routed by the rule, or apart from it by a longer one.
theorem Safe.noMiss {w : World} (h : Safe pattern w₀ w) (hfree : w₀.volumes.CollisionFree)
    {repo : RepoName} (hmatch : globMatch pattern repo.text = true) : NoMiss w₀ w repo := by
  refine h.noMiss_of_kept hfree ?_
  by_cases hthrough : w.router.RoutedThrough pattern repo.text
  · have hby := (w.router.routedBy_iff_through hthrough).mpr ⟨hmatch, hthrough⟩
    obtain ⟨k, hkey, _⟩ := id hby
    have hrule : w.router.backendForPattern pattern = some (w.router.backendAt k) := by
      rw [RepoRouter.backendForPattern_eq, hkey, Option.map_some]
    rw [w.router.resolve_of_routedThrough hrule hthrough]
    exact h.carries _ hrule repo ((h.routed repo).mp hby)
  · have hapart := h.apart repo hthrough
    rw [hapart.resolve]
    exact hapart.kept

-- At no point of migrations that run at the same time is a read missed, as long as
-- none leaves out what the others moved and none deletes where others are at work.
theorem concurrent_noMiss [SerdeJson] [DecidableEq ι] (hfree : w₀.volumes.CollisionFree)
    {pool : Pool ι Op Op.Ans (fun _ => Except StorageError MigrateReport) World}
    (hrun : Pool.RunsWithin World.handle.sem (Met pattern jobs) (together pattern jobs w₀) pool)
    {repo : RepoName} (hmatch : globMatch pattern repo.text = true) :
    NoMiss w₀ pool.now.1 repo := by
  have hmeets : Pool.MeetsWithin World.handle.sem (Met pattern jobs) (Rely pattern jobs w₀)
      (fun _ _ s _ s' => Promise pattern jobs w₀ s s') (fun _ _ _ => True)
      (together pattern jobs w₀) :=
    fun i => does_run (safe_start pattern w₀) fun op answer hdid => by cases hdid
  have hsafe := hmeets.invariant compatible hrun (fun s => Safe pattern w₀ s.1)
    (safe_start pattern w₀) fun _ _ _ _ _ _ hp hs => hp.safe hs
  exact hsafe.noMiss hfree hmatch

end

section

attribute [local instance] Sample.sha2 Sample.serdeJson

-- Two migrations of one image, each to an empty volume of its own.
def contested : World where
  roots := Sample.stored.roots
  router := Sample.stored.router
  nextArc := 3
  arcs_allocated := by decide

def contenders : Bool → Job
  | false => ⟨.fs 1 1, false⟩
  | true => ⟨.fs 2 2, false⟩

-- The first goes all the way after so many calls of the second.
def contest (turns : Nat) :
    Pool Bool Op Op.Ans (fun _ => Except StorageError MigrateReport) World :=
  (together "*" contenders contested).play World.handle
    (List.replicate turns true ++ List.replicate 20 false ++ List.replicate 20 true)

theorem contest_reads : contested.router.RoutedBy "*" Sample.dataX.text ∧
    contested.manifestGet Sample.dataX (.tag Sample.v1) = .ok Sample.braces ∧
    (∀ i, ((contest 2).parties i).isCall = false) ∧
    (contest 2).now.1.manifestGet Sample.dataX (.tag Sample.v1) = .error .notFound := by
  decide +kernel

theorem contest_lost : contested.router.RoutedBy "*" Sample.dataX.text ∧
    ∃ pool, Pool.Runs World.handle.sem (together "*" contenders contested) pool ∧
      (∀ i, (pool.parties i).isCall = false) ∧ ¬NoMiss contested pool.now.1 Sample.dataX := by
  obtain ⟨hrouted, hbefore, hover, hafter⟩ := contest_reads
  refine ⟨hrouted, contest 2, Pool.runs_play _ _ _, hover, ?_⟩
  intro h
  obtain ⟨bytes, hread⟩ := h.tag Sample.v1 Sample.braces hbefore
  rw [hafter] at hread
  cases hread

-- Every lookup finds what every migration has read.
def undisputed (_ : Bool) (op : Op) (s : History Bool) : Bool :=
  match op with
  | .backendFor key => s.1.router.resolve key = .fs 0 0 && s.2.all fun e =>
      match e with
      | ⟨_, .backendForPattern _, some b⟩ => b = .fs 0 0
      | _ => true
  | .fs _ (.manifestDelete _ _) => false
  | _ => true

theorem met_of_undisputed (i : Bool) (op : Op) (s : History Bool)
    (h : undisputed i op s = true) : Met "*" contenders i op s := by
  cases op with
  | backendFor key =>
      obtain ⟨hnow, hread⟩ := (Bool.and_eq_true _ _).mp h
      intro repo _ _ old hway
      have hold := List.all_eq_true.mp hread _ hway.read
      rw [of_decide_eq_true hold]
      exact .inl (of_decide_eq_true hnow)
  | fs root call =>
      cases call with
      | manifestDelete repo reference => cases h
      | _ => trivial
  | _ => trivial

theorem contest_kept : contested.router.RoutedBy "*" Sample.dataX.text ∧
    NoMiss contested (contest 3).now.1 Sample.dataX := by
  have hfree : contested.volumes.CollisionFree := Sample.stored_collisionFree
  have hrun : Pool.RunsWithin World.handle.sem (Met "*" contenders)
      (together "*" contenders contested) (contest 3) :=
    Pool.runsWithin_play met_of_undisputed _ _ (by decide +kernel)
  exact ⟨by decide, concurrent_noMiss hfree hrun (by decide)⟩

end

end RspaceRegistry.Migrate.Concurrent
