import RspaceRegistry.Migrate.Jobs

namespace RspaceRegistry.Migrate.Concurrent

open Calls Fallible Ordered MultiStore Places

section

variable [Sha2] {ι : Type}

-- A migration on its way, while its old backend still carries everything.
structure Ready (pattern : String) (jobs : ι → Job) (w₀ : World) (i : ι) (old : Backend)
    (s : History ι) : Prop where
  safe : Safe pattern w₀ s.1
  underWay : UnderWay pattern jobs i old s
  carries : Carries pattern w₀ old s.1.volumes

-- What is then known of a later moment.
structure Later (pattern : String) (jobs : ι → Job) (w₀ : World) (i : ι) (old : Backend)
    (s s' : History ι) : Prop where
  ready : Ready pattern jobs w₀ i old s'
  grown : ∀ root, root ∈ old.leaves ∨ root ∈ (jobs i).newBackend.leaves →
    (s.1.volumes root).Grown (s'.1.volumes root)

-- What a migration does among the others, as far as its calls meet the condition.
abbrev Does (pattern : String) (jobs : ι → Job) (w₀ : World) (i : ι) {α : Type} (prog : StoreM α)
    (post : Except StorageError α → History ι → Prop) (s : History ι) : Prop :=
  prog.wp (within pattern jobs i) (Rely pattern jobs w₀ i)
    (fun _ s _ s' => Promise pattern jobs w₀ s s') post s

variable {pattern : String} {jobs : ι → Job} {w₀ : World} {i : ι} {old : Backend}
variable {s s₁ s' : History ι}

theorem Ready.now (h : Ready pattern jobs w₀ i old s) : Later pattern jobs w₀ i old s s :=
  ⟨h, fun _ _ => .refl _⟩

theorem Ready.rely (h : Ready pattern jobs w₀ i old s) (hr : Rely pattern jobs w₀ i s s') :
    Later pattern jobs w₀ i old s s' := by
  have hgrown : ∀ root, root ∈ old.leaves ∨ root ∈ (jobs i).newBackend.leaves →
      (s.1.volumes root).Grown (s'.1.volumes root) :=
    fun root hroot => hr.grown root ⟨old, h.underWay, hroot⟩
  refine ⟨⟨hr.safe h.safe, (underWay_congr hr.record).mpr h.underWay, ?_⟩, hgrown⟩
  exact h.carries.grown fun root hroot => hgrown root (.inl hroot)

theorem Ready.call {op : Op} {answer : op.Ans} (h : Ready pattern jobs w₀ i old s)
    (hop : op ≠ .upsert pattern (jobs i).newBackend) (hs : within pattern jobs i op s answer s')
    (hp : Promise pattern jobs w₀ s s') : Later pattern jobs w₀ i old s s' := by
  have hgrown : ∀ root, root ∈ old.leaves ∨ root ∈ (jobs i).newBackend.leaves →
      (s.1.volumes root).Grown (s'.1.volumes root) :=
    fun root hroot => hp.grown root (.inr ⟨i, old, h.underWay, hroot⟩)
  refine ⟨⟨hp.safe h.safe, ?_, ?_⟩, hgrown⟩
  · refine ⟨h.underWay.moves, h.underWay.read.record hs.2, ?_⟩
    intro added hdid
    rcases (did_record_iff hs.2).mp hdid with hbefore | hnow
    · exact h.underWay.ahead added hbefore
    · exact hop (congrArg Event.op hnow).symm
  · exact h.carries.grown fun root hroot => hgrown root (.inl hroot)

theorem Later.trans (h : Later pattern jobs w₀ i old s s₁) (h' : Later pattern jobs w₀ i old s₁ s') :
    Later pattern jobs w₀ i old s s' :=
  ⟨h'.ready, fun root hroot => (h.grown root hroot).trans (h'.grown root hroot)⟩

-- Its two backends.
def Concerns (jobs : ι → Job) (i : ι) (old b : Backend) : Prop := b = old ∨ b = (jobs i).newBackend

omit [Sha2] in
theorem Concerns.leaves {b : Backend} (h : Concerns jobs i old b) {root : RootId}
    (hroot : root ∈ b.leaves) : root ∈ old.leaves ∨ root ∈ (jobs i).newBackend.leaves := by
  rcases h with rfl | rfl
  · exact .inl hroot
  · exact .inr hroot

theorem Later.read {b : Backend} (h : Later pattern jobs w₀ i old s s')
    (hb : Concerns jobs i old b) {repo : RepoName} {reference : Reference}
    (hread : (b.read s.1.volumes repo reference).isSome) :
    (b.read s'.1.volumes repo reference).isSome :=
  Backend.read_grown (fun root hroot => h.grown root (hb.leaves hroot) _) hread

section Calls

variable {α β : Type}

theorem does_bind {prog : StoreM α} {rest : α → StoreM β}
    {post : Except StorageError β → History ι → Prop}
    (h : Does pattern jobs w₀ i prog (Outcome (fun value => Does pattern jobs w₀ i (rest value) post)
      fun err => post (.error err)) s) : Does pattern jobs w₀ i (prog >>= rest) post s :=
  (Fallible.wp_bind prog rest post s).mpr h

theorem does_attempt {prog : StoreM α} {rest : Except StorageError α → StoreM β}
    {post : Except StorageError β → History ι → Prop}
    (h : Does pattern jobs w₀ i prog (fun result => Does pattern jobs w₀ i (rest result) post) s) :
    Does pattern jobs w₀ i (attempt prog >>= rest) post s :=
  does_bind ((Fallible.wp_attempt prog _ s).mpr h)

omit [Sha2] in
theorem quiet_ne {op : Op} (hop : Quiet op) (key : String) (b : Backend) : op ≠ .upsert key b := by
  rintro rfl
  exact hop

theorem does_call {op : Op} {next : op.Ans → Prog Op Op.Ans (Except StorageError α)}
    {post : Except StorageError α → History ι → Prop} (hop : Quiet op)
    (h : Ready pattern jobs w₀ i old s)
    (hnext : ∀ s₁ answer s₂, Later pattern jobs w₀ i old s s₁ →
      within pattern jobs i op s₁ answer s₂ → Later pattern jobs w₀ i old s₁ s₂ →
        Does pattern jobs w₀ i (next answer) post s₂) :
    Does pattern jobs w₀ i (Prog.call op next) post s := by
  intro s₁ hr answer s₂ hs
  have hfirst := h.rely hr
  have hpromise : Promise pattern jobs w₀ s₁ s₂ := promise_of_quiet hop hs
  exact ⟨hpromise, hnext s₁ answer s₂ hfirst hs
    (hfirst.ready.call (quiet_ne hop _ _) hs hpromise)⟩

theorem does_quiet {prog : StoreM α} (hprog : prog.Uses Quiet)
    (h : Ready pattern jobs w₀ i old s) :
    Does pattern jobs w₀ i prog (fun _ s' => Later pattern jobs w₀ i old s s') s := by
  suffices hafter : ∀ (prog : Prog Op Op.Ans (Except StorageError α)) s₁, prog.Uses Quiet →
      Later pattern jobs w₀ i old s s₁ →
        Does pattern jobs w₀ i prog (fun _ s' => Later pattern jobs w₀ i old s s') s₁ from
    hafter prog s hprog h.now
  intro prog
  induction prog with
  | pure value => exact fun s₁ _ hs₁ => hs₁
  | call op next ih =>
      intro s₁ huses hs₁
      refine does_call huses.1 hs₁.ready ?_
      intro s₂ answer s₃ h₂ _ h₃
      exact ih answer s₃ (huses.2 answer) ((hs₁.trans h₂).trans h₃)

omit [Sha2] in
theorem quiet_of_confined {deletes : List RootId} {op : Op} (h : op.Confined [] deletes) :
    Quiet op := by
  cases op with
  | fs root call =>
      cases call with
      | manifestPut repo reference content => cases h
      | _ => trivial
  | _ => exact h.elim

-- A program that only looks, together with what it comes to whatever it sees.
theorem does_look {prog : StoreM α} (hprog : ReadOnly prog) {result : α → Prop}
    (hresult : ∀ (sem : Sem Op Op.Ans (History ι)) rely s,
      prog.wp sem rely (fun _ _ _ _ => True) (Outcome (fun value _ => result value)
        fun _ _ => True) s) (h : Ready pattern jobs w₀ i old s) :
    Does pattern jobs w₀ i prog (Outcome (fun value s' =>
      Later pattern jobs w₀ i old s s' ∧ result value) fun _ _ => True) s := by
  have hlater := does_quiet (hprog.mono fun _ => quiet_of_confined) h
  refine Prog.wp_mono (Prog.wp_and hlater (hresult _ _ s)) (fun _ _ _ _ => id) (fun _ _ => id)
    (fun _ _ _ _ _ h => h.1) ?_
  rintro (err | value) s' ⟨hlater, hvalue⟩
  · trivial
  · exact ⟨hlater, hvalue⟩

-- What a read has found.
structure Found (w₀ : World) (b : Backend) (repo : RepoName) (reference : Reference) (bytes : Bytes)
    (s' : History ι) : Prop where
  stocked : Stocked w₀ repo bytes
  addressed : ∀ d, reference = .digest d → sha256Digest bytes = d
  there : (b.read s'.1.volumes repo reference).isSome
  manifest : (b.read s'.1.volumes repo (.digest (sha256Digest bytes))).isSome

-- A read that falls through some directories: what was there at its start is found.
theorem does_readBelow (repo : RepoName) (reference : Reference) (roots : List RootId)
    (hroots : ∀ root ∈ roots, root ∈ old.leaves ∨ root ∈ (jobs i).newBackend.leaves)
    (h : Ready pattern jobs w₀ i old s) :
    Does pattern jobs w₀ i
      (readSecondaries (fun root => StoreM.fs root (.manifestGet repo reference)) roots)
      (Outcome (fun bytes s' => Later pattern jobs w₀ i old s s' ∧ Stocked w₀ repo bytes ∧
          (∀ d, reference = .digest d → sha256Digest bytes = d) ∧
          ∃ root ∈ roots, ((s'.1.volumes root).read repo reference).isSome ∧
            ((s'.1.volumes root).read repo (.digest (sha256Digest bytes))).isSome)
        fun err s' => err = .notFound ∧ Later pattern jobs w₀ i old s s' ∧
          ∀ root ∈ roots, ¬((s.1.volumes root).read repo reference).isSome) s := by
  induction roots generalizing s with
  | nil => exact ⟨rfl, h.now, nofun⟩
  | cons root rest ih =>
      have hroot := hroots root List.mem_cons_self
      rw [readSecondaries, fallThrough]
      refine does_attempt (does_call trivial h ?_)
      intro s₁ answer s₂ h₁ hs h₂
      have hlater := h₁.trans h₂
      change Except StorageError Bytes at answer
      have hread : (s₁.1.roots root).manifestGet repo reference = answer :=
        congrArg Prod.fst hs.2.1
      rw [FsStorage.manifestGet_eq] at hread
      subst hread
      cases hat : (s₁.1.volumes root).read repo reference with
      | some bytes =>
          have hat' : (s₁.1.roots root).contents.read repo reference = some bytes := hat
          rw [hat']
          obtain ⟨d, htarget, hd⟩ := ((s₁.1.volumes root).read_eq_some repo reference bytes).mp hat
          have haddr := (s₁.1.volumes_wellFormed root).manifest_addressed repo d bytes hd
          refine ⟨hlater, h₁.ready.safe.stocked root repo d bytes hd, ?_, root, List.mem_cons_self,
            ?_, ?_⟩
          · rintro e rfl
            exact haddr.trans (Option.some.inj htarget).symm
          · exact h₂.grown root hroot repo reference (Option.isSome_iff_exists.mpr ⟨bytes, hat⟩)
          · refine h₂.grown root hroot repo _ (Option.isSome_iff_exists.mpr ⟨bytes, ?_⟩)
            rw [haddr]
            exact hd
      | none =>
          have hat' : (s₁.1.roots root).contents.read repo reference = none := hat
          rw [hat']
          have hbefore : ¬((s.1.volumes root).read repo reference).isSome := by
            intro hsome
            have hnow := h₁.grown root hroot repo reference hsome
            rw [hat] at hnow
            cases hnow
          change Does pattern jobs w₀ i (readSecondaries _ rest) _ s₂
          refine Fallible.wp_post (ih (fun p hp => hroots p (List.mem_cons_of_mem root hp))
            h₂.ready) ?_
          rintro (err | bytes) s' hrest
          · obtain ⟨herr, hlater', hnone⟩ := hrest
            refine ⟨herr, hlater.trans hlater', ?_⟩
            intro p hp
            rcases List.mem_cons.mp hp with rfl | hp
            · exact hbefore
            · intro hsome
              have hused := hroots p (List.mem_cons_of_mem root hp)
              exact hnone p hp (hlater.grown p hused repo reference hsome)
          · obtain ⟨hlater', hstocked, haddr, p, hp, hthere⟩ := hrest
            exact ⟨hlater.trans hlater', hstocked, haddr, p, List.mem_cons_of_mem root hp, hthere⟩

theorem does_get {b : Backend} (hb : Concerns jobs i old b) (repo : RepoName)
    (reference : Reference) (h : Ready pattern jobs w₀ i old s) :
    Does pattern jobs w₀ i (b.storage.manifestGet repo reference)
      (Outcome (fun bytes s' => Later pattern jobs w₀ i old s s' ∧ Found w₀ b repo reference bytes s')
        fun err s' => err = .notFound ∧ Later pattern jobs w₀ i old s s' ∧
          ¬(b.read s.1.volumes repo reference).isSome) s := by
  rw [b.manifestGet_flat]
  refine Fallible.wp_post (does_readBelow repo reference b.readOrder ?_ h) ?_
  · exact fun root hroot => hb.leaves ((b.mem_readOrder root).mp hroot)
  · rintro (err | bytes) s' hread
    · obtain ⟨herr, hlater, hnone⟩ := hread
      refine ⟨herr, hlater, ?_⟩
      intro hsome
      obtain ⟨root, hroot, hat⟩ := (b.read_isSome _ repo reference).mp hsome
      exact hnone root ((b.mem_readOrder root).mpr hroot) hat
    · obtain ⟨hlater, hstocked, haddr, root, hroot, hthere, hmanifest⟩ := hread
      have hleaf := (b.mem_readOrder root).mp hroot
      exact ⟨hlater, hstocked, haddr, (b.read_isSome _ repo reference).mpr ⟨root, hleaf, hthere⟩,
        (b.read_isSome _ repo _).mpr ⟨root, hleaf, hmanifest⟩⟩

-- A listing of several directories: what showed at its start is in the set.
theorem does_listUnion [LinearOrder β] {g : RootId → StoreM (BTreeSet β)}
    (shows : Contents → β → Prop) {roots : List RootId}
    (hroots : ∀ root ∈ roots, root ∈ old.leaves ∨ root ∈ (jobs i).newBackend.leaves)
    (hgrown : ∀ c c' x, c.Grown c' → shows c x → shows c' x)
    (hg : ∀ root ∈ roots, ∀ s, Ready pattern jobs w₀ i old s →
      Does pattern jobs w₀ i (g root) (Outcome (fun values s' => Later pattern jobs w₀ i old s s' ∧
        ∀ x, shows (s.1.volumes root) x → x ∈ values) fun _ _ => True) s)
    (h : Ready pattern jobs w₀ i old s) :
    Does pattern jobs w₀ i (listUnion g roots) (Outcome (fun set s' =>
      Later pattern jobs w₀ i old s s' ∧
        ∀ x, (∃ root ∈ roots, shows (s.1.volumes root) x) → x ∈ set) fun _ _ => True) s := by
  have hinto : ∀ set s, Ready pattern jobs w₀ i old s → Does pattern jobs w₀ i
      (unionInto g roots set) (Outcome (fun set' s' => Later pattern jobs w₀ i old s s' ∧
        (∀ x ∈ set, x ∈ set') ∧ ∀ x, (∃ root ∈ roots, shows (s.1.volumes root) x) → x ∈ set')
          fun _ _ => True) s := by
    clear h
    induction roots with
    | nil => exact fun set s h => ⟨h.now, fun _ => id, by simp⟩
    | cons root rest ih =>
        intro set s h
        rw [unionInto]
        refine does_bind (Fallible.wp_post (hg root List.mem_cons_self s h) ?_)
        rintro (err | values) s₁ h₁
        · trivial
        · obtain ⟨hlater, hvalues⟩ := h₁
          refine Fallible.wp_post (ih (fun p hp => hroots p (List.mem_cons_of_mem root hp))
            (fun p hp => hg p (List.mem_cons_of_mem root hp)) (set.extend values.toList) s₁
            hlater.ready) ?_
          rintro (err | set') s' hrest
          · trivial
          · obtain ⟨hlater', hset, hshown⟩ := hrest
            refine ⟨hlater.trans hlater', ?_, ?_⟩
            · intro x hx
              exact hset x ((BTreeSet.mem_extend ..).mpr (.inr hx))
            · rintro x ⟨p, hp, hx⟩
              rcases List.mem_cons.mp hp with rfl | hp
              · exact hset x ((BTreeSet.mem_extend ..).mpr (.inl (hvalues x hx)))
              · have hused := hroots p (List.mem_cons_of_mem root hp)
                exact hshown x ⟨p, hp, hgrown _ _ x (hlater.grown p hused) hx⟩
  refine Fallible.wp_post (hinto .empty s h) ?_
  rintro (err | set) s' hset
  · trivial
  · exact ⟨hset.1, hset.2.2⟩

-- What a backend's listings show.

theorem does_listRepos {b : Backend} (hb : Concerns jobs i old b)
    (h : Ready pattern jobs w₀ i old s) :
    Does pattern jobs w₀ i b.storage.listRepos (Outcome (fun set s' =>
      Later pattern jobs w₀ i old s s' ∧ ∀ repo reference,
        (b.read s.1.volumes repo reference).isSome → repo ∈ set) fun _ _ => True) s := by
  rw [b.listRepos_flat]
  refine Fallible.wp_post (does_listUnion
    (fun c repo => ∃ reference, (c.read repo reference).isSome)
    (fun root hroot => hb.leaves hroot) ?_ ?_ h) ?_
  · rintro c c' repo hgrown ⟨reference, hread⟩
    exact ⟨reference, hgrown repo reference hread⟩
  · intro root hroot s h
    refine does_call trivial h ?_
    intro s₁ answer s₂ h₁ hs h₂
    obtain rfl := (congrArg Prod.fst hs.2.1).symm
    refine ⟨h₁.trans h₂, ?_⟩
    rintro repo ⟨reference, hread⟩
    have hnow := h₁.grown root (hb.leaves hroot) repo reference hread
    obtain ⟨bytes, hbytes⟩ := Option.isSome_iff_exists.mp hnow
    obtain ⟨d, _, hd⟩ := ((s₁.1.volumes root).read_eq_some repo reference bytes).mp hbytes
    exact (s₁.1.volumes_wellFormed root).manifest_listed repo d bytes hd
  · rintro (err | set) s' hset
    · trivial
    · refine ⟨hset.1, ?_⟩
      intro repo reference hread
      obtain ⟨root, hroot, hat⟩ := (b.read_isSome _ repo reference).mp hread
      exact hset.2 repo ⟨root, hroot, reference, hat⟩

theorem does_listTags {b : Backend} (hb : Concerns jobs i old b) (repo : RepoName)
    (h : Ready pattern jobs w₀ i old s) :
    Does pattern jobs w₀ i (b.storage.listTags repo) (Outcome (fun set s' =>
      Later pattern jobs w₀ i old s s' ∧ ∀ tag,
        (b.read s.1.volumes repo (.tag tag)).isSome → tag ∈ set) fun _ _ => True) s := by
  rw [b.listTags_flat]
  refine Fallible.wp_post (does_listUnion (fun c tag => (c.read repo (.tag tag)).isSome)
    (fun root hroot => hb.leaves hroot) (fun _ _ tag hgrown => hgrown repo (.tag tag)) ?_ h) ?_
  · intro root hroot s h
    refine does_call trivial h ?_
    intro s₁ answer s₂ h₁ hs h₂
    obtain rfl := (congrArg Prod.fst hs.2.1).symm
    refine ⟨h₁.trans h₂, ?_⟩
    intro tag hread
    have hnow := h₁.grown root (hb.leaves hroot) repo (.tag tag) hread
    obtain ⟨bytes, hbytes⟩ := Option.isSome_iff_exists.mp hnow
    obtain ⟨d, htag, _⟩ := ((s₁.1.volumes root).read_eq_some repo (.tag tag) bytes).mp hbytes
    exact ((s₁.1.roots root).mem_listTags repo tag).mpr (Option.isSome_iff_exists.mpr ⟨d, htag⟩)
  · rintro (err | set) s' hset
    · trivial
    · refine ⟨hset.1, ?_⟩
      intro tag hread
      obtain ⟨root, hroot, hat⟩ := (b.read_isSome _ repo (.tag tag)).mp hread
      exact hset.2 tag ⟨root, hroot, hat⟩

theorem does_listDigests {b : Backend} (hb : Concerns jobs i old b) (repo : RepoName)
    (h : Ready pattern jobs w₀ i old s) :
    Does pattern jobs w₀ i (b.storage.listManifestDigests repo) (Outcome (fun set s' =>
      Later pattern jobs w₀ i old s s' ∧ ∀ d,
        (b.read s.1.volumes repo (.digest d)).isSome → d ∈ set) fun _ _ => True) s := by
  rw [b.listManifestDigests_flat]
  refine Fallible.wp_post (does_listUnion (fun c d => (c.read repo (.digest d)).isSome)
    (fun root hroot => hb.leaves hroot) (fun _ _ d hgrown => hgrown repo (.digest d)) ?_ h) ?_
  · intro root hroot s h
    refine does_call trivial h ?_
    intro s₁ answer s₂ h₁ hs h₂
    obtain rfl := (congrArg Prod.fst hs.2.1).symm
    refine ⟨h₁.trans h₂, ?_⟩
    intro d hread
    exact ((s₁.1.roots root).mem_listManifestDigests repo d).mpr
      (h₁.grown root (hb.leaves hroot) repo (.digest d) hread)
  · rintro (err | set) s' hset
    · trivial
    · refine ⟨hset.1, ?_⟩
      intro d hread
      obtain ⟨root, hroot, hat⟩ := (b.read_isSome _ repo (.digest d)).mp hread
      exact hset.2 d ⟨root, hroot, hat⟩

end Calls

end

end RspaceRegistry.Migrate.Concurrent
