import RspaceRegistry.Backend.Advanced
import RspaceRegistry.World.Forthright

namespace RspaceRegistry

open Calls Fallible Places

variable [Sha2]

-- A tag file that a call has written.
def TagWritten (root : RootId) (repo : RepoName) (tag : TagName) : (op : Op) → op.Ans → Prop
  | .fs written (.manifestPut r (.tag t) _), .ok _ => written = root ∧ r = repo ∧ t = tag
  | _, _ => False

theorem not_tagWritten_of_undisturbed {root : RootId} {repo : RepoName} {tag : TagName} {op : Op}
    {w w' : World} {answer : op.Ans} (h : Undisturbed op w answer w') :
    ¬TagWritten root repo tag op answer := by
  obtain ⟨hread, _⟩ := h
  cases op with
  | fs written call =>
      cases call with
      | manifestPut r reference content => cases hread rfl
      | _ => exact id
  | _ => exact id

-- After a tag was written the destination has what the tag stands for.
structure Exposed (plan : Plan) (src dst : Backend) (v u : Volumes) (repo : RepoName) (tag : TagName) :
    Prop where
  held : plan.Held src dst v u
  target : ∃ d, plan.tag repo tag d ∧ u.tagAt repo tag dst.head = some d ∧
    (u.manifestAt repo d dst.head).isSome

-- How a copier's calls move the roots.
structure Careful (plan : Plan) (src : Backend) (dsts : List Backend) (v : Volumes) (op : Op)
    (w : World) (answer : op.Ans) (w' : World) : Prop where
  advanced : plan.Advanced src (dsts.map Backend.head) v w.volumes w'.volumes
  exposed : ∀ root repo tag, TagWritten root repo tag op answer → ∃ dst ∈ dsts, dst.head = root ∧
    Exposed plan src dst v w'.volumes repo tag

theorem careful_of_undisturbed {plan : Plan} {src : Backend} {dsts : List Backend} {v : Volumes}
    {op : Op} {w w' : World} {answer : op.Ans} (h : Undisturbed op w answer w') :
    Careful plan src dsts v op w answer w' where
  advanced := by
    rw [h.2]
    exact .refl v w.volumes
  exposed _ _ _ hwritten := absurd hwritten (not_tagWritten_of_undisturbed h)

section Reads

variable {α β : Type} {prog : StoreM α} {guar : Sem Op Op.Ans World}
variable {post : Except StorageError β → World → Prop} {w : World}
variable (hguar : ∀ op w answer w', Undisturbed op w answer w' → guar op w answer w')

include hguar

theorem Forthright.wp_bind {rest : α → StoreM β} (hp : Forthright prog)
    (hok : ∀ value, prog.run World.handle w = (.ok value, w) →
      (rest value).wp World.Faulty Eq guar post w)
    (herror : ∀ err, post (.error err) w) :
    (prog >>= rest).wp World.Faulty Eq guar post w := by
  rw [Fallible.wp_bind]
  refine Prog.wp_mono (hp w) (fun _ _ _ _ => id) (fun _ _ => id) (fun op s a s' _ => hguar op s a s') ?_
  rintro (err | value) w' ⟨rfl, hresult⟩
  · exact herror err
  · refine hok value ?_
    rw [hp.run_eq w']
    rcases hresult with hrun | ⟨_, _, heq⟩
    · rw [← hrun]
    · cases heq

theorem Forthright.wp_attempt_bind {rest : Except StorageError α → StoreM β} (hp : Forthright prog)
    (hok : ∀ value, prog.run World.handle w = (.ok value, w) →
      (rest (.ok value)).wp World.Faulty Eq guar post w)
    (herror : ∀ err, (err = .notFound → prog.run World.handle w = (.error .notFound, w)) →
      (rest (.error err)).wp World.Faulty Eq guar post w) :
    (attempt prog >>= rest).wp World.Faulty Eq guar post w := by
  rw [Fallible.wp_bind, Fallible.wp_attempt]
  refine Prog.wp_mono (hp w) (fun _ _ _ _ => id) (fun _ _ => id) (fun op s a s' _ => hguar op s a s') ?_
  rintro result w' ⟨rfl, hresult⟩
  rw [outcome_ok]
  rcases result with err | value
  · refine herror err ?_
    rintro rfl
    rw [hp.run_eq w']
    rcases hresult with hrun | ⟨_, hne, heq⟩
    · rw [← hrun]
    · cases heq
      exact absurd rfl hne
  · refine hok value ?_
    rw [hp.run_eq w']
    rcases hresult with hrun | ⟨_, _, heq⟩
    · rw [← hrun]
    · cases heq

end Reads

section Writes

-- What a put leaves when it fails: nothing, a directory, or its manifest file.
theorem World.fault_manifestPut {w : World} {root : RootId} {repo : RepoName}
    {reference : Reference} {content : Bytes} {fs : FsStorage}
    (h : (FsCall.manifestPut repo reference content).Fault (w.roots root) fs) :
    (w.setRoot root fs).volumes = w.volumes ∨
      (w.setRoot root fs).volumes = w.volumes.onRoots [root] (fun c => c.addRepo repo) ∨
      (w.setRoot root fs).volumes = w.volumes.onRoots [root]
        (fun c => c.put repo (.digest (sha256Digest content)) content) := by
  cases h with
  | nothing => exact .inl (by rw [w.setRoot_self])
  | directory =>
      exact .inr (.inl (w.setRoot_volumes root _ _ ((w.roots root).makeRepoDir_contents repo)))
  | manifest =>
      exact .inr (.inr (w.setRoot_volumes root _ _
        ((w.roots root).insertManifest_contents repo content)))

variable {plan : Plan} {src dst : Backend} {dsts : List Backend} {v : Volumes}

omit [Sha2] in
theorem Plan.advanced_addRepo {u : Volumes} (root : RootId) (repo : RepoName) :
    plan.Advanced src (dsts.map Backend.head) v u (u.onRoots [root] fun c => c.addRepo repo) := by
  have hroot : ∀ p, (u.onRoots [root] (fun c => c.addRepo repo) p).blob = (u p).blob ∧
      (u.onRoots [root] (fun c => c.addRepo repo) p).manifest = (u p).manifest ∧
      (u.onRoots [root] (fun c => c.addRepo repo) p).tag = (u p).tag := by
    intro p
    unfold Volumes.onRoots
    split <;> exact ⟨rfl, rfl, rfl⟩
  have hblob : ∀ d, (u.onRoots [root] fun c => c.addRepo repo).blobAt d = u.blobAt d :=
    fun d => funext fun p => congrFun (hroot p).1 d
  have hmanifest : ∀ r d, (u.onRoots [root] fun c => c.addRepo repo).manifestAt r d =
      u.manifestAt r d := fun r d => funext fun p => congrFun (congrFun (hroot p).2.1 r) d
  have htag : ∀ r t, (u.onRoots [root] fun c => c.addRepo repo).tagAt r t = u.tagAt r t :=
    fun r t => funext fun p => congrFun (congrFun (hroot p).2.2 r) t
  refine ⟨?_, ?_, ?_, ?_, ?_⟩
  · intro d p bytes hu
    rwa [hblob]
  · intro d p bytes hu
    rw [hblob] at hu
    exact .inl hu
  · intro r d p bytes hu
    rwa [hmanifest]
  · intro r d p bytes hu
    rw [hmanifest] at hu
    exact .inl hu
  · intro r t p
    rw [htag]
    exact .inl rfl

-- The roots at the moment the plan is made: all that is stored under one digest is
-- the same text.
structure Volumes.Consistent (v : Volumes) : Prop where
  wellFormed : ∀ root, (v root).WellFormed
  blobs : ∀ d, Places.Coherent (v.blobAt d)
  manifests : ∀ r, v.Coherent r

theorem World.consistent {w : World} (hfree : w.volumes.CollisionFree) : w.volumes.Consistent where
  wellFormed := w.volumes_wellFormed
  blobs := hfree.blobAt w.volumes_wellFormed
  manifests := hfree.coherent w.volumes_wellFormed

-- What a reader found at one moment it finds at a later one.

section Later

variable {b : Backend} {heads : List RootId} {u u' : Volumes} (hv : v.Consistent)
variable (h : plan.Advanced src heads v v u) (h' : plan.Advanced src heads v u u')

include hv h h'

theorem Plan.Advanced.later_blob {d : Digest} {bytes : Bytes} (hb : b.blob u d = some bytes) :
    b.blob u' d = some bytes := by
  obtain ⟨root, hroot, hu⟩ := exists_of_first hb
  exact ((h.trans h').coherent_blob (hv.blobs d)).first_eq hroot (h'.blobKept d root bytes hu)

theorem Plan.Advanced.later_read {r : RepoName} {d : Digest} {bytes : Bytes}
    (hb : b.read u r (.digest d) = some bytes) : b.read u' r (.digest d) = some bytes := by
  obtain ⟨root, hroot, hu⟩ := exists_of_first hb
  exact ((h.trans h').coherent (hv.manifests r) d).first_eq hroot
    (h'.manifestKept r d root bytes hu)

end Later

variable {w : World} {β : Type} {post : Except StorageError β → World → Prop}
variable (hv : v.Consistent) (hdst : dst ∈ dsts)
variable (h : plan.Advanced src (dsts.map Backend.head) v v w.volumes)

include hv hdst h

theorem wp_blobWrite {repo : String} {d : Digest} {bytes : Bytes} {rest : Unit → StoreM β}
    (hd : plan.blob d) (hsrc : src.blob v d = some bytes)
    (hok : ∀ w', plan.Advanced src (dsts.map Backend.head) v w.volumes w'.volumes →
      dst.blob w'.volumes d = some bytes →
      (rest ()).wp World.Faulty Eq (Careful plan src dsts v) post w')
    (herror : ∀ err, post (.error err) w) :
    (dst.storage.blobWrite repo d bytes >>= rest).wp World.Faulty Eq (Careful plan src dsts v) post
      w := by
  obtain ⟨p, _, hp⟩ := exists_of_first hsrc
  have haddr := (hv.wellFormed p).blob_addressed d bytes hp
  rw [dst.blobWrite_flat]
  rintro _ rfl answer w' hop
  cases hop with
  | regular =>
      obtain ⟨hanswer, hcontents⟩ := (w.roots dst.head).blobWrite_addressed d bytes haddr
      have hvolumes : (World.handle (.fs dst.head (.blobWrite d bytes)) w).2.volumes =
          w.volumes.onRoots [dst.head] fun c => c.setBlob d (some bytes) :=
        w.setRoot_volumes _ _ _ hcontents
      have hanswer : (World.handle (.fs dst.head (.blobWrite d bytes)) w).1 = .ok () := hanswer
      have hstep : plan.Advanced src (dsts.map Backend.head) v w.volumes
          (World.handle (.fs dst.head (.blobWrite d bytes)) w).2.volumes := by
        rw [hvolumes]
        exact Plan.advanced_setBlob (List.mem_map_of_mem hdst) hd hsrc (hv.blobs d) h
      rw [hanswer]
      refine ⟨⟨hstep, fun _ _ _ => False.elim⟩, hok _ hstep ?_⟩
      apply ((h.trans hstep).coherent_blob (hv.blobs d)).first_eq dst.head_mem_readOrder
      rw [hvolumes, Volumes.blobAt_setBlob_self, Function.update_self]
  | fault _ _ _ fs err hf hne =>
      cases hf
      rw [w.setRoot_self]
      exact ⟨⟨.refl v w.volumes, fun _ _ _ => False.elim⟩, herror err⟩

-- The put of a manifest, and of a tag once everything else is there.
theorem wp_manifestPut {repo : RepoName} {reference : Reference} {d : Digest} {bytes : Bytes}
    {rest : Digest → StoreM β} (hd : plan.manifest repo d)
    (hsrc : src.read v repo (.digest d) = some bytes)
    (htag : ∀ t, reference = .tag t → plan.tag repo t d ∧ plan.Held src dst v w.volumes)
    (hok : ∀ w', plan.Advanced src (dsts.map Backend.head) v w.volumes w'.volumes →
      (w'.volumes.manifestAt repo d dst.head = some bytes) →
      (∀ t, reference = .tag t → w'.volumes.tagAt repo t dst.head = some d) →
      (rest d).wp World.Faulty Eq (Careful plan src dsts v) post w')
    (herror : ∀ err w', plan.Advanced src (dsts.map Backend.head) v w.volumes w'.volumes →
      post (.error err) w') :
    (dst.storage.manifestPut repo reference bytes >>= rest).wp World.Faulty Eq
      (Careful plan src dsts v) post w := by
  obtain ⟨p, _, hp⟩ := exists_of_first hsrc
  have haddr : sha256Digest bytes = d := (hv.wellFormed p).manifest_addressed repo d bytes hp
  rw [dst.manifestPut_flat]
  rintro _ rfl answer w' hop
  cases hop with
  | regular =>
      have hanswer : (World.handle (.fs dst.head (.manifestPut repo reference bytes)) w).1 =
          .ok d := by
        rw [← haddr]
        exact (w.roots dst.head).manifestPut_answer repo reference bytes
      have hvolumes : (World.handle (.fs dst.head (.manifestPut repo reference bytes)) w).2.volumes =
          w.volumes.onRoots [dst.head] fun c => c.put repo reference bytes :=
        w.setRoot_volumes _ _ _ ((w.roots dst.head).manifestPut_contents repo reference bytes)
      have hstep : plan.Advanced src (dsts.map Backend.head) v w.volumes
          (World.handle (.fs dst.head (.manifestPut repo reference bytes)) w).2.volumes := by
        rw [hvolumes]
        exact Plan.advanced_put (List.mem_map_of_mem hdst) hd hsrc haddr (hv.manifests repo) h
          fun t ht => (htag t ht).1
      have hput : (World.handle (.fs dst.head (.manifestPut repo reference bytes)) w).2.volumes.manifestAt
          repo d dst.head = some bytes := by
        rw [hvolumes, Plan.manifestAt_put haddr, if_pos ⟨rfl, rfl⟩, Function.update_self]
      have htagged : ∀ t, reference = .tag t →
          (World.handle (.fs dst.head (.manifestPut repo reference bytes)) w).2.volumes.tagAt repo t
            dst.head = some d := by
        rintro t rfl
        rw [hvolumes, Volumes.tagAt_put_self, Function.update_self, haddr]
      refine ⟨⟨hstep, ?_⟩, ?_⟩
      · intro root r t hwritten
        rw [hanswer] at hwritten
        cases reference with
        | digest e => exact hwritten.elim
        | tag tag =>
            obtain ⟨rfl, rfl, rfl⟩ := hwritten
            obtain ⟨hplan, hheld⟩ := htag tag rfl
            refine ⟨dst, hdst, rfl, hheld.advance h hstep hv.blobs hv.manifests, d, hplan,
              htagged tag rfl, ?_⟩
            rw [hput]
            rfl
      · rw [hanswer]
        exact hok _ hstep hput htagged
  | fault _ _ _ fs err hf hne =>
      have hstep : plan.Advanced src (dsts.map Backend.head) v w.volumes (w.setRoot dst.head fs).volumes := by
        rcases World.fault_manifestPut hf with hsame | hsame | hsame
        · rw [hsame]
          exact .refl v w.volumes
        · rw [hsame]
          exact Plan.advanced_addRepo dst.head repo
        · rw [hsame, haddr]
          exact Plan.advanced_put (List.mem_map_of_mem hdst) hd hsrc haddr (hv.manifests repo) h nofun
      refine ⟨⟨hstep, ?_⟩, herror err _ hstep⟩
      intro root r t hwritten
      cases reference <;> exact hwritten.elim

-- The body of the blob loops.
theorem wp_copyBlob {repo : String} {d : Digest} {skip : StoreM β} {copied : Bytes → StoreM β}
    (hd : plan.blob d)
    (hskip : (∀ bytes, src.blob v d = some bytes → dst.blob w.volumes d = some bytes) →
      skip.wp World.Faulty Eq (Careful plan src dsts v) post w)
    (hcopied : ∀ bytes w', plan.Advanced src (dsts.map Backend.head) v w.volumes w'.volumes →
      src.blob v d = some bytes → dst.blob w'.volumes d = some bytes →
      (copied bytes).wp World.Faulty Eq (Careful plan src dsts v) post w')
    (herror : ∀ err, post (.error err) w) :
    (dst.storage.blobExists repo d >>= fun found =>
      if found then skip
      else attempt (src.storage.blobRead repo d) >>= fun
        | .ok bytes => dst.storage.blobWrite repo d bytes >>= fun _ => copied bytes
        | .error .notFound => skip
        | .error err => fail err).wp World.Faulty Eq (Careful plan src dsts v) post w := by
  apply (dst.forthright_blobExists repo d).wp_bind fun _ _ _ _ => careful_of_undisturbed
  · intro found hfound
    have hfound : (dst.blob w.volumes d).isSome = found := by
      have hrun := (dst.run_blobExists w repo d).symm.trans hfound
      exact Except.ok.inj (Prod.mk.inj hrun).1
    cases found with
    | true =>
        apply hskip
        intro bytes hsrc
        obtain ⟨bytes', hdst⟩ := Option.isSome_iff_exists.mp hfound
        have hsrc : src.blob w.volumes d = some bytes := (h.src_blob (hv.blobs d)).trans hsrc
        rw [hdst, (h.coherent_blob (hv.blobs d)).first_unique hdst hsrc]
    | false =>
        apply (src.forthright_blobRead repo d).wp_attempt_bind
          fun _ _ _ _ => careful_of_undisturbed
        · intro bytes hread
          have hsrc : src.blob v d = some bytes := by
            rw [← h.src_blob (hv.blobs d)]
            have hrun := (src.run_blobRead w repo d).symm.trans hread
            exact (orNotFound_eq_ok _ _).mp (Prod.mk.inj hrun).1
          apply wp_blobWrite hv hdst h hd hsrc
          · intro w' hstep hdst
            exact hcopied bytes w' hstep hsrc hdst
          · exact herror
        · intro err hmissing
          by_cases hne : err = .notFound
          · subst hne
            apply hskip
            intro bytes hsrc
            have hrun := (src.run_blobRead w repo d).symm.trans (hmissing rfl)
            have hnone := (orNotFound_eq_notFound _).mp (Prod.mk.inj hrun).1
            rw [h.src_blob (hv.blobs d), hsrc] at hnone
            cases hnone
          · cases err <;> first | exact absurd rfl hne | exact herror _
  · exact herror

-- The body of the tag loops, and what the manifest loops do with a manifest that
-- the destination has not.
theorem wp_copyManifest {repo : RepoName} {d : Digest} (reference : Reference)
    {skip copied : StoreM β} (hd : plan.manifest repo d)
    (htag : ∀ t, reference = .tag t → plan.tag repo t d ∧ plan.Held src dst v w.volumes)
    (hskip : src.read v repo (.digest d) = none →
      skip.wp World.Faulty Eq (Careful plan src dsts v) post w)
    (hcopied : ∀ bytes w', plan.Advanced src (dsts.map Backend.head) v w.volumes w'.volumes →
      src.read v repo (.digest d) = some bytes → w'.volumes.manifestAt repo d dst.head = some bytes →
      (∀ t, reference = .tag t → w'.volumes.tagAt repo t dst.head = some d) →
      copied.wp World.Faulty Eq (Careful plan src dsts v) post w')
    (herror : ∀ err w', plan.Advanced src (dsts.map Backend.head) v w.volumes w'.volumes →
      post (.error err) w') :
    (attempt (src.storage.manifestGet repo (.digest d)) >>= fun
      | .ok bytes => dst.storage.manifestPut repo reference bytes >>= fun _ => copied
      | .error .notFound => skip
      | .error err => fail err).wp World.Faulty Eq (Careful plan src dsts v) post w := by
  have hsrc := h.src_read (hv.manifests repo) d
  have hrun := src.run_manifestGet w repo (.digest d)
  apply (src.forthright_manifestGet repo (.digest d)).wp_attempt_bind
    fun _ _ _ _ => careful_of_undisturbed
  · intro bytes hread
    have hbytes : src.read v repo (.digest d) = some bytes := by
      rw [← hsrc]
      exact (orNotFound_eq_ok _ _).mp (Prod.mk.inj (hrun.symm.trans hread)).1
    apply wp_manifestPut hv hdst h hd hbytes htag
    · intro w' hstep hput htagged
      exact hcopied bytes w' hstep hbytes hput htagged
    · exact herror
  · intro err hmissing
    by_cases hne : err = .notFound
    · subst hne
      apply hskip
      rw [← hsrc]
      exact (orNotFound_eq_notFound _).mp (Prod.mk.inj (hrun.symm.trans (hmissing rfl))).1
    · cases err <;> first | exact absurd rfl hne | exact herror _ w (.refl v w.volumes)

end Writes

-- The outcome of a loop: every entry it has been through is kept, and an error leaves
-- the part that was done.
def CopiedUpTo {γ ρ : Type} (plan : Plan) (src : Backend) (dsts : List Backend) (v : Volumes)
    (w : World) (Kept : γ → Volumes → Prop) (entries : List γ) : Except StorageError ρ → World → Prop :=
  Outcome (fun _ w' => plan.Advanced src (dsts.map Backend.head) v w.volumes w'.volumes ∧
      ∀ entry ∈ entries, Kept entry w'.volumes)
    (fun _ w' => plan.Advanced src (dsts.map Backend.head) v w.volumes w'.volumes)

section Loop

variable {γ ρ : Type} {plan : Plan} {src dst : Backend} {dsts : List Backend} {v : Volumes}
variable {w w₁ : World}
variable {Kept : γ → Volumes → Prop} {entry : γ} {rest : List γ} {prog : StoreM ρ}

theorem copiedUpTo_nil (value : ρ) : CopiedUpTo plan src dsts v w Kept [] (.ok value) w :=
  ⟨.refl v w.volumes, by simp⟩

-- The loop goes on with the rest from wherever the first entry has led to.
theorem CopiedUpTo.cons (h : plan.Advanced src (dsts.map Backend.head) v v w.volumes)
    (hkept : ∀ u u', plan.Advanced src (dsts.map Backend.head) v v u → plan.Advanced src (dsts.map Backend.head) v u u' →
      Kept entry u → Kept entry u')
    (hstep : plan.Advanced src (dsts.map Backend.head) v w.volumes w₁.volumes) (hentry : Kept entry w₁.volumes)
    (hrest : prog.wp World.Faulty Eq (Careful plan src dsts v)
      (CopiedUpTo plan src dsts v w₁ Kept rest) w₁) :
    prog.wp World.Faulty Eq (Careful plan src dsts v)
      (CopiedUpTo plan src dsts v w Kept (entry :: rest)) w₁ := by
  refine Fallible.wp_post hrest ?_
  rintro (err | value) w' hw'
  · exact hstep.trans hw'
  · obtain ⟨hlater, hdone⟩ := hw'
    refine ⟨hstep.trans hlater, ?_⟩
    intro other ho
    rcases List.mem_cons.mp ho with rfl | ho
    · exact hkept _ _ (h.trans hstep) hlater hentry
    · exact hdone other ho

end Loop

-- What the three loops keep: a blob, a manifest, a tag that resolves.

section Kept

variable (src dst : Backend) (v : Volumes)

def BlobCopied (d : Digest) (u : Volumes) : Prop :=
  ∀ bytes, src.blob v d = some bytes → dst.blob u d = some bytes

def ManifestCopied (r : RepoName) (d : Digest) (u : Volumes) : Prop :=
  ∀ bytes, src.read v r (.digest d) = some bytes → dst.read u r (.digest d) = some bytes

def TagCopied (r : RepoName) (t : TagName) (u : Volumes) : Prop :=
  (u.readAt r (.tag t) dst.head).isSome

variable {src dst v} {plan : Plan} {dsts : List Backend}

omit [Sha2] in
theorem TagCopied.later {r : RepoName} {t : TagName} (u u' : Volumes)
    (_ : plan.Advanced src (dsts.map Backend.head) v v u) (hu' : plan.Advanced src (dsts.map Backend.head) v u u')
    (ht : TagCopied dst r t u) : TagCopied dst r t u' := hu'.readAt_kept ht

variable (hv : v.Consistent)

include hv

theorem BlobCopied.later {d : Digest} (u u' : Volumes) (hu : plan.Advanced src (dsts.map Backend.head) v v u)
    (hu' : plan.Advanced src (dsts.map Backend.head) v u u') (hd : BlobCopied src dst v d u) :
    BlobCopied src dst v d u' := fun bytes hsrc => hu.later_blob hv hu' (hd bytes hsrc)

theorem ManifestCopied.later {r : RepoName} {d : Digest} (u u' : Volumes)
    (hu : plan.Advanced src (dsts.map Backend.head) v v u) (hu' : plan.Advanced src (dsts.map Backend.head) v u u')
    (hd : ManifestCopied src dst v r d u) : ManifestCopied src dst v r d u' :=
  fun bytes hsrc => hu.later_read hv hu' (hd bytes hsrc)

-- One round of each loop, with what comes after it as `next`.

variable (hdst : dst ∈ dsts) {w : World} (h : plan.Advanced src (dsts.map Backend.head) v v w.volumes)

include hdst h

variable {γ ρ : Type} {rest : List γ} {next : ρ → StoreM ρ} {report : ρ}

theorem wp_blobRound {repo : String} {entry : γ} {d : Digest} (Kept : γ → Volumes → Prop)
    {count : Bytes → ρ} (hentry : Kept entry = BlobCopied src dst v d) (hd : plan.blob d)
    (hrest : ∀ report w₁, plan.Advanced src (dsts.map Backend.head) v v w₁.volumes →
      (next report).wp World.Faulty Eq (Careful plan src dsts v)
        (CopiedUpTo plan src dsts v w₁ Kept rest) w₁) :
    (dst.storage.blobExists repo d >>= fun found =>
      if found then next report
      else attempt (src.storage.blobRead repo d) >>= fun
        | .ok bytes => dst.storage.blobWrite repo d bytes >>= fun _ => next (count bytes)
        | .error .notFound => next report
        | .error err => fail err).wp World.Faulty Eq (Careful plan src dsts v)
      (CopiedUpTo plan src dsts v w Kept (entry :: rest)) w := by
  have hgo : ∀ report w₁, plan.Advanced src (dsts.map Backend.head) v w.volumes w₁.volumes →
      BlobCopied src dst v d w₁.volumes →
      (next report).wp World.Faulty Eq (Careful plan src dsts v)
        (CopiedUpTo plan src dsts v w Kept (entry :: rest)) w₁ := by
    intro report w₁ hstep hcopied
    refine CopiedUpTo.cons h ?_ hstep ?_ (hrest report w₁ (h.trans hstep))
    · rw [hentry]
      exact BlobCopied.later hv
    · rw [hentry]
      exact hcopied
  refine wp_copyBlob hv hdst h hd ?_ ?_ ?_
  · exact hgo report w (.refl v w.volumes)
  · intro bytes w₁ hstep hsrc hdst
    apply hgo _ w₁ hstep
    intro bytes' hsrc'
    rw [hdst, ← hsrc, hsrc']
  · exact fun err => .refl v w.volumes

-- What is done with a manifest that the destination did not give.
theorem wp_manifestRound {repo : RepoName} {entry : γ} {d : Digest} (Kept : γ → Volumes → Prop)
    {counted : ρ} (hentry : Kept entry = ManifestCopied src dst v repo d) (hd : plan.manifest repo d)
    (hrest : ∀ report w₁, plan.Advanced src (dsts.map Backend.head) v v w₁.volumes →
      (next report).wp World.Faulty Eq (Careful plan src dsts v)
        (CopiedUpTo plan src dsts v w₁ Kept rest) w₁) :
    (attempt (src.storage.manifestGet repo (.digest d)) >>= fun
      | .ok bytes => dst.storage.manifestPut repo (.digest d) bytes >>= fun _ => next counted
      | .error .notFound => next report
      | .error err => fail err).wp World.Faulty Eq (Careful plan src dsts v)
      (CopiedUpTo plan src dsts v w Kept (entry :: rest)) w := by
  have hgo : ∀ report w₁, plan.Advanced src (dsts.map Backend.head) v w.volumes w₁.volumes →
      ManifestCopied src dst v repo d w₁.volumes →
      (next report).wp World.Faulty Eq (Careful plan src dsts v)
        (CopiedUpTo plan src dsts v w Kept (entry :: rest)) w₁ := by
    intro report w₁ hstep hcopied
    refine CopiedUpTo.cons h ?_ hstep ?_ (hrest report w₁ (h.trans hstep))
    · rw [hentry]
      exact ManifestCopied.later hv
    · rw [hentry]
      exact hcopied
  refine wp_copyManifest hv hdst h (.digest d) hd nofun ?_ ?_ ?_
  · intro hnone
    apply hgo report w (.refl v w.volumes)
    intro bytes hsrc
    rw [hnone] at hsrc
    cases hsrc
  · intro bytes w₁ hstep hsrc hput _
    apply hgo _ w₁ hstep
    intro bytes' hsrc'
    rw [← hsrc', hsrc]
    exact ((h.trans hstep).coherent (hv.manifests repo) d).first_eq dst.head_mem_readOrder hput
  · exact fun err w' => id

omit hdst in
-- What is done with one that the destination has.
theorem wp_manifestThere {repo : RepoName} {entry : γ} {d : Digest} (Kept : γ → Volumes → Prop)
    {bytes : Bytes} (hentry : Kept entry = ManifestCopied src dst v repo d)
    (hthere : (dst.storage.manifestGet repo (.digest d)).run World.handle w = (.ok bytes, w))
    (hrest : (next report).wp World.Faulty Eq (Careful plan src dsts v)
        (CopiedUpTo plan src dsts v w Kept rest) w) :
    (next report).wp World.Faulty Eq (Careful plan src dsts v)
      (CopiedUpTo plan src dsts v w Kept (entry :: rest)) w := by
  refine CopiedUpTo.cons h ?_ (.refl v w.volumes) ?_ hrest
  · rw [hentry]
    exact ManifestCopied.later hv
  · rw [hentry]
    intro bytes' hsrc
    have hdst : dst.read w.volumes repo (.digest d) = some bytes := by
      have hrun := (dst.run_manifestGet w repo (.digest d)).symm.trans hthere
      exact (orNotFound_eq_ok _ _).mp (Prod.mk.inj hrun).1
    have hsrc : src.read w.volumes repo (.digest d) = some bytes' :=
      (h.src_read (hv.manifests repo) d).trans hsrc
    have hsame := (h.coherent (hv.manifests repo) d).first_unique hdst hsrc
    rw [hdst, hsame]

-- A tag is written once all else is there.
theorem wp_tagRound {repo : RepoName} {entry : γ} {tag : TagName} {d : Digest}
    (Kept : γ → Volumes → Prop) {skip go : StoreM ρ} (hentry : Kept entry = TagCopied dst repo tag)
    (hd : plan.manifest repo d) (htag : plan.tag repo tag d) (hheld : plan.Held src dst v w.volumes)
    (hread : (src.read v repo (.digest d)).isSome)
    (hrest : ∀ w₁, plan.Advanced src (dsts.map Backend.head) v v w₁.volumes → plan.Held src dst v w₁.volumes →
      go.wp World.Faulty Eq (Careful plan src dsts v) (CopiedUpTo plan src dsts v w₁ Kept rest) w₁) :
    (attempt (src.storage.manifestGet repo (.digest d)) >>= fun
      | .ok bytes => dst.storage.manifestPut repo (.tag tag) bytes >>= fun _ => go
      | .error .notFound => skip
      | .error err => fail err).wp World.Faulty Eq (Careful plan src dsts v)
      (CopiedUpTo plan src dsts v w Kept (entry :: rest)) w := by
  refine wp_copyManifest hv hdst h (.tag tag) hd ?_ ?_ ?_ ?_
  · rintro _ ⟨⟩
    exact ⟨htag, hheld⟩
  · intro hnone
    rw [hnone] at hread
    cases hread
  · intro bytes w₁ hstep _ hput htagged
    refine CopiedUpTo.cons h ?_ hstep ?_
      (hrest w₁ (h.trans hstep) (hheld.advance h hstep hv.blobs hv.manifests))
    · rw [hentry]
      exact TagCopied.later
    · rw [hentry]
      have htarget : (w₁.volumes dst.head).tag repo tag = some d := htagged tag rfl
      rw [TagCopied, Volumes.readAt, Contents.read_tag, htarget]
      exact Option.isSome_iff_exists.mpr ⟨bytes, hput⟩
  · exact fun err w' => id

end Kept

-- What every point of a run has in common with the point that led to it.

section Reaches

variable {ρ : Type} {plan : Plan} {src : Backend} {dsts : List Backend} {v : Volumes}
variable {post : Except StorageError ρ → World → Prop}

theorem advanced_of_reaches {first last : StoreM ρ} {w w' : World}
    (h : first.wp World.Faulty Eq (Careful plan src dsts v) post w)
    (hreach : Prog.Reaches World.Faulty (first, w) (last, w')) :
    plan.Advanced src (dsts.map Backend.head) v w.volumes w'.volumes := by
  have hinv : Prog.wp World.Faulty Eq (fun _ s _ s' =>
      plan.Advanced src (dsts.map Backend.head) v w.volumes s.volumes →
        plan.Advanced src (dsts.map Backend.head) v w.volumes s'.volumes) first post w :=
    Prog.wp_guar h fun _ _ _ _ _ hstep hs => hs.trans hstep.advanced
  exact Prog.invariant_of_wp hinv (.refl v w.volumes) hreach

-- Once a tag was written, what it stands for stays.
theorem exposed_of_reaches {w : World} (hw : w.volumes.Consistent) {prog last : StoreM ρ}
    (h : prog.wp World.Faulty Eq (Careful plan src dsts w.volumes) post w)
    {root : RootId} {repo : RepoName} {tag : TagName} {content : Bytes}
    {next : Except StorageError Digest → StoreM ρ} {w₁ w₂ w' : World} {d : Digest}
    (hbefore : Prog.Reaches World.Faulty (prog, w)
      (.call (.fs root (.manifestPut repo (.tag tag) content)) next, w₁))
    (hput : World.Faulty (.fs root (.manifestPut repo (.tag tag) content)) w₁ (.ok d) w₂)
    (hafter : Prog.Reaches World.Faulty (next (.ok d), w₂) (last, w')) :
    ∃ dst ∈ dsts, dst.head = root ∧ Exposed plan src dst w.volumes w'.volumes repo tag := by
  have hput' : Prog.Reaches World.Faulty (prog, w) (next (.ok d), w₂) := hbefore.tail (.call hput)
  have hadvanced := advanced_of_reaches h hput'
  obtain ⟨hstep, hrest⟩ := Prog.wp_reaches hbefore h w₁ rfl (.ok d) w₂ hput
  obtain ⟨dst, hdst, hroot, hexposed⟩ := hstep.exposed root repo tag ⟨rfl, rfl, rfl⟩
  have hlater := advanced_of_reaches hrest hafter
  refine ⟨dst, hdst, hroot, hexposed.held.advance hadvanced hlater hw.blobs hw.manifests, ?_⟩
  obtain ⟨e, htarget, htag, hmanifest⟩ := hexposed.target
  rcases hlater.tag repo tag dst.head with hsame | ⟨_, e', htarget', htag', hmanifest'⟩
  · obtain ⟨bytes, hbytes⟩ := Option.isSome_iff_exists.mp hmanifest
    have hkept := hlater.manifestKept repo e dst.head bytes hbytes
    exact ⟨e, htarget, hsame.trans htag, Option.isSome_iff_exists.mpr ⟨bytes, hkept⟩⟩
  · exact ⟨e', htarget', htag', hmanifest'⟩

end Reaches

end RspaceRegistry
