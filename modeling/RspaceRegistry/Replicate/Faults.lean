import RspaceRegistry.Migrate.Faults
import RspaceRegistry.Replicate.Converge

namespace RspaceRegistry.Replicate

open Calls Fallible Ordered Places
open Migrate (Target Reads Reached blobReferences copyPlan)

-- A pass when any call may fail.

section

variable [Sha2]

section Gather

variable [SerdeJson] (cfg : ReplicateConfig) (src : Backend)

theorem forthright_gatherRepo (repo : RepoName) (wanted : Wanted) :
    Forthright (gatherRepo src.storage cfg repo wanted) := by
  rw [gatherRepo_eq]
  refine (src.forthright_listTags repo).bind fun tags => ?_
  refine (Migrate.forthright_walkTags src repo _ _ _).bind fun found => ?_
  split
  · refine (src.forthright_listManifestDigests repo).bind fun digests => ?_
    exact (Migrate.forthright_walkDetached src repo _ _).bind fun walked => .pure _
  · exact .pure _

theorem forthright_gather (repos : List RepoName) (wanted : Wanted) :
    Forthright (gather src.storage cfg repos wanted) := by
  induction repos generalizing wanted with
  | nil => exact .pure wanted
  | cons repo rest ih => exact (forthright_gatherRepo cfg src repo wanted).bind ih

end Gather

section Loops

variable {plan : Plan} {src dst : Backend} {dsts : List Backend} {v : Volumes} (hv : v.Consistent)
variable (hdst : dst ∈ dsts) {w : World}
variable (h : plan.Advanced src (dsts.map Backend.head) v v w.volumes)

include hv hdst h

theorem wp_copyBlobs (entries : List Key) (report : ReplicateReport)
    (hplan : ∀ entry ∈ entries, plan.blob (ofLex entry).2) :
    (copyBlobs src.storage dst.storage entries report).wp World.Faulty Eq (Careful plan src dsts v)
      (CopiedUpTo plan src dsts v w (fun entry => BlobCopied src dst v (ofLex entry).2) entries) w := by
  induction entries generalizing report w with
  | nil => exact copiedUpTo_nil report
  | cons entry rest ih =>
      apply wp_blobRound hv hdst h (fun entry : Key => BlobCopied src dst v (ofLex entry).2) rfl
        (hplan entry List.mem_cons_self)
      intro report w₁ hstep
      exact ih hstep report fun e he => hplan e (List.mem_cons_of_mem entry he)

theorem wp_copyManifests (entries : List Key) (report : ReplicateReport)
    (hplan : ∀ entry ∈ entries, plan.manifest (ofLex entry).1 (ofLex entry).2) :
    (copyManifests src.storage dst.storage entries report).wp World.Faulty Eq
      (Careful plan src dsts v)
      (CopiedUpTo plan src dsts v w
        (fun entry => ManifestCopied src dst v (ofLex entry).1 (ofLex entry).2) entries) w := by
  let Kept (entry : Key) := ManifestCopied src dst v (ofLex entry).1 (ofLex entry).2
  induction entries generalizing report w with
  | nil => exact copiedUpTo_nil report
  | cons entry rest ih =>
      have hrest := fun report (w₁ : World) hstep => ih (w := w₁) hstep report
        fun e he => hplan e (List.mem_cons_of_mem entry he)
      apply (dst.forthright_manifestGet _ _).wp_attempt_bind
        fun _ _ _ _ => careful_of_undisturbed
      · intro bytes hthere
        exact wp_manifestThere hv h Kept rfl hthere (hrest report w h)
      · intro err _
        -- Only a missing manifest is written.
        by_cases hne : err = .notFound
        · subst hne
          exact wp_manifestRound hv hdst h Kept rfl (hplan entry List.mem_cons_self) hrest
        · cases err <;> first | exact absurd rfl hne | exact .refl v w.volumes

theorem wp_copyTags (entries : List (RepoName × TagName × Digest))
    (hheld : plan.Held src dst v w.volumes)
    (hplan : ∀ entry ∈ entries, plan.tag entry.1 entry.2.1 entry.2.2 ∧
      plan.manifest entry.1 entry.2.2 ∧ (src.read v entry.1 (.digest entry.2.2)).isSome) :
    (copyTags src.storage dst.storage entries).wp World.Faulty Eq (Careful plan src dsts v)
      (CopiedUpTo plan src dsts v w (fun entry => TagCopied dst entry.1 entry.2.1) entries) w := by
  induction entries generalizing w with
  | nil => exact copiedUpTo_nil ()
  | cons entry rest ih =>
      obtain ⟨htag, hmanifest, hread⟩ := hplan entry List.mem_cons_self
      apply wp_tagRound hv hdst h (fun entry : RepoName × TagName × Digest => TagCopied dst entry.1 entry.2.1)
        rfl hmanifest htag hheld hread
      intro w₁ hstep hheld₁
      exact ih hstep hheld₁ fun e he => hplan e (List.mem_cons_of_mem entry he)

end Loops

section Pass

variable [SerdeJson] {cfg : ReplicateConfig} {src : Backend} {dsts : List Backend} {v : Volumes}
variable (hv : v.Consistent) {done : RepoName → Prop} {wanted : Wanted}
variable (hwanted : Gathered cfg src v done wanted)
variable (hlisted : ∀ r d, Wants cfg src v r d → done r)

include hv hwanted hlisted

theorem wp_copyInto {dst : Backend} (hdst : dst ∈ dsts) {w : World}
    (h : (plan cfg src v).Advanced src (dsts.map Backend.head) v v w.volumes)
    (report : ReplicateReport) :
    (copyInto src.storage dst.storage wanted report).wp World.Faulty Eq
      (Careful (plan cfg src v) src dsts v)
      (fun _ w' => (plan cfg src v).Advanced src (dsts.map Backend.head) v v w'.volumes) w := by
  rw [copyInto, Fallible.wp_bind]
  refine Fallible.wp_post (wp_copyBlobs hv hdst h _ report ?_) ?_
  · intro entry he
    obtain ⟨repo, d, rfl⟩ := exists_key entry
    exact ⟨repo, ((hwanted.blob repo d).mp he).2⟩
  rintro (err | report₁) w₁ h₁
  · exact h.trans h₁
  obtain ⟨hstep₁, hblobs⟩ := h₁
  rw [outcome_ok, Fallible.wp_bind]
  refine Fallible.wp_post (wp_copyManifests hv hdst (h.trans hstep₁) _ report₁ ?_) ?_
  · intro entry he
    obtain ⟨repo, d, rfl⟩ := exists_key entry
    exact ((hwanted.manifest repo d).mp he).2
  rintro (err | report₂) w₂ h₂
  · exact (h.trans hstep₁).trans h₂
  obtain ⟨hstep₂, hmanifests⟩ := h₂
  have hheld : (plan cfg src v).Held src dst v w₂.volumes := by
    constructor
    · rintro d ⟨r, hd⟩
      have hdone : done r := by
        obtain ⟨e, _, he, _⟩ := id hd
        exact hlisted r e he
      have hcopied := hblobs (key r d) ((hwanted.blob r d).mpr ⟨hdone, hd⟩)
      exact hcopied.later hv _ _ (h.trans hstep₁) hstep₂
    · intro r d hd
      exact hmanifests (key r d) ((hwanted.manifest r d).mpr ⟨hlisted r d hd, hd⟩)
  rw [outcome_ok, Fallible.wp_bind]
  refine Fallible.wp_post
    (wp_copyTags hv hdst ((h.trans hstep₁).trans hstep₂) wanted.tags hheld ?_) ?_
  · rintro ⟨r, t, d⟩ he
    have ht := ((hwanted.tag r t d).mp he).2
    obtain ⟨bytes, _, hread⟩ := reads_of_wantsTag hv.manifests hv.wellFormed ht
    exact ⟨ht, wants_of_wantsTag hv.manifests hv.wellFormed ht,
      Option.isSome_iff_exists.mpr ⟨bytes, hread⟩⟩
  · rintro (err | _) w₃ h₃
    · exact ((h.trans hstep₁).trans hstep₂).trans h₃
    · exact ((h.trans hstep₁).trans hstep₂).trans h₃.1

theorem wp_fanOut (rest : List Backend) (hrest : ∀ dst ∈ rest, dst ∈ dsts) {w : World}
    (h : (plan cfg src v).Advanced src (dsts.map Backend.head) v v w.volumes)
    (report : ReplicateReport) :
    (fanOut src.storage wanted (rest.map Backend.storage) report).wp World.Faulty Eq
      (Careful (plan cfg src v) src dsts v)
      (fun _ w' => (plan cfg src v).Advanced src (dsts.map Backend.head) v v w'.volumes) w := by
  induction rest generalizing report w with
  | nil => exact h
  | cons dst rest ih =>
      rw [List.map_cons, fanOut, Fallible.wp_bind]
      refine Fallible.wp_post (wp_copyInto hv hwanted hlisted (hrest dst List.mem_cons_self) h _) ?_
      rintro (err | report₁) w₁ h₁
      · exact h₁
      · exact ih (fun b hb => hrest b (List.mem_cons_of_mem dst hb)) h₁ report₁

end Pass

variable [SerdeJson]

theorem wp_run (cfg : ReplicateConfig) (before : Partitions) (src : Backend) (after : Partitions)
    {w : World} (hw : w.volumes.Consistent) :
    (run (multi before src after) cfg).wp World.Faulty Eq
      (Careful (plan cfg src w.volumes) src (secondaries before after) w.volumes)
      (fun _ w' => (plan cfg src w.volumes).Advanced src ((secondaries before after).map Backend.head)
        w.volumes w.volumes w'.volumes) w := by
  obtain ⟨listed, hlist, hlisted⟩ := src.run_listRepos w
  have hrepos : ∀ r d, Wants cfg src w.volumes r d → False ∨ r ∈ listed.toList :=
    fun r d hd => .inr ((hlisted r).mpr (hasRepo_of_wants hd))
  rw [run, secondaries_multi]
  apply src.forthright_listRepos.wp_bind fun _ _ _ _ => careful_of_undisturbed
  · intro repos hrun
    rw [Except.ok.inj (Prod.mk.inj (hrun.symm.trans hlist)).1]
    apply (forthright_gather cfg src listed.toList .empty).wp_bind
      fun _ _ _ _ => careful_of_undisturbed
    · intro wanted hgather
      by_cases hresolve : ∀ repo ∈ listed.toList, SelectedResolve cfg src w.volumes repo
      · obtain ⟨wanted', hgather', hwanted⟩ := run_gather cfg src w listed.toList
          (fun repo _ => hw.manifests repo) listed.nodup (gathered_empty cfg src w.volumes) (by simp)
          hresolve
        rw [Except.ok.inj (Prod.mk.inj (hgather.symm.trans hgather')).1]
        exact wp_fanOut hw hwanted hrepos _ (fun _ => id) (.refl w.volumes w.volumes) .empty
      · have hgather' := run_gather_dangling cfg src w listed.toList
          (fun repo _ => hw.manifests repo) listed.nodup (gathered_empty cfg src w.volumes) (by simp)
          hresolve
        cases (Prod.mk.inj (hgather.symm.trans hgather')).1
    · exact fun err => .refl w.volumes w.volumes
  · exact fun err => .refl w.volumes w.volumes

-- A tag with the whole image behind it, as far as the source has that: manifests
-- reached through the entries of indexes, and the blobs that they name.
def WholeImage (src dst : Backend) (w w' : World) (repo : RepoName) (tag : TagName) : Prop :=
  ∃ bytes, src.manifestGet w repo (.tag tag) = .ok bytes ∧
    dst.manifestGet w' repo (.tag tag) = .ok bytes ∧
    ∀ d content, Reached (Reads src w.volumes repo) (· = sha256Digest bytes) d →
      src.manifestGet w repo (.digest d) = .ok content →
      dst.manifestGet w' repo (.digest d) = .ok content ∧
      ∀ b ∈ blobReferences content, ∀ blob, src.blobRead w repo b = .ok blob →
        dst.blobRead w' repo b = .ok blob

-- The plans under which that follows: with a tag they take what is reached from it.
def Encompasses (plan : Plan) (src : Backend) (v : Volumes) : Prop :=
  ∀ r t d, plan.tag r t d → Target src v r t d ∧
    ∀ c content, Reached (Reads src v r) (· = d) c → Reads src v r c content →
      plan.manifest r c ∧ ∀ b ∈ blobReferences content, plan.blob b

theorem encompasses_plan (cfg : ReplicateConfig) (src : Backend) (v : Volumes) :
    Encompasses (plan cfg src v) src v := by
  intro r t d ht
  have hreached : ∀ c, Reached (Reads src v r) (· = d) c → Wants cfg src v r c := by
    intro c hc
    induction hc with
    | start hd hr =>
        subst hd
        exact .start (.inr ⟨t, ht⟩) hr
    | child _ hr hc hr' ih => exact .child ih hr hc hr'
  refine ⟨ht.2, ?_⟩
  intro c content hc hread
  exact ⟨hreached c hc, fun b hb => ⟨r, c, content, hreached c hc, hread, hb⟩⟩

theorem encompasses_copyPlan (src : Backend) (v : Volumes) (repo : RepoName) :
    Encompasses (copyPlan src v repo) src v := by
  rintro _ t d ⟨rfl, ht⟩
  refine ⟨ht, ?_⟩
  intro c content _ hread
  exact ⟨⟨rfl, Option.isSome_iff_exists.mpr ⟨content, hread⟩⟩, fun b hb => ⟨c, content, hread, hb⟩⟩

theorem Exposed.wholeImage {plan : Plan} {src dst : Backend} {w w' : World} {repo : RepoName}
    {tag : TagName} (hw : w.volumes.Consistent) (hplan : Encompasses plan src w.volumes)
    {heads : List RootId} (hadvanced : plan.Advanced src heads w.volumes w.volumes w'.volumes)
    (h : Exposed plan src dst w.volumes w'.volumes repo tag) :
    WholeImage src dst w w' repo tag := by
  obtain ⟨d, htag, hpoints, hmanifest⟩ := h.target
  obtain ⟨⟨bytes, hbytes, rfl⟩, hclosed⟩ := hplan repo tag d htag
  have hread := Migrate.read_target src w (hw.manifests repo) hbytes
  obtain ⟨content, hcontent⟩ := Option.isSome_iff_exists.mp hmanifest
  -- What the tag points to at the destination's head is what the source has.
  have hsame : content = bytes := by
    obtain ⟨p, hp⟩ := hadvanced.exists_manifest hcontent
    obtain ⟨q, _, hq⟩ := exists_of_first hread
    exact hw.manifests repo _ p q content bytes hp hq
  subst hsame
  refine ⟨content, (src.manifestGet_eq_ok w repo (.tag tag) content).mpr hbytes, ?_, ?_⟩
  · rw [Backend.manifestGet_eq_ok]
    obtain ⟨rest, horder⟩ := dst.readOrder_eq_cons
    have hhead : (w'.volumes dst.head).read repo (.tag tag) = some content :=
      (Contents.read_eq_some _ _ _ _).mpr ⟨_, hpoints, hcontent⟩
    rw [Backend.read, horder]
    exact first_cons_of_some hhead
  · intro d text hd hsrc
    rw [Backend.manifestGet_eq_ok] at hsrc
    obtain ⟨hmanifest, hblobs⟩ := hclosed d text hd hsrc
    refine ⟨?_, ?_⟩
    · rw [Backend.manifestGet_eq_ok]
      exact h.held.manifest repo d hmanifest text hsrc
    · intro b hb blob hblob
      rw [Backend.blobRead_eq_ok] at hblob ⊢
      exact h.held.blob b (hblobs b hb) blob hblob

-- Every tag that a program has written to a destination, at any later point of a run
-- in which any call may have failed: it has its whole image.
def WritesWhole {α : Type} (prog : StoreM α) (src : Backend) (dsts : List Backend) (w : World) :
    Prop :=
  ∀ (root : RootId) (repo : RepoName) (tag : TagName) (content : Bytes)
    (next : Except StorageError Digest → StoreM α) (w₁ : World) (d : Digest) (w₂ : World)
    (last : StoreM α) (w' : World),
    Prog.Reaches World.Faulty (prog, w)
      (.call (.fs root (.manifestPut repo (.tag tag) content)) next, w₁) →
    World.Faulty (.fs root (.manifestPut repo (.tag tag) content)) w₁ (.ok d) w₂ →
    Prog.Reaches World.Faulty (next (.ok d), w₂) (last, w') →
    ∃ dst ∈ dsts, dst.head = root ∧ WholeImage src dst w w' repo tag

theorem writesWhole_of_careful {α : Type} {plan : Plan} {src : Backend} {dsts : List Backend}
    {w : World} {prog : StoreM α} {post : Except StorageError α → World → Prop}
    (hw : w.volumes.Consistent) (hplan : Encompasses plan src w.volumes)
    (h : prog.wp World.Faulty Eq (Careful plan src dsts w.volumes) post w) :
    WritesWhole prog src dsts w := by
  intro root repo tag content next w₁ d w₂ last w' hbefore hput hafter
  obtain ⟨dst, hdst, hroot, hexposed⟩ := exposed_of_reaches hw h hbefore hput hafter
  have hadvanced := advanced_of_reaches h ((hbefore.tail (.call hput)).trans hafter)
  exact ⟨dst, hdst, hroot, Exposed.wholeImage hw hplan hadvanced hexposed⟩

-- An aborted copy never exposes an incomplete image: neither a replication pass on
-- any of its secondaries, nor the copy of a repository in a migration.
theorem aborted_copy_whole (w : World) (hfree : w.volumes.CollisionFree) :
    (∀ (cfg : ReplicateConfig) (before : Partitions) (primary : Backend) (after : Partitions),
      WritesWhole (run (multi before primary after) cfg) primary (secondaries before after) w) ∧
    ∀ (src dst : Backend) (repo : RepoName) (report : Migrate.MigrateReport),
      WritesWhole (Migrate.copyRepo src.storage dst.storage repo report) src [dst] w := by
  have hw := World.consistent hfree
  constructor
  · intro cfg before primary after
    exact writesWhole_of_careful hw (encompasses_plan cfg primary w.volumes)
      (wp_run cfg before primary after hw)
  · intro src dst repo report
    exact writesWhole_of_careful hw (encompasses_copyPlan src w.volumes repo)
      (Migrate.wp_copyRepo src dst repo report w hw)

end

section

attribute [local instance] Sample.sha2 Sample.serdeJson

theorem unmirrored_copy_whole :
    (∀ (cfg : ReplicateConfig) (before : Partitions) (primary : Backend) (after : Partitions),
      WritesWhole (run (multi before primary after) cfg) primary (secondaries before after)
        unmirrored) ∧
    ∀ (src dst : Backend) (repo : RepoName) (report : Migrate.MigrateReport),
      WritesWhole (Migrate.copyRepo src.storage dst.storage repo report) src [dst] unmirrored :=
  aborted_copy_whole unmirrored unmirrored_collisionFree

end

end RspaceRegistry.Replicate
