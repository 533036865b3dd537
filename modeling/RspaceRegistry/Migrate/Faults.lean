import RspaceRegistry.Backend.Copies
import RspaceRegistry.Migrate.Copy

namespace RspaceRegistry.Migrate

open Calls Fallible Ordered Places

-- The copy of a repository when any call may fail.

variable [Sha2] {plan : Plan} {src dst : Backend} {v : Volumes} (hv : v.Consistent)

section Loops

variable {dsts : List Backend} (hdst : dst ∈ dsts) {w : World}
variable (h : plan.Advanced src (dsts.map Backend.head) v v w.volumes)

include hv hdst h

theorem wp_copyBlobs (repo : RepoName) (blobs : List Digest) (report : MigrateReport)
    (hplan : ∀ d ∈ blobs, plan.blob d) :
    (copyBlobs src.storage dst.storage repo blobs report).wp World.Faulty Eq
      (Careful plan src dsts v) (CopiedUpTo plan src dsts v w (BlobCopied src dst v) blobs) w := by
  induction blobs generalizing report w with
  | nil => exact copiedUpTo_nil report
  | cons d rest ih =>
      apply wp_blobRound hv hdst h (BlobCopied src dst v) rfl (hplan d List.mem_cons_self)
      intro report w₁ hstep
      exact ih hstep report fun e he => hplan e (List.mem_cons_of_mem d he)

-- A destination that does not give a manifest is written to, whatever the reason.
theorem wp_copyManifests (repo : RepoName) (digests : List Digest) (report : MigrateReport)
    (hplan : ∀ d ∈ digests, plan.manifest repo d) :
    (copyManifests src.storage dst.storage repo digests report).wp World.Faulty Eq
      (Careful plan src dsts v)
      (CopiedUpTo plan src dsts v w (ManifestCopied src dst v repo) digests) w := by
  induction digests generalizing report w with
  | nil => exact copiedUpTo_nil report
  | cons d rest ih =>
      have hrest := fun report (w₁ : World) hstep => ih (w := w₁) hstep report
        fun e he => hplan e (List.mem_cons_of_mem d he)
      apply (dst.forthright_manifestGet repo (.digest d)).wp_attempt_bind
        fun _ _ _ _ => careful_of_undisturbed
      · intro bytes hthere
        exact wp_manifestThere hv h (ManifestCopied src dst v repo) rfl hthere (hrest report w h)
      · intro err _
        exact wp_manifestRound hv hdst h (ManifestCopied src dst v repo) rfl
          (hplan d List.mem_cons_self) hrest

theorem wp_copyTags (repo : RepoName) (entries : List (TagName × Digest))
    (hheld : plan.Held src dst v w.volumes)
    (hplan : ∀ entry ∈ entries, plan.tag repo entry.1 entry.2 ∧ plan.manifest repo entry.2 ∧
      (src.read v repo (.digest entry.2)).isSome) :
    (copyTags src.storage dst.storage repo entries).wp World.Faulty Eq (Careful plan src dsts v)
      (CopiedUpTo plan src dsts v w (fun entry => TagCopied dst repo entry.1) entries) w := by
  induction entries generalizing w with
  | nil => exact copiedUpTo_nil ()
  | cons entry rest ih =>
      obtain ⟨htag, hmanifest, hread⟩ := hplan entry List.mem_cons_self
      apply wp_tagRound hv hdst h (fun entry : TagName × Digest => TagCopied dst repo entry.1) rfl hmanifest
        htag hheld hread
      intro w₁ hstep hheld₁
      exact ih hstep hheld₁ fun e he => hplan e (List.mem_cons_of_mem entry he)

end Loops

-- What the copy of a repository sets out to bring over.
def copyPlan [SerdeJson] (src : Backend) (v : Volumes) (repo : RepoName) : Plan where
  blob := Referenced src v repo
  manifest r d := r = repo ∧ (src.read v repo (.digest d)).isSome
  tag r t d := r = repo ∧ Target src v repo t d

-- A copy that has come to its end.
structure Arrived [SerdeJson] (src dst : Backend) (v u : Volumes) (repo : RepoName) : Prop where
  advanced : (copyPlan src v repo).Advanced src [dst.head] v v u
  held : (copyPlan src v repo).Held src dst v u
  resolve : TagsResolve src v repo
  tag : ∀ tag d, Target src v repo tag d → (u.readAt repo (.tag tag) dst.head).isSome

variable [SerdeJson] (src dst) (repo : RepoName) (report : MigrateReport) (w : World)
variable (hw : w.volumes.Consistent)

include hw

omit hv in
theorem wp_copyFound {found : List (TagName × Digest) × Walked}
    (hfound : Surveyed src w.volumes repo found) (hresolve : TagsResolve src w.volumes repo) :
    (copyFound src.storage dst.storage repo found report).wp World.Faulty Eq
      (Careful (copyPlan src w.volumes repo) src [dst] w.volumes)
      (Outcome (fun _ w' => Arrived src dst w.volumes w'.volumes repo)
        (fun _ w' => (copyPlan src w.volumes repo).Advanced src [dst.head] w.volumes w.volumes
          w'.volumes)) w := by
  have hdst := List.mem_singleton_self dst
  rw [copyFound, Fallible.wp_bind]
  refine Fallible.wp_post (wp_copyBlobs hw hdst (.refl _ _) repo _ report
    fun d hd => (hfound.blob d).mp hd) ?_
  rintro (err | report₁) w₁ h₁
  · exact h₁
  obtain ⟨hstep₁, hblobs⟩ := h₁
  rw [outcome_ok, Fallible.wp_bind]
  refine Fallible.wp_post (wp_copyManifests hw hdst hstep₁ repo _ report₁
    fun d hd => ⟨rfl, (hfound.manifest d).mp hd⟩) ?_
  rintro (err | report₂) w₂ h₂
  · exact hstep₁.trans h₂
  obtain ⟨hstep₂, hmanifests⟩ := h₂
  have hheld : (copyPlan src w.volumes repo).Held src dst w.volumes w₂.volumes := by
    constructor
    · intro d hd bytes hsrc
      exact hstep₁.later_blob hw hstep₂ (hblobs d ((hfound.blob d).mpr hd) bytes hsrc)
    · rintro r d ⟨rfl, hread⟩ bytes hsrc
      exact hmanifests d ((hfound.manifest d).mpr hread) bytes hsrc
  rw [outcome_ok, Fallible.wp_bind]
  refine Fallible.wp_post (wp_copyTags hw hdst (hstep₁.trans hstep₂) repo found.1 hheld ?_) ?_
  · intro entry he
    have htarget := (hfound.tag entry.1 entry.2).mp he
    obtain ⟨bytes, hbytes, hd⟩ := id htarget
    have hread := read_target src w (hw.manifests repo) hbytes
    rw [← hd] at hread
    have hsome := Option.isSome_iff_exists.mpr ⟨bytes, hread⟩
    exact ⟨⟨rfl, htarget⟩, ⟨rfl, hsome⟩, hsome⟩
  · rintro (err | _) w₃ h₃
    · exact (hstep₁.trans hstep₂).trans h₃
    · obtain ⟨hstep₃, htags⟩ := h₃
      refine ⟨(hstep₁.trans hstep₂).trans hstep₃, ?_, hresolve, ?_⟩
      · exact hheld.advance (hstep₁.trans hstep₂) hstep₃ hw.blobs hw.manifests
      · exact fun tag d htarget => htags (tag, d) ((hfound.tag tag d).mpr htarget)

omit hv in
-- Whatever fails on the way, nothing is taken away, and a tag is written after all
-- that belongs to it.
theorem wp_copyRepo :
    (copyRepo src.storage dst.storage repo report).wp World.Faulty Eq
      (Careful (copyPlan src w.volumes repo) src [dst] w.volumes)
      (Outcome (fun _ w' => Arrived src dst w.volumes w'.volumes repo)
        (fun _ w' => (copyPlan src w.volumes repo).Advanced src [dst.head] w.volumes w.volumes
          w'.volumes)) w := by
  rw [copyRepo_eq]
  apply (forthright_survey src).wp_bind fun _ _ _ _ => careful_of_undisturbed
  · intro found hrun
    by_cases hresolve : TagsResolve src w.volumes repo
    · obtain ⟨found', hrun', hfound⟩ := run_survey src w (hw.manifests repo) hresolve
      have hsame := Except.ok.inj (Prod.mk.inj (hrun.symm.trans hrun')).1
      rw [hsame]
      exact wp_copyFound src dst repo report w hw hfound hresolve
    · have hrun' := run_survey_dangling src w (hw.manifests repo) hresolve
      cases (Prod.mk.inj (hrun.symm.trans hrun')).1
  · exact fun err => .refl w.volumes w.volumes

end RspaceRegistry.Migrate
