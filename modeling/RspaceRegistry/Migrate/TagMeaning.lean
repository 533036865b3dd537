import RspaceRegistry.Backend.Always
import RspaceRegistry.Migrate.Faults
import RspaceRegistry.Migrate.Others
import RspaceRegistry.Migrate.Uses

namespace RspaceRegistry.Migrate

open Calls Fallible Ordered Places

-- What the tags of a repository mean to its readers while it is migrated.

section

variable [Sha2]

-- Tags give at a later moment what the old backend gave for them at first.
structure TagsServed (b old : Backend) (v u : Volumes) (repo : RepoName) : Prop where
  read : ∀ tag, b.read u repo (.tag tag) = old.read v repo (.tag tag)
  listed : ∀ tag, b.HasTag u repo tag ↔ old.HasTag v repo tag

-- The new backend says nothing else of a tag than the old one.
structure Fits (old newBackend : Backend) (v : Volumes) (repo : RepoName) : Prop where
  read : ∀ tag bytes, newBackend.read v repo (.tag tag) = some bytes →
    old.read v repo (.tag tag) = some bytes
  listed : ∀ tag, newBackend.HasTag v repo tag → old.HasTag v repo tag

-- A tag that dangles where the copies go, and for which a manifest turns up there
-- before the backfill writes the tag: the copy of the manifest, or that of an earlier
-- tag for the same manifest.
def Revived (old newBackend : Backend) (v : Volumes) (repo : RepoName) (tag : TagName)
    (bytes : Bytes) : Prop :=
  ∃ d, (v newBackend.head).tag repo tag = some d ∧ (v newBackend.head).manifest repo d = none ∧
    old.read v repo (.digest d) = some bytes ∧
      (newBackend.read v repo (.digest d) = none ∨ ∃ earlier < tag, Target old v repo earlier d)

omit [Sha2] in
-- At the cutover.
theorem overlay_served_iff (arc : Nat) (old newBackend : Backend) (v : Volumes) (repo : RepoName) :
    TagsServed (overlay arc newBackend old) old v v repo ↔ Fits old newBackend v repo := by
  have hread : ∀ tag, (overlay arc newBackend old).read v repo (.tag tag) =
      old.read v repo (.tag tag) ↔ ∀ bytes, newBackend.read v repo (.tag tag) = some bytes →
        old.read v repo (.tag tag) = some bytes := by
    intro tag
    rw [overlay_read]
    cases newBackend.read v repo (.tag tag) with
    | none => simp
    | some bytes => simp [eq_comm]
  have hlisted : ∀ tag, (overlay arc newBackend old).HasTag v repo tag ↔
      newBackend.HasTag v repo tag ∨ old.HasTag v repo tag := by
    intro tag
    simp only [Backend.HasTag, overlay_leaves, List.mem_append, or_and_right, exists_or]
  constructor
  · rintro ⟨hr, hl⟩
    exact ⟨fun tag => (hread tag).mp (hr tag),
      fun tag h => (hl tag).mp ((hlisted tag).mpr (.inl h))⟩
  · rintro ⟨hr, hl⟩
    refine ⟨fun tag => (hread tag).mpr (hr tag), fun tag => ?_⟩
    rw [hlisted]
    exact ⟨fun h => h.elim (hl tag) id, .inr⟩

section Repo

variable {old newBackend : Backend} {v u : Volumes} {repo : RepoName}

-- The tags whose copy is done.
def backfillPlan (newBackend : Backend) (v : Volumes) (repo : RepoName)
    (processed : List (TagName × Digest)) : Plan where
  blob _ := True
  manifest r d := r = repo ∧
    (newBackend.read v repo (.digest d) = none ∨ ∃ tag, (tag, d) ∈ processed)
  tag r tag d := r = repo ∧ (tag, d) ∈ processed

-- The copy of a repository that started from `v`, after some of the tags.
structure Backfilling (old newBackend : Backend) (v : Volumes) (repo : RepoName)
    (processed : List (TagName × Digest)) (u : Volumes) : Prop where
  advanced : (backfillPlan newBackend v repo processed).Advanced old [newBackend.head] v v u
  pointed : ∀ entry ∈ processed, u.tagAt repo entry.1 newBackend.head = some entry.2

section Served

variable {processed rest : List (TagName × Digest)}
variable (h : Backfilling old newBackend v repo processed u) (hv : v.Consistent)
variable (hfound : ∀ tag d, (tag, d) ∈ processed ++ rest ↔ Target old v repo tag d)
variable (hsorted : ((processed ++ rest).map Prod.fst).Pairwise (· < ·))
variable (hresolve : TagsResolve old v repo)
variable (hfits : Fits old newBackend v repo)
variable (hrevived : ∀ tag bytes, Revived old newBackend v repo tag bytes →
  old.read v repo (.tag tag) = some bytes)

include hv in
-- The manifest that a tag stands for, wherever it is by then.
theorem read_of_target (hadvanced : (backfillPlan newBackend v repo processed).Advanced old
    [newBackend.head] v v u) {tag : TagName} {d : Digest} {root : RootId} {bytes : Bytes}
    (htarget : Target old v repo tag d) (hat : u.manifestAt repo d root = some bytes) :
    old.read v repo (.tag tag) = some bytes := by
  obtain ⟨text, htext, rfl⟩ := htarget
  obtain ⟨p, hp⟩ := hadvanced.exists_manifest hat
  obtain ⟨q, _, hq⟩ := exists_of_first htext
  obtain ⟨d, _, hd⟩ := (Contents.read_eq_some _ _ _ _).mp hq
  have haddr := (hv.wellFormed q).manifest_addressed repo d text hd
  have hsame : bytes = text := hv.manifests repo d p q bytes text (haddr ▸ hp) hd
  rw [hsame]
  exact htext

include h hv hfound hsorted hresolve hfits hrevived in
-- What stands at the head is right, whether it was written, was there, or came to
-- life again.
theorem Backfilling.head_read {tag : TagName} {bytes : Bytes}
    (hread : u.readAt repo (.tag tag) newBackend.head = some bytes) :
    old.read v repo (.tag tag) = some bytes := by
  obtain ⟨d, hd, hat⟩ := (Contents.read_eq_some _ _ _ _).mp hread
  have hat : u.manifestAt repo d newBackend.head = some bytes := hat
  rcases h.advanced.tag repo tag newBackend.head with hsame | ⟨_, d', ⟨_, hdone⟩, hd', _⟩
  · have hlink : (v newBackend.head).tag repo tag = some d := hsame.symm.trans hd
    have hkeeps : ∀ text, (v newBackend.head).manifest repo d = some text →
        old.read v repo (.tag tag) = some text := by
      intro text htext
      obtain ⟨tail, htail⟩ := newBackend.readOrder_eq_cons
      apply hfits.read
      rw [Backend.read, htail]
      refine first_cons_of_some ?_
      rw [Volumes.readAt, Contents.read_tag, hlink]
      exact htext
    cases hold : (v newBackend.head).manifest repo d with
    | some text =>
        have hkept := h.advanced.manifestKept repo d newBackend.head text hold
        rw [hkeeps text hold, ← hkept, hat]
    | none =>
        rcases h.advanced.manifestNew repo d newBackend.head bytes hat with
          hthere | ⟨_, ⟨_, hplan⟩, hsrc⟩
        · exact absurd (hold.symm.trans hthere) (by simp)
        rcases hplan with hnone | ⟨other, hother⟩
        · exact hrevived tag bytes ⟨d, hlink, hold, hsrc, .inl hnone⟩
        · have htarget := (hfound other d).mp (List.mem_append_left _ hother)
          have hlisted : old.HasTag v repo tag := by
            apply hfits.listed
            exact ⟨_, newBackend.head_mem_leaves, Option.isSome_iff_exists.mpr ⟨d, hlink⟩⟩
          obtain ⟨text, htext⟩ := Option.isSome_iff_exists.mp (hresolve tag hlisted)
          have hmem := (hfound tag _).mpr ⟨text, htext, rfl⟩
          rcases List.mem_append.mp hmem with hdone | hleft
          · -- A tag that was written already stands for its own manifest.
            have hpointed := h.pointed _ hdone
            have hd : u.tagAt repo tag newBackend.head = some d := hd
            have hsame : d = sha256Digest text := Option.some.inj (hd.symm.trans hpointed)
            exact read_of_target hv h.advanced ⟨text, htext, hsame⟩ hat
          · rw [List.map_append, List.pairwise_append] at hsorted
            have hearlier : other < tag := hsorted.2.2
              other (List.mem_map_of_mem (f := Prod.fst) hother) tag (List.mem_map_of_mem (f := Prod.fst) hleft)
            exact hrevived tag bytes ⟨d, hlink, hold, hsrc, .inr ⟨other, hearlier, htarget⟩⟩
  · have hd : u.tagAt repo tag newBackend.head = some d := hd
    have hsame : d' = d := Option.some.inj (hd'.symm.trans hd)
    subst hsame
    have htarget := (hfound tag d').mp (List.mem_append_left _ hdone)
    exact read_of_target hv h.advanced htarget hat

include h hv hfound hsorted hresolve hfits hrevived in
theorem Backfilling.served (arc : Nat) :
    TagsServed (overlay arc newBackend old) old v u repo where
  read := by
    intro tag
    cases hhead : u.readAt repo (.tag tag) newBackend.head with
    | some bytes =>
        obtain ⟨tail, htail⟩ := newBackend.readOrder_eq_cons
        have hnew : newBackend.read u repo (.tag tag) = some bytes := by
          rw [Backend.read, htail]
          exact first_cons_of_some hhead
        rw [overlay_read, hnew, h.head_read hv hfound hsorted hresolve hfits hrevived hhead]
        rfl
    | none =>
        have hsame : u.readAt repo (.tag tag) = v.readAt repo (.tag tag) := by
          funext root
          by_cases hroot : root = newBackend.head
          · have hbefore : v.readAt repo (.tag tag) newBackend.head = none := by
              by_contra hsome
              have hkept := h.advanced.readAt_kept (Option.ne_none_iff_isSome.mp hsome)
              rw [hhead] at hkept
              cases hkept
            rw [hroot, hhead, hbefore]
          · exact h.advanced.readAt_apart (fun hmem => hroot (List.mem_singleton.mp hmem)) repo _
        have hstart := ((overlay_served_iff arc old newBackend v repo).mpr hfits).read tag
        rw [← hstart, Backend.read, hsame, Backend.read]
  listed := by
    intro tag
    have hstart := ((overlay_served_iff arc old newBackend v repo).mpr hfits).listed tag
    constructor
    · rintro ⟨root, hroot, hsome⟩
      rcases h.advanced.tag repo tag root with hsame | ⟨_, d, ⟨_, hdone⟩, _⟩
      · have hsame : (u root).tag repo tag = (v root).tag repo tag := hsame
        rw [hsame] at hsome
        exact hstart.mp ⟨root, hroot, hsome⟩
      · exact hasTag_of_target old v repo ((hfound tag d).mp (List.mem_append_left _ hdone))
    · rintro ⟨root, hroot, hsome⟩
      refine ⟨root, ?_, ?_⟩
      · rw [overlay_leaves]
        exact List.mem_append_right _ hroot
      · rcases h.advanced.tag repo tag root with hsame | ⟨_, d, _, hd, _⟩
        · have hsame : (u root).tag repo tag = (v root).tag repo tag := hsame
          rwa [hsame]
        · have hd : (u root).tag repo tag = some d := hd
          rw [hd]
          rfl

end Served

-- The loops of the copy, as far as they come.
section Loops

variable {w : World} (hv : v.Consistent)

include hv

theorem always_copyManifests (digests : List Digest) (report : MigrateReport)
    (h : (backfillPlan newBackend v repo []).Advanced old [newBackend.head] v v w.volumes) :
    (copyManifests old.storage newBackend.storage repo digests report).Always World.handle
      (fun w' => (backfillPlan newBackend v repo []).Advanced old [newBackend.head] v v w'.volumes)
      w := by
  induction digests generalizing report w with
  | nil => exact (always_pure report w).mpr h
  | cons d rest ih =>
      rw [copyManifests, always_attempt_bind (newBackend.run_manifestGet w repo (.digest d))]
      refine ⟨(newBackend.forthright_manifestGet repo (.digest d)).always_iff.mpr h, ?_⟩
      cases hdst : newBackend.read w.volumes repo (.digest d) with
      | some content => exact ih report h
      | none =>
          have hnone : newBackend.read v repo (.digest d) = none := by
            cases hbefore : newBackend.read v repo (.digest d) with
            | none => rfl
            | some content =>
                rw [h.kept_read (hv.manifests repo) hbefore] at hdst
                cases hdst
          rw [orNotFound_none]
          simp only
          rw [always_attempt_bind (old.run_manifestGet w repo (.digest d))]
          refine ⟨(old.forthright_manifestGet repo (.digest d)).always_iff.mpr h, ?_⟩
          cases hsrc : old.read w.volumes repo (.digest d) with
          | none => exact ih report h
          | some content =>
              obtain ⟨root, _, hc⟩ := Backend.exists_of_read hsrc
              have haddr := (w.volumes_wellFormed root).manifest_addressed repo d content hc
              obtain ⟨w₁, hput, _, hvol⟩ := newBackend.run_manifestPut w repo (.digest d) content
              have hsrc : old.read v repo (.digest d) = some content :=
                (h.src_read (hv.manifests repo) d).symm.trans hsrc
              have hstep : (backfillPlan newBackend v repo []).Advanced old [newBackend.head] v v
                  w₁.volumes := by
                rw [hvol]
                exact h.trans (Plan.advanced_put (List.mem_singleton_self _) ⟨rfl, .inl hnone⟩ hsrc
                  haddr (hv.manifests repo) h (fun _ h => by cases h))
              refine (always_bind_of_ok hput _).mpr ⟨?_, ih _ hstep⟩
              rw [newBackend.always_manifestPut, hput]
              exact ⟨h, hstep⟩

theorem Backfilling.put {processed : List (TagName × Digest)} {tag : TagName} {d : Digest}
    {content : Bytes} (h : Backfilling old newBackend v repo processed u)
    (hnew : ∀ entry ∈ processed, entry.1 ≠ tag)
    (hsrc : old.read v repo (.digest d) = some content) :
    Backfilling old newBackend v repo (processed ++ [(tag, d)])
      (u.onRoots [newBackend.head] fun c => c.put repo (.tag tag) content) := by
  obtain ⟨p, _, hp⟩ := exists_of_first hsrc
  have haddr : sha256Digest content = d := (hv.wellFormed p).manifest_addressed repo d content hp
  have hmem : (tag, d) ∈ processed ++ [(tag, d)] := List.mem_append_right _ List.mem_cons_self
  have hsofar : (backfillPlan newBackend v repo (processed ++ [(tag, d)])).Advanced old
      [newBackend.head] v v u := by
    refine h.advanced.mono (List.Subset.refl _) (fun _ _ => trivial) ?_ ?_
    · rintro r e ⟨hr, hplan⟩
      exact ⟨hr, hplan.imp_right fun ⟨t, ht⟩ => ⟨t, List.mem_append_left _ ht⟩⟩
    · rintro r t e ⟨hr, ht⟩
      exact ⟨hr, List.mem_append_left _ ht⟩
  constructor
  · refine hsofar.trans (Plan.advanced_put (List.mem_singleton_self _) ⟨rfl, .inr ⟨tag, hmem⟩⟩ hsrc
      haddr (hv.manifests repo) hsofar ?_)
    rintro t ⟨⟩
    exact ⟨rfl, hmem⟩
  · intro entry he
    rcases List.mem_append.mp he with hdone | hlast
    · rw [u.tagAt_put_of_ne _ _ _ fun hm => hnew entry hdone hm.2]
      exact h.pointed entry hdone
    · obtain rfl := List.mem_singleton.mp hlast
      rw [u.tagAt_put_self, Function.update_self, haddr]

theorem always_copyTags (processed rest : List (TagName × Digest))
    (hnodup : ((processed ++ rest).map Prod.fst).Nodup)
    (hthere : ∀ entry ∈ rest, (old.read v repo (.digest entry.2)).isSome)
    (h : Backfilling old newBackend v repo processed w.volumes) :
    (copyTags old.storage newBackend.storage repo rest).Always World.handle
      (fun w' => ∃ done left, done ++ left = processed ++ rest ∧
        Backfilling old newBackend v repo done w'.volumes) w := by
  induction rest generalizing processed w with
  | nil => exact (always_pure () w).mpr ⟨processed, [], rfl, h⟩
  | cons entry rest ih =>
      obtain ⟨tag, d⟩ := entry
      have hsplit : processed ++ (tag, d) :: rest = (processed ++ [(tag, d)]) ++ rest := by simp
      have hhere : ∃ done left, done ++ left = processed ++ (tag, d) :: rest ∧
          Backfilling old newBackend v repo done w.volumes := ⟨processed, _, rfl, h⟩
      rw [copyTags, always_attempt_bind (old.run_manifestGet w repo (.digest d))]
      refine ⟨(old.forthright_manifestGet repo (.digest d)).always_iff.mpr hhere, ?_⟩
      obtain ⟨content, hsrc⟩ := Option.isSome_iff_exists.mp (hthere _ List.mem_cons_self)
      have hsrcNow := (h.advanced.src_read (hv.manifests repo) d).trans hsrc
      obtain ⟨w₁, hput, _, hvol⟩ := newBackend.run_manifestPut w repo (.tag tag) content
      have hstep : Backfilling old newBackend v repo (processed ++ [(tag, d)]) w₁.volumes := by
        rw [hvol]
        refine h.put hv ?_ hsrc
        intro done hdone heq
        rw [List.map_append, List.nodup_append] at hnodup
        exact hnodup.2.2 done.1 (List.mem_map_of_mem hdone) tag List.mem_cons_self heq
      rw [hsplit] at hnodup ⊢
      rw [hsrcNow]
      refine (always_bind_of_ok hput _).mpr ⟨?_, ih _ hnodup
        (fun e he => hthere e (List.mem_cons_of_mem _ he)) hstep⟩
      rw [newBackend.always_manifestPut, hput]
      exact ⟨hsplit ▸ hhere, _, rest, rfl, hstep⟩

end Loops

-- Advancing on another repository leaves this one's files alone.
structure SameIn (repo : RepoName) (v u : Volumes) : Prop where
  manifest : ∀ d, u.manifestAt repo d = v.manifestAt repo d
  tag : ∀ tag, u.tagAt repo tag = v.tagAt repo tag

omit [Sha2] in
theorem same_of_unplanned {plan : Plan} {heads : List RootId} (h : plan.Advanced old heads v v u)
    (hmanifest : ∀ d, ¬plan.manifest repo d) (htag : ∀ tag d, ¬plan.tag repo tag d) :
    SameIn repo v u where
  manifest := by
    intro d
    funext root
    cases hv : v.manifestAt repo d root with
    | some bytes => exact h.manifestKept repo d root bytes hv
    | none =>
        cases hu : u.manifestAt repo d root with
        | none => rfl
        | some bytes =>
            rcases h.manifestNew repo d root bytes hu with hold | ⟨_, hplan, _⟩
            · exact hold.symm.trans hv
            · exact absurd hplan (hmanifest d)
  tag := by
    intro tag
    funext root
    refine (h.tag repo tag root).resolve_right ?_
    rintro ⟨_, d, hplan, _⟩
    exact htag tag d hplan

variable [SerdeJson]

-- The copy of a repository falls into what comes before the tags and the tags.
structure Stages (old newBackend : Backend) (repo : RepoName) (report : MigrateReport)
    (w w₂ : World) (entries : List (TagName × Digest)) : Prop where
  found : ∀ tag d, (tag, d) ∈ entries ↔ Target old w.volumes repo tag d
  sorted : (entries.map Prod.fst).Pairwise (· < ·)
  advanced : (backfillPlan newBackend w.volumes repo []).Advanced old [newBackend.head] w.volumes
    w.volumes w₂.volumes
  filled : ∀ d, (old.read w.volumes repo (.digest d)).isSome → w₂.volumes.manifestAt repo d =
    fillSlot old newBackend (w.volumes.manifestAt repo d)
  tag : ∀ tag, w₂.volumes.tagAt repo tag = w.volumes.tagAt repo tag
  after : ∀ inv : World → Prop,
    (copyRepo old.storage newBackend.storage repo report).Always World.handle inv w →
      (copyTags old.storage newBackend.storage repo entries).Always World.handle inv w₂
  whole : ∀ inv : World → Prop,
    (∀ w', (backfillPlan newBackend w.volumes repo []).Advanced old [newBackend.head] w.volumes
      w.volumes w'.volumes → inv w') →
    (copyTags old.storage newBackend.storage repo entries).Always World.handle inv w₂ →
      (copyRepo old.storage newBackend.storage repo report).Always World.handle inv w

variable (old newBackend) in
theorem exists_stages (report : MigrateReport) {w : World} (hw : w.volumes.Consistent)
    (hresolve : TagsResolve old w.volumes repo) :
    ∃ w₂ entries, Stages old newBackend repo report w w₂ entries := by
  obtain ⟨found, hsurvey, hfound, hsorted⟩ :=
    run_survey_sorted old w (hw.manifests repo) hresolve
  obtain ⟨report₁, w₁, hrun₁, _, hcopied₁⟩ :=
    run_copyBlobs old newBackend repo found.2.blobs.toList report w
  have hblobs : (copyBlobs old.storage newBackend.storage repo found.2.blobs.toList report).Always
      World.handle (fun w' => (backfillPlan newBackend w.volumes repo []).Advanced old
        [newBackend.head] w.volumes w.volumes w'.volumes) w :=
    always_advanced (wp_copyBlobs hw (List.mem_singleton_self newBackend) (.refl _ _) repo _ report
      fun _ _ => trivial) (.refl _ _)
  obtain ⟨report₂, w₂, hrun₂, _, hcopied₂⟩ :=
    run_copyManifests old newBackend repo found.2.manifests.toList report₁ w₁
  have hmanifests :=
    always_copyManifests hw found.2.manifests.toList report₁ (hblobs.last hrun₁)
  refine ⟨w₂, found.1, hfound.tag, hsorted, hmanifests.last hrun₂, ?_, ?_, ?_, ?_⟩
  · intro d hd
    rw [hcopied₂.manifest repo d ⟨rfl, (hfound.manifest d).mpr hd⟩, hcopied₁.manifest]
  · exact fun tag => (hcopied₂.tag repo tag).trans (hcopied₁.tag repo tag)
  · intro inv h
    rw [copyRepo_eq, always_bind_of_ok hsurvey, copyFound, always_bind_of_ok hrun₁,
      always_bind_of_ok hrun₂, always_bind_pure] at h
    exact h.2.2.2
  · intro inv hfilled htags
    rw [copyRepo_eq, always_bind_of_ok hsurvey, copyFound, always_bind_of_ok hrun₁,
      always_bind_of_ok hrun₂, always_bind_pure]
    exact ⟨(forthright_survey old).always_iff.mpr (hfilled w (.refl _ _)), hblobs.mono hfilled,
      hmanifests.mono hfilled, htags⟩

omit [Sha2] [SerdeJson] in
theorem copyTags_append (src dst : Storage) (repo : RepoName)
    (first rest : List (TagName × Digest)) : copyTags src dst repo (first ++ rest) =
      copyTags src dst repo first >>= fun _ => copyTags src dst repo rest := by
  induction first with
  | nil => rfl
  | cons entry first ih =>
      obtain ⟨tag, d⟩ := entry
      simp only [List.cons_append, copyTags, bind_assoc]
      congr 1
      funext result
      rcases result with err | bytes
      · cases err with
        | notFound => exact ih
        | _ => rfl
      · simp only [bind_assoc, ih]

theorem Stages.there {w w₂ : World} {report : MigrateReport} {entries : List (TagName × Digest)}
    (h : Stages old newBackend repo report w w₂ entries) (hw : w.volumes.Consistent)
    {entry : TagName × Digest} (he : entry ∈ entries) :
    (old.read w.volumes repo (.digest entry.2)).isSome := by
  obtain ⟨bytes, hbytes, hd⟩ := (h.found entry.1 entry.2).mp he
  rw [hd, read_target old w (hw.manifests repo) hbytes]
  rfl

-- A tag that comes to life again shows before it is written.
theorem Stages.revived_served {w w₂ : World} {report : MigrateReport}
    {entries : List (TagName × Digest)} (h : Stages old newBackend repo report w w₂ entries)
    (hw : w.volumes.Consistent) {arc : Nat}
    (hserved : (copyTags old.storage newBackend.storage repo entries).Always World.handle
      (fun w' => TagsServed (overlay arc newBackend old) old w.volumes w'.volumes repo) w₂)
    {tag : TagName} {bytes : Bytes} (hrevived : Revived old newBackend w.volumes repo tag bytes) :
    old.read w.volumes repo (.tag tag) = some bytes := by
  obtain ⟨d, hlink, _, hsrc, hwhy⟩ := hrevived
  have hshown : ∀ u, TagsServed (overlay arc newBackend old) old w.volumes u repo →
      u.tagAt repo tag newBackend.head = some d → u.manifestAt repo d newBackend.head = some bytes →
      old.read w.volumes repo (.tag tag) = some bytes := by
    intro u hu htag hmanifest
    obtain ⟨tail, htail⟩ := newBackend.readOrder_eq_cons
    have htag : (u newBackend.head).tag repo tag = some d := htag
    have hnew : newBackend.read u repo (.tag tag) = some bytes := by
      rw [Backend.read, htail]
      refine first_cons_of_some ?_
      rw [Volumes.readAt, Contents.read_tag, htag]
      exact hmanifest
    rw [← hu.read, overlay_read, hnew]
    rfl
  have htag₂ : w₂.volumes.tagAt repo tag newBackend.head = some d :=
    (congrFun (h.tag tag) newBackend.head).trans hlink
  have hsrc₂ : old.read w₂.volumes repo (.digest d) = some bytes :=
    (h.advanced.src_read (hw.manifests repo) d).trans hsrc
  rcases hwhy with hnone | ⟨earlier, hlt, htarget⟩
  · apply hshown w₂.volumes hserved.first htag₂
    rw [Backend.read_digest] at hnone hsrc
    rw [h.filled d (Option.isSome_iff_exists.mpr ⟨bytes, hsrc⟩), fillSlot, fill_of_none hnone,
      Function.update_self, hsrc]
  · obtain ⟨before, after, hsplit⟩ := List.append_of_mem ((h.found earlier d).mpr htarget)
    have hsplit : entries = (before ++ [(earlier, d)]) ++ after := by simp [hsplit]
    have hsorted := h.sorted
    rw [hsplit, List.map_append, List.pairwise_append] at hsorted
    have hnodup := hsorted.1.imp ne_of_lt
    have hread : ∀ e ∈ (before ++ [(earlier, d)]).map Prod.snd,
        (old.read w₂.volumes repo (.digest e)).isSome := by
      intro e he
      obtain ⟨entry, hmem, rfl⟩ := List.mem_map.mp he
      rw [h.advanced.src_read (hw.manifests repo)]
      exact h.there hw (hsplit ▸ List.mem_append_left _ hmem)
    have hlate : ∀ e, (tag, e) ∉ before ++ [(earlier, d)] := by
      intro e he
      rcases List.mem_append.mp he with hbefore | hlast
      · rw [List.map_append, List.pairwise_append] at hsorted
        have hlow : tag < earlier := hsorted.1.2.2 tag (List.mem_map_of_mem (f := Prod.fst) hbefore)
          earlier List.mem_cons_self
        exact absurd hlow hlt.asymm
      · obtain ⟨rfl, _⟩ := Prod.mk.inj (List.mem_singleton.mp hlast)
        exact lt_irrefl _ hlt
    obtain ⟨w₃, hrun, _, hcopied⟩ := run_copyTags old newBackend repo _ w₂ hnodup hread
    rw [hsplit, copyTags_append, always_bind_of_ok hrun] at hserved
    apply hshown w₃.volumes hserved.2.first
    · rw [hcopied.otherTag repo tag (by rintro ⟨e, _, he⟩; exact hlate e he)]
      exact htag₂
    · rw [Backend.read_digest] at hsrc₂
      rw [hcopied.manifest repo d ⟨earlier, rfl, List.mem_append_right _ List.mem_cons_self⟩,
        forceSlot, force_of_some hsrc₂, Function.update_self]

variable (old newBackend repo) in
theorem always_copyRepo_iff (arc : Nat) (report : MigrateReport) (w : World)
    (hw : w.volumes.Consistent) :
    (copyRepo old.storage newBackend.storage repo report).Always World.handle
      (fun w' => TagsServed (overlay arc newBackend old) old w.volumes w'.volumes repo) w ↔
    Fits old newBackend w.volumes repo ∧ (TagsResolve old w.volumes repo → ∀ tag bytes,
      Revived old newBackend w.volumes repo tag bytes →
        old.read w.volumes repo (.tag tag) = some bytes) := by
  constructor
  · intro h
    refine ⟨(overlay_served_iff arc old newBackend w.volumes repo).mp h.first, ?_⟩
    intro hresolve tag bytes hrevived
    obtain ⟨w₂, entries, hstages⟩ := exists_stages old newBackend report hw hresolve
    exact hstages.revived_served hw (hstages.after _ h) hrevived
  · rintro ⟨hfits, hrevived⟩
    by_cases hresolve : TagsResolve old w.volumes repo
    · obtain ⟨w₂, entries, hstages⟩ := exists_stages old newBackend report hw hresolve
      have hserved : ∀ done left u, done ++ left = entries →
          Backfilling old newBackend w.volumes repo done u →
          TagsServed (overlay arc newBackend old) old w.volumes u repo := by
        rintro done left u rfl hdone
        exact hdone.served hw hstages.found hstages.sorted hresolve hfits (hrevived hresolve) arc
      refine hstages.whole _
        (fun w' hfilled => hserved [] entries w'.volumes rfl ⟨hfilled, nofun⟩) ?_
      refine (always_copyTags hw [] entries (hstages.sorted.imp ne_of_lt)
        (fun _ he => hstages.there hw he) ⟨hstages.advanced, nofun⟩).mono ?_
      rintro w' ⟨done, left, hsplit, hdone⟩
      exact hserved done left w'.volumes hsplit hdone
    · have hstop := run_survey_dangling old w (hw.manifests repo) hresolve
      rw [copyRepo_eq, always_bind_of_error hstop]
      exact (forthright_survey old).always_iff.mpr
        ((overlay_served_iff arc old newBackend w.volumes repo).mpr hfits)

variable (old newBackend) in
theorem always_copyRepo_other {other : RepoName} (hne : repo ≠ other) (report : MigrateReport)
    (w : World) (hw : w.volumes.Consistent) :
    (copyRepo old.storage newBackend.storage other report).Always World.handle
      (fun w' => SameIn repo w.volumes w'.volumes) w := by
  have hcopy := always_advanced (wp_copyRepo old newBackend other report w hw) (.refl _ _)
  exact hcopy.mono fun w' h => same_of_unplanned h (fun _ hm => hne hm.1) fun _ _ hm => hne hm.1

-- What is said of a repository's tags is said of its files.

section Same

variable {v' u' : Volumes} {b : Backend}

omit [Sha2] [SerdeJson] in
theorem SameIn.readAt (h : SameIn repo v u) (reference : Reference) :
    u.readAt repo reference = v.readAt repo reference :=
  Volumes.readAt_congr h.manifest h.tag reference

omit [Sha2] [SerdeJson] in
theorem SameIn.read (h : SameIn repo v u) (b : Backend) (reference : Reference) :
    b.read u repo reference = b.read v repo reference :=
  congrArg (first b.readOrder) (h.readAt reference)

omit [Sha2] [SerdeJson] in
theorem SameIn.hasTag (h : SameIn repo v u) (b : Backend) (tag : TagName) :
    b.HasTag u repo tag ↔ b.HasTag v repo tag := by
  have htag : ∀ root, (u root).tag repo tag = (v root).tag repo tag := congrFun (h.tag tag)
  simp only [Backend.HasTag, htag]

omit [Sha2] [SerdeJson] in
variable (repo v) in
theorem SameIn.refl : SameIn repo v v := ⟨fun _ => rfl, fun _ => rfl⟩

omit [Sha2] [SerdeJson] in
theorem SameIn.symm (h : SameIn repo v u) : SameIn repo u v where
  manifest d := (h.manifest d).symm
  tag tag := (h.tag tag).symm

omit [Sha2] [SerdeJson] in
theorem SameIn.trans {v₁ : Volumes} (h : SameIn repo v v₁) (h' : SameIn repo v₁ u) :
    SameIn repo v u where
  manifest d := (h'.manifest d).trans (h.manifest d)
  tag tag := (h'.tag tag).trans (h.tag tag)

omit [Sha2] [SerdeJson] in
theorem SameIn.served (hv : SameIn repo v v') (hu : SameIn repo u u') :
    TagsServed b old v' u' repo ↔ TagsServed b old v u repo := by
  have hread : ∀ tag, b.read u' repo (.tag tag) = old.read v' repo (.tag tag) ↔
      b.read u repo (.tag tag) = old.read v repo (.tag tag) := by
    intro tag
    rw [hu.read, hv.read]
  have hlisted : ∀ tag, (b.HasTag u' repo tag ↔ old.HasTag v' repo tag) ↔
      (b.HasTag u repo tag ↔ old.HasTag v repo tag) := by
    intro tag
    rw [hu.hasTag, hv.hasTag]
  constructor
  · exact fun h => ⟨fun tag => (hread tag).mp (h.read tag), fun tag => (hlisted tag).mp (h.listed tag)⟩
  · exact fun h =>
      ⟨fun tag => (hread tag).mpr (h.read tag), fun tag => (hlisted tag).mpr (h.listed tag)⟩

omit [SerdeJson] in
theorem SameIn.revived (h : SameIn repo v u) {tag : TagName} {bytes : Bytes}
    (hrevived : Revived old newBackend u repo tag bytes) :
    Revived old newBackend v repo tag bytes := by
  obtain ⟨d, hlink, hgone, hsrc, hwhy⟩ := hrevived
  have htag : (u newBackend.head).tag repo tag = (v newBackend.head).tag repo tag :=
    congrFun (h.tag tag) newBackend.head
  have hmanifest : (u newBackend.head).manifest repo d = (v newBackend.head).manifest repo d :=
    congrFun (h.manifest d) newBackend.head
  rw [htag] at hlink
  rw [hmanifest] at hgone
  rw [h.read] at hsrc
  refine ⟨d, hlink, hgone, hsrc, ?_⟩
  simpa only [Target, h.read] using hwhy

omit [Sha2] [SerdeJson] in
theorem SameIn.fits (h : SameIn repo v u) :
    Fits old newBackend u repo ↔ Fits old newBackend v repo := by
  rw [← overlay_served_iff 0, ← overlay_served_iff 0]
  exact h.served h

end Same

section Repos

omit [SerdeJson] in
theorem consistent_of_advanced {plan : Plan} {heads : List RootId} {w w' : World}
    (hw : w.volumes.Consistent) (h : plan.Advanced old heads w.volumes w.volumes w'.volumes) :
    w'.volumes.Consistent where
  wellFormed := w'.volumes_wellFormed
  blobs d := h.coherent_blob (hw.blobs d)
  manifests r := h.coherent (hw.manifests r)

variable (old newBackend) in
theorem consistent_copied {other : RepoName} {report report' : MigrateReport} {w w' : World}
    (hw : w.volumes.Consistent)
    (hrun : (copyRepo old.storage newBackend.storage other report).run World.handle w =
      (.ok report', w')) : w'.volumes.Consistent := by
  have hcopy := always_advanced (wp_copyRepo old newBackend other report w hw) (.refl _ _)
  exact consistent_of_advanced hw (hcopy.last hrun)

variable (old newBackend) in
theorem always_copyRepos_other (repos : List RepoName) (hother : repo ∉ repos)
    (report : MigrateReport) (w : World) (hw : w.volumes.Consistent) :
    (copyRepos old.storage newBackend.storage repos report).Always World.handle
      (fun w' => SameIn repo w.volumes w'.volumes) w := by
  induction repos generalizing report w with
  | nil => exact (always_pure report w).mpr (.refl w.volumes repo)
  | cons other rest ih =>
      have hne : repo ≠ other := fun heq => hother (heq ▸ List.mem_cons_self)
      have hrest : repo ∉ rest := fun hmem => hother (List.mem_cons_of_mem other hmem)
      have hhere := always_copyRepo_other old newBackend hne report w hw
      rw [copyRepos]
      rcases hrun : (copyRepo old.storage newBackend.storage other report).run World.handle w with
        ⟨err | report₁, w₁⟩
      · exact (always_bind_of_error hrun _).mpr hhere
      · have hsame := hhere.last hrun
        refine (always_bind_of_ok hrun _).mpr ⟨hhere, ?_⟩
        exact (ih hrest report₁ w₁ (consistent_copied old newBackend hw hrun)).mono
          fun w' h => hsame.trans h

variable (old) in
-- The backfill comes to copy the repository: no tag dangles before it is done.
def Attained (v : Volumes) (repos : List RepoName) (repo : RepoName) : Prop :=
  repo ∈ repos ∧ ∀ other ∈ repos, other ≤ repo → TagsResolve old v other

variable (old newBackend repo) in
theorem always_copyRepos_iff (arc : Nat) (repos : List RepoName) (hsorted : repos.Pairwise (· < ·))
    (report : MigrateReport) (w : World) (hw : w.volumes.Consistent) :
    (copyRepos old.storage newBackend.storage repos report).Always World.handle
      (fun w' => TagsServed (overlay arc newBackend old) old w.volumes w'.volumes repo) w ↔
    Fits old newBackend w.volumes repo ∧ (Attained old w.volumes repos repo → ∀ tag bytes,
      Revived old newBackend w.volumes repo tag bytes →
        old.read w.volumes repo (.tag tag) = some bytes) := by
  induction repos generalizing report w with
  | nil =>
      rw [copyRepos, always_pure, overlay_served_iff]
      simp [Attained]
  | cons head rest ih =>
      obtain ⟨hlow, hrest⟩ := List.pairwise_cons.mp hsorted
      rw [copyRepos]
      rcases eq_or_ne repo head with rfl | hne
      · have hattained : Attained old w.volumes (repo :: rest) repo ↔
            TagsResolve old w.volumes repo := by
          refine ⟨fun h => h.2 repo List.mem_cons_self le_rfl, fun h => ⟨List.mem_cons_self, ?_⟩⟩
          intro other hmem hle
          rcases List.mem_cons.mp hmem with rfl | hmem
          · exact h
          · exact absurd (hlow other hmem) hle.not_gt
        rw [hattained, ← always_copyRepo_iff old newBackend repo arc report w hw]
        rcases hrun : (copyRepo old.storage newBackend.storage repo report).run World.handle w with
          ⟨err | report₁, w₁⟩
        · exact always_bind_of_error hrun _
        · rw [always_bind_of_ok hrun]
          refine ⟨And.left, fun h => ⟨h, ?_⟩⟩
          have hserved := h.last hrun
          have hleft : repo ∉ rest := fun hmem => lt_irrefl repo (hlow repo hmem)
          refine (always_copyRepos_other old newBackend rest hleft report₁ w₁
            (consistent_copied old newBackend hw hrun)).mono ?_
          exact fun w' hsame => (SameIn.served (.refl w.volumes repo) hsame).mpr hserved
      · have hkeeps := always_copyRepo_other old newBackend hne report w hw
        have hstay : (copyRepo old.storage newBackend.storage head report).Always World.handle
            (fun w' => TagsServed (overlay arc newBackend old) old w.volumes w'.volumes repo) w ↔
              Fits old newBackend w.volumes repo := by
          rw [← overlay_served_iff arc]
          refine ⟨Prog.Always.first, fun h => hkeeps.mono fun w' hsame => ?_⟩
          exact (SameIn.served (.refl w.volumes repo) hsame).mpr h
        by_cases hresolve : TagsResolve old w.volumes head
        · obtain ⟨report₁, w₁, hrun, _, hcopied⟩ :=
            run_copyRepo old newBackend w report (hw.manifests head) hresolve
          have hsame := hkeeps.last hrun
          have hrest := ih hrest report₁ w₁ (consistent_copied old newBackend hw hrun)
          have hbase : (fun w' : World => TagsServed (overlay arc newBackend old) old w₁.volumes
              w'.volumes repo) = fun w' => TagsServed (overlay arc newBackend old) old w.volumes
                w'.volumes repo :=
            funext fun w' => propext (hsame.served (.refl w'.volumes repo))
          have hattained : Attained old w₁.volumes rest repo ↔
              Attained old w.volumes (head :: rest) repo := by
            have hother : ∀ other ∈ rest, (TagsResolve old w₁.volumes other ↔
                TagsResolve old w.volumes other) :=
              fun other hmem => hcopied.tagsResolve_other (hlow other hmem).ne'
            constructor
            · rintro ⟨hmem, h⟩
              refine ⟨List.mem_cons_of_mem head hmem, ?_⟩
              intro other ho hle
              rcases List.mem_cons.mp ho with rfl | ho
              · exact hresolve
              · exact (hother other ho).mp (h other ho hle)
            · rintro ⟨hmem, h⟩
              refine ⟨(List.mem_cons.mp hmem).resolve_left hne, ?_⟩
              exact fun other ho hle =>
                (hother other ho).mpr (h other (List.mem_cons_of_mem head ho) hle)
          have hrevived : ∀ tag bytes, Revived old newBackend w₁.volumes repo tag bytes ↔
              Revived old newBackend w.volumes repo tag bytes :=
            fun tag bytes => ⟨hsame.revived, hsame.symm.revived⟩
          rw [always_bind_of_ok hrun, hstay, ← hbase, hrest, hsame.fits, hattained]
          simp only [hrevived, hsame.read, ← and_assoc, and_self]
        · have hrun := run_copyRepo_dangling old newBackend w report (hw.manifests head) hresolve
          rw [always_bind_of_error hrun, hstay]
          refine ⟨fun h => ⟨h, ?_⟩, And.left⟩
          rintro ⟨hmem, hresolves⟩
          have hmem := (List.mem_cons.mp hmem).resolve_left hne
          exact absurd (hresolves head List.mem_cons_self (hlow repo hmem).le) hresolve

end Repos

end Repo

end

end RspaceRegistry.Migrate
