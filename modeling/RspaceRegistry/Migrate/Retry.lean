import RspaceRegistry.Migrate.Reads
import RspaceRegistry.Migrate.Uses
import RspaceRegistry.RepoRouter.Reads
import RspaceRegistry.Sample
import RspaceRegistry.World.Faults

namespace RspaceRegistry.Migrate

open Calls Fallible Places

section

variable [Sha2]

-- Whatever fails in a migration, it leaves its rule as it was, on an overlay of
-- the new backend, or on the new backend.
def RuleAfter (pattern : String) (newBackend : Backend) (w w' : World) : Prop :=
  w'.router.backendForPattern pattern = w.router.backendForPattern pattern ∨
    w'.router.backendForPattern pattern = some newBackend ∨
      ∃ arc old, w'.router.backendForPattern pattern = some (overlay arc newBackend old)

section RuleAfter

variable {pattern : String} {newBackend : Backend} {w₀ : World}

theorem wp_rule_kept {α β : Type} {writes deletes : List RootId} {prog : StoreM α}
    (hprog : prog.Uses (Op.Confined writes deletes)) {rest : α → StoreM β} {w : World}
    (hw : RuleAfter pattern newBackend w₀ w)
    (hrest : ∀ value w', w'.router = w.router →
      (rest value).wp World.Faulty Eq unguarded (fun _ => RuleAfter pattern newBackend w₀) w') :
    (prog >>= rest).wp World.Faulty Eq unguarded (fun _ => RuleAfter pattern newBackend w₀) w := by
  rw [Fallible.wp_bind]
  refine Prog.wp_mono (World.wp_keeps hprog w) (fun _ _ _ _ h => h) (fun _ _ h => h)
    (fun _ _ _ _ _ _ => trivial) ?_
  intro result w' hkeeps
  cases result with
  | ok value => exact hrest value w' hkeeps.sameRules.router
  | error err =>
      simp only [outcome_error, RuleAfter, hkeeps.sameRules.router]
      exact hw

theorem wp_selectRepos_kept (old : Backend) (listed : List RepoName) (w : World) :
    (selectRepos pattern old listed).wp World.Faulty Eq unguarded
      (Outcome (fun _ w' => w' = w) fun _ _ => False) w := by
  induction listed with
  | nil => rfl
  | cons repo rest ih =>
      rw [selectRepos]
      split
      · refine World.wp_backendFor trivial ?_
        rw [Fallible.wp_bind]
        refine Fallible.wp_post ih ?_
        rintro result w' h
        cases result with
        | ok repos => exact h
        | error err => exact h
      · exact ih

variable [SerdeJson]

theorem wp_move_rule {old : Backend} {w : World} (drain : Bool) (repos : List RepoName)
    (hrule : w.router.backendForPattern pattern = some old) :
    (move pattern old newBackend drain repos).wp World.Faulty Eq unguarded
      (fun _ => RuleAfter pattern newBackend w₀) w := by
  have hoverlay : newOverlay newBackend old =
      StoreM.newArc >>= fun arc => pure (overlay arc newBackend old) := rfl
  rw [move, hoverlay, bind_assoc]
  refine World.wp_newArc trivial ?_
  rw [pure_bind]
  refine World.wp_upsert trivial ?_
  have hcut := backendForPattern_after (w := w.newArc) hrule (overlay w.nextArc newBackend old)
  refine wp_rule_kept (uses_copyRepos old newBackend repos _) (.inr (.inr ⟨_, _, hcut⟩)) ?_
  intro report w₁ hrouter₁
  have hrule₁ : w₁.router.backendForPattern pattern = some (overlay w.nextArc newBackend old) := by
    rw [hrouter₁]
    exact hcut
  refine World.wp_upsert trivial ?_
  have hcollapse := backendForPattern_after hrule₁ newBackend
  cases drain with
  | false => exact .inr (.inl hcollapse)
  | true =>
      refine Prog.wp_mono (World.wp_keeps (uses_drainOld old repos _) _) (fun _ _ _ _ h => h)
        (fun _ _ h => h) (fun _ _ _ _ _ _ => trivial) ?_
      intro result w₂ hkeeps
      rw [RuleAfter, hkeeps.sameRules.router]
      exact .inr (.inl hcollapse)

variable (newBackend) in
theorem wp_run_rule (drain : Bool) : (run pattern newBackend drain).wp World.Faulty Eq unguarded
    (fun _ => RuleAfter pattern newBackend w₀) w₀ := by
  rw [run]
  refine World.wp_backendForPattern trivial ?_
  cases hrule : w₀.router.backendForPattern pattern with
  | none => exact .inl rfl
  | some old =>
      simp only
      split
      · exact .inl rfl
      · refine wp_rule_kept (old.readOnly_listRepos.uses [] []) (.inl rfl) ?_
        intro listed w₁ hrouter₁
        rw [Fallible.wp_bind]
        refine Fallible.wp_post (wp_selectRepos_kept old listed.toList w₁) ?_
        intro result w₂ h
        cases result with
        | ok repos =>
            obtain rfl : w₂ = w₁ := h
            exact wp_move_rule drain repos (by rw [hrouter₁, hrule])
        | error err => exact h.elim

end RuleAfter

variable [SerdeJson]

-- A migration that stops with an error has cut over if its rule is not what it
-- was before.
theorem rule_after_failure {pattern : String} {newBackend : Backend} {drain : Bool} {w₀ w₁ : World}
    {err : StorageError}
    (hfail : Prog.Reaches World.Faulty (run pattern newBackend drain, w₀) (.pure (.error err), w₁))
    (hcut : w₁.router.backendForPattern pattern ≠ w₀.router.backendForPattern pattern) :
    w₁.router.backendForPattern pattern = some newBackend ∨
      ∃ arc old, w₁.router.backendForPattern pattern = some (overlay arc newBackend old) := by
  have hafter : RuleAfter pattern newBackend w₀ w₁ :=
    Prog.wp_reaches hfail (wp_run_rule newBackend drain)
  exact hafter.resolve_left hcut

section Retry

-- A repository's manifests and the blobs that they name are served by the
-- second world as they are by the first.
def StillServed (w w' : World) (repo : RepoName) : Prop :=
  ∀ reference content, w.manifestGet repo reference = .ok content →
    w'.manifestGet repo reference = .ok content ∧
      ∀ d ∈ blobReferences content, ∀ bytes, w.blobRead repo d = .ok bytes →
        w'.blobRead repo d = .ok bytes

variable {pattern : String} {arc : Nat} {newBackend old : Backend} {drain : Bool} {w w' : World}
  {repos : List RepoName} {v : Volumes} {repo : RepoName}
  (hrule : w.router.backendForPattern pattern = some (overlay arc newBackend old))
  (hrepo : w.router.RoutedBy pattern repo.text)

include hrule hrepo

omit [SerdeJson] in
-- Whoever has a manifest is listed, and so is moved.
theorem moved_of_read {reference : Reference} {content : Bytes}
    (hread : w.manifestGet repo reference = .ok content) :
    Moved w pattern (overlay arc newBackend old) repo := by
  have hresolve := w.router.resolve_of_routedThrough hrule
    (w.router.routedThrough_of_routedBy hrepo)
  rw [World.manifestGet_eq_ok, hresolve] at hread
  obtain ⟨root, hroot, hat⟩ := Backend.exists_of_read hread
  obtain ⟨d, _, hd⟩ := (Contents.read_eq_some _ _ _ _).mp hat
  exact ⟨⟨root, hroot, (w.volumes_wellFormed root).manifest_listed repo d content hd⟩,
    w.router.globMatch_of_routedBy hrepo, hresolve⟩

variable (hfree : w.volumes.CollisionFree)
  (hmem : ∀ repo, repo ∈ repos ↔ Moved w pattern (overlay arc newBackend old) repo)
  (hfinished : Finished pattern (overlay arc newBackend old) newBackend drain repos w w' v)

include hfinished

omit hrule in
theorem resolve_finished {k : Nat} (hkey : w.router.keyIndex pattern = some k) :
    w'.router.resolve repo.text = newBackend := by
  rw [hfinished.router]
  exact RepoRouter.resolve_upsert_through hkey (w.router.routedThrough_of_routedBy hrepo)

include hfree hmem

-- The overlay is read new-first, so what it reads the new backend reads after
-- the copy.
theorem served_of_kept (hdrain : drain = false) : StillServed w w' repo := by
  intro reference content hread
  have hmoved := (hmem repo).mpr (moved_of_read hrule hrepo hread)
  have hcoh := hfree.coherent w.volumes_wellFormed repo
  obtain ⟨k, hkey⟩ := w.router.exists_keyIndex hrule
  have hbefore := w.router.resolve_of_routedThrough hrule
    (w.router.routedThrough_of_routedBy hrepo)
  have hafter := resolve_finished hrepo hfinished hkey
  have hvolumes := hfinished.kept hdrain
  rw [World.manifestGet_eq_ok, hbefore] at hread
  simp only [World.manifestGet_eq_ok, World.blobRead_eq_ok, hbefore, hafter, hvolumes]
  constructor
  · cases reference with
    | digest d =>
        rw [hfinished.copied.read_dst_digest hmoved hcoh]
        cases hnew : newBackend.read w.volumes repo (.digest d) with
        | none => exact hread
        | some content' =>
            rw [overlay_read, hnew] at hread
            exact hread
    | tag tag => exact hfinished.copied.read_dst_tag hmoved w.volumes_wellFormed hcoh hread
  · intro d hd bytes hblob
    have href : Referenced (overlay arc newBackend old) w.volumes repo d := by
      cases reference with
      | digest d' => exact ⟨d', content, hread, hd⟩
      | tag tag => exact ⟨_, content, read_target _ w hcoh hread, hd⟩
    rw [hfinished.copied.blob_dst ⟨repo, hmoved, href⟩]
    cases hnew : newBackend.blob w.volumes d with
    | none => exact hblob
    | some bytes' =>
        rw [overlay_blob, hnew] at hblob
        exact hblob

omit hfree in
-- The drained overlay has the new backend below it.
theorem lost_of_drained (hdrain : drain = true) {d : Digest} {content : Bytes}
    (hread : w.manifestGet repo (.digest d) = .ok content) :
    w'.manifestGet repo (.digest d) = .error .notFound := by
  have hmoved := (hmem repo).mpr (moved_of_read hrule hrepo hread)
  obtain ⟨k, hkey⟩ := w.router.exists_keyIndex hrule
  have hafter := resolve_finished hrepo hfinished hkey
  have hnone : newBackend.read w'.volumes repo (.digest d) = none := by
    rw [Backend.read, (hfinished.drained hdrain).readAt_moved hmoved]
    apply first_clear_of_subset
    intro root hroot
    rw [overlay_leaves]
    exact List.mem_append_left _ ((newBackend.mem_readOrder root).mp hroot)
  rw [World.manifestGet_eq, hafter, hnone, orNotFound_none]

end Retry

-- Repeating a migration that failed after its cutover loses what the class
-- holds exactly when it drains the overlay.
theorem retry_served_iff {pattern : String} {newBackend : Backend} {drain₁ drain₂ : Bool}
    {w₀ w₁ w₂ : World} {err : StorageError} {report : MigrateReport}
    (hfail : Prog.Reaches World.Faulty (run pattern newBackend drain₁, w₀) (.pure (.error err), w₁))
    (hcut : w₁.router.backendForPattern pattern ≠ w₀.router.backendForPattern pattern)
    (hfree : w₁.volumes.CollisionFree)
    (hretry : (run pattern newBackend drain₂).run World.handle w₁ = (.ok report, w₂)) :
    (∀ repo, w₁.router.RoutedBy pattern repo.text → StillServed w₁ w₂ repo) ↔
      drain₂ = false ∨ w₁.router.backendForPattern pattern = some newBackend ∨
        ∀ repo, w₁.router.RoutedBy pattern repo.text → ∀ d,
          w₁.manifestGet repo (.digest d) = .error .notFound := by
  have hcoh := hfree.coherent w₁.volumes_wellFormed
  rcases rule_after_failure hfail hcut with hrule | ⟨arc, old, hrule⟩
  · rw [run_noop hrule] at hretry
    obtain ⟨_, rfl⟩ := Prod.mk.inj hretry
    refine iff_of_true ?_ (.inr (.inl hrule))
    intro repo _ reference content hread
    exact ⟨hread, fun _ _ _ hblob => hblob⟩
  · have hne := overlay_ne arc newBackend old
    obtain ⟨repos, v, hmem, _, hfinished⟩ := run_eq_ok hrule hne hcoh hretry
    constructor
    · intro h
      cases hdrain : drain₂ with
      | false => exact .inl rfl
      | true =>
          refine .inr (.inr ?_)
          intro repo hrepo d
          cases hread : w₁.manifestGet repo (.digest d) with
          | error err' =>
              rw [World.manifestGet_eq] at hread
              cases hnone : (w₁.router.resolve repo.text).read w₁.volumes repo (.digest d) with
              | none =>
                  rw [hnone] at hread
                  exact hread.symm
              | some content =>
                  rw [hnone] at hread
                  cases hread
          | ok content =>
              have hlost := lost_of_drained hrule hrepo hmem hfinished hdrain hread
              rw [(h repo hrepo (.digest d) content hread).1] at hlost
              cases hlost
    · intro h repo hrepo
      rcases h with hdrain | hsame | hempty
      · exact served_of_kept hrule hrepo hfree hmem hfinished hdrain
      · rw [hsame] at hrule
        exact absurd (Option.some.inj hrule).symm hne
      · intro reference content hread
        have hresolve := w₁.router.resolve_of_routedThrough hrule
          (w₁.router.routedThrough_of_routedBy hrepo)
        have hdigest : ∃ d, w₁.manifestGet repo (.digest d) = .ok content := by
          cases reference with
          | digest d => exact ⟨d, hread⟩
          | tag tag =>
              rw [World.manifestGet_eq_ok, hresolve] at hread
              refine ⟨sha256Digest content, ?_⟩
              rw [World.manifestGet_eq_ok, hresolve]
              exact read_target _ w₁ (hcoh repo) hread
        obtain ⟨d, hd⟩ := hdigest
        rw [hempty repo hrepo d] at hd
        cases hd

end

section

attribute [local instance] Sample.sha2 Sample.serdeJson

-- The migration of one image, stopped by a fault in the first write on the new
-- volume, and issued again with a drain.
def interrupted : World := ((run "*" (.fs 1 1) false).run World.failAfter (some 6, Sample.stored)).2.2

def retried : World := ((run "*" (.fs 1 1) true).run World.handle interrupted).2

theorem interrupted_outcome :
    (((run "*" (.fs 1 1) false).run World.failAfter (some 6, Sample.stored)).1 = .error .io ∧
      ((run "*" (.fs 1 1) false).calls World.failAfter (some 6, Sample.stored)).all
        Sample.staysBelow = true) ∧
    interrupted.router.backendForPattern "*" ≠ Sample.stored.router.backendForPattern "*" ∧
    interrupted.router.RoutedBy "*" Sample.dataX.text ∧
    interrupted.manifestGet Sample.dataX (.tag Sample.v1) = .ok Sample.braces ∧
    ((interrupted.roots 0).texts ⊆ [Sample.braces] ∧ (interrupted.roots 1).texts ⊆ [Sample.braces]) ∧
    ∀ algorithm ∈ [Algorithm.sha256, .sha512], ∀ a ∈ [Sample.braces], ∀ b ∈ [Sample.braces],
      hashContent algorithm a = hashContent algorithm b → a = b := by
  decide +kernel

theorem interrupted_fails : Prog.Reaches World.Faulty (run "*" (.fs 1 1) false, Sample.stored)
    (.pure (.error .io), interrupted) := by
  have h := World.reaches_failAfter (run "*" (.fs 1 1) false) (some 6) Sample.stored
  rw [interrupted_outcome.1.1] at h
  exact h

theorem interrupted_moves : interrupted.router.backendForPattern "*" ≠
    Sample.stored.router.backendForPattern "*" := interrupted_outcome.2.1

theorem interrupted_collisionFree : interrupted.volumes.CollisionFree := by
  obtain ⟨⟨-, hcalls⟩, -, -, -, ⟨hzero, hone⟩, hdistinct⟩ := interrupted_outcome
  apply Sample.collisionFree [Sample.braces]
  · exact Sample.texts_failAfter rfl rfl hcalls hzero hone
  · intro algorithm
    exact hdistinct algorithm (by cases algorithm <;> simp)

theorem retried_outcome :
    ((run "*" (.fs 1 1) true).run World.handle interrupted).1 =
      .ok { MigrateReport.empty with reposMigrated := 1, manifestsCopied := 1, cutover := true } ∧
    retried.manifestGet Sample.dataX (.tag Sample.v1) = .error .notFound := by decide +kernel

theorem retried_run : (run "*" (.fs 1 1) true).run World.handle interrupted =
    (.ok { MigrateReport.empty with reposMigrated := 1, manifestsCopied := 1, cutover := true },
      retried) :=
  run_eq_mk retried_outcome.1 rfl

theorem retried_image_lost :
    Prog.Reaches World.Faulty (run "*" (.fs 1 1) false, Sample.stored)
        (.pure (.error .io), interrupted) ∧
      interrupted.router.backendForPattern "*" ≠ Sample.stored.router.backendForPattern "*" ∧
      ((run "*" (.fs 1 1) true).run World.handle interrupted).1.isOk = true ∧
      interrupted.router.RoutedBy "*" Sample.dataX.text ∧
      ¬StillServed interrupted retried Sample.dataX := by
  obtain ⟨-, -, hrouted, hbefore, -⟩ := interrupted_outcome
  refine ⟨interrupted_fails, interrupted_moves, by rw [retried_run]; rfl, hrouted, ?_⟩
  intro h
  have hafter := retried_outcome.2
  rw [(h (.tag Sample.v1) Sample.braces hbefore).1] at hafter
  cases hafter

theorem retried_served_iff :
    (∀ repo, interrupted.router.RoutedBy "*" repo.text → StillServed interrupted retried repo) ↔
      true = false ∨ interrupted.router.backendForPattern "*" = some (.fs 1 1) ∨
        ∀ repo, interrupted.router.RoutedBy "*" repo.text → ∀ d,
          interrupted.manifestGet repo (.digest d) = .error .notFound :=
  retry_served_iff interrupted_fails interrupted_moves interrupted_collisionFree retried_run

end

end RspaceRegistry.Migrate
