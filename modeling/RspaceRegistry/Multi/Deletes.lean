import RspaceRegistry.Backend.Run
import RspaceRegistry.Sample

namespace RspaceRegistry

open Calls Fallible Ordered

section

variable [Sha2]

namespace World

-- Surroundings in which the outcome of each call on a directory is chosen: an
-- error that leaves the directory alone, or what the directory answers.
def scripted : Handler Op Op.Ans (List (Option StorageError) × World)
  | .fs _ _, (some err :: script, w) => (.error err, (script, w))
  | .fs root call, (none :: script, w) =>
      ((handle (.fs root call) w).1, (script, (handle (.fs root call) w).2))
  | .fs root call, ([], w) =>
      ((handle (.fs root call) w).1, ([], (handle (.fs root call) w).2))
  | op, (script, w) => ((handle op w).1, (script, (handle op w).2))

theorem run_scripted_answer {root : RootId} {call : FsCall} {w w' : World}
    {answer : Except StorageError call.Value}
    (h : (StoreM.fs root call).run handle w = (answer, w')) (script : List (Option StorageError))
    (hscript : ∀ err rest, script ≠ some err :: rest) :
    (StoreM.fs root call).run scripted (script, w) = (answer, (script.tail, w')) := by
  obtain ⟨rfl, rfl⟩ := Prod.mk.inj (h : handle (.fs root call) w = (answer, w')).symm
  match script with
  | [] => rfl
  | none :: rest => rfl
  | some err :: rest => exact absurd rfl (hscript err rest)

end World

namespace MultiStore

-- The directories, one after the other, whose own outcome is not an error.
def carriedOut : List RootId → List (Option StorageError) → List RootId
  | [], _ => []
  | _ :: rest, some _ :: script => carriedOut rest script
  | root :: rest, none :: script => root :: carriedOut rest script
  | root :: rest, [] => root :: carriedOut rest []

omit [Sha2] in
theorem carriedOut_answer (root : RootId) (rest : List RootId) (script : List (Option StorageError))
    (hscript : ∀ err rest, script ≠ some err :: rest) :
    carriedOut (root :: rest) script = root :: carriedOut rest script.tail := by
  match script with
  | [] => rfl
  | none :: _ => rfl
  | some err :: rest => exact absurd rfl (hscript err rest)

section

-- A delete on one directory, and the file that it takes away.
variable {g : RootId → StoreM Unit} {present : Contents → Option Unit}
variable {change : Contents → Contents}
variable (hidem : ∀ c, change (change c) = change c) (hgone : ∀ c, present (change c) = none)
variable (hanswer : ∀ root w script, (∀ err rest, script ≠ some err :: rest) → ∃ w' : World,
  (g root).run World.scripted (script, w) =
      (orNotFound (present (w.volumes root)), (script.tail, w')) ∧
    w'.volumes = w.volumes.onRoots [root] change)
variable (herror : ∀ root (w : World) err script,
  (g root).run World.scripted (some err :: script, w) = (.error err, (script, w)))

include hidem hgone hanswer herror

-- The fan-out of a delete, whatever each directory answers: the change happens
-- where it is carried out, and one directory that had the thing and let it go
-- decides for success.
theorem run_deleteFromAll_scripted (roots : List RootId) (script : List (Option StorageError))
    (deletedAny : Bool) (lastErr : Option StorageError) (w : World) : ∃ result script' w',
      (deleteFromAll g roots deletedAny lastErr).run World.scripted (script, w) =
        (result, (script', w')) ∧
      (result = .ok () ↔ deletedAny ∨
        ∃ root ∈ carriedOut roots script, (present (w.volumes root)).isSome) ∧
      w'.volumes = w.volumes.onRoots (carriedOut roots script) change := by
  induction roots generalizing script deletedAny lastErr w with
  | nil =>
      cases deletedAny with
      | true => exact ⟨.ok (), script, w, rfl, by simp, rfl⟩
      | false =>
          cases lastErr with
          | none => exact ⟨.error .notFound, script, w, rfl, by simp [carriedOut], rfl⟩
          | some err => exact ⟨.error err, script, w, rfl, by simp [carriedOut], rfl⟩
  | cons root rest ih =>
      rw [deleteFromAll]
      by_cases hscript : ∃ err script', script = some err :: script'
      · obtain ⟨err, script', rfl⟩ := hscript
        rw [run_attempt_bind (herror root w err script')]
        cases err with
        | notFound => exact ih script' deletedAny lastErr w
        | _ => exact ih script' deletedAny _ w
      · have hscript : ∀ err script', script ≠ some err :: script' :=
          fun err script' h => hscript ⟨err, script', h⟩
        obtain ⟨w₁, hrun, hvol⟩ := hanswer root w script hscript
        rw [run_attempt_bind hrun, carriedOut_answer root rest script hscript]
        have hrest : ∀ next : Bool,
            (next = true ↔ deletedAny ∨ (present (w.volumes root)).isSome) →
            ∃ result script' w', (deleteFromAll g rest next lastErr).run World.scripted
                (script.tail, w₁) = (result, (script', w')) ∧
              (result = .ok () ↔ deletedAny ∨ ∃ r ∈ root :: carriedOut rest script.tail,
                (present (w.volumes r)).isSome) ∧
              w'.volumes = w.volumes.onRoots (root :: carriedOut rest script.tail) change := by
          intro next hnext
          obtain ⟨result, script', w', hrun', hok, hvol'⟩ := ih script.tail next lastErr w₁
          refine ⟨result, script', w', hrun', ?_, ?_⟩
          · rw [hok, hnext, or_assoc, hvol, Volumes.exists_cons_of_onRoots present hgone]
          · rw [hvol', hvol, Volumes.onRoots_cons _ _ _ _ hidem]
        cases hp : present (w.volumes root) with
        | none => exact hrest deletedAny (by simp [hp])
        | some value => exact hrest true (by simp [hp])

end

-- Every directory that holds the thing carries its delete out, or none of those
-- that carry it out holds it.
def AllOrNone (roots : List RootId) (script : List (Option StorageError)) (held : RootId → Prop) :
    Prop :=
  (∀ root ∈ roots, held root → root ∈ carriedOut roots script) ∨
    ∀ root ∈ carriedOut roots script, ¬held root

omit [Sha2] in
-- Success comes with a complete removal exactly when the directories agree.
theorem allOrNone_iff {roots : List RootId} {script : List (Option StorageError)}
    {present : Contents → Option Unit} {change : Contents → Contents} {v : Volumes}
    (hgone : ∀ c, present (change c) = none) :
    ((∃ root ∈ carriedOut roots script, (present (v root)).isSome) →
      ∀ root ∈ roots, present (v.onRoots (carriedOut roots script) change root) = none) ↔
      AllOrNone roots script fun root => (present (v root)).isSome := by
  constructor
  · intro h
    by_cases hheld : ∃ root ∈ carriedOut roots script, (present (v root)).isSome
    · left
      intro root hr hp
      by_contra hnot
      have hnone := h hheld root hr
      rw [Volumes.onRoots_of_not_mem hnot] at hnone
      rw [hnone] at hp
      cases hp
    · right
      exact fun root hr hp => hheld ⟨root, hr, hp⟩
  · rintro (hall | hnone) ⟨root, hr, hp⟩ other ho
    · by_cases hm : other ∈ carriedOut roots script
      · rw [Volumes.onRoots_of_mem hm, hgone]
      · rw [Volumes.onRoots_of_not_mem hm]
        exact Option.not_isSome_iff_eq_none.mp fun hheld => hm (hall other ho hheld)
    · exact absurd hp (hnone root hr)

end MultiStore

namespace Backend

open MultiStore

variable (b : Backend) (script : List (Option StorageError)) (w : World)

theorem run_blobDelete_scripted (repo : String) (d : Digest) : ∃ result script' w',
    (b.storage.blobDelete repo d).run World.scripted (script, w) = (result, (script', w')) ∧
      (result = .ok () ↔ ∃ root ∈ carriedOut b.leaves script, ((w.volumes root).blob d).isSome) ∧
      w'.volumes = w.volumes.onRoots (carriedOut b.leaves script) fun c => c.setBlob d none := by
  have hdelete := @run_deleteFromAll_scripted _ (fun root => StoreM.fs root (.blobDelete d))
    (fun c => (c.blob d).map fun _ => ()) (fun c => c.setBlob d none)
    (fun c => Contents.setBlob_setBlob c d none none) (fun c => by simp [Contents.setBlob]) ?_
    (fun _ _ _ _ => rfl) b.leaves script false none w
  · obtain ⟨result, script', w', hrun, hok, hvol⟩ := hdelete
    refine ⟨result, script', w', ?_, ?_, hvol⟩
    · rw [b.blobDelete_flat]
      exact hrun
    · rw [hok]
      simp
  · intro root w script hscript
    obtain ⟨hanswer, hcontents⟩ := (w.roots root).blobDelete_eq d
    refine ⟨w.setRoot root ((w.roots root).blobDelete d).2, ?_, w.setRoot_volumes _ _ _ hcontents⟩
    apply World.run_scripted_answer _ script hscript
    rw [StoreM.run_fs]
    exact congrArg (·, _) hanswer

theorem run_manifestDelete_scripted (repo : RepoName) (reference : Reference) :
    ∃ result script' w', (b.storage.manifestDelete repo reference).run World.scripted (script, w) =
        (result, (script', w')) ∧
      (result = .ok () ↔ ∃ root ∈ carriedOut b.leaves script,
        ((w.volumes root).present repo reference).isSome) ∧
      w'.volumes = w.volumes.onRoots (carriedOut b.leaves script)
        fun c => c.delete repo reference := by
  have hdelete := @run_deleteFromAll_scripted _
    (fun root => StoreM.fs root (.manifestDelete repo reference))
    (fun c => c.present repo reference) (fun c => c.delete repo reference)
    (fun c => Contents.delete_delete c repo reference)
    (fun c => Contents.present_delete c repo reference) ?_
    (fun _ _ _ _ => rfl) b.leaves script false none w
  · obtain ⟨result, script', w', hrun, hok, hvol⟩ := hdelete
    refine ⟨result, script', w', ?_, ?_, hvol⟩
    · rw [b.manifestDelete_flat]
      exact hrun
    · rw [hok]
      simp
  · intro root w script hscript
    refine ⟨w.setRoot root ((w.roots root).manifestDelete repo reference).2, ?_,
      w.setRoot_volumes _ _ _ ((w.roots root).manifestDelete_contents repo reference)⟩
    apply World.run_scripted_answer _ script hscript
    rw [StoreM.run_fs]
    exact congrArg (·, _) ((w.roots root).manifestDelete_answer repo reference)

-- After success no directory has the blob, and a reader sees that.
def BlobDeleteComplete (repo : String) (d : Digest) : Prop :=
  ∀ script' w', (b.storage.blobDelete repo d).run World.scripted (script, w) =
      (.ok (), (script', w')) →
    (∀ root ∈ b.leaves, (w'.roots root).blobExists d = false) ∧
      (b.storage.blobExists repo d).run World.handle w' = (.ok false, w') ∧
      (b.storage.blobRead repo d).run World.handle w' = (.error .notFound, w')

-- After success no directory has the manifest or the tag, and a reader sees that.
def ManifestDeleteComplete (repo : RepoName) (reference : Reference) : Prop :=
  ∀ script' w', (b.storage.manifestDelete repo reference).run World.scripted (script, w) =
      (.ok (), (script', w')) →
    (∀ root ∈ b.leaves, (w'.volumes root).present repo reference = none) ∧
      (b.storage.manifestGet repo reference).run World.handle w' = (.error .notFound, w')

omit [Sha2] in
theorem read_eq_none_of_present {v : Volumes} {repo : RepoName} {reference : Reference}
    (h : ∀ root ∈ b.leaves, (v root).present repo reference = none) :
    b.read v repo reference = none := by
  apply Places.first_eq_none.mpr
  intro root hr
  have hpresent := h root ((b.mem_readOrder root).mp hr)
  cases reference with
  | digest d => exact Option.map_eq_none_iff.mp hpresent
  | tag tag =>
      have htag : (v root).tag repo tag = none := Option.map_eq_none_iff.mp hpresent
      simp only [Volumes.readAt, Contents.read_tag, htag, Option.bind_none]

theorem blobDeleteComplete_iff (repo : String) (d : Digest) :
    BlobDeleteComplete b script w repo d ↔
      AllOrNone b.leaves script fun root => (w.roots root).blobExists d := by
  obtain ⟨result, script', w', hrun, hok, hvol⟩ := run_blobDelete_scripted b script w repo d
  have hheld : ∀ (w : World) root, (w.roots root).blobExists d = ((w.volumes root).blob d).isSome :=
    fun w root => (w.roots root).blobExists_eq d
  have hiff := @allOrNone_iff b.leaves script (fun c => (c.blob d).map fun _ => ())
    (fun c => c.setBlob d none) w.volumes (fun c => by simp [Contents.setBlob])
  simp only [Option.isSome_map, Option.map_eq_none_iff] at hiff
  simp only [hheld, ← hiff, ← hvol, ← hok]
  unfold BlobDeleteComplete
  simp only [hheld, hrun, Prod.mk.injEq]
  constructor
  · intro h hresult root hr
    have hexists := (h script' w' ⟨hresult, rfl, rfl⟩).1 root hr
    exact Option.not_isSome_iff_eq_none.mp (by simp [hexists])
  · rintro h _ _ ⟨hresult, rfl, rfl⟩
    have hgone := h hresult
    have hblob : b.blob w'.volumes d = none := by
      apply Option.not_isSome_iff_eq_none.mp
      rw [b.blob_isSome]
      rintro ⟨root, hr, hsome⟩
      rw [hgone root hr] at hsome
      cases hsome
    refine ⟨fun root hr => by rw [hgone root hr]; rfl, ?_, ?_⟩
    · rw [b.run_blobExists, hblob]
      rfl
    · rw [b.run_blobRead, hblob]
      rfl

theorem manifestDeleteComplete_iff (repo : RepoName) (reference : Reference) :
    ManifestDeleteComplete b script w repo reference ↔
      AllOrNone b.leaves script fun root => ((w.volumes root).present repo reference).isSome := by
  obtain ⟨result, script', w', hrun, hok, hvol⟩ :=
    run_manifestDelete_scripted b script w repo reference
  have hiff := @allOrNone_iff b.leaves script (fun c => c.present repo reference)
    (fun c => c.delete repo reference) w.volumes
    (fun c => Contents.present_delete c repo reference)
  rw [← hiff, ← hvol, ← hok]
  unfold ManifestDeleteComplete
  simp only [hrun, Prod.mk.injEq]
  constructor
  · intro h hresult
    exact (h script' w' ⟨hresult, rfl, rfl⟩).1
  · rintro h _ _ ⟨hresult, rfl, rfl⟩
    refine ⟨h hresult, ?_⟩
    rw [b.run_manifestGet, b.read_eq_none_of_present (h hresult)]
    rfl

-- An acknowledged delete is complete exactly when no directory that still holds
-- the thing was outvoted by one that let it go.
theorem acknowledged_delete_complete_iff :
    (∀ repo d, BlobDeleteComplete b script w repo d ↔
      AllOrNone b.leaves script fun root => (w.roots root).blobExists d) ∧
    ∀ repo reference, ManifestDeleteComplete b script w repo reference ↔
      AllOrNone b.leaves script fun root => ((w.volumes root).present repo reference).isSome :=
  ⟨blobDeleteComplete_iff b script w, manifestDeleteComplete_iff b script w⟩

end Backend

end

section

attribute [local instance] Sample.sha2

-- The blob on a writable partition and on a read-only snapshot of it.
def mirrored : World where
  roots := fun _ => (FsStorage.new.blobWrite (hashContent .sha256 Sample.x) Sample.x).2
  router := .single (.fs 0 0)
  nextArc := 1
  arcs_allocated := Sample.arcs_one

def snapshotted : Backend := .multi 0 .nil "live" (.fs 1 0) (.cons "snapshot" (.fs 2 1) .nil)

theorem snapshotted_delete_incomplete :
    ¬snapshotted.BlobDeleteComplete [none, some .io] mirrored "data/x"
      (hashContent .sha256 Sample.x) := by
  intro h
  have hok : ((snapshotted.storage.blobDelete "data/x" (hashContent .sha256 Sample.x)).run
      World.scripted ([none, some .io], mirrored)).1 = .ok () := by decide
  have hheld : (((snapshotted.storage.blobDelete "data/x" (hashContent .sha256 Sample.x)).run
      World.scripted ([none, some .io], mirrored)).2.2.roots 1).blobExists
        (hashContent .sha256 Sample.x) = true := by decide
  have hgone := (h _ _ (Prod.ext hok rfl)).1 1 (by decide)
  exact Bool.noConfusion (hheld.symm.trans hgone)

end

end RspaceRegistry
