import Mathlib.Data.Finset.Card
import RspaceRegistry.Backend.Run
import RspaceRegistry.Replicate.Walk
import RspaceRegistry.Sample

namespace RspaceRegistry.Replicate

open Calls Fallible Ordered
open Migrate (Walked Reached blobReferences childReferences)

-- The walks over a store of manifests, whatever refers to what in it.

section

variable [SerdeJson]

section Walks

variable {σ : Type} (handler : Handler Op Op.Ans σ) (s : σ) (storage : Storage) (repo : RepoName)
variable (store : Digest → Option Bytes)

-- A storage whose manifests of one repository are those of the store.
def Answers : Prop :=
  ∀ d, (storage.manifestGet repo (.digest d)).run handler s = (orNotFound (store d), s)

-- The sets that earlier walks of the repository leave to the next one.
inductive Left : Walked → Prop
  | empty : Left .empty
  | walk {walked walked' : Walked} {root : Digest} {bytes : Bytes} (h : Left walked)
      (hroot : store root = some bytes)
      (hrun : (Migrate.walk storage repo root bytes walked).run handler s = (.ok walked', s)) :
      Left walked'

-- In the sets of a pass other repositories may have been walked before.
inductive LeftWanted : Wanted → Prop
  | empty {wanted : Wanted} (h : wanted.walkedIn repo = .empty) : LeftWanted wanted
  | walk {wanted wanted' : Wanted} {root : Digest} {bytes : Bytes} (h : LeftWanted wanted)
      (hroot : store root = some bytes)
      (hrun : (walkManifest storage repo root bytes wanted).run handler s = (.ok wanted', s)) :
      LeftWanted wanted'

end Walks

section Sets

variable (store : Digest → Option Bytes)

-- The manifests below a root, through the entries of the indexes that are stored.
def Below (root : Digest) : Digest → Prop := Reached (fun d bytes => store d = some bytes) (· = root)

-- What one walk adds to the sets: what is below its root, and the blobs of that.
structure Covers (root : Digest) (walked walked' : Walked) : Prop where
  manifests : ∀ d, d ∈ walked'.manifests ↔ d ∈ walked.manifests ∨ Below store root d
  blobs : ∀ b, b ∈ walked'.blobs ↔ b ∈ walked.blobs ∨
    ∃ d bytes, Below store root d ∧ store d = some bytes ∧ b ∈ blobReferences bytes

-- Every manifest that is marked has its blobs and its children marked, but for those that
-- are not stored.
def Complete (walked : Walked) : Prop :=
  ∀ d ∈ walked.manifests, ∃ bytes, store d = some bytes ∧
    (∀ b ∈ blobReferences bytes, b ∈ walked.blobs) ∧
    ∀ c ∈ childReferences bytes, c ∈ walked.manifests ∨ store c = none

-- How many stored manifests are not marked yet.
def unvisited (stored : Finset Digest) (walked : Walked) : Nat :=
  (stored.filter (· ∉ walked.manifests)).card

variable {store} {root : Digest} {walked walked' walked'' : Walked}

theorem Covers.unique (h : Covers store root walked walked') (h' : Covers store root walked walked'') :
    walked' = walked'' := by
  cases walked'
  cases walked''
  congr
  · exact BTreeSet.ext fun d => (h.manifests d).trans (h'.manifests d).symm
  · exact BTreeSet.ext fun b => (h.blobs b).trans (h'.blobs b).symm

theorem complete_empty : Complete store .empty := by
  intro d hd
  exact absurd hd (BTreeSet.not_mem_empty d)

omit [SerdeJson] in
theorem bounds_unvisited {stored : Finset Digest} (h : ∀ d, (store d).isSome → d ∈ stored) :
    Walked.Bounds (fun d bytes => store d = some bytes) (unvisited stored) where
  mono walked walked' hgrown := by
    apply Finset.card_le_card
    intro d hd
    rw [Finset.mem_filter] at hd ⊢
    exact ⟨hd.1, fun hmem => hd.2 (hgrown d hmem)⟩
  visit d bytes walked hread hvisited := by
    apply Finset.card_lt_card
    have hd : d ∈ stored := h d (by simp [hread])
    have hmarked : d ∈ (walked.visit d).manifests := (BTreeSet.mem_insert _ _ _).mpr (.inl rfl)
    rw [Finset.ssubset_iff_of_subset]
    · exact ⟨d, by simp [hd, hvisited], by simp [hmarked]⟩
    · intro e he
      rw [Finset.mem_filter] at he ⊢
      exact ⟨he.1, fun hmem => he.2 ((BTreeSet.mem_insert _ _ _).mpr (.inr hmem))⟩

end Sets

section Exact

variable {store : Digest → Option Bytes} {root : Digest} {bytes : Bytes}
variable {walked walked' : Walked}

-- What a walk extends is covered: the marks that it found were complete, so nothing below
-- a marked manifest is missing.
theorem covers_of_extends {Missing : Digest → Prop} (hcomplete : Complete store walked)
    (h : walked.Extends (fun d bytes => store d = some bytes) Missing (· = root) walked')
    (hmissing : ∀ d, Missing d → store d = none) (hroot : root ∈ walked'.manifests) :
    Complete store walked' ∧ Covers store root walked walked' := by
  have hafter : Complete store walked' := by
    intro d hd
    obtain hold | ⟨bytes, hread, hblobs, hchildren⟩ := h.complete d hd
    · obtain ⟨bytes, hread, hblobs, hchildren⟩ := hcomplete d hold
      exact ⟨bytes, hread, fun b hb => h.blobs b (hblobs b hb),
        fun c hc => (hchildren c hc).imp_left (h.manifests c)⟩
    · exact ⟨bytes, hread, hblobs, fun c hc => (hchildren c hc).imp_right (hmissing c)⟩
  have hbelow : ∀ d, Below store root d → d ∈ walked'.manifests := by
    intro d hd
    induction hd with
    | start hd _ => exact hd ▸ hroot
    | child _ hread hc hread' ih =>
        obtain ⟨bytes, hstored, -, hchildren⟩ := hafter _ ih
        obtain rfl := Option.some.inj (hread.symm.trans hstored)
        refine (hchildren _ hc).resolve_right ?_
        rw [hread']
        exact Option.some_ne_none _
  refine ⟨hafter, fun d => ⟨h.reached d, ?_⟩, fun b => ⟨h.sound b, ?_⟩⟩
  · intro hd
    exact hd.elim (h.manifests d) (hbelow d)
  · intro hb
    obtain hold | ⟨d, bytes, hd, hread, hb⟩ := hb
    · exact h.blobs b hold
    · obtain ⟨bytes', hread', hblobs, -⟩ := hafter d (hbelow d hd)
      obtain rfl := Option.some.inj (hread.symm.trans hread')
      exact hblobs b hb

variable {σ : Type} {handler : Handler Op Op.Ans σ} {s : σ} {storage : Storage} {repo : RepoName}
variable (hstore : Answers handler s storage repo store)

include hstore

-- With more steps than there are manifests left to mark, the recursion ends by itself.
theorem run_walkFrom {left : Walked → Nat}
    (hleft : Walked.Bounds (fun d bytes => store d = some bytes) left) (hroot : store root = some bytes)
    (hcomplete : Complete store walked) {steps : Nat} (hsteps : left walked < steps) :
    ∃ walked', (Migrate.walkFrom storage repo steps root bytes walked).run handler s =
      (.ok walked', s) ∧ Complete store walked' ∧ Covers store root walked walked' := by
  have hget : Migrate.ReadsWith handler.sem Eq unguarded storage repo
      (fun d bytes => store d = some bytes) (fun d err => store d = none ∧ err = .notFound)
      (· = s) := by
    rintro d s' rfl
    rw [wp_iff_run, hstore d]
    cases hread : store d <;> simp [hread]
  have hreached : Below store root root := .start rfl hroot
  have hwalk := Migrate.wp_walkFrom hget hleft steps root bytes walked s rfl hreached hroot hsteps
  rw [wp_iff_run] at hwalk
  generalize hrun : (Migrate.walkFrom storage repo steps root bytes walked).run handler s = result at *
  obtain ⟨err | walked', s'⟩ := result
  · obtain ⟨hne, ⟨_, _, herr⟩, _⟩ := hwalk
    exact absurd herr hne
  · obtain ⟨rfl, hextends, hmem⟩ := hwalk
    exact ⟨walked', rfl, covers_of_extends hcomplete hextends (fun _ h => h.1) hmem⟩

theorem run_walk (hroot : store root = some bytes) (hcomplete : Complete store walked) :
    ∃ walked', (Migrate.walk storage repo root bytes walked).run handler s = (.ok walked', s) ∧
      Complete store walked' ∧ Covers store root walked walked' :=
  run_walkFrom hstore (Walked.bounds_count _) hroot hcomplete (by omega)

theorem Left.complete (h : Left handler s storage repo store walked) : Complete store walked := by
  induction h with
  | empty => exact complete_empty
  | walk _ hroot hrun ih =>
      obtain ⟨walked', hrun', hcomplete, -⟩ := run_walk hstore hroot ih
      obtain rfl : _ = walked' := Except.ok.inj (congrArg Prod.fst (hrun.symm.trans hrun'))
      exact hcomplete

end Exact

section Pass

variable {store : Digest → Option Bytes} {root : Digest} {bytes : Bytes} {wanted : Wanted}
variable {σ : Type} {handler : Handler Op Op.Ans σ} {s : σ} {storage : Storage} {repo : RepoName}

-- A pass marks under the repository's key what a migration marks.
theorem run_replace {steps : Nat} {walked' : Walked}
    (h : (Migrate.walkFrom storage repo steps root bytes (wanted.walkedIn repo)).run handler s =
      (.ok walked', s)) :
    (walkFrom storage repo steps root bytes wanted).run handler s =
      (.ok (wanted.replace repo walked'), s) := by
  have hsame := walkFrom_replace storage repo wanted steps root bytes (wanted.walkedIn repo)
  rw [Wanted.replace_walkedIn] at hsame
  rw [hsame, run_bind_of_ok h]
  rfl

omit [SerdeJson] in
theorem digestsIn_replaceIn (set : BTreeSet Key) (digests : BTreeSet Digest) (other : RepoName) :
    digestsIn (replaceIn set repo digests) other =
      if other = repo then digests else digestsIn set other := by
  apply BTreeSet.ext
  intro d
  rw [mem_digestsIn, mem_replaceIn]
  split_ifs with hother <;> simp [hother, mem_digestsIn]

omit [SerdeJson] in
theorem walkedIn_replace (wanted : Wanted) (walked : Walked) (other : RepoName) :
    (wanted.replace repo walked).walkedIn other =
      if other = repo then walked else wanted.walkedIn other := by
  simp only [Wanted.walkedIn, Wanted.replace, digestsIn_replaceIn]
  split_ifs <;> rfl

variable (hstore : Answers handler s storage repo store)

include hstore

theorem LeftWanted.left (h : LeftWanted handler s storage repo store wanted) :
    Left handler s storage repo store (wanted.walkedIn repo) := by
  induction h with
  | empty h => exact h ▸ .empty
  | walk _ hroot hrun ih =>
      obtain ⟨walked', hrun', -, -⟩ := run_walk hstore hroot (ih.complete hstore)
      have hreplace := run_replace hrun'
      obtain rfl := Except.ok.inj (congrArg Prod.fst (hrun.symm.trans hreplace))
      rw [walkedIn_replace, if_pos rfl]
      exact .walk ih hroot hrun'

-- Both walks end and mark exactly what is below their root, also where manifests refer
-- back to each other and where some are marked already.
theorem walks_exact {stored : Finset Digest} (hfinite : ∀ d, (store d).isSome → d ∈ stored)
    (hroot : store root = some bytes) :
    (∀ walked, Left handler s storage repo store walked → ∃ walked',
      Covers store root walked walked' ∧
      (Migrate.walk storage repo root bytes walked).run handler s = (.ok walked', s) ∧
      ∀ steps, unvisited stored walked < steps →
        (Migrate.walkFrom storage repo steps root bytes walked).run handler s = (.ok walked', s)) ∧
    ∀ wanted, LeftWanted handler s storage repo store wanted → ∃ wanted',
      Covers store root (wanted.walkedIn repo) (wanted'.walkedIn repo) ∧
      (∀ other ≠ repo, wanted'.walkedIn other = wanted.walkedIn other) ∧
      wanted'.tags = wanted.tags ∧
      (walkManifest storage repo root bytes wanted).run handler s = (.ok wanted', s) ∧
      (∀ steps, unvisited stored (wanted.walkedIn repo) < steps →
        (walkFrom storage repo steps root bytes wanted).run handler s = (.ok wanted', s)) ∧
      (Migrate.walk storage repo root bytes (wanted.walkedIn repo)).run handler s =
        (.ok (wanted'.walkedIn repo), s) := by
  have hwalks : ∀ walked, Left handler s storage repo store walked → ∃ walked',
      Covers store root walked walked' ∧
      (Migrate.walk storage repo root bytes walked).run handler s = (.ok walked', s) ∧
      ∀ steps, unvisited stored walked < steps →
        (Migrate.walkFrom storage repo steps root bytes walked).run handler s =
          (.ok walked', s) := by
    intro walked h
    have hcomplete := h.complete hstore
    obtain ⟨walked', hrun, -, hcovers⟩ := run_walk hstore hroot hcomplete
    refine ⟨walked', hcovers, hrun, ?_⟩
    intro steps hsteps
    obtain ⟨walked'', hrun', -, hcovers'⟩ :=
      run_walkFrom hstore (bounds_unvisited hfinite) hroot hcomplete hsteps
    rwa [hcovers.unique hcovers']
  refine ⟨hwalks, ?_⟩
  intro wanted h
  obtain ⟨walked', hcovers, hrun, hsteps⟩ := hwalks _ (h.left hstore)
  refine ⟨wanted.replace repo walked', ?_, ?_, rfl, run_replace hrun,
    fun steps hmore => run_replace (hsteps steps hmore), ?_⟩
  · rwa [walkedIn_replace, if_pos rfl]
  · intro other hother
    rw [walkedIn_replace, if_neg hother]
  · rwa [walkedIn_replace, if_pos rfl]

end Pass

end

-- The manifests of a repository on a backend are such a store.
theorem answers_backend [Sha2] (b : Backend) (w : World) (repo : RepoName) :
    Answers World.handle w b.storage repo fun d => b.read w.volumes repo (.digest d) :=
  fun d => b.run_manifestGet w repo (.digest d)

theorem exists_stored [Sha2] (b : Backend) (w : World) (repo : RepoName) : ∃ stored : Finset Digest,
    ∀ d, (b.read w.volumes repo (.digest d)).isSome → d ∈ stored := by
  obtain ⟨digests, -, hmem⟩ := b.run_listManifestDigests w repo
  exact ⟨digests.toList.toFinset, fun d hd => List.mem_toFinset.mpr ((hmem d).mpr hd)⟩

section Sample

attribute [local instance] Sample.sha2 Sample.serdeJson

-- An image, an index of it, and an index of both in one repository.
def indexed : World where
  roots := Sample.roots (((FsStorage.new.manifestPut Sample.dataX (.tag Sample.v1)
    Sample.typed).2.manifestPut Sample.dataX (.tag Sample.v2) Sample.innerIndex).2.manifestPut
      Sample.dataX (.tag Sample.v1) Sample.outerIndex).2 .new
  router := .single (.fs 0 0)
  nextArc := 2
  arcs_allocated := Sample.arcs_two

theorem inner_children :
    childReferences Sample.innerIndex = [sha256Digest Sample.typed] := by decide +kernel

theorem outer_children : childReferences Sample.outerIndex =
    [sha256Digest Sample.innerIndex, sha256Digest Sample.typed] := by decide +kernel

theorem typed_blobs : blobReferences Sample.typed = [hashContent .sha256 Sample.x] := by
  decide +kernel

-- The walk of the outer index meets what the walk of the inner one has marked, and the
-- image that both of them name.
theorem walks_exact_stored : ∃ inner walked,
    (Migrate.walk (Backend.fs 0 0).storage Sample.dataX (sha256Digest Sample.innerIndex)
      Sample.innerIndex .empty).run World.handle indexed = (.ok inner, indexed) ∧
    (Migrate.walk (Backend.fs 0 0).storage Sample.dataX (sha256Digest Sample.outerIndex)
      Sample.outerIndex inner).run World.handle indexed = (.ok walked, indexed) ∧
    sha256Digest Sample.typed ∈ inner.manifests ∧
    sha256Digest Sample.outerIndex ∈ walked.manifests ∧
    sha256Digest Sample.typed ∈ walked.manifests ∧
    hashContent .sha256 Sample.x ∈ walked.blobs := by
  obtain ⟨stored, hfinite⟩ := exists_stored (.fs 0 0) indexed Sample.dataX
  have hread : ∀ bytes ∈ [Sample.typed, Sample.innerIndex, Sample.outerIndex],
      (Backend.fs 0 0).read indexed.volumes Sample.dataX (.digest (sha256Digest bytes)) =
        some bytes := by decide +kernel
  have htyped := hread Sample.typed (by simp)
  have hinner := hread Sample.innerIndex (by simp)
  have houter := hread Sample.outerIndex (by simp)
  obtain ⟨inner, hcovers, hrun, -⟩ :=
    (walks_exact (answers_backend _ _ _) hfinite hinner).1 .empty .empty
  obtain ⟨walked, hcovers', hrun', -⟩ :=
    (walks_exact (answers_backend _ _ _) hfinite houter).1 inner (.walk .empty hinner hrun)
  have hbelow : Below (fun d => (Backend.fs 0 0).read indexed.volumes Sample.dataX (.digest d))
      (sha256Digest Sample.outerIndex) (sha256Digest Sample.typed) :=
    .child (.start rfl houter) houter (by simp [outer_children]) htyped
  refine ⟨inner, walked, hrun, hrun', (hcovers.manifests _).mpr (.inr ?_),
    (hcovers'.manifests _).mpr (.inr (.start rfl houter)),
    (hcovers'.manifests _).mpr (.inr hbelow),
    (hcovers'.blobs _).mpr (.inr ⟨_, _, hbelow, htyped, by simp [typed_blobs]⟩)⟩
  exact .child (.start rfl hinner) hinner (by simp [inner_children]) htyped

end Sample

end RspaceRegistry.Replicate
