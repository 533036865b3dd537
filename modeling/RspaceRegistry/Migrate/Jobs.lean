import RspaceRegistry.Backend.Uses
import RspaceRegistry.Calls.Condition
import RspaceRegistry.Migrate
import RspaceRegistry.RepoRouter.Theorems
import RspaceRegistry.World.Effect
import RspaceRegistry.World.Recorded

namespace RspaceRegistry

open Calls Fallible

-- Whatever could be read of a repository still can be.
def Contents.GrownIn (repo : RepoName) (c c' : Contents) : Prop :=
  ∀ reference, (c.read repo reference).isSome → (c'.read repo reference).isSome

def Contents.Grown (c c' : Contents) : Prop := ∀ repo, c.GrownIn repo c'

namespace Contents

theorem GrownIn.refl (repo : RepoName) (c : Contents) : c.GrownIn repo c := fun _ => id

theorem GrownIn.trans {repo : RepoName} {c c' c'' : Contents} (h : c.GrownIn repo c')
    (h' : c'.GrownIn repo c'') : c.GrownIn repo c'' :=
  fun reference hread => h' reference (h reference hread)

theorem Grown.refl (c : Contents) : c.Grown c := fun repo => .refl repo c

theorem Grown.trans {c c' c'' : Contents} (h : c.Grown c') (h' : c'.Grown c'') : c.Grown c'' :=
  fun repo => (h repo).trans (h' repo)

-- A call that deletes nothing of the repository which could be read.
theorem grownIn_of_effect [Sha2] {call : FsCall} {c c' : Contents} (h : Effect call c c')
    {repo : RepoName} (hdelete : ∀ reference, call = .manifestDelete repo reference →
      c.read repo reference = none) : c.GrownIn repo c' := by
  have hmanifest : ∀ d, (c.manifest repo d).isSome → (c'.manifest repo d).isSome := by
    intro d hd
    apply h.manifest_kept _ hd
    intro hcall
    have hnone : c.manifest repo d = none := hdelete (.digest d) hcall
    rw [hnone] at hd
    cases hd
  intro reference hread
  cases reference with
  | digest d => exact hmanifest d hread
  | tag t =>
      obtain ⟨bytes, hbytes⟩ := Option.isSome_iff_exists.mp hread
      obtain ⟨d, htag, hd⟩ := (c.read_eq_some repo (.tag t) bytes).mp hbytes
      have hkept := hmanifest d (Option.isSome_iff_exists.mpr ⟨bytes, hd⟩)
      have hsame : c'.tag repo t = c.tag repo t → (c'.read repo (.tag t)).isSome := by
        intro heq
        rw [read_tag, heq, show c.tag repo t = some d from htag]
        exact hkept
      rcases h.tag_after repo t with heq | ⟨content, rfl, _⟩ | ⟨hcall, _⟩
      · exact hsame heq
      · cases h with
        | same => exact hsame rfl
        | directory => exact hsame rfl
        | manifest => exact hsame (by simp [put_tag])
        | put =>
            rw [read_tag, put_tag, if_pos ⟨rfl, rfl⟩, Option.bind_some, put_manifest,
              if_pos ⟨rfl, rfl⟩]
            rfl
      · rw [hdelete (.tag t) hcall] at hread
        cases hread

end Contents

theorem Backend.read_grown {b : Backend} {v v' : Volumes} {repo : RepoName}
    (h : ∀ root ∈ b.leaves, (v root).GrownIn repo (v' root)) {reference : Reference}
    (hread : (b.read v repo reference).isSome) : (b.read v' repo reference).isSome := by
  obtain ⟨root, hroot, hat⟩ := (b.read_isSome v repo reference).mp hread
  exact (b.read_isSome v' repo reference).mpr ⟨root, hroot, h root hroot reference hat⟩

namespace Migrate.Concurrent

-- Migrations of one pattern that run at the same time.
structure Job where
  newBackend : Backend
  drain : Bool

variable [Sha2] {ι : Type}

section

variable (pattern : String) (jobs : ι → Job)

-- A migration that has read the rule and has not cut over to its new backend.
structure UnderWay (i : ι) (old : Backend) (s : History ι) : Prop where
  moves : old ≠ (jobs i).newBackend
  read : Did i s (.backendForPattern pattern) (some old)
  ahead : ∀ added, ¬Did i s (.upsert pattern (jobs i).newBackend) added

-- The directories that such a migration reads or fills.
def UsedBy (i : ι) (s : History ι) (root : RootId) : Prop :=
  ∃ old, UnderWay pattern jobs i old s ∧
    (root ∈ old.leaves ∨ root ∈ (jobs i).newBackend.leaves)

def InUse (s : History ι) (root : RootId) : Prop :=
  (∃ b, s.1.router.backendForPattern pattern = some b ∧ root ∈ b.leaves) ∨
    ∃ i, UsedBy pattern jobs i s root

-- A migration leaves out a repository only if its new backend has all of it, and a
-- drain deletes nothing that can be read in a directory in use, nor in one that the
-- repository's own route reads (it may be claimed by a longer rule).
def Met : Condition ι Op Op.Ans World
  | i, .backendFor key, s => ∀ repo : RepoName, repo.text = key →
      s.1.router.RoutedBy pattern key → ∀ old, UnderWay pattern jobs i old s →
        s.1.router.resolve key = old ∨ ∀ reference,
          (old.read s.1.volumes repo reference).isSome →
            ((jobs i).newBackend.read s.1.volumes repo reference).isSome
  | _, .fs root (.manifestDelete repo reference), s =>
      ((s.1.volumes root).read repo reference).isSome →
        ¬InUse pattern jobs s root ∧ root ∉ (s.1.router.resolve repo.text).leaves
  | _, _, _ => True

end

variable {pattern : String} {jobs : ι → Job} {w₀ : World}

theorem underWay_congr {i : ι} {old : Backend} {s s' : History ι}
    (h : ∀ op answer, Did i s' op answer ↔ Did i s op answer) :
    UnderWay pattern jobs i old s' ↔ UnderWay pattern jobs i old s := by
  constructor
  · rintro ⟨hmoves, hread, hahead⟩
    exact ⟨hmoves, (h _ _).mp hread, fun added hd => hahead added ((h _ _).mpr hd)⟩
  · rintro ⟨hmoves, hread, hahead⟩
    exact ⟨hmoves, (h _ _).mpr hread, fun added hd => hahead added ((h _ _).mp hd)⟩

-- A text that was stored in the repository from the start.
def Stocked (w₀ : World) (repo : RepoName) (bytes : Bytes) : Prop :=
  ∃ root, (w₀.volumes root).manifest repo (sha256Digest bytes) = some bytes

-- A backend with everything that the rule's clients could read at the start.
def Carries (pattern : String) (w₀ : World) (b : Backend) (v : Volumes) : Prop :=
  ∀ repo : RepoName, w₀.router.RoutedBy pattern repo.text → ∀ reference,
    ((w₀.router.resolve repo.text).read w₀.volumes repo reference).isSome →
      (b.read v repo reference).isSome

theorem Carries.grown {b : Backend} {v v' : Volumes} (h : Carries pattern w₀ b v)
    (hgrown : ∀ root ∈ b.leaves, (v root).Grown (v' root)) : Carries pattern w₀ b v' :=
  fun repo hrepo reference hread =>
    Backend.read_grown (fun root hroot => hgrown root hroot repo) (h repo hrepo reference hread)

-- A repository that the rule does not serve: where it is looked up stays, and what
-- could be read there can be.
structure Apart (w₀ w : World) (repo : RepoName) : Prop where
  resolve : w.router.resolve repo.text = w₀.router.resolve repo.text
  kept : ∀ reference, ((w₀.router.resolve repo.text).read w₀.volumes repo reference).isSome →
    ((w₀.router.resolve repo.text).read w.volumes repo reference).isSome

theorem Apart.grown {w w' : World} {repo : RepoName} (h : Apart w₀ w repo)
    (hresolve : w'.router.resolve repo.text = w.router.resolve repo.text)
    (hgrown : ∀ root ∈ (w.router.resolve repo.text).leaves,
      (w.volumes root).GrownIn repo (w'.volumes root)) : Apart w₀ w' repo where
  resolve := hresolve.trans h.resolve
  kept reference hread := Backend.read_grown (h.resolve ▸ hgrown) (h.kept reference hread)

-- What holds at every point of the migrations.
structure Safe (pattern : String) (w₀ w : World) : Prop where
  key : w.router.keyIndex pattern = w₀.router.keyIndex pattern
  routed : ∀ repo : RepoName,
    w.router.RoutedBy pattern repo.text ↔ w₀.router.RoutedBy pattern repo.text
  stocked : ∀ root repo d bytes, (w.volumes root).manifest repo d = some bytes →
    Stocked w₀ repo bytes
  carries : ∀ b, w.router.backendForPattern pattern = some b → Carries pattern w₀ b w.volumes
  apart : ∀ repo : RepoName, ¬w.router.RoutedThrough pattern repo.text → Apart w₀ w repo

theorem safe_start (pattern : String) (w₀ : World) : Safe pattern w₀ w₀ where
  key := rfl
  routed _ := Iff.rfl
  stocked := by
    intro root repo d bytes hd
    have haddr := (w₀.volumes_wellFormed root).manifest_addressed repo d bytes hd
    exact ⟨root, haddr ▸ hd⟩
  carries := by
    intro b hb repo hrepo reference hread
    rw [← w₀.router.resolve_of_routedThrough hb (w₀.router.routedThrough_of_routedBy hrepo)]
    exact hread
  apart _ _ := ⟨rfl, fun _ => id⟩

-- What each call of a migration promises to the others.
structure Promise (pattern : String) (jobs : ι → Job) (w₀ : World) (s s' : History ι) : Prop where
  safe : Safe pattern w₀ s.1 → Safe pattern w₀ s'.1
  grown : ∀ root, InUse pattern jobs s root → (s.1.volumes root).Grown (s'.1.volumes root)

-- What a migration relies on.
structure Rely (pattern : String) (jobs : ι → Job) (w₀ : World) (i : ι) (s s' : History ι) :
    Prop where
  record : ∀ op answer, Did i s' op answer ↔ Did i s op answer
  safe : Safe pattern w₀ s.1 → Safe pattern w₀ s'.1
  grown : ∀ root, UsedBy pattern jobs i s root → (s.1.volumes root).Grown (s'.1.volumes root)

theorem Rely.refl (i : ι) (s : History ι) : Rely pattern jobs w₀ i s s :=
  ⟨fun _ _ => Iff.rfl, id, fun _ _ => .refl _⟩

theorem Rely.trans {i : ι} {s₁ s₂ s₃ : History ι} (h : Rely pattern jobs w₀ i s₁ s₂)
    (h' : Rely pattern jobs w₀ i s₂ s₃) : Rely pattern jobs w₀ i s₁ s₃ where
  record op answer := (h'.record op answer).trans (h.record op answer)
  safe hs := h'.safe (h.safe hs)
  grown := by
    rintro root ⟨old, hway, hroot⟩
    refine (h.grown root ⟨old, hway, hroot⟩).trans (h'.grown root ⟨old, ?_, hroot⟩)
    exact (underWay_congr h.record).mpr hway

theorem Rely.of_promise {i j : ι} (hij : i ≠ j) {op : Op} {answer : op.Ans} {s s' : History ι}
    (hs : Sem.record World.handle.sem j op s answer s') (h : Promise pattern jobs w₀ s s') :
    Rely pattern jobs w₀ i s s' where
  record _ _ := did_of_other hij hs
  safe := h.safe
  grown root hroot := h.grown root (.inr ⟨i, hroot⟩)

-- Calls that put nothing anywhere: no manifest, and no backend behind a rule.
def Quiet : Op → Prop
  | .fs _ (.manifestPut _ _ _) => False
  | .upsert _ _ => False
  | _ => True

-- The calls of one migration.
abbrev within (pattern : String) (jobs : ι → Job) (i : ι) : Sem Op Op.Ans (History ι) :=
  Sem.within World.handle.sem (Met pattern jobs) i

section Call

variable {i : ι} {op : Op} {s s' : History ι} {answer : op.Ans}

theorem promise_of_grown (hop : ∀ key b, op ≠ .upsert key b)
    (hs : Sem.record World.handle.sem i op s answer s')
    (hstocked : Safe pattern w₀ s.1 → ∀ root repo d bytes,
      (s'.1.volumes root).manifest repo d = some bytes → Stocked w₀ repo bytes)
    (hgrown : ∀ root, InUse pattern jobs s root → (s.1.volumes root).Grown (s'.1.volumes root))
    (hread : ∀ repo : RepoName, ∀ root ∈ (s.1.router.resolve repo.text).leaves,
      (s.1.volumes root).GrownIn repo (s'.1.volumes root)) :
    Promise pattern jobs w₀ s s' where
  safe := by
    intro hsafe
    have hrouter : s'.1.router = s.1.router :=
      World.router_of_faulty hop (World.faulty_of_handle _ _ _ _ hs.1)
    refine ⟨?_, ?_, hstocked hsafe, ?_, ?_⟩
    · rw [hrouter]
      exact hsafe.key
    · rw [hrouter]
      exact hsafe.routed
    · rw [hrouter]
      intro b hb
      exact (hsafe.carries b hb).grown fun root hroot => hgrown root (.inl ⟨b, hb, hroot⟩)
    · rw [hrouter]
      intro repo hrepo
      exact (hsafe.apart repo hrepo).grown (by rw [hrouter]) (hread repo)
  grown := hgrown

theorem promise_of_quiet (hop : Quiet op) (hs : within pattern jobs i op s answer s') :
    Promise pattern jobs w₀ s s' := by
  obtain ⟨hmet, hs⟩ := hs
  have heffect := World.effect_of_faulty (World.faulty_of_handle _ _ _ _ hs.1)
  have hne : ∀ key b, op ≠ .upsert key b := by
    rintro key b rfl
    exact hop
  have hkept : ∀ root repo, (∀ reference, op = .fs root (.manifestDelete repo reference) →
      ¬((s.1.volumes root).read repo reference).isSome) →
        (s.1.volumes root).GrownIn repo (s'.1.volumes root) := by
    intro root repo hdelete
    rcases heffect root with hsame | ⟨call, rfl, h⟩
    · rw [hsame]
      exact .refl _ _
    · apply Contents.grownIn_of_effect h
      rintro reference rfl
      exact Option.not_isSome_iff_eq_none.mp (hdelete reference rfl)
  apply promise_of_grown hne hs
  · intro hsafe root repo d bytes hd
    rcases heffect root with hsame | ⟨call, rfl, h⟩
    · exact hsafe.stocked root repo d bytes (hsame ▸ hd)
    · rcases h.manifest_new hd with hold | ⟨reference, _, rfl⟩
      · exact hsafe.stocked root repo d bytes hold
      · exact hop.elim
  · intro root hroot repo
    refine hkept root repo fun reference hcall hsome => ?_
    subst hcall
    exact (hmet hsome).1 hroot
  · intro repo root hroot
    refine hkept root repo fun reference hcall hsome => ?_
    subst hcall
    exact (hmet hsome).2 hroot

-- A put of a text that was in the repository from the start.
theorem promise_of_put {root : RootId} {repo : RepoName} {reference : Reference} {bytes : Bytes}
    {answer : Except StorageError Digest} (hstocked : Stocked w₀ repo bytes)
    (hs : within pattern jobs i (.fs root (.manifestPut repo reference bytes)) s answer s') :
    Promise pattern jobs w₀ s s' := by
  have heffect := World.effect_of_faulty (World.faulty_of_handle _ _ _ _ hs.2.1)
  have hne : ∀ key b, Op.fs root (.manifestPut repo reference bytes) ≠ .upsert key b := by
    intro key b h
    cases h
  have hgrown : ∀ p, (s.1.volumes p).Grown (s'.1.volumes p) := by
    intro p r
    rcases heffect p with hsame | ⟨call, hcall, h⟩
    · rw [hsame]
      exact .refl _ _
    · cases hcall
      exact Contents.grownIn_of_effect h fun _ hdelete => (by cases hdelete)
  apply promise_of_grown hne hs.2
  · intro hsafe p r d content hd
    rcases heffect p with hsame | ⟨call, hcall, h⟩
    · exact hsafe.stocked p r d content (hsame ▸ hd)
    · rcases h.manifest_new hd with hold | ⟨reference', _, rfl⟩
      · exact hsafe.stocked p r d content hold
      · cases hcall
        exact hstocked
  · exact fun p _ => hgrown p
  · exact fun r p _ => hgrown p r

-- A change of the rule.
theorem promise_of_upsert {b : Backend} {answer : Bool} {k : Nat}
    (hkey : w₀.router.keyIndex pattern = some k) (hb : Carries pattern w₀ b s.1.volumes)
    (hs : within pattern jobs i (.upsert pattern b) s answer s') :
    Promise pattern jobs w₀ s s' := by
  have hworld : s'.1 = s.1.upsert pattern b := (Prod.mk.inj hs.2.1).2.symm
  have hvolumes : s'.1.volumes = s.1.volumes := by
    rw [hworld]
    rfl
  have hrouter : s'.1.router = (s.1.router.upsert pattern b).2 := by
    rw [hworld]
    rfl
  constructor
  · intro hsafe
    have hkey' := hsafe.key.trans hkey
    constructor
    · rw [hrouter, RepoRouter.keyIndex_upsert hkey']
      exact hsafe.key
    · intro repo
      rw [hrouter, RepoRouter.routedBy_upsert hkey']
      exact hsafe.routed repo
    · rw [hvolumes]
      exact hsafe.stocked
    · intro b' hb'
      rw [hrouter, RepoRouter.backendForPattern_upsert hkey'] at hb'
      obtain rfl := Option.some.inj hb'
      rw [hvolumes]
      exact hb
    · intro repo hrepo
      rw [hrouter, RepoRouter.routedThrough_upsert hkey'] at hrepo
      refine (hsafe.apart repo hrepo).grown ?_ ?_
      · rw [hrouter, RepoRouter.resolve_upsert_other hkey' hrepo]
      · intro root _
        rw [hvolumes]
        exact .refl _ _
  · intro root _
    rw [hvolumes]
    exact .refl _

end Call

end Migrate.Concurrent

end RspaceRegistry
