import RspaceRegistry.Backend.Run
import RspaceRegistry.Sample

namespace RspaceRegistry.MultiStore

open Calls Fallible

-- What a store has to say of one digest, and what a call tells of it.
inductive Presence
  | present
  | absent
  | failing
deriving DecidableEq

namespace Presence

def ofRead {α : Type} : Except StorageError α → Presence
  | .ok _ => .present
  | .error .notFound => .absent
  | .error _ => .failing

def ofExists : Except StorageError Bool → Presence
  | .ok true => .present
  | .ok false => .absent
  | .error _ => .failing

-- What the first store says that does not go on to the next.
def first : List Presence → Presence
  | [] => .absent
  | .absent :: rest => first rest
  | found :: _ => found

theorem first_cons_absent (rest : List Presence) : first (.absent :: rest) = first rest := rfl

theorem first_cons {found : Presence} (h : found ≠ .absent) (rest : List Presence) :
    first (found :: rest) = found := by
  cases found with
  | present => rfl
  | absent => exact absurd rfl h
  | failing => rfl

theorem first_append (before rest : List Presence) :
    first (before ++ rest) = if first before = .absent then first rest else first before := by
  induction before with
  | nil => rfl
  | cons found before ih =>
      by_cases h : found = .absent
      · rw [h, List.cons_append, first_cons_absent, first_cons_absent, ih]
      · rw [List.cons_append, first_cons h, first_cons h, if_neg h]

-- The order in which `blob_exists` asks against the order of a read.
theorem first_declared_iff (before : List Presence) (primary : Presence) (after : List Presence) :
    first (before ++ primary :: after) = first (primary :: (before ++ after)) ↔
      primary = .absent ∨ first before = .absent ∨ first before = primary := by
  by_cases hprimary : primary = .absent
  · rw [hprimary, first_append, first_cons_absent, first_cons_absent, first_append]
    simp only [true_or]
  · rw [first_append, first_cons hprimary, first_cons hprimary]
    by_cases hbefore : first before = .absent
    · simp only [hbefore, if_true, true_or, or_true]
    · simp only [hprimary, hbefore, if_false, false_or]

end Presence

section

variable {σ : Type} (handler : Handler Op Op.Ans σ) (s : σ) (repo : String) (d : Digest)

-- A child that answers all three calls from one state.
structure Shows (child : Storage) (state : Presence) : Prop where
  blobExists : ∃ answer, (child.blobExists repo d).run handler s = (answer, s) ∧
    Presence.ofExists answer = state
  blobSize : ∃ answer, (child.blobSize repo d).run handler s = (answer, s) ∧
    Presence.ofRead answer = state
  blobRead : ∃ answer, (child.blobRead repo d).run handler s = (answer, s) ∧
    Presence.ofRead answer = state

variable {handler s}

theorem run_fallThrough {α : Type} {first rest : StoreM α} {answer answer' : Except StorageError α}
    (h : first.run handler s = (answer, s)) (hrest : rest.run handler s = (answer', s)) :
    (fallThrough first rest).run handler s =
      (if Presence.ofRead answer = .absent then answer' else answer, s) := by
  rw [fallThrough, run_attempt_bind h]
  cases answer with
  | ok value => rfl
  | error err => cases err <;> first | exact hrest | rfl

theorem shows_readSecondaries {α : Type} {f : Storage → StoreM α} {children : List Storage}
    {states : List Presence} (h : List.Forall₂ (fun child state => ∃ answer,
      (f child).run handler s = (answer, s) ∧ Presence.ofRead answer = state) children states) :
    ∃ answer, (readSecondaries f children).run handler s = (answer, s) ∧
      Presence.ofRead answer = Presence.first states := by
  induction h with
  | nil => exact ⟨_, rfl, rfl⟩
  | @cons child state children states hhere _ ih =>
      obtain ⟨answer, hrun, hstate⟩ := hhere
      obtain ⟨answer', hrest, hfirst⟩ := ih
      refine ⟨_, run_fallThrough hrun hrest, ?_⟩
      rw [hstate]
      by_cases habsent : state = .absent
      · rw [if_pos habsent, hfirst, habsent, Presence.first_cons_absent]
      · rw [if_neg habsent, hstate, Presence.first_cons habsent]

theorem shows_readFallthrough {α : Type} {m : MultiStore} {f : Storage → StoreM α}
    {before after : List Presence} {primary : Presence}
    (h : List.Forall₂ (fun child state => ∃ answer, (f child).run handler s = (answer, s) ∧
      Presence.ofRead answer = state) (m.primary :: m.secondaries) (primary :: (before ++ after))) :
    ∃ answer, (m.readFallthrough f).run handler s = (answer, s) ∧
      Presence.ofRead answer = Presence.first (primary :: (before ++ after)) := by
  have hflat : m.readFallthrough f = readSecondaries f (m.primary :: m.secondaries) := rfl
  rw [hflat]
  exact shows_readSecondaries h

theorem shows_existsInAny {f : Storage → StoreM Bool} {children : List Storage}
    {states : List Presence} (h : List.Forall₂ (fun child state => ∃ answer,
      (f child).run handler s = (answer, s) ∧ Presence.ofExists answer = state) children states) :
    ∃ answer, (existsInAny f children).run handler s = (answer, s) ∧
      Presence.ofExists answer = Presence.first states := by
  induction h with
  | nil => exact ⟨_, rfl, rfl⟩
  | @cons child state children states hhere _ ih =>
      obtain ⟨answer, hrun, hstate⟩ := hhere
      obtain ⟨answer', hrest, hfirst⟩ := ih
      rw [existsInAny]
      cases answer with
      | error err =>
          refine ⟨.error err, run_bind_of_error hrun _, ?_⟩
          rw [← hstate]
          rfl
      | ok found =>
          rw [run_bind_of_ok hrun]
          cases found with
          | true =>
              refine ⟨.ok true, rfl, ?_⟩
              rw [← hstate]
              rfl
          | false =>
              refine ⟨answer', hrest, ?_⟩
              rw [hfirst, ← hstate]
              rfl

-- `blob_exists` and both reads tell the same of the digest.
def ExistsLikeReads (handler : Handler Op Op.Ans σ) (s : σ) (m : MultiStore) (repo : String)
    (d : Digest) : Prop :=
  Presence.ofExists ((m.storage.blobExists repo d).run handler s).1 =
      Presence.ofRead ((m.storage.blobRead repo d).run handler s).1 ∧
    Presence.ofExists ((m.storage.blobExists repo d).run handler s).1 =
      Presence.ofRead ((m.storage.blobSize repo d).run handler s).1

-- They agree unless a partition that is declared before the primary answers
-- first, and differently.
theorem exists_like_reads_iff {m : MultiStore} {before after : List Presence} {primary : Presence}
    (hbefore : List.Forall₂ (Shows handler s repo d) m.before before)
    (hprimary : Shows handler s repo d m.primary primary)
    (hafter : List.Forall₂ (Shows handler s repo d) m.after after) :
    ExistsLikeReads handler s m repo d ↔
      primary = .absent ∨ Presence.first before = .absent ∨ Presence.first before = primary := by
  have hdeclared := List.rel_append hbefore (List.Forall₂.cons hprimary hafter)
  have hread := List.Forall₂.cons hprimary (List.rel_append hbefore hafter)
  obtain ⟨found, hexists, hfound⟩ :=
    shows_existsInAny (hdeclared.imp fun _ _ hshows => hshows.blobExists)
  obtain ⟨content, hcontent, hpresent⟩ :=
    shows_readFallthrough (m := m) (hread.imp fun _ _ hshows => hshows.blobRead)
  obtain ⟨size, hsize, hmeasured⟩ :=
    shows_readFallthrough (m := m) (hread.imp fun _ _ hshows => hshows.blobSize)
  have hstore : ((m.storage.blobExists repo d).run handler s).1 = found := congrArg Prod.fst hexists
  have hstore' : ((m.storage.blobRead repo d).run handler s).1 = content :=
    congrArg Prod.fst hcontent
  have hstore'' : ((m.storage.blobSize repo d).run handler s).1 = size := congrArg Prod.fst hsize
  rw [ExistsLikeReads, hstore, hstore', hstore'', hfound, hpresent, hmeasured, and_self]
  exact Presence.first_declared_iff before primary after

end

section Directories

variable [Sha2] (w : World) (repo : String) (d : Digest)

-- A directory tells of its blobs, unless it is down.
def down (failing : RootId) : Handler Op Op.Ans World
  | .fs root call, w => if root = failing then (.error .io, w) else World.handle (.fs root call) w
  | op, w => World.handle op w

theorem run_down {root : RootId} {call : FsCall} (hread : (call.exec (w.roots root)).2 = w.roots root)
    (failing : RootId) : (StoreM.fs root call).run (down failing) w =
      (if root = failing then .error .io else (call.exec (w.roots root)).1, w) := by
  by_cases h : root = failing
  · have hdown : down failing (.fs root call) w = (.error .io, w) := if_pos h
    show ((down failing (.fs root call) w).1, (down failing (.fs root call) w).2) = _
    rw [hdown, if_pos h]
  · have hup : down failing (.fs root call) w = World.handle (.fs root call) w := if_neg h
    show ((down failing (.fs root call) w).1, (down failing (.fs root call) w).2) = _
    rw [hup, if_neg h]
    exact StoreM.run_read hread

theorem shows_directory (failing root : RootId) :
    Shows (down failing) w repo d (FsStorage.storage root)
      (if root = failing then .failing
        else if ((w.volumes root).blob d).isSome then .present else .absent) := by
  have hof : ∀ {α : Type} (value : Option α), Presence.ofRead (orNotFound value) =
      if value.isSome then .present else .absent := by
    intro α value
    cases value <;> rfl
  refine ⟨⟨_, run_down w rfl failing, ?_⟩, ⟨_, run_down w rfl failing, ?_⟩,
    ⟨_, run_down w rfl failing, ?_⟩⟩
  · by_cases h : root = failing
    · simp only [h, if_true]
      rfl
    · simp only [h, if_false, FsCall.exec, (w.roots root).blobExists_eq d]
      show _ = if ((w.roots root).contents.blob d).isSome then Presence.present else .absent
      cases ((w.roots root).contents.blob d).isSome <;> rfl
  · by_cases h : root = failing
    · simp only [h, if_true]
      rfl
    · simp only [h, if_false, FsCall.exec, (w.roots root).blobSize_eq d, hof, Option.isSome_map]
      rfl
  · by_cases h : root = failing
    · simp only [h, if_true]
      rfl
    · simp only [h, if_false, FsCall.exec, (w.roots root).blobRead_eq d, hof]
      rfl

end Directories

section

attribute [local instance] Sample.sha2

def digestX : Digest := hashContent .sha256 Sample.x

def heldX : World where
  roots := Sample.roots .new (FsStorage.new.blobWrite digestX Sample.x).2
  router := .single (.fs 0 0)
  nextArc := 1
  arcs_allocated := Sample.arcs_one

theorem empty_shows : Shows (down 2) heldX "data/x" digestX (FsStorage.storage 0) .absent := by
  have h := shows_directory heldX "data/x" digestX 2 0
  rwa [show (if (0 : RootId) = 2 then Presence.failing
    else if ((heldX.volumes 0).blob digestX).isSome then .present else .absent) = .absent by
      decide] at h

theorem held_shows (failing : RootId) (h : 1 ≠ failing) :
    Shows (down failing) heldX "data/x" digestX (FsStorage.storage 1) .present := by
  have hshows := shows_directory heldX "data/x" digestX failing 1
  rwa [if_neg h, if_pos (by decide)] at hshows

theorem down_shows : Shows (down 0) heldX "data/x" digestX (FsStorage.storage 0) .failing :=
  shows_directory heldX "data/x" digestX 0 0

theorem held_exists_like_reads :
    ExistsLikeReads (down 2) heldX ⟨[FsStorage.storage 0], FsStorage.storage 1, []⟩ "data/x" digestX :=
  (exists_like_reads_iff "data/x" digestX (.cons empty_shows .nil) (held_shows 2 (by decide))
    .nil).mpr (.inr (.inl rfl))

-- The partition in front of the primary fails, and the primary has the blob.
theorem down_partition_hides_blob :
    ¬∀ (handler : Handler Op Op.Ans World) (w : World) (m : MultiStore) (repo : String)
      (d : Digest) (before after : List Presence) (primary : Presence),
      List.Forall₂ (Shows handler w repo d) m.before before →
      Shows handler w repo d m.primary primary →
      List.Forall₂ (Shows handler w repo d) m.after after → ExistsLikeReads handler w m repo d := by
  intro hall
  have hagree := hall (down 0) heldX ⟨[FsStorage.storage 0], FsStorage.storage 1, []⟩ "data/x"
    digestX [.failing] [] .present (.cons down_shows .nil) (held_shows 0 (by decide)) .nil
  exact absurd hagree.1 (by decide)

end

end RspaceRegistry.MultiStore
