import RspaceRegistry.RepoRouter
import RspaceRegistry.Disk.Listing

namespace RspaceRegistry.Stores

open Calls Disk Ordered

-- The adapters over any state and any children: what they make of the answers of
-- the stores below.

-- A call of the `Storage` trait that was given its arguments.
abbrev Method (σ α : Type) : Type := σ → Except StorageError α × σ

section Multi

variable {σ α : Type}

-- Only `NotFound` goes on to the next.
def readFallthrough : List (Method σ α) → Method σ α
  | [], s => (.error .notFound, s)
  | first :: rest, s =>
      match first s with
      | (.error .notFound, s) => readFallthrough rest s
      | (answer, s) => (answer, s)

def existsInAny : List (Method σ Bool) → Method σ Bool
  | [], s => (.ok false, s)
  | first :: rest, s =>
      match first s with
      | (.ok false, s) => existsInAny rest s
      | (answer, s) => (answer, s)

def deleteFromAll : List (Method σ Unit) → Bool → Option StorageError → Method σ Unit
  | [], true, _, s => (.ok (), s)
  | [], false, some err, s => (.error err, s)
  | [], false, none, s => (.error .notFound, s)
  | first :: rest, deletedAny, lastErr, s =>
      match first s with
      | (.ok _, s) => deleteFromAll rest true lastErr s
      | (.error .notFound, s) => deleteFromAll rest deletedAny lastErr s
      | (.error err, s) => deleteFromAll rest deletedAny (some err) s

def unionInto [LinearOrder α] : List (Method σ (BTreeSet α)) → BTreeSet α → Method σ (BTreeSet α)
  | [], set, s => (.ok set, s)
  | first :: rest, set, s =>
      match first s with
      | (.ok values, s) => unionInto rest (set.extend values.toList) s
      | (.error err, s) => (.error err, s)

def listUnion [LinearOrder α] (methods : List (Method σ (BTreeSet α))) : Method σ (BTreeSet α) :=
  unionInto methods .empty

-- One call on each of the stores.
def each (op : StoreOp) (stores : List (Store σ)) : List (Method σ op.Value) :=
  stores.map fun store => store op

-- Reads start at the primary, deletes and listings go through all partitions in
-- their order, and all else is for the primary.
def multiStore (before : List (Store σ)) (primary : Store σ) (after : List (Store σ)) : Store σ
  | .request (.blobExists repo d) =>
      existsInAny (each (.request (.blobExists repo d)) (before ++ primary :: after))
  | .blobSize repo d =>
      readFallthrough (each (.blobSize repo d) (primary :: (before ++ after)))
  | .request (.blobRead repo d) =>
      readFallthrough (each (.request (.blobRead repo d)) (primary :: (before ++ after)))
  | .request (.manifestGet repo reference) =>
      readFallthrough (each (.request (.manifestGet repo reference)) (primary :: (before ++ after)))
  | .request (.blobDelete repo d) => deleteFromAll
      (each (.request (.blobDelete repo d)) (before ++ primary :: after)) false none
  | .request (.manifestDelete repo reference) => deleteFromAll
      (each (.request (.manifestDelete repo reference)) (before ++ primary :: after)) false none
  | .request .listRepos =>
      listUnion (each (.request .listRepos) (before ++ primary :: after))
  | .request (.listTags repo) =>
      listUnion (each (.request (.listTags repo)) (before ++ primary :: after))
  | .request (.listManifestDigests repo) =>
      listUnion (each (.request (.listManifestDigests repo)) (before ++ primary :: after))
  | .listAllBlobs => listUnion (each .listAllBlobs (before ++ primary :: after))
  | op => primary op

end Multi

end Stores

mutual

-- The methods behind a handle, over the directories.
def Backend.serve {σ : Type} (disk : RootId → Disk.Store σ) : Backend → Disk.Store σ
  | .fs _ root => disk root
  | .multi _ before _ primary after =>
      Stores.multiStore (before.serves disk) (primary.serve disk) (after.serves disk)

def Partitions.serves {σ : Type} (disk : RootId → Disk.Store σ) : Partitions → List (Disk.Store σ)
  | .nil => []
  | .cons _ storage rest => storage.serve disk :: rest.serves disk

end

-- The repository that a call names.
def Disk.StoreOp.repo : Disk.StoreOp → Option String
  | .request op => op.repo
  | .blobSize repo _ => some repo
  | .listAllBlobs => none

-- Two listings go through every backend; the other calls name a repository.
def RepoRouter.serve {σ : Type} (disk : RootId → Disk.Store σ) (router : RepoRouter) : Disk.Store σ
  | .request .listRepos =>
      Stores.listUnion (Stores.each (.request .listRepos)
        (router.distinctBackends.map (·.serve disk)))
  | .listAllBlobs =>
      Stores.listUnion (Stores.each .listAllBlobs (router.distinctBackends.map (·.serve disk)))
  | op => (router.resolve (op.repo.getD "")).serve disk op

namespace Stores

open Calls Disk Ordered

section Steps

variable {σ α : Type} {inv : σ → Prop} {rel : σ → σ → Prop}

-- From a state of the invariant a method leads to another such, related to it.
def Steps (inv : σ → Prop) (rel : σ → σ → Prop) (method : Method σ α) : Prop :=
  ∀ s, inv s → inv (method s).2 ∧ rel s (method s).2

variable (hrefl : ∀ s, rel s s) (htrans : ∀ s s' s'', rel s s' → rel s' s'' → rel s s'')

include hrefl htrans

theorem steps_readFallthrough {methods : List (Method σ α)}
    (h : ∀ method ∈ methods, Steps inv rel method) : Steps inv rel (readFallthrough methods) := by
  induction methods with
  | nil => exact fun s hs => ⟨hs, hrefl s⟩
  | cons first rest ih =>
      intro s hs
      obtain ⟨hinv, hrel⟩ := h first List.mem_cons_self s hs
      rw [readFallthrough]
      split
      · rename_i mid hfirst
        rw [hfirst] at hinv hrel
        obtain ⟨hinv', hrel'⟩ := ih (fun method hm => h method (List.mem_cons_of_mem _ hm)) mid hinv
        exact ⟨hinv', htrans _ _ _ hrel hrel'⟩
      · rename_i answer mid _ hfirst
        rw [hfirst] at hinv hrel
        exact ⟨hinv, hrel⟩

theorem steps_existsInAny {methods : List (Method σ Bool)}
    (h : ∀ method ∈ methods, Steps inv rel method) : Steps inv rel (existsInAny methods) := by
  induction methods with
  | nil => exact fun s hs => ⟨hs, hrefl s⟩
  | cons first rest ih =>
      intro s hs
      obtain ⟨hinv, hrel⟩ := h first List.mem_cons_self s hs
      rw [existsInAny]
      split
      · rename_i mid hfirst
        rw [hfirst] at hinv hrel
        obtain ⟨hinv', hrel'⟩ := ih (fun method hm => h method (List.mem_cons_of_mem _ hm)) mid hinv
        exact ⟨hinv', htrans _ _ _ hrel hrel'⟩
      · rename_i answer mid _ hfirst
        rw [hfirst] at hinv hrel
        exact ⟨hinv, hrel⟩

theorem steps_deleteFromAll {methods : List (Method σ Unit)}
    (h : ∀ method ∈ methods, Steps inv rel method) (deletedAny : Bool)
    (lastErr : Option StorageError) : Steps inv rel (deleteFromAll methods deletedAny lastErr) := by
  induction methods generalizing deletedAny lastErr with
  | nil =>
      intro s hs
      cases deletedAny <;> cases lastErr <;> exact ⟨hs, hrefl s⟩
  | cons first rest ih =>
      intro s hs
      obtain ⟨hinv, hrel⟩ := h first List.mem_cons_self s hs
      have hrest := fun deletedAny lastErr =>
        ih (fun method hm => h method (List.mem_cons_of_mem _ hm)) deletedAny lastErr
          (first s).2 hinv
      have hgoal : ∀ deletedAny lastErr,
          inv (deleteFromAll rest deletedAny lastErr (first s).2).2 ∧
            rel s (deleteFromAll rest deletedAny lastErr (first s).2).2 :=
        fun deletedAny lastErr => (hrest deletedAny lastErr).imp_right (htrans _ _ _ hrel)
      rw [deleteFromAll]
      split
      · rename_i mid hfirst
        rw [hfirst] at hgoal
        exact hgoal true lastErr
      · rename_i mid hfirst
        rw [hfirst] at hgoal
        exact hgoal deletedAny lastErr
      · rename_i err mid _ hfirst
        rw [hfirst] at hgoal
        exact hgoal deletedAny (some err)

theorem steps_unionInto [LinearOrder α] {methods : List (Method σ (BTreeSet α))}
    (h : ∀ method ∈ methods, Steps inv rel method) (set : BTreeSet α) :
    Steps inv rel (unionInto methods set) := by
  induction methods generalizing set with
  | nil => exact fun s hs => ⟨hs, hrefl s⟩
  | cons first rest ih =>
      intro s hs
      obtain ⟨hinv, hrel⟩ := h first List.mem_cons_self s hs
      rw [unionInto]
      split
      · rename_i values mid hfirst
        rw [hfirst] at hinv hrel
        obtain ⟨hinv', hrel'⟩ :=
          ih (fun method hm => h method (List.mem_cons_of_mem _ hm)) _ mid hinv
        exact ⟨hinv', htrans _ _ _ hrel hrel'⟩
      · rename_i err mid hfirst
        rw [hfirst] at hinv hrel
        exact ⟨hinv, hrel⟩

omit hrefl htrans in
theorem steps_each {op : StoreOp} {stores : List (Store σ)}
    (h : ∀ store ∈ stores, Steps inv rel (store op)) :
    ∀ method ∈ each op stores, Steps inv rel method := by
  intro method hmethod
  obtain ⟨store, hstore, rfl⟩ := List.mem_map.mp hmethod
  exact h store hstore

theorem steps_multiStore {op : StoreOp} {before after : List (Store σ)} {primary : Store σ}
    (hbefore : ∀ store ∈ before, Steps inv rel (store op)) (hprimary : Steps inv rel (primary op))
    (hafter : ∀ store ∈ after, Steps inv rel (store op)) :
    Steps inv rel (multiStore before primary after op) := by
  have hall : ∀ method ∈ each op (before ++ primary :: after), Steps inv rel method := by
    apply steps_each
    intro store hstore
    rcases List.mem_append.mp hstore with hb | hstore
    · exact hbefore store hb
    · rcases List.mem_cons.mp hstore with rfl | ha
      · exact hprimary
      · exact hafter store ha
  have hreads : ∀ method ∈ each op (primary :: (before ++ after)), Steps inv rel method := by
    apply steps_each
    intro store hstore
    rcases List.mem_cons.mp hstore with rfl | hstore
    · exact hprimary
    · exact (List.mem_append.mp hstore).elim (hbefore store) (hafter store)
  have hlist : ∀ {α : Type} [LinearOrder α] {methods : List (Method σ (BTreeSet α))},
      (∀ method ∈ methods, Steps inv rel method) → Steps inv rel (listUnion methods) :=
    fun h => steps_unionInto hrefl htrans h _
  cases op with
  | listAllBlobs => exact hlist hall
  | blobSize repo d => exact steps_readFallthrough hrefl htrans hreads
  | request op =>
      cases op with
      | blobExists repo d => exact steps_existsInAny hrefl htrans hall
      | blobRead repo d => exact steps_readFallthrough hrefl htrans hreads
      | manifestGet repo reference => exact steps_readFallthrough hrefl htrans hreads
      | blobDelete repo d => exact steps_deleteFromAll hrefl htrans hall _ _
      | manifestDelete repo reference => exact steps_deleteFromAll hrefl htrans hall _ _
      | listRepos => exact hlist hall
      | listTags repo => exact hlist hall
      | listManifestDigests repo => exact hlist hall
      | blobWrite _ _ _ | uploadCreate _ _ | uploadStatus _ _ | uploadAppend _ _ _
      | uploadFinalize _ _ _ | uploadCancel _ _ | manifestPut _ _ _ => exact hprimary

end Steps

end Stores

mutual

theorem Backend.steps_serve {σ : Type} {inv : σ → Prop} {rel : σ → σ → Prop}
    (hrefl : ∀ s, rel s s) (htrans : ∀ s s' s'', rel s s' → rel s' s'' → rel s s'')
    {disk : RootId → Disk.Store σ} {op : Disk.StoreOp} :
    (b : Backend) → (∀ root ∈ b.leaves, Stores.Steps inv rel (disk root op)) →
      Stores.Steps inv rel (b.serve disk op)
  | .fs _ root, h => h root List.mem_cons_self
  | .multi _ before _ primary after, h => by
      simp only [Backend.leaves, List.mem_append] at h
      exact Stores.steps_multiStore hrefl htrans
        (before.steps_serves hrefl htrans fun root hroot => h root (.inl (.inl hroot)))
        (primary.steps_serve hrefl htrans fun root hroot => h root (.inl (.inr hroot)))
        (after.steps_serves hrefl htrans fun root hroot => h root (.inr hroot))

theorem Partitions.steps_serves {σ : Type} {inv : σ → Prop} {rel : σ → σ → Prop}
    (hrefl : ∀ s, rel s s) (htrans : ∀ s s' s'', rel s s' → rel s' s'' → rel s s'')
    {disk : RootId → Disk.Store σ} {op : Disk.StoreOp} :
    (ps : Partitions) → (∀ root ∈ ps.leaves, Stores.Steps inv rel (disk root op)) →
      ∀ store ∈ ps.serves disk, Stores.Steps inv rel (store op)
  | .nil, _ => nofun
  | .cons _ storage rest, h => by
      intro store hstore
      simp only [Partitions.leaves, List.mem_append] at h
      rcases List.mem_cons.mp hstore with rfl | hrest
      · exact storage.steps_serve hrefl htrans fun root hroot => h root (.inl hroot)
      · exact rest.steps_serves hrefl htrans (fun root hroot => h root (.inr hroot)) store hrest

end

-- A call of a router, of which only the backends matter.
theorem RepoRouter.steps_serve {σ : Type} {inv : σ → Prop} {rel : σ → σ → Prop}
    (hrefl : ∀ s, rel s s) (htrans : ∀ s s' s'', rel s s' → rel s' s'' → rel s s'')
    {disk : RootId → Disk.Store σ} {op : Disk.StoreOp} (router : RepoRouter)
    (h : ∀ root, Stores.Steps inv rel (disk root op)) :
    Stores.Steps inv rel (router.serve disk op) := by
  have hone : ∀ b : Backend, Stores.Steps inv rel (b.serve disk op) :=
    fun b => b.steps_serve hrefl htrans fun root _ => h root
  have hall : ∀ method ∈ Stores.each op (router.distinctBackends.map (·.serve disk)),
      Stores.Steps inv rel method := by
    apply Stores.steps_each
    intro store hstore
    obtain ⟨b, -, rfl⟩ := List.mem_map.mp hstore
    exact hone b
  cases op with
  | listAllBlobs => exact Stores.steps_unionInto hrefl htrans hall _
  | blobSize repo d => exact hone _
  | request op =>
      cases op with
      | listRepos => exact Stores.steps_unionInto hrefl htrans hall _
      | _ => exact hone _

end RspaceRegistry
