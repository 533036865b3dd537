import RspaceRegistry.Stores.Method

namespace RspaceRegistry

open Disk Ordered

namespace Stores

-- A backend of backends works on its directories as one list of them would.

section Flat

variable {σ α : Type}

theorem readFallthrough_append (first second : List (Method σ α)) (s : σ) :
    readFallthrough (first ++ second) s =
      match readFallthrough first s with
      | (.error .notFound, s) => readFallthrough second s
      | (answer, s) => (answer, s) := by
  induction first generalizing s with
  | nil => rfl
  | cons method rest ih =>
      rw [List.cons_append, readFallthrough, readFallthrough]
      rcases method s with ⟨(_ | _ | _ | _ | _ | _) | _, mid⟩ <;> first | exact ih mid | rfl

theorem readFallthrough_single (method : Method σ α) : readFallthrough [method] = method := by
  funext s
  rw [readFallthrough]
  rcases method s with ⟨(_ | _ | _ | _ | _ | _) | _, mid⟩ <;> rfl

theorem readFallthrough_nested (inner rest : List (Method σ α)) :
    readFallthrough (readFallthrough inner :: rest) = readFallthrough (inner ++ rest) := by
  funext s
  rw [readFallthrough_append]
  rfl

theorem existsInAny_append (first second : List (Method σ Bool)) (s : σ) :
    existsInAny (first ++ second) s =
      match existsInAny first s with
      | (.ok false, s) => existsInAny second s
      | (answer, s) => (answer, s) := by
  induction first generalizing s with
  | nil => rfl
  | cons method rest ih =>
      rw [List.cons_append, existsInAny, existsInAny]
      rcases method s with ⟨_ | (_ | _), mid⟩
      · rfl
      · exact ih mid
      · rfl

theorem existsInAny_nested (inner rest : List (Method σ Bool)) :
    existsInAny (existsInAny inner :: rest) = existsInAny (inner ++ rest) := by
  funext s
  rw [existsInAny_append]
  rfl

theorem existsInAny_single (method : Method σ Bool) : existsInAny [method] = method := by
  funext s
  rw [existsInAny]
  rcases method s with ⟨_ | (_ | _), mid⟩ <;> rfl

-- A delete reaches every store, whatever the others answer.
theorem deleteFromAll_state (methods : List (Method σ Unit)) (deletedAny : Bool)
    (lastErr : Option StorageError) (s : σ) : (deleteFromAll methods deletedAny lastErr s).2 =
      methods.foldl (fun s method => (method s).2) s := by
  induction methods generalizing deletedAny lastErr s with
  | nil => cases deletedAny <;> cases lastErr <;> rfl
  | cons first rest ih =>
      rw [List.foldl_cons, deleteFromAll]
      rcases first s with ⟨(_ | _ | _ | _ | _ | _) | _, mid⟩ <;> exact ih _ _ mid

-- Listings that look only make a listing that looks only.
theorem unionInto_lists [LinearOrder α] {ι : Type} {list : ι → Method σ (BTreeSet α)}
    {listed : ι → α → Prop} {sources : List ι} {s : σ}
    (h : ∀ source ∈ sources, ∃ values, list source s = (.ok values, s) ∧
      ∀ value, value ∈ values ↔ listed source value) (set : BTreeSet α) :
    ∃ listing, unionInto (sources.map list) set s = (.ok listing, s) ∧ ∀ value, value ∈ listing ↔
      value ∈ set ∨ ∃ source ∈ sources, listed source value := by
  induction sources generalizing set with
  | nil => exact ⟨set, rfl, by simp⟩
  | cons first rest ih =>
      obtain ⟨values, hfirst, hvalues⟩ := h first List.mem_cons_self
      obtain ⟨listing, hrun, hmem⟩ :=
        ih (fun source hs => h source (List.mem_cons_of_mem _ hs)) (set.extend values.toList)
      refine ⟨listing, by rw [List.map_cons, unionInto, hfirst]; exact hrun, fun value => ?_⟩
      rw [hmem, BTreeSet.mem_extend]
      simp only [List.mem_cons, exists_eq_or_imp, BTreeSet.mem_toList, hvalues]
      tauto

-- One that fails is enough for the union to fail.
theorem unionInto_fails [LinearOrder α] {ι : Type} {list : ι → Method σ (BTreeSet α)}
    {sources : List ι} {s : σ} (hkept : ∀ source ∈ sources, (list source s).2 = s)
    (hfails : ∃ source ∈ sources, ∃ err, (list source s).1 = .error err) (set : BTreeSet α) :
    ∃ err, unionInto (sources.map list) set s = (.error err, s) := by
  induction sources generalizing set with
  | nil => simp at hfails
  | cons first rest ih =>
      have hfirst := hkept first List.mem_cons_self
      rw [List.map_cons, unionInto]
      rcases hrun : list first s with ⟨err | values, mid⟩
      · rw [hrun] at hfirst
        exact ⟨err, by rw [← hfirst]⟩
      · obtain ⟨source, hsource, err, herr⟩ := hfails
        rw [hrun] at hfirst
        obtain rfl : mid = s := hfirst
        refine ih (fun source hs => hkept source (List.mem_cons_of_mem _ hs)) ?_ _
        rcases List.mem_cons.mp hsource with rfl | hrest
        · rw [hrun] at herr
          cases herr
        · exact ⟨source, hrest, err, herr⟩

-- What all listings have in common their union has.
theorem unionInto_all [LinearOrder α] {ι : Type} {list : ι → Method σ (BTreeSet α)}
    {good : α → Prop} {sources : List ι} {s : σ}
    (h : ∀ source ∈ sources, (list source s).2 = s ∧
      ∀ values, (list source s).1 = .ok values → ∀ value ∈ values, good value)
    {set : BTreeSet α} (hset : ∀ value ∈ set, good value) :
    (unionInto (sources.map list) set s).2 = s ∧
      ∀ listing, (unionInto (sources.map list) set s).1 = .ok listing →
        ∀ value ∈ listing, good value := by
  induction sources generalizing set with
  | nil => exact ⟨rfl, fun listing hlisting => Except.ok.inj hlisting ▸ hset⟩
  | cons first rest ih =>
      obtain ⟨hkept, hgood⟩ := h first List.mem_cons_self
      rw [List.map_cons, unionInto]
      rcases hrun : list first s with ⟨err | values, mid⟩
      · rw [hrun] at hkept
        exact ⟨hkept, fun _ h => by cases h⟩
      · rw [hrun] at hkept hgood
        obtain rfl : mid = s := hkept
        refine ih (fun source hs => h source (List.mem_cons_of_mem _ hs)) fun value hvalue => ?_
        rw [BTreeSet.mem_extend, BTreeSet.mem_toList] at hvalue
        exact hvalue.elim (hgood values rfl value) (hset value)

-- What goes through a list of methods goes through a list within it as well.
structure Flattens (combine : List (Method σ α) → Method σ α) : Prop where
  single : ∀ method, combine [method] = method
  nested : ∀ first inner rest, combine (first ++ combine inner :: rest) =
    combine (first ++ (inner ++ rest))

theorem flattens_readFallthrough : Flattens (@readFallthrough σ α) where
  single := readFallthrough_single
  nested first inner rest := by
    funext s
    rw [readFallthrough_append, readFallthrough_append, readFallthrough_nested]

theorem flattens_existsInAny : Flattens (@existsInAny σ) where
  single := existsInAny_single
  nested first inner rest := by
    funext s
    rw [existsInAny_append, existsInAny_append, existsInAny_nested]

section Union

variable [LinearOrder α]

omit [LinearOrder α] in
theorem extend_extend [LinearOrder α] (set values : BTreeSet α) (list : List α) :
    set.extend (values.extend list).toList = (set.extend values.toList).extend list := by
  apply BTreeSet.ext
  intro value
  simp only [BTreeSet.mem_extend, BTreeSet.mem_toList]
  tauto

theorem unionInto_from (methods : List (Method σ (BTreeSet α))) (set values : BTreeSet α) (s : σ) :
    unionInto methods (set.extend values.toList) s =
      match unionInto methods values s with
      | (.ok listing, s) => (.ok (set.extend listing.toList), s)
      | (.error err, s) => (.error err, s) := by
  induction methods generalizing values s with
  | nil => rfl
  | cons first rest ih =>
      rw [unionInto, unionInto]
      rcases first s with ⟨_ | found, mid⟩
      · rfl
      · simp only [← extend_extend]
        exact ih _ _

theorem unionInto_nested (inner rest : List (Method σ (BTreeSet α))) (set : BTreeSet α) :
    unionInto (listUnion inner :: rest) set = unionInto (inner ++ rest) set := by
  funext s
  have hstart : set.extend (BTreeSet.empty : BTreeSet α).toList = set := rfl
  have hinner := unionInto_from inner set .empty s
  rw [hstart] at hinner
  have happend : ∀ (methods : List (Method σ (BTreeSet α))) (values : BTreeSet α) (s : σ),
      unionInto (methods ++ rest) values s =
        match unionInto methods values s with
        | (.ok listing, s) => unionInto rest listing s
        | (.error err, s) => (.error err, s) := by
    intro methods
    induction methods with
    | nil => exact fun _ _ => rfl
    | cons first others ih =>
        intro values s
        rw [List.cons_append, unionInto, unionInto]
        rcases first s with ⟨_ | found, mid⟩
        · rfl
        · exact ih _ _
  rw [happend, hinner, unionInto, listUnion]
  rcases unionInto inner BTreeSet.empty s with ⟨_ | found, mid⟩ <;> rfl

theorem flattens_listUnion : Flattens (@listUnion σ α _) where
  single method := by
    funext s
    rw [listUnion, unionInto]
    rcases method s with ⟨_ | values, mid⟩
    · rfl
    · simp only [unionInto, BTreeSet.empty_extend]
  nested first inner rest := by
    have hwithin : ∀ set, unionInto (first ++ listUnion inner :: rest) set =
        unionInto (first ++ (inner ++ rest)) set := by
      induction first with
      | nil => exact unionInto_nested inner rest
      | cons method others ih =>
          intro set
          funext s
          rw [List.cons_append, List.cons_append, unionInto, unionInto]
          rcases method s with ⟨_ | values, mid⟩
          · rfl
          · simp only [ih]
    exact hwithin .empty

end Union

end Flat

end Stores

-- Nested backends are as flat as their directories.

section Nested

variable {σ : Type} (disk : RootId → Store σ)

open Stores

-- Which of the stores a `MultiStore` calls, and how it combines what they do.
def Stores.CombinesBy {op : StoreOp} (combine : List (Method σ op.Value) → Method σ op.Value)
    (order : List (Store σ) → Store σ → List (Store σ) → List (Store σ)) : Prop :=
  ∀ before primary after, multiStore before primary after op =
    combine (each op (order before primary after))

section Combined

variable {op : StoreOp} {combine : List (Method σ op.Value) → Method σ op.Value}

mutual

theorem Backend.serve_inOrder (hflat : Flattens combine)
    (hop : CombinesBy combine fun before primary after => before ++ primary :: after) :
    (b : Backend) → b.serve disk op = combine (b.leaves.map fun root => disk root op)
  | .fs _ root => (hflat.single _).symm
  | .multi _ before _ primary after => by
      have hsplit : each op (before.serves disk ++ primary.serve disk :: after.serves disk) =
          [] ++ (each op (before.serves disk) ++ primary.serve disk op ::
            each op (after.serves disk)) := by
        simp [each]
      have hafter := after.serves_inOrder hflat hop
        ((before.leaves.map fun root => disk root op) ++ primary.leaves.map fun root => disk root op) []
      rw [Backend.serve, hop, hsplit, before.serves_inOrder hflat hop,
        primary.serve_inOrder hflat hop, List.nil_append, hflat.nested, Backend.leaves,
        List.map_append, List.map_append, ← List.append_assoc]
      rwa [List.append_nil, List.append_nil] at hafter

theorem Partitions.serves_inOrder (hflat : Flattens combine)
    (hop : CombinesBy combine fun before primary after => before ++ primary :: after) :
    (ps : Partitions) → (first rest : List (Method σ op.Value)) →
    combine (first ++ (each op (ps.serves disk) ++ rest)) =
      combine (first ++ ((ps.leaves.map fun root => disk root op) ++ rest))
  | .nil, _, _ => rfl
  | .cons _ storage ps, first, rest => by
      have hrest := ps.serves_inOrder hflat hop
        (first ++ storage.leaves.map fun root => disk root op) rest
      rw [List.append_assoc, List.append_assoc] at hrest
      rw [Partitions.serves, each, List.map_cons, List.cons_append, storage.serve_inOrder hflat hop,
        hflat.nested, Partitions.leaves, List.map_append, List.append_assoc]
      exact hrest

end

mutual

theorem Backend.serve_primaryFirst (hflat : Flattens combine)
    (hop : CombinesBy combine fun before primary after => primary :: (before ++ after)) :
    (b : Backend) → b.serve disk op = combine (b.readOrder.map fun root => disk root op)
  | .fs _ root => (hflat.single _).symm
  | .multi _ before _ primary after => by
      have hsplit : each op (primary.serve disk :: (before.serves disk ++ after.serves disk)) =
          [] ++ primary.serve disk op :: (each op (before.serves disk) ++
            each op (after.serves disk)) := by
        simp [each]
      have hafter := after.serves_primaryFirst hflat hop
        ((primary.readOrder.map fun root => disk root op) ++
          before.readOrder.map fun root => disk root op) []
      rw [Backend.serve, hop, hsplit, primary.serve_primaryFirst hflat hop, hflat.nested,
        List.nil_append, before.serves_primaryFirst hflat hop, Backend.readOrder, List.map_append,
        List.map_append, ← List.append_assoc, ← List.append_assoc]
      rwa [List.append_nil, List.append_nil] at hafter

theorem Partitions.serves_primaryFirst (hflat : Flattens combine)
    (hop : CombinesBy combine fun before primary after => primary :: (before ++ after)) :
    (ps : Partitions) → (first rest : List (Method σ op.Value)) →
    combine (first ++ (each op (ps.serves disk) ++ rest)) =
      combine (first ++ ((ps.readOrder.map fun root => disk root op) ++ rest))
  | .nil, _, _ => rfl
  | .cons _ storage ps, first, rest => by
      have hrest := ps.serves_primaryFirst hflat hop
        (first ++ storage.readOrder.map fun root => disk root op) rest
      rw [List.append_assoc, List.append_assoc] at hrest
      rw [Partitions.serves, each, List.map_cons, List.cons_append,
        storage.serve_primaryFirst hflat hop, hflat.nested, Partitions.readOrder, List.map_append,
        List.append_assoc]
      exact hrest

end

end Combined

theorem Backend.serve_blobSize (b : Backend) (repo : String) (d : Digest) :
    b.serve disk (.blobSize repo d) =
      readFallthrough (b.readOrder.map fun root => disk root (.blobSize repo d)) :=
  b.serve_primaryFirst disk flattens_readFallthrough fun _ _ _ => rfl

theorem Backend.serve_blobRead (b : Backend) (repo : String) (d : Digest) :
    b.serve disk (.request (.blobRead repo d)) =
      readFallthrough (b.readOrder.map fun root => disk root (.request (.blobRead repo d))) :=
  b.serve_primaryFirst disk flattens_readFallthrough fun _ _ _ => rfl

theorem Backend.serve_manifestGet (b : Backend) (repo : String) (reference : Disk.Reference) :
    b.serve disk (.request (.manifestGet repo reference)) =
      readFallthrough (b.readOrder.map fun root =>
        disk root (.request (.manifestGet repo reference))) :=
  b.serve_primaryFirst disk flattens_readFallthrough fun _ _ _ => rfl

theorem Backend.serve_blobExists (b : Backend) (repo : String) (d : Digest) :
    b.serve disk (.request (.blobExists repo d)) =
      existsInAny (b.leaves.map fun root => disk root (.request (.blobExists repo d))) :=
  b.serve_inOrder disk flattens_existsInAny fun _ _ _ => rfl

theorem Backend.serve_listAllBlobs (b : Backend) :
    b.serve disk .listAllBlobs = listUnion (b.leaves.map fun root => disk root .listAllBlobs) :=
  b.serve_inOrder disk flattens_listUnion fun _ _ _ => rfl

theorem Backend.serve_listRepos (b : Backend) :
    b.serve disk (.request .listRepos) =
      listUnion (b.leaves.map fun root => disk root (.request .listRepos)) :=
  b.serve_inOrder disk flattens_listUnion fun _ _ _ => rfl

theorem Backend.serve_listTags (b : Backend) (repo : String) :
    b.serve disk (.request (.listTags repo)) =
      listUnion (b.leaves.map fun root => disk root (.request (.listTags repo))) :=
  b.serve_inOrder disk flattens_listUnion fun _ _ _ => rfl

theorem Backend.serve_listManifestDigests (b : Backend) (repo : String) :
    b.serve disk (.request (.listManifestDigests repo)) =
      listUnion (b.leaves.map fun root => disk root (.request (.listManifestDigests repo))) :=
  b.serve_inOrder disk flattens_listUnion fun _ _ _ => rfl

mutual

theorem Backend.serve_blobDelete (repo : String) (d : Digest) (s : σ) : (b : Backend) →
    (b.serve disk (.request (.blobDelete repo d)) s).2 =
      b.leaves.foldl (fun s root => (disk root (.request (.blobDelete repo d)) s).2) s
  | .fs _ root => rfl
  | .multi _ before _ primary after => by
      rw [Backend.serve, multiStore, deleteFromAll_state, each, List.foldl_map, List.foldl_append,
        List.foldl_cons, before.serves_blobDelete repo d, primary.serve_blobDelete repo d,
        after.serves_blobDelete repo d, Backend.leaves, List.foldl_append, List.foldl_append]

theorem Partitions.serves_blobDelete (repo : String) (d : Digest) (s : σ) : (ps : Partitions) →
    (ps.serves disk).foldl (fun s store => (store (.request (.blobDelete repo d)) s).2) s =
      ps.leaves.foldl (fun s root => (disk root (.request (.blobDelete repo d)) s).2) s
  | .nil => rfl
  | .cons _ storage ps => by
      rw [Partitions.serves, List.foldl_cons, storage.serve_blobDelete repo d,
        ps.serves_blobDelete repo d, Partitions.leaves, List.foldl_append]

end

-- The calls that a `MultiStore` hands to its primary.
def Stores.ForPrimary (op : StoreOp) : Prop :=
  ∀ (σ : Type) (before : List (Store σ)) (primary : Store σ) (after : List (Store σ)),
    multiStore before primary after op = primary op

theorem Backend.serve_head {op : StoreOp} (hop : ForPrimary op) : (b : Backend) →
    b.serve disk op = disk b.head op
  | .fs _ root => rfl
  | .multi _ before _ primary after => by
      rw [Backend.serve, hop, primary.serve_head hop, Backend.head]

end Nested

end RspaceRegistry
