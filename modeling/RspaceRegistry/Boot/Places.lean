import RspaceRegistry.Boot.Flags

namespace RspaceRegistry.Boot

open Cuts Stores

section Placed

variable {openVolume : String → Except String RootId} {overflowChecks : Bool} {cli : Cli}
  {router : RepoRouter} {setup : StorageSetup}

-- The longest pattern that matches, the first of several as long; and the last rule where
-- none matches.
def Placed (table : List (String × RootId)) (repo : String) (root : RootId) : Prop :=
  (∃ i pattern, table[i]? = some (pattern, root) ∧ globMatch pattern repo = true ∧
    ∀ (j : Nat) (other : String × RootId), table[j]? = some other →
      globMatch other.1 repo = true → other.1.utf8ByteSize < pattern.utf8ByteSize ∨
        other.1.utf8ByteSize = pattern.utf8ByteSize ∧ i ≤ j) ∨
  (∀ entry ∈ table, globMatch entry.1 repo = false) ∧
    ∃ pattern, table.getLast? = some (pattern, root)

theorem placed_resolve (repo : String) :
    Placed (router.rules.map route) repo (router.resolve repo).head := by
  rcases RepoRouter.scan_spec repo router.rules with
    ⟨hscan, hnone⟩ | ⟨len, i, hscan, rule, hget, hmatch, -, hbest⟩
  · refine .inr ⟨?_, router.last.pattern, ?_⟩
    · intro entry hentry
      obtain ⟨rule, hrule, rfl⟩ := List.mem_map.mp hentry
      exact hnone rule hrule
    · have hresolve : router.resolve repo = router.last.backend := by
        rw [RepoRouter.resolve, RepoRouter.bestMatch, hscan]
        rfl
      rw [List.getLast?_map, List.getLast?_eq_some_getLast router.nonempty, hresolve]
      rfl
  · have hindex : router.routeIndex repo = i := by
      rw [RepoRouter.routeIndex, RepoRouter.bestMatch, hscan]
      rfl
    have hresolve : router.resolve repo = rule.backend := by
      rw [RepoRouter.resolve_eq, hindex, router.backendAt_of_getElem hget]
    refine .inl ⟨i, rule.pattern, ?_, hmatch, ?_⟩
    · rw [List.getElem?_map, hget, hresolve]
      rfl
    · intro j other hother hmatches
      rw [List.getElem?_map] at hother
      obtain ⟨rule', hget', rfl⟩ := Option.map_eq_some_iff.mp hother
      have hnot : ¬RepoRouter.Outranks router.rules repo j i := hbest j
      by_contra hlower
      obtain ⟨hge, hlater⟩ := not_or.mp hlower
      have hlength : ¬rule'.pattern.utf8ByteSize < rule.pattern.utf8ByteSize := hge
      have hfirst : ¬(rule'.pattern.utf8ByteSize = rule.pattern.utf8ByteSize ∧ i ≤ j) := hlater
      exact hnot ⟨rule', rule, hget', hget, hmatches, by omega⟩

-- A registry that comes up places every repository by its flags, and limits each class to
-- the bytes that are written there.
theorem boot_places (hboot : Boots (buildStorage openVolume overflowChecks cli) setup)
    (hrouted : cli.Routed) : ∃ table, Says openVolume cli table ∧
      (∀ repo, Placed table repo (setup.storage.home repo).head) ∧
      Limits cli ((setup.quota.map Prod.fst).getD []) := by
  rw [buildStorage, if_pos hrouted] at hboot
  obtain ⟨classes, roots, router, hclasses, hroots, hrules, hlast⟩ := boots_routed.mp hboot
  obtain ⟨-, hhome, hlimits⟩ := withQuotas_cases hlast
  refine ⟨_, ⟨classes, roots, hclasses, hroots, rfl⟩, fun repo => ?_, hlimits⟩
  rw [hhome, ← routes_built hrules]
  exact placed_resolve repo

end Placed

section Partitioned

variable {openVolume : String → Except String RootId} {overflowChecks : Bool} {cli : Cli}
  {setup : StorageSetup}

theorem duplicateName_eq_none {partitions : List Partition} {seen : List String} :
    MultiStore.duplicateName partitions seen = none ↔
      (partitions.map (·.name)).Nodup ∧ ∀ p ∈ partitions, p.name ∉ seen := by
  induction partitions generalizing seen with
  | nil => simp [MultiStore.duplicateName]
  | cons p rest ih =>
      rw [MultiStore.duplicateName]
      by_cases hseen : p.name ∈ seen
      · simp [hseen]
      · rw [if_neg hseen, ih, List.map_cons, List.nodup_cons, List.forall_mem_cons]
        have hfresh : (∀ q ∈ rest, q.name ∉ p.name :: seen) ↔
            p.name ∉ rest.map (·.name) ∧ ∀ q ∈ rest, q.name ∉ seen := by
          simp only [List.mem_cons, not_or, List.mem_map, not_exists, not_and]
          exact ⟨fun h => ⟨fun q hq => (h q hq).1, fun q hq => (h q hq).2⟩,
            fun h q hq => ⟨h.1 q hq, h.2 q hq⟩⟩
        rw [hfresh]
        constructor
        · rintro ⟨hnodup, hnew, hrest⟩
          exact ⟨⟨hnew, hnodup⟩, hseen, hrest⟩
        · rintro ⟨⟨hnew, hnodup⟩, -, hrest⟩
          exact ⟨hnodup, hnew, hrest⟩

theorem multiStore_new {arc : Nat} {partitions : List Partition} {primary : String} {b : Backend}
    (h : MultiStore.new arc partitions primary = .ok b) :
    (partitions.map (·.name)).Nodup ∧ ∃ before p after, partitions = before ++ p :: after ∧
      p.name = primary ∧ b = .multi arc (.ofList before) p.name p.storage (.ofList after) := by
  rw [MultiStore.new] at h
  split at h
  · cases h
  · split at h
    · cases h
    · rename_i hnone
      refine ⟨(duplicateName_eq_none.mp hnone).1, ?_⟩
      rw [List.span_eq_takeWhile_dropWhile] at h
      have hall : partitions.takeWhile (·.name != primary) ++
          partitions.dropWhile (·.name != primary) = partitions := List.takeWhile_append_dropWhile
      cases hbehind : partitions.dropWhile (·.name != primary) with
      | nil =>
          rw [hbehind] at h
          cases h
      | cons p after =>
          rw [hbehind] at h hall
          have hne : partitions.dropWhile (·.name != primary) ≠ [] := by
            rw [hbehind]
            exact List.cons_ne_nil _ _
          have hhead := List.head_dropWhile_not (fun p : Partition => p.name != primary) hne
          simp only [hbehind, List.head_cons, bne_eq_false_iff_eq] at hhead
          exact ⟨_, p, after, hall.symm, hhead, (Except.ok.inj h).symm⟩

theorem boots_primaryName {primary : Option String} {parsed : List Partition} {name : String}
    (h : Boots (primaryName primary parsed) name) :
    primary = some name ∨ primary = none ∧ ∃ only, parsed = [only] := by
  unfold primaryName at h
  split at h
  · exact .inl (congrArg some (boots_pure.mp h).symm)
  · exact .inr ⟨rfl, _, rfl⟩
  · exact absurd h not_boots_throw

theorem readOrder_ofList {partitions : List Partition}
    (h : ∀ p ∈ partitions, p.storage.readOrder = [p.storage.head]) :
    (Partitions.ofList partitions).readOrder = partitions.map fun p => p.storage.head := by
  induction partitions with
  | nil => rfl
  | cons p rest ih =>
      rw [Partitions.ofList, Partitions.readOrder, h p List.mem_cons_self,
        ih fun q hq => h q (List.mem_cons_of_mem _ hq)]
      rfl

def partitionEntry (p : Partition) : String × RootId := (p.name, p.storage.head)

-- With partitions, every write goes to the primary, and a read falls through the others in
-- the order of their flags.
theorem boot_partitions (hboot : Boots (buildStorage openVolume overflowChecks cli) setup)
    (hplain : ¬cli.Routed) (hsome : cli.partitions ≠ []) : ∃ before name root after,
      List.Forall₂ (RootFlag openVolume) cli.partitions (before ++ (name, root) :: after) ∧
      ((before ++ (name, root) :: after).map Prod.fst).Nodup ∧
      (cli.primary = some name ∨ cli.primary = none ∧ before = [] ∧ after = []) ∧
      ∃ b, setup.storage = .plain b ∧ setup.multi = some b ∧
        b.head = root ∧ b.readOrder = root :: (before ++ after).map Prod.snd := by
  rw [buildStorage, if_neg hplain, if_pos hsome, buildPartitioned] at hboot
  obtain ⟨parsed, hparsed, hrest⟩ := boots_bind.mp hboot
  obtain ⟨primary, hprimary, hrest⟩ := boots_bind.mp hrest
  obtain ⟨b, hnew, hpure⟩ := boots_bind.mp hrest
  obtain rfl := boots_pure.mp hpure
  obtain ⟨entries, hentries, rfl⟩ := (boots_collect boots_partition _ _ _).mp hparsed
  have hmap : (built volumePartition 0 entries).map partitionEntry = entries := by
    rw [map_built volumePartition partitionEntry id fun _ _ => rfl, List.map_id]
  have hsingle : ∀ p ∈ built volumePartition 0 entries, p.storage.readOrder = [p.storage.head] := by
    intro p hp
    obtain ⟨arc, entry, rfl⟩ := mem_built hp
    rfl
  obtain ⟨hnodup, before, p, after, hsplit, hname, rfl⟩ := multiStore_new (boots_accept.mp hnew)
  have hnamed := boots_primaryName hprimary
  rw [hsplit] at hmap hsingle hnodup hnamed
  rw [List.map_append, List.map_cons] at hmap
  have hbefore := readOrder_ofList fun q hq => hsingle q (List.mem_append_left _ hq)
  have hafter := readOrder_ofList fun q hq =>
    hsingle q (List.mem_append_right _ (List.mem_cons_of_mem _ hq))
  have hfirst := hsingle p (List.mem_append_right _ List.mem_cons_self)
  refine ⟨before.map partitionEntry, p.name, p.storage.head, after.map partitionEntry, ?_, ?_, ?_,
    _, rfl, rfl, rfl, ?_⟩
  · rw [← hmap] at hentries
    exact hentries
  · simpa [partitionEntry, Function.comp_def] using hnodup
  · rcases hnamed with hgiven | ⟨hnone, only, honly⟩
    · exact .inl (hname ▸ hgiven)
    · have hlength := congrArg List.length honly
      simp only [List.length_append, List.length_cons, List.length_nil] at hlength
      obtain rfl : before = [] := List.length_eq_zero_iff.mp (by omega)
      obtain rfl : after = [] := List.length_eq_zero_iff.mp (by omega)
      exact .inr ⟨hnone, rfl, rfl⟩
  · rw [Backend.readOrder, hbefore, hafter, hfirst, List.map_append, List.map_map, List.map_map]
    rfl

end Partitioned

section

-- A class and a catchall, each on a volume of its own.

def volumes (path : String) : Except String RootId :=
  if path = "/fast" then .ok 0
  else if path = "/slow" then .ok 1
  else if path = "/new" then .ok 2
  else .error "io: permission denied"

def twoFlags : Cli :=
  { repoClasses := ["data=/slow"], repoRoots := ["*=/fast"], quotas := ["*=2Ki"] }

def twoRules : RepoRouter := ⟨[⟨"data/*", .fs 0 1⟩, ⟨"*", .fs 1 0⟩], List.cons_ne_nil _ _⟩

def twoFlagsSetup : StorageSetup :=
  ⟨.quota twoRules [⟨"*", 2048⟩] 30, none, some twoRules, some ([⟨"*", 2048⟩], 30),
    [⟨"data", "data/*", "/slow"⟩]⟩

theorem twoFlags_reads : Flags.ReadsSize "2Ki" 2 1024 := by
  have hunit : "Ki".toLower = "ki" := by
    have hmap : "Ki".toLower = "Ki".map Char.toLower := rfl
    rw [hmap, ← String.toList_inj, String.toList_map]
    decide
  have htrim : Disk.trim (String.ofList ['K', 'i']) = "Ki" := rfl
  have hdigits : ∀ c ∈ ['2'], c.isDigit = true := List.forall_mem_singleton.mpr rfl
  have hbehind : ∀ c ∈ ['K', 'i'].head?, c.isDigit = false := by
    intro c hc
    obtain rfl := Option.some.inj hc
    rfl
  refine ⟨['K', 'i'], ⟨['2'], rfl, List.cons_ne_nil _ _, hdigits, hbehind, rfl⟩, ?_⟩
  rw [htrim, hunit]
  decide

theorem twoFlags_boots : Boots (buildStorage volumes false twoFlags) twoFlagsSetup := by
  have hclass : ClassFlag volumes "data=/slow" (⟨"data", "data/*", "/slow"⟩, 1) :=
    ⟨rfl, by decide, by decide, by decide, rfl, rfl⟩
  have hroot : RootFlag volumes "*=/fast" ("*", 0) := ⟨"/fast", rfl, by decide, by decide, rfl⟩
  have hquota : QuotaFlag id "*=2Ki" ⟨"*", 2048⟩ :=
    ⟨"*", "2Ki", 2, 1024, rfl, by decide, by decide, twoFlags_reads, rfl, rfl⟩
  have hquotas : Boots (parseQuotas twoFlags.quotas twoFlags.quotaClasses) [⟨"*", 2048⟩] :=
    boots_parseQuotas.mpr ⟨[], _, .nil, .cons hquota .nil, rfl⟩
  rw [buildStorage, if_pos (.inr (List.cons_ne_nil _ _))]
  refine boots_routed.mpr ⟨_, _, twoRules, .cons hclass .nil, .cons hroot .nil, rfl, ?_⟩
  exact boots_bind.mpr ⟨_, hquotas, boots_bind.mpr ⟨30, rfl, rfl⟩⟩

theorem twoFlags_placed : ∃ table, Says volumes twoFlags table ∧
    (∀ repo, Placed table repo (twoFlagsSetup.storage.home repo).head) ∧
    Limits twoFlags [⟨"*", 2048⟩] :=
  boot_places twoFlags_boots (.inr (List.cons_ne_nil _ _))

-- Two partitions, of which the second is the primary.

def twoPartitions : Cli := { partitions := ["a=/fast", "b=/slow"], primary := some "b" }

def twoPartitionsMulti : Backend := .multi 2 (.ofList [⟨"a", .fs 0 0⟩]) "b" (.fs 1 1) .nil

theorem twoPartitions_boots : Boots (buildStorage volumes false twoPartitions)
    ⟨.plain twoPartitionsMulti, some twoPartitionsMulti, none, none, []⟩ := by rfl

theorem twoPartitions_ordered : ∃ before name root after,
    List.Forall₂ (RootFlag volumes) twoPartitions.partitions (before ++ (name, root) :: after) ∧
    ((before ++ (name, root) :: after).map Prod.fst).Nodup ∧
    (twoPartitions.primary = some name ∨
      twoPartitions.primary = none ∧ before = [] ∧ after = []) ∧
    ∃ b, Registry.plain twoPartitionsMulti = .plain b ∧ some twoPartitionsMulti = some b ∧
      b.head = root ∧ b.readOrder = root :: (before ++ after).map Prod.snd := by
  have hplain : ¬twoPartitions.Routed := by decide
  exact boot_partitions twoPartitions_boots hplain (List.cons_ne_nil _ _)

end

end RspaceRegistry.Boot
