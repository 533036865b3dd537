import RspaceRegistry.Boot

namespace RspaceRegistry.Boot

open Cuts Stores

section Boots

variable {α β : Type} {prog : BootM α} {a : α} {b : β}

def Boots (prog : BootM α) (a : α) : Prop := prog.run = some (.ok a)

theorem boots_bind {rest : α → BootM β} :
    Boots (prog >>= rest) b ↔ ∃ a, Boots prog a ∧ Boots (rest a) b := by
  unfold Boots
  rw [ExceptT.run_bind]
  cases prog.run with
  | none => simp
  | some result =>
      cases result with
      | error err => simp
      | ok value => simp

theorem boots_pure {value : α} : Boots (pure value) a ↔ a = value := by
  unfold Boots
  simp [eq_comm]

theorem not_boots_throw {message : String} : ¬Boots (throw message : BootM α) a := by
  unfold Boots
  simp

theorem boots_accept {result : Except StorageError α} :
    Boots (accept result) a ↔ result = .ok a := by
  cases result with
  | ok value => simp [accept, boots_pure, eq_comm]
  | error err => cases err <;> simp [accept, not_boots_throw]

end Boots

theorem splitOnce_eq_some {raw front back : String} :
    splitOnce raw = some (front, back) ↔ raw = front ++ "=" ++ back ∧ '=' ∉ front.toList := by
  have htext : raw = front ++ "=" ++ back ↔ raw.toList = front.toList ++ '=' :: back.toList := by
    rw [← String.toList_inj]
    simp
  rw [htext, ← cutOnce_eq_some, splitOnce, Option.map_eq_some_iff]
  constructor
  · rintro ⟨⟨first, second⟩, hcut, hparts⟩
    obtain ⟨rfl, rfl⟩ := Prod.mk.inj hparts
    rw [hcut, String.toList_ofList, String.toList_ofList]
  · intro hcut
    exact ⟨_, hcut, by rw [String.ofList_toList, String.ofList_toList]⟩

theorem boots_keyed {option key value raw front back : String} :
    Boots (keyed option key value raw) (front, back) ↔
      raw = front ++ "=" ++ back ∧ '=' ∉ front.toList ∧ front ≠ "" := by
  rw [← and_assoc, ← splitOnce_eq_some, keyed]
  cases splitOnce raw with
  | none => simp [not_boots_throw]
  | some parts =>
      obtain ⟨first, second⟩ := parts
      by_cases hempty : first = ""
      · simp only [hempty, if_true, not_boots_throw, Option.some.injEq, Prod.mk.injEq, false_iff]
        rintro ⟨⟨rfl, -⟩, hne⟩
        exact hne rfl
      · simp only [hempty, if_false, boots_pure, Option.some.injEq, Prod.mk.injEq]
        constructor
        · rintro ⟨rfl, rfl⟩
          exact ⟨⟨rfl, rfl⟩, hempty⟩
        · rintro ⟨⟨rfl, rfl⟩, -⟩
          exact ⟨rfl, rfl⟩

section Flags

variable {openVolume : String → Except String RootId}

section Collect

variable {α β γ : Type}

def built (build : Nat → β → α) : Nat → List β → List α
  | _, [] => []
  | arc, b :: rest => build arc b :: built build (arc + 1) rest

theorem map_built (build : Nat → β → α) (g : α → γ) (k : β → γ)
    (h : ∀ arc b, g (build arc b) = k b) (arc : Nat) (bs : List β) :
    (built build arc bs).map g = bs.map k := by
  induction bs generalizing arc with
  | nil => rfl
  | cons b rest ih => rw [built, List.map_cons, List.map_cons, h, ih]

theorem mem_built {build : Nat → β → α} {arc : Nat} {bs : List β} {a : α}
    (h : a ∈ built build arc bs) : ∃ arc' b, a = build arc' b := by
  induction bs generalizing arc with
  | nil => cases h
  | cons b rest ih =>
      rcases List.mem_cons.mp h with rfl | hrest
      · exact ⟨arc, b, rfl⟩
      · exact ih hrest

theorem boots_collect {f : Nat → String → BootM α} {said : String → β → Prop}
    {build : Nat → β → α}
    (hf : ∀ arc raw a, Boots (f arc raw) a ↔ ∃ b, said raw b ∧ a = build arc b) (arc : Nat)
    (raws : List String) (out : List α) : Boots (collect f arc raws) out ↔
      ∃ bs, List.Forall₂ said raws bs ∧ out = built build arc bs := by
  induction raws generalizing arc out with
  | nil =>
      rw [collect, boots_pure]
      constructor
      · rintro rfl
        exact ⟨[], .nil, rfl⟩
      · rintro ⟨bs, hbs, rfl⟩
        cases hbs
        rfl
  | cons raw rest ih =>
      rw [collect, boots_bind]
      constructor
      · rintro ⟨first, hfirst, hrest⟩
        obtain ⟨others, hothers, hpure⟩ := boots_bind.mp hrest
        obtain ⟨b, hb, rfl⟩ := (hf _ _ _).mp hfirst
        obtain ⟨bs, hbs, rfl⟩ := (ih _ _).mp hothers
        exact ⟨b :: bs, .cons hb hbs, boots_pure.mp hpure⟩
      · rintro ⟨bs, hbs, rfl⟩
        cases hbs with
        | cons hb hbs =>
            have hothers := (ih (arc + 1) _).mpr ⟨_, hbs, rfl⟩
            exact ⟨_, (hf _ _ _).mpr ⟨_, hb, rfl⟩,
              boots_bind.mpr ⟨_, hothers, boots_pure.mpr rfl⟩⟩

end Collect

theorem boots_opened {context path : String} {arc : Nat} {b : Backend} :
    Boots (opened openVolume context arc path) b ↔
      ∃ root, openVolume path = .ok root ∧ b = .fs arc root := by
  rw [opened]
  cases openVolume path with
  | ok root => simp [boots_pure]
  | error err => simp [not_boots_throw]

variable (openVolume)

-- What a flag says of a rule: its pattern and its directory.
def RootFlag (raw : String) (entry : String × RootId) : Prop :=
  ∃ path, raw = entry.1 ++ "=" ++ path ∧ '=' ∉ entry.1.toList ∧ entry.1 ≠ "" ∧
    openVolume path = .ok entry.2

-- A class is a rule for everything below its name.
structure ClassFlag (raw : String) (entry : RepoClass × RootId) : Prop where
  raw : raw = entry.1.name ++ "=" ++ entry.1.root
  sep : '=' ∉ entry.1.name.toList
  nonempty : entry.1.name ≠ ""
  bare : ¬('/' ∈ entry.1.name.toList ∨ '*' ∈ entry.1.name.toList)
  pattern : entry.1.pattern = entry.1.name ++ "/*"
  volume : openVolume entry.1.root = .ok entry.2

def classEntry (entry : RepoClass × RootId) : String × RootId := (entry.1.pattern, entry.2)

def classRule (arc : Nat) (entry : RepoClass × RootId) : RouteRule :=
  ⟨entry.1.pattern, .fs arc entry.2⟩

def rootRule (arc : Nat) (entry : String × RootId) : RouteRule := ⟨entry.1, .fs arc entry.2⟩

def volumePartition (arc : Nat) (entry : String × RootId) : Partition := ⟨entry.1, .fs arc entry.2⟩

-- The table of the rules, as the flags give it: the classes go before the others.
def Says (cli : Cli) (table : List (String × RootId)) : Prop :=
  ∃ classes roots, List.Forall₂ (ClassFlag openVolume) cli.repoClasses classes ∧
    List.Forall₂ (RootFlag openVolume) cli.repoRoots roots ∧
      table = classes.map classEntry ++ roots

variable {openVolume}

theorem boots_volume {α : Type} (option key raw : String) (context : String → String → String)
    (make : String → Backend → α) (arc : Nat) (a : α) :
    Boots (keyed option key "/path" raw >>= fun parts =>
      opened openVolume (context parts.1 parts.2) arc parts.2 >>= fun b =>
        pure (make parts.1 b)) a ↔
      ∃ entry, RootFlag openVolume raw entry ∧ a = make entry.1 (.fs arc entry.2) := by
  rw [boots_bind]
  constructor
  · rintro ⟨⟨front, path⟩, hkeyed, hrest⟩
    obtain ⟨hraw, hsep, hne⟩ := boots_keyed.mp hkeyed
    obtain ⟨b, hopened, hpure⟩ := boots_bind.mp hrest
    obtain ⟨root, hroot, rfl⟩ := boots_opened.mp hopened
    exact ⟨(front, root), ⟨path, hraw, hsep, hne, hroot⟩, boots_pure.mp hpure⟩
  · rintro ⟨⟨front, root⟩, ⟨path, hraw, hsep, hne, hroot⟩, rfl⟩
    exact ⟨(front, path), boots_keyed.mpr ⟨hraw, hsep, hne⟩,
      boots_bind.mpr ⟨_, boots_opened.mpr ⟨root, hroot, rfl⟩, boots_pure.mpr rfl⟩⟩

theorem boots_repoRoot (arc : Nat) (raw : String) (rule : RouteRule) :
    Boots (repoRoot openVolume arc raw) rule ↔
      ∃ entry, RootFlag openVolume raw entry ∧ rule = rootRule arc entry :=
  boots_volume "repo-root" "pattern" raw
    (fun pattern path => "opening repo root " ++ pattern ++ "=" ++ path) RouteRule.mk arc rule

theorem boots_partition (arc : Nat) (raw : String) (p : Partition) :
    Boots (partition openVolume arc raw) p ↔
      ∃ entry, RootFlag openVolume raw entry ∧ p = volumePartition arc entry :=
  boots_volume "partition" "name" raw
    (fun name path => "opening partition " ++ name ++ "=" ++ path) Partition.mk arc p

theorem boots_repoClass (arc : Nat) (raw : String) (made : RouteRule × RepoClass) :
    Boots (repoClass openVolume arc raw) made ↔ ∃ entry, ClassFlag openVolume raw entry ∧
      made = (classRule arc entry, entry.1) := by
  rw [repoClass, boots_bind]
  constructor
  · rintro ⟨⟨name, path⟩, hkeyed, hrest⟩
    obtain ⟨hraw, hsep, hne⟩ := boots_keyed.mp hkeyed
    by_cases hbare : '/' ∈ name.toList ∨ '*' ∈ name.toList
    · simp only [hbare, if_true, not_boots_throw] at hrest
    · simp only [hbare, if_false] at hrest
      obtain ⟨b, hopened, hpure⟩ := boots_bind.mp hrest
      obtain ⟨root, hroot, rfl⟩ := boots_opened.mp hopened
      exact ⟨(⟨name, name ++ "/*", path⟩, root), ⟨hraw, hsep, hne, hbare, rfl, hroot⟩,
        boots_pure.mp hpure⟩
  · rintro ⟨⟨⟨name, pattern, path⟩, root⟩, ⟨hraw, hsep, hne, hbare, hpattern, hroot⟩, rfl⟩
    obtain rfl : pattern = name ++ "/*" := hpattern
    refine ⟨(name, path), boots_keyed.mpr ⟨hraw, hsep, hne⟩, ?_⟩
    have hbare' : ¬('/' ∈ name.toList ∨ '*' ∈ name.toList) := hbare
    simp only [hbare', if_false]
    exact boots_bind.mpr ⟨_, boots_opened.mpr ⟨root, hroot, rfl⟩, boots_pure.mpr rfl⟩

theorem new_eq_ok {rules : List RouteRule} {router : RepoRouter} :
    RepoRouter.new rules = .ok router ↔ router.rules = rules := by
  rw [RepoRouter.new]
  constructor
  · intro h
    split at h
    · cases h
    · rw [← Except.ok.inj h]
  · intro h
    have hne : rules ≠ [] := h ▸ router.nonempty
    rw [dif_neg hne]
    exact congrArg Except.ok (RepoRouter.ext h.symm)

end Flags

def route (rule : RouteRule) : String × RootId := (rule.pattern, rule.backend.head)

section Routes

-- What the table becomes.
def pointTable (pattern : String) (root : RootId) :
    List (String × RootId) → List (String × RootId)
  | [] => [(pattern, root)]
  | entry :: rest =>
      if entry.1 = pattern then (pattern, root) :: rest
      else entry :: pointTable pattern root rest

theorem map_route_upsert (pattern : String) (b : Backend) (rules : List RouteRule) :
    (RepoRouter.upsertRules pattern b rules).2.map route =
      pointTable pattern b.head (rules.map route) := by
  induction rules with
  | nil => rfl
  | cons rule rest ih =>
      rw [RepoRouter.upsertRules, List.map_cons, pointTable]
      by_cases hkey : rule.pattern = pattern
      · have hbeq : (rule.pattern == pattern) = true := beq_iff_eq.mpr hkey
        have hroute : (route rule).1 = pattern := hkey
        rw [if_pos hbeq, if_pos hroute, List.map_cons]
        have hpointed : route { rule with backend := b } = (pattern, b.head) :=
          congrArg (·, b.head) hkey
        rw [hpointed]
      · have hbeq : ¬(rule.pattern == pattern) = true := fun h => hkey (beq_iff_eq.mp h)
        have hroute : ¬(route rule).1 = pattern := hkey
        rw [if_neg hbeq, if_neg hroute, ← ih]
        rfl

-- Where a repository is stored depends on the table alone.
theorem head_resolve_congr {r r' : RepoRouter} (h : r.rules.map route = r'.rules.map route)
    (repo : String) : (r.resolve repo).head = (r'.resolve repo).head := by
  have hpatterns : r.rules.map (·.pattern) = r'.rules.map (·.pattern) := by
    have hfst := congrArg (List.map Prod.fst) h
    rw [List.map_map, List.map_map] at hfst
    exact hfst
  have hlength : r.rules.length = r'.rules.length := by
    have hlen := congrArg List.length h
    rw [List.length_map, List.length_map] at hlen
    exact hlen
  have hindex : r.routeIndex repo = r'.routeIndex repo := by
    rw [RepoRouter.routeIndex, RepoRouter.routeIndex, RepoRouter.bestMatch, RepoRouter.bestMatch,
      RepoRouter.scan_congr repo _ _ 0 none hpatterns, hlength]
  have hlt := r.routeIndex_lt repo
  have hlt' : r.routeIndex repo < r'.rules.length := hlength ▸ hlt
  have hget := List.getElem?_eq_getElem hlt
  have hget' := List.getElem?_eq_getElem hlt'
  rw [RepoRouter.resolve_eq, RepoRouter.resolve_eq, ← hindex, r.backendAt_of_getElem hget,
    r'.backendAt_of_getElem hget']
  have hroute := congrArg (fun table => table[r.routeIndex repo]?) h
  simp only [List.getElem?_map, hget, hget', Option.map_some] at hroute
  exact (Prod.mk.inj (Option.some.inj hroute)).2

end Routes

section Quotas

variable {raw : String} {quota : Quota}

-- What a flag says of a quota: its pattern and the exact number of bytes.
def QuotaFlag (pattern : String → String) (raw : String) (quota : Quota) : Prop :=
  ∃ front size n mult, raw = front ++ "=" ++ size ∧ '=' ∉ front.toList ∧ front ≠ "" ∧
    Flags.ReadsSize size n mult ∧ quota.pattern = pattern front ∧ quota.maxBytes.toNat = n * mult

def Limits (cli : Cli) (limits : List Quota) : Prop :=
  ∃ classes patterns, List.Forall₂ (QuotaFlag (· ++ "/*")) cli.quotaClasses classes ∧
    List.Forall₂ (QuotaFlag id) cli.quotas patterns ∧ limits = classes ++ patterns

theorem boots_parseSize {size : String} {bytes : Nat} :
    Boots (ExceptT.mk (Flags.parseSize size)) bytes ↔
      ∃ n mult, Flags.ReadsSize size n mult ∧ n * mult < 2 ^ 64 ∧ bytes = n * mult := by
  have hrun : Boots (ExceptT.mk (Flags.parseSize size)) bytes ↔
      Flags.parseSize size = some (.ok bytes) := Iff.rfl
  rw [hrun]
  rcases Flags.parseSize_decided size with ⟨n, mult, hreads, hfits, hok⟩ | ⟨⟨err, herr⟩, hlarge⟩
  · rw [hok, Option.some.injEq, Except.ok.injEq]
    constructor
    · rintro rfl
      exact ⟨n, mult, hreads, hfits, rfl⟩
    · rintro ⟨n', mult', hreads', -, rfl⟩
      obtain ⟨rfl, rfl⟩ := Flags.readsSize_unique hreads hreads'
      rfl
  · rw [herr]
    constructor
    · intro h
      cases h
    · rintro ⟨n, mult, hreads, hfits, -⟩
      have := hlarge n mult hreads
      omega

theorem boots_quotaFlag {option key : String} {pattern : String → String} :
    Boots (quotaFlag option key pattern raw) quota ↔ QuotaFlag pattern raw quota := by
  rw [quotaFlag, boots_bind]
  constructor
  · rintro ⟨⟨front, size⟩, hkeyed, hrest⟩
    obtain ⟨hraw, hsep, hne⟩ := boots_keyed.mp hkeyed
    obtain ⟨bytes, hsize, hpure⟩ := boots_bind.mp hrest
    obtain ⟨n, mult, hreads, hfits, rfl⟩ := boots_parseSize.mp hsize
    obtain rfl := boots_pure.mp hpure
    exact ⟨front, size, n, mult, hraw, hsep, hne, hreads, rfl, UInt64.toNat_ofNat_of_lt' hfits⟩
  · rintro ⟨front, size, n, mult, hraw, hsep, hne, hreads, hpattern, hbytes⟩
    have hfits : n * mult < 2 ^ 64 := hbytes ▸ quota.maxBytes.toNat_lt
    refine ⟨(front, size), boots_keyed.mpr ⟨hraw, hsep, hne⟩, boots_bind.mpr ⟨n * mult, ?_, ?_⟩⟩
    · exact boots_parseSize.mpr ⟨n, mult, hreads, hfits, rfl⟩
    · rw [boots_pure, ← hbytes, ← hpattern, UInt64.ofNat_toNat]

theorem boots_quotaFlags {option key : String} {pattern : String → String} {raws : List String}
    {limits : List Quota} :
    Boots (collect (fun _ => quotaFlag option key pattern) 0 raws) limits ↔
      List.Forall₂ (QuotaFlag pattern) raws limits := by
  have hbuilt : ∀ limits : List Quota, built (fun _ quota => quota) 0 limits = limits := by
    intro limits
    have hmap := map_built (fun _ (quota : Quota) => quota) id id (fun _ _ => rfl) 0 limits
    rwa [List.map_id, List.map_id] at hmap
  have hflag : ∀ (arc : Nat) raw quota, Boots (quotaFlag option key pattern raw) quota ↔
      ∃ quota', QuotaFlag pattern raw quota' ∧ quota = (fun _ quota => quota) arc quota' := by
    intro _ raw quota
    rw [boots_quotaFlag]
    simp
  rw [boots_collect hflag]
  constructor
  · rintro ⟨bs, hbs, rfl⟩
    rw [hbuilt]
    exact hbs
  · intro h
    exact ⟨limits, h, (hbuilt limits).symm⟩

theorem boots_parseQuotas {cli : Cli} {limits : List Quota} :
    Boots (parseQuotas cli.quotas cli.quotaClasses) limits ↔ Limits cli limits := by
  rw [parseQuotas, boots_bind]
  constructor
  · rintro ⟨classes, hclasses, hrest⟩
    obtain ⟨patterns, hpatterns, hpure⟩ := boots_bind.mp hrest
    exact ⟨classes, patterns, boots_quotaFlags.mp hclasses, boots_quotaFlags.mp hpatterns,
      boots_pure.mp hpure⟩
  · rintro ⟨classes, patterns, hclasses, hpatterns, rfl⟩
    exact ⟨classes, boots_quotaFlags.mpr hclasses,
      boots_bind.mpr ⟨patterns, boots_quotaFlags.mpr hpatterns, boots_pure.mpr rfl⟩⟩

end Quotas

section Booted

variable {openVolume : String → Except String RootId} {overflowChecks : Bool} {cli cli' : Cli}
  {router : RepoRouter} {classes : List RepoClass} {setup : StorageSetup}
  {table : List (String × RootId)}

-- The quotas do not depend on the rules.
theorem withQuotas_cases (h : Boots (withQuotas overflowChecks cli router classes) setup) :
    setup.router = some router ∧ (∀ repo, setup.storage.home repo = router.resolve repo) ∧
      Limits cli ((setup.quota.map Prod.fst).getD []) := by
  rw [withQuotas, boots_bind] at h
  obtain ⟨quotas, hquotas, hrest⟩ := h
  have hlimits := boots_parseQuotas.mp hquotas
  split at hrest
  · rename_i hnone
    obtain rfl := boots_pure.mp hrest
    exact ⟨rfl, fun _ => rfl, hnone ▸ hlimits⟩
  · obtain ⟨ttl, -, hpure⟩ := boots_bind.mp hrest
    obtain rfl := boots_pure.mp hpure
    exact ⟨rfl, fun _ => rfl, hlimits⟩

structure SameQuotas (cli cli' : Cli) : Prop where
  quotas : cli'.quotas = cli.quotas
  quotaClasses : cli'.quotaClasses = cli.quotaClasses
  quotaCacheTtl : cli'.quotaCacheTtl = cli.quotaCacheTtl

theorem withQuotas_again (h : Boots (withQuotas overflowChecks cli router classes) setup)
    (hsame : SameQuotas cli cli') (router' : RepoRouter) (classes' : List RepoClass) : ∃ setup',
      Boots (withQuotas overflowChecks cli' router' classes') setup' ∧
        setup'.quota = setup.quota := by
  rw [withQuotas, boots_bind] at h
  obtain ⟨quotas, hquotas, hrest⟩ := h
  rw [withQuotas, hsame.quotas, hsame.quotaClasses, hsame.quotaCacheTtl]
  by_cases hnone : quotas = []
  · rw [if_pos hnone] at hrest
    obtain rfl := boots_pure.mp hrest
    refine ⟨⟨.routed router', none, some router', none, classes'⟩,
      boots_bind.mpr ⟨quotas, hquotas, ?_⟩, rfl⟩
    rw [if_pos hnone]
    exact boots_pure.mpr rfl
  · rw [if_neg hnone] at hrest
    obtain ⟨ttl, httl, hpure⟩ := boots_bind.mp hrest
    obtain rfl := boots_pure.mp hpure
    refine ⟨⟨.quota router' quotas ttl, none, some router', some (quotas, ttl), classes'⟩,
      boots_bind.mpr ⟨quotas, hquotas, ?_⟩, rfl⟩
    rw [if_neg hnone]
    exact boots_bind.mpr ⟨ttl, httl, boots_pure.mpr rfl⟩

theorem boots_routed : Boots (buildRouted openVolume overflowChecks cli) setup ↔
    ∃ classes roots router, List.Forall₂ (ClassFlag openVolume) cli.repoClasses classes ∧
      List.Forall₂ (RootFlag openVolume) cli.repoRoots roots ∧
      router.rules = built classRule 0 classes ++ built rootRule cli.repoClasses.length roots ∧
      Boots (withQuotas overflowChecks cli router (classes.map Prod.fst)) setup := by
  have hfst : ∀ (arc : Nat) (classes : List (RepoClass × RootId)),
      (built (fun arc entry => (classRule arc entry, entry.1)) arc classes).map Prod.fst =
        built classRule arc classes := by
    intro arc classes
    induction classes generalizing arc with
    | nil => rfl
    | cons entry rest ih => rw [built, built, List.map_cons, ih]
  have hsnd : ∀ (arc : Nat) (classes : List (RepoClass × RootId)),
      (built (fun arc entry => (classRule arc entry, entry.1)) arc classes).map Prod.snd =
        classes.map Prod.fst := by
    intro arc classes
    exact map_built _ Prod.snd Prod.fst (fun _ _ => rfl) arc classes
  rw [buildRouted, boots_bind]
  constructor
  · rintro ⟨made, hmade, hrest⟩
    obtain ⟨classes, hclasses, rfl⟩ := (boots_collect boots_repoClass _ _ _).mp hmade
    obtain ⟨rules, hrules, hrest⟩ := boots_bind.mp hrest
    obtain ⟨roots, hroots, rfl⟩ := (boots_collect boots_repoRoot _ _ _).mp hrules
    obtain ⟨router, hrouter, hlast⟩ := boots_bind.mp hrest
    have hnew := new_eq_ok.mp (boots_accept.mp hrouter)
    rw [hfst] at hnew
    rw [hsnd] at hlast
    exact ⟨classes, roots, router, hclasses, hroots, hnew, hlast⟩
  · rintro ⟨classes, roots, router, hclasses, hroots, hnew, hlast⟩
    refine ⟨_, (boots_collect boots_repoClass _ _ _).mpr ⟨classes, hclasses, rfl⟩,
      boots_bind.mpr ⟨_, (boots_collect boots_repoRoot _ _ _).mpr ⟨roots, hroots, rfl⟩,
        boots_bind.mpr ⟨router, boots_accept.mpr (new_eq_ok.mpr ?_), ?_⟩⟩⟩
    · rw [hfst]
      exact hnew
    · rw [hsnd]
      exact hlast

theorem routes_built {classes : List (RepoClass × RootId)} {roots : List (String × RootId)}
    {n : Nat} (hrules : router.rules = built classRule 0 classes ++ built rootRule n roots) :
    router.rules.map route = classes.map classEntry ++ roots := by
  rw [hrules, List.map_append, map_built classRule route classEntry (fun _ _ => rfl),
    map_built rootRule route id (fun _ _ => rfl), List.map_id]

theorem Says.routed (h : Says openVolume cli table) (hne : table ≠ []) : cli.Routed := by
  obtain ⟨classes, roots, hclasses, hroots, rfl⟩ := h
  by_contra hnot
  obtain ⟨hnoRoots, hnoClasses⟩ := not_or.mp hnot
  rw [not_not.mp hnoRoots] at hroots
  rw [not_not.mp hnoClasses] at hclasses
  cases hroots
  cases hclasses
  exact hne rfl

theorem routed_of_router (h : Boots (buildStorage openVolume overflowChecks cli) setup)
    (hrouter : setup.router = some router) : cli.Routed := by
  by_contra hnot
  rw [buildStorage, if_neg hnot] at h
  split at h
  · obtain ⟨parsed, -, hrest⟩ := boots_bind.mp h
    obtain ⟨primary, -, hrest⟩ := boots_bind.mp hrest
    obtain ⟨multi, -, hpure⟩ := boots_bind.mp hrest
    obtain rfl := boots_pure.mp hpure
    cases hrouter
  · obtain ⟨storage, -, hpure⟩ := boots_bind.mp h
    obtain rfl := boots_pure.mp hpure
    cases hrouter

end Booted

end RspaceRegistry.Boot
