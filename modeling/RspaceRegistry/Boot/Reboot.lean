import RspaceRegistry.Boot.Places

namespace RspaceRegistry.Boot

open Cuts Stores

section Reboot

variable {openVolume : String → Except String RootId} {overflowChecks : Bool}
  {cli start : Cli} {router : RepoRouter} {setup : StorageSetup}
  {table rest : List (String × RootId)} {pattern path : String} {root : RootId}

theorem frontOf_eq {front back : String} (hsep : '=' ∉ front.toList) :
    frontOf (front ++ "=" ++ back) = front := by
  have htext : (front ++ "=" ++ back).toList = front.toList ++ '=' :: back.toList := by simp
  rw [frontOf, htext, (firstSegment_append_cons hsep).1, String.ofList_toList]

section PointFirst

variable {β : Type} {key : String → String} {said : String → β → Prop}
  {entryOf : β → String × RootId}
  (hkey : ∀ raw b, said raw b → key (frontOf raw) = (entryOf b).1)

include hkey

theorem pointFirst_some (hmove : ∀ raw b, said raw b →
      ∃ b', said (frontOf raw ++ "=" ++ path) b' ∧ entryOf b' = ((entryOf b).1, root))
    {raws raws' : List String} {bs : List β} (hsaid : List.Forall₂ said raws bs)
    (hpoint : pointFirst key pattern path raws = some raws') :
    ∃ bs', List.Forall₂ said raws' bs' ∧
      pointTable pattern root (bs.map entryOf ++ rest) = bs'.map entryOf ++ rest := by
  induction hsaid generalizing raws' with
  | nil => cases hpoint
  | @cons raw b raws bs hb hbs ih =>
      rw [pointFirst, hkey raw b hb] at hpoint
      rw [List.map_cons, List.cons_append, pointTable]
      by_cases hpattern : (entryOf b).1 = pattern
      · rw [if_pos hpattern] at hpoint
        obtain rfl := Option.some.inj hpoint
        obtain ⟨b', hb', hentry⟩ := hmove raw b hb
        refine ⟨b' :: bs, .cons hb' hbs, ?_⟩
        rw [if_pos hpattern, List.map_cons, hentry, hpattern]
        rfl
      · rw [if_neg hpattern] at hpoint
        obtain ⟨others, hothers, rfl⟩ := Option.map_eq_some_iff.mp hpoint
        obtain ⟨bs', hbs', htable⟩ := ih hothers
        refine ⟨b :: bs', .cons hb hbs', ?_⟩
        rw [if_neg hpattern, htable]
        rfl

theorem pointFirst_none {raws : List String} {bs : List β} (hsaid : List.Forall₂ said raws bs)
    (hpoint : pointFirst key pattern path raws = none) :
    pointTable pattern root (bs.map entryOf ++ rest) =
      bs.map entryOf ++ pointTable pattern root rest := by
  induction hsaid with
  | nil => rfl
  | @cons raw b raws bs hb hbs ih =>
      rw [pointFirst, hkey raw b hb] at hpoint
      rw [List.map_cons, List.cons_append, pointTable]
      by_cases hpattern : (entryOf b).1 = pattern
      · rw [if_pos hpattern] at hpoint
        cases hpoint
      · rw [if_neg hpattern] at hpoint ⊢
        rw [ih (Option.map_eq_none_iff.mp hpoint)]
        rfl

end PointFirst

section Keys

variable {raw : String}

theorem class_key {entry : RepoClass × RootId} (h : ClassFlag openVolume raw entry) :
    frontOf raw ++ "/*" = (classEntry entry).1 := by
  rw [h.raw, frontOf_eq h.sep]
  exact h.pattern.symm

theorem class_move (hroot : openVolume path = .ok root) {entry : RepoClass × RootId}
    (h : ClassFlag openVolume raw entry) : ∃ entry',
      ClassFlag openVolume (frontOf raw ++ "=" ++ path) entry' ∧
        classEntry entry' = ((classEntry entry).1, root) := by
  refine ⟨({ entry.1 with root := path }, root), ?_, rfl⟩
  rw [h.raw, frontOf_eq h.sep]
  exact ⟨rfl, h.sep, h.nonempty, h.bare, h.pattern, hroot⟩

theorem root_key {entry : String × RootId} (h : RootFlag openVolume raw entry) :
    id (frontOf raw) = (id entry).1 := by
  obtain ⟨path, rfl, hsep, -⟩ := h
  exact frontOf_eq hsep

theorem root_move (hroot : openVolume path = .ok root) {entry : String × RootId}
    (h : RootFlag openVolume raw entry) : ∃ entry',
      RootFlag openVolume (frontOf raw ++ "=" ++ path) entry' ∧
        id entry' = ((id entry).1, root) := by
  obtain ⟨old, rfl, hsep, hne, -⟩ := h
  rw [frontOf_eq hsep]
  exact ⟨(entry.1, root), ⟨path, rfl, hsep, hne, hroot⟩, rfl⟩

end Keys

-- Pointing the flag elsewhere is pointing the rule elsewhere.
theorem pointAt_table (h : Says openVolume cli table) (hroot : openVolume path = .ok root)
    (hne : pattern ≠ "") (hsep : '=' ∉ pattern.toList) :
    Says openVolume (cli.pointAt pattern path) (pointTable pattern root table) := by
  obtain ⟨classes, roots, hclasses, hroots, rfl⟩ := h
  rw [Cli.pointAt]
  cases hfirst : pointFirst (· ++ "/*") pattern path cli.repoClasses with
  | some repoClasses =>
      obtain ⟨classes', hclasses', htable⟩ := pointFirst_some (fun _ _ => class_key)
        (fun _ _ => class_move hroot) hclasses hfirst
      exact ⟨classes', roots, hclasses', hroots, htable⟩
  | none =>
      have hskip : pointTable pattern root (classes.map classEntry ++ roots) =
          classes.map classEntry ++ pointTable pattern root roots :=
        pointFirst_none (fun _ _ => class_key) hclasses hfirst
      rw [hskip]
      simp only
      have hkey : ∀ raw entry, RootFlag openVolume raw entry → id (frontOf raw) = (id entry).1 :=
        fun _ _ => root_key
      cases hsecond : pointFirst id pattern path cli.repoRoots with
      | some repoRoots =>
          obtain ⟨roots', hroots', htable⟩ : ∃ roots',
              List.Forall₂ (RootFlag openVolume) repoRoots roots' ∧
                pointTable pattern root (roots.map id ++ []) = roots'.map id ++ [] :=
            pointFirst_some hkey (fun _ _ => root_move hroot) hroots hsecond
          rw [List.append_nil, List.append_nil, List.map_id, List.map_id] at htable
          exact ⟨classes, roots', hclasses, hroots', by rw [htable]⟩
      | none =>
          have hlast : pointTable pattern root (roots.map id ++ []) =
              roots.map id ++ pointTable pattern root [] := pointFirst_none hkey hroots hsecond
          rw [List.append_nil, List.map_id] at hlast
          refine ⟨classes, roots ++ [(pattern, root)], hclasses, ?_, by rw [hlast]; rfl⟩
          exact List.rel_append hroots (.cons ⟨path, rfl, hsep, hne, hroot⟩ .nil)

theorem SameQuotas.pointAt (h : SameQuotas start cli) (pattern path : String) :
    SameQuotas start (cli.pointAt pattern path) := by
  rw [Cli.pointAt]
  split
  · exact ⟨h.quotas, h.quotaClasses, h.quotaCacheTtl⟩
  · split
    · exact ⟨h.quotas, h.quotaClasses, h.quotaCacheTtl⟩
    · exact ⟨h.quotas, h.quotaClasses, h.quotaCacheTtl⟩

-- The flags say what the rules of the running registry are.
structure Agrees (openVolume : String → Except String RootId) (start : Cli)
    (live : RepoRouter × Cli) : Prop where
  table : Says openVolume live.2 (live.1.rules.map route)
  quotas : SameQuotas start live.2

theorem Agrees.posted {live : RepoRouter × Cli} (h : Agrees openVolume start live)
    (post : Nat × RepoRootRequest) (hsep : '=' ∉ post.2.pattern.toList) :
    Agrees openVolume start (posted openVolume live post) := by
  rw [Boot.posted, repoRootUpsert]
  by_cases hempty : post.2.pattern = ""
  · rw [if_pos hempty]
    exact h
  · rw [if_neg hempty]
    cases hopen : openVolume post.2.root with
    | error err => exact h
    | ok root =>
        refine ⟨?_, h.quotas.pointAt _ _⟩
        have hroutes : (live.1.upsert post.2.pattern (.fs post.1 root)).2.rules.map route =
            pointTable post.2.pattern root (live.1.rules.map route) :=
          map_route_upsert post.2.pattern (.fs post.1 root) live.1.rules
        rw [hroutes]
        exact pointAt_table h.table hopen hempty hsep

theorem Agrees.run {live : RepoRouter × Cli} (h : Agrees openVolume start live)
    {posts : List (Nat × RepoRootRequest)} (hseps : ∀ post ∈ posts, '=' ∉ post.2.pattern.toList) :
    Agrees openVolume start (posts.foldl (Boot.posted openVolume) live) := by
  induction posts generalizing live with
  | nil => exact h
  | cons post rest ih =>
      exact ih (h.posted post (hseps post List.mem_cons_self)) fun other hother =>
        hseps other (List.mem_cons_of_mem _ hother)

-- Flags that agree with a router bring it up again.
theorem Agrees.boots {live : RepoRouter × Cli} (h : Agrees openVolume start live)
    {classes : List RepoClass}
    (hquotas : Boots (withQuotas overflowChecks start router classes) setup) :
    ∃ setup', Boots (buildStorage openVolume overflowChecks live.2) setup' ∧
      setup'.quota = setup.quota ∧
      ∀ repo, (setup'.storage.home repo).head = (live.1.resolve repo).head := by
  obtain ⟨classes', roots, hclasses, hroots, htable⟩ := h.table
  have hne : live.1.rules.map route ≠ [] :=
    fun hnil => live.1.nonempty (List.map_eq_nil_iff.mp hnil)
  have hrouted := h.table.routed hne
  have hrules :
      built classRule 0 classes' ++ built rootRule live.2.repoClasses.length roots ≠ [] := by
    intro hnil
    obtain ⟨hfirst, hsecond⟩ := List.append_eq_nil_iff.mp hnil
    cases classes' with
    | cons _ _ => cases hfirst
    | nil =>
        cases roots with
        | cons _ _ => cases hsecond
        | nil => exact hne htable
  have hmade : (⟨_, hrules⟩ : RepoRouter).rules.map route = live.1.rules.map route :=
    (routes_built rfl).trans htable.symm
  obtain ⟨setup', hsetup', hquota⟩ :=
    withQuotas_again hquotas h.quotas ⟨_, hrules⟩ (classes'.map Prod.fst)
  refine ⟨setup', ?_, hquota, fun repo => ?_⟩
  · rw [buildStorage, if_pos hrouted]
    exact boots_routed.mpr ⟨classes', roots, _, hclasses, hroots, rfl, hsetup'⟩
  · obtain ⟨-, hhome, -⟩ := withQuotas_cases hsetup'
    rw [hhome]
    exact head_resolve_congr hmade repo

-- What is changed while the registry runs outlasts it if the flags are changed with it:
-- the registry that comes up with the changed flags stores every repository where the
-- running one does, under the same quotas.
theorem reboot_routes (hboot : Boots (buildStorage openVolume overflowChecks cli) setup)
    (hrouter : setup.router = some router) {posts : List (Nat × RepoRootRequest)}
    (hseps : ∀ post ∈ posts, '=' ∉ post.2.pattern.toList) :
    let live := posts.foldl (posted openVolume) (router, cli)
    ∃ setup', Boots (buildStorage openVolume overflowChecks live.2) setup' ∧
      setup'.quota = setup.quota ∧
      ∀ repo, (setup'.storage.home repo).head = (live.1.resolve repo).head := by
  have hrouted := routed_of_router hboot hrouter
  rw [buildStorage, if_pos hrouted] at hboot
  obtain ⟨classes, roots, router', hclasses, hroots, hrules, hlast⟩ := boots_routed.mp hboot
  obtain ⟨hsetup, -, -⟩ := withQuotas_cases hlast
  obtain rfl : router = router' := Option.some.inj (hrouter.symm.trans hsetup)
  have htable : Says openVolume cli (router.rules.map route) :=
    ⟨classes, roots, hclasses, hroots, routes_built hrules⟩
  have hagrees : Agrees openVolume cli (router, cli) := ⟨htable, rfl, rfl, rfl⟩
  exact (hagrees.run hseps).boots hlast

end Reboot

-- A class is moved, a rule is added, and a request is refused.
def threePosts : List (Nat × RepoRootRequest) :=
  [(2, ⟨"data/*", "/new"⟩), (3, ⟨"tmp/*", "/slow"⟩), (4, ⟨"tmp/*", "/root"⟩)]

theorem threePosts_outlast :
    let live := threePosts.foldl (posted volumes) (twoRules, twoFlags)
    ∃ setup', Boots (buildStorage volumes false live.2) setup' ∧
      setup'.quota = twoFlagsSetup.quota ∧
      ∀ repo, (setup'.storage.home repo).head = (live.1.resolve repo).head :=
  reboot_routes twoFlags_boots rfl (by decide)

end RspaceRegistry.Boot
