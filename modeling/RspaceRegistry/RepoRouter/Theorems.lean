import RspaceRegistry.RepoRouter

namespace RspaceRegistry.RepoRouter

-- Which rule a repository is routed by depends on the patterns alone.
theorem scan_congr (repo : String) (rules rules' : List RouteRule) (i : Nat)
    (best : Option (Nat × Nat)) (h : rules.map (·.pattern) = rules'.map (·.pattern)) :
    scan repo rules i best = scan repo rules' i best := by
  induction rules generalizing rules' i best with
  | nil =>
      have hnil : rules' = [] := List.map_eq_nil_iff.mp h.symm
      rw [hnil]
  | cons rule rest ih =>
      cases rules' with
      | nil => cases h
      | cons rule' rest' =>
          obtain ⟨hp, hr⟩ := List.cons.inj h
          have hp' : rule.pattern = rule'.pattern := hp
          simp only [scan]
          rw [hp']
          have hi := fun best => ih rest' (i + 1) best hr
          split
          · cases best with
            | none => exact hi _
            | some found =>
                obtain ⟨len, j⟩ := found
                simp only
                split <;> exact hi _
          · exact hi _

-- A match that the scan finds is one of the rules it went through.
theorem scan_sound (repo : String) (rules : List RouteRule) (i : Nat) (best : Option (Nat × Nat))
    (len j : Nat) (h : scan repo rules i best = some (len, j)) :
    best = some (len, j) ∨ ∃ k rule, j = i + k ∧ rules[k]? = some rule ∧
      globMatch rule.pattern repo = true := by
  induction rules generalizing i best with
  | nil => exact .inl h
  | cons rule rest ih =>
      have hrest : ∀ best', scan repo rest (i + 1) best' = some (len, j) →
          best' = some (len, j) ∨ ∃ k rule', j = i + k ∧ (rule :: rest)[k]? = some rule' ∧
            globMatch rule'.pattern repo = true := by
        intro best' h'
        rcases ih (i + 1) best' h' with hb | ⟨k, rule', hj, hk, hm⟩
        · exact .inl hb
        · exact .inr ⟨k + 1, rule', by omega, by simpa using hk, hm⟩
      have hhere : globMatch rule.pattern repo = true →
          some (rule.pattern.utf8ByteSize, i) = some (len, j) →
          ∃ k rule', j = i + k ∧ (rule :: rest)[k]? = some rule' ∧
            globMatch rule'.pattern repo = true := by
        intro hm heq
        obtain ⟨_, rfl⟩ := Prod.mk.inj (Option.some.inj heq)
        exact ⟨0, rule, by omega, rfl, hm⟩
      unfold scan at h
      split at h
      · rename_i hm
        cases best with
        | none =>
            rcases hrest _ h with hb | hk
            · exact .inr (hhere hm hb)
            · exact .inr hk
        | some found =>
            obtain ⟨flen, fj⟩ := found
            simp only at h
            split at h
            · rcases hrest _ h with hb | hk
              · exact .inr (hhere hm hb)
              · exact .inr hk
            · exact hrest _ h
      · exact hrest _ h

theorem scan_some (repo : String) (rules : List RouteRule) (i : Nat) (best : Option (Nat × Nat))
    (h : best.isSome ∨ ∃ rule ∈ rules, globMatch rule.pattern repo = true) :
    (scan repo rules i best).isSome := by
  induction rules generalizing i best with
  | nil =>
      rcases h with h | ⟨rule, hr, _⟩
      · exact h
      · cases hr
  | cons rule rest ih =>
      unfold scan
      split
      · cases best with
        | none => exact ih _ _ (.inl rfl)
        | some found =>
            obtain ⟨len, j⟩ := found
            simp only
            split <;> exact ih _ _ (.inl rfl)
      · rename_i hm
        refine ih _ _ (h.imp_right ?_)
        rintro ⟨rule', hr, hm'⟩
        rcases List.mem_cons.mp hr with rfl | hr
        · exact absurd hm' hm
        · exact ⟨rule', hr, hm'⟩

theorem ext {r r' : RepoRouter} (h : r.rules = r'.rules) : r = r' := by
  cases r
  cases r'
  cases h
  rfl

variable (r : RepoRouter)

-- The rule that is found by its exact pattern.
def keyIndex (pattern : String) : Option Nat := r.rules.findIdx? (·.pattern == pattern)

-- The rule that a repository is routed by, the last one if none matches.
def routeIndex (repo : String) : Nat := (r.bestMatch repo).getD (r.rules.length - 1)

def backendAt (i : Nat) : Backend := (r.rules.getD i r.last).backend

theorem resolve_eq (repo : String) : r.resolve repo = r.backendAt (r.routeIndex repo) := by
  unfold resolve routeIndex backendAt
  cases r.bestMatch repo with
  | some i => rfl
  | none =>
      have hlen : r.rules.length - 1 < r.rules.length := by
        have := List.length_pos_of_ne_nil r.nonempty
        omega
      simp only [Option.getD_none, List.getD_eq_getElem?_getD, List.getElem?_eq_getElem hlen,
        Option.getD_some, last, List.getLast_eq_getElem]

theorem keyIndex_lt {pattern : String} {k : Nat} (h : r.keyIndex pattern = some k) :
    k < r.rules.length := (List.findIdx?_eq_some_iff_getElem.mp h).1

theorem pattern_of_keyIndex {pattern : String} {k : Nat} (h : r.keyIndex pattern = some k) :
    ∃ rule, r.rules[k]? = some rule ∧ rule.pattern = pattern := by
  obtain ⟨hk, hp, _⟩ := List.findIdx?_eq_some_iff_getElem.mp h
  exact ⟨r.rules[k], List.getElem?_eq_getElem hk, by simpa using hp⟩

theorem backendAt_of_getElem {i : Nat} {rule : RouteRule} (h : r.rules[i]? = some rule) :
    r.backendAt i = rule.backend := by
  rw [backendAt, List.getD_eq_getElem?_getD, h, Option.getD_some]

theorem backendAt_mem {i : Nat} (h : i < r.rules.length) :
    ∃ rule ∈ r.rules, rule.backend = r.backendAt i :=
  ⟨r.rules[i], List.getElem_mem h, (r.backendAt_of_getElem (List.getElem?_eq_getElem h)).symm⟩

theorem backendForPattern_eq (pattern : String) :
    r.backendForPattern pattern = (r.keyIndex pattern).map r.backendAt := by
  unfold backendForPattern
  rw [List.find?_eq_bind_findIdx?_getElem?]
  change ((r.keyIndex pattern).bind fun i => r.rules[i]?).map (·.backend) = _
  cases hk : r.keyIndex pattern with
  | none => rfl
  | some k =>
      have hget := List.getElem?_eq_getElem (r.keyIndex_lt hk)
      rw [Option.bind_some, hget, Option.map_some, Option.map_some, r.backendAt_of_getElem hget]

theorem routeIndex_lt (repo : String) : r.routeIndex repo < r.rules.length := by
  unfold routeIndex bestMatch
  cases hscan : scan repo r.rules 0 none with
  | none =>
      have := List.length_pos_of_ne_nil r.nonempty
      simp only [Option.map_none, Option.getD_none]
      omega
  | some found =>
      obtain ⟨len, j⟩ := found
      rcases scan_sound repo r.rules 0 none len j hscan with hb | ⟨k, rule, hj, hk, _⟩
      · cases hb
      · obtain ⟨hlt, _⟩ := List.getElem?_eq_some_iff.mp hk
        simp only [Option.map_some, Option.getD_some]
        omega

-- The repository is routed by the rule with this pattern, by a match of its own.
def RoutedBy (pattern repo : String) : Prop :=
  ∃ k, r.keyIndex pattern = some k ∧ r.bestMatch repo = some k

theorem globMatch_of_routedBy {pattern repo : String} (h : r.RoutedBy pattern repo) :
    globMatch pattern repo = true := by
  obtain ⟨k, hkey, hbest⟩ := h
  obtain ⟨⟨len, j⟩, hscan, rfl⟩ := Option.map_eq_some_iff.mp hbest
  rcases scan_sound repo r.rules 0 none len j hscan with hb | ⟨i, rule, hj, hi, hm⟩
  · cases hb
  · obtain ⟨rule', hget, hp⟩ := r.pattern_of_keyIndex hkey
    have hij : i = j := by omega
    rw [hij, hget] at hi
    rw [← hp, Option.some.inj hi]
    exact hm

theorem routeIndex_of_routedBy {pattern repo : String} {k : Nat} (hkey : r.keyIndex pattern = some k)
    (h : r.RoutedBy pattern repo) : r.routeIndex repo = k := by
  obtain ⟨k', hkey', hbest⟩ := h
  rw [hkey] at hkey'
  obtain rfl := Option.some.inj hkey'
  rw [routeIndex, hbest]
  rfl

-- A repository that matches the pattern of a rule is routed by a match.
theorem bestMatch_of_globMatch {pattern repo : String} {k : Nat} (hkey : r.keyIndex pattern = some k)
    (hm : globMatch pattern repo = true) : r.bestMatch repo = some (r.routeIndex repo) := by
  obtain ⟨rule, hget, hp⟩ := r.pattern_of_keyIndex hkey
  have hsome : (scan repo r.rules 0 none).isSome :=
    scan_some repo r.rules 0 none (.inr ⟨rule, List.mem_of_getElem? hget, by rw [hp]; exact hm⟩)
  obtain ⟨found, hfound⟩ := Option.isSome_iff_exists.mp hsome
  rw [routeIndex, bestMatch, hfound]
  rfl

theorem routedBy_iff {pattern repo : String} {k : Nat} (hkey : r.keyIndex pattern = some k) :
    r.RoutedBy pattern repo ↔ globMatch pattern repo = true ∧ r.routeIndex repo = k := by
  constructor
  · intro h
    exact ⟨r.globMatch_of_routedBy h, r.routeIndex_of_routedBy hkey h⟩
  · rintro ⟨hm, rfl⟩
    exact ⟨_, hkey, r.bestMatch_of_globMatch hkey hm⟩

-- The repository reaches its backend through the rule with this pattern: by a
-- match, or because the rule is the last one and no rule matches.
def RoutedThrough (pattern repo : String) : Prop := r.keyIndex pattern = some (r.routeIndex repo)

instance (pattern repo : String) : Decidable (r.RoutedThrough pattern repo) :=
  inferInstanceAs (Decidable (_ = _))

instance (pattern repo : String) : Decidable (r.RoutedBy pattern repo) :=
  decidable_of_iff (r.keyIndex pattern = r.bestMatch repo ∧ (r.bestMatch repo).isSome) (by
    unfold RoutedBy
    cases r.bestMatch repo <;> simp)

theorem routedThrough_of_routedBy {pattern repo : String} (h : r.RoutedBy pattern repo) :
    r.RoutedThrough pattern repo := by
  obtain ⟨k, hkey, hbest⟩ := h
  rw [RoutedThrough, r.routeIndex_of_routedBy hkey ⟨k, hkey, hbest⟩]
  exact hkey

theorem routedBy_iff_through {pattern repo : String} {k : Nat}
    (hkey : r.keyIndex pattern = some k) :
    r.RoutedBy pattern repo ↔ globMatch pattern repo = true ∧ r.RoutedThrough pattern repo := by
  rw [r.routedBy_iff hkey, RoutedThrough, hkey, Option.some.injEq]
  exact and_congr_right fun _ => eq_comm

theorem resolve_of_routedThrough {pattern repo : String} {backend : Backend}
    (hrule : r.backendForPattern pattern = some backend) (h : r.RoutedThrough pattern repo) :
    r.resolve repo = backend := by
  rw [backendForPattern_eq, h, Option.map_some] at hrule
  rw [resolve_eq]
  exact Option.some.inj hrule

theorem exists_keyIndex {pattern : String} {backend : Backend}
    (hrule : r.backendForPattern pattern = some backend) : ∃ k, r.keyIndex pattern = some k := by
  rw [backendForPattern_eq] at hrule
  obtain ⟨k, hkey, _⟩ := Option.map_eq_some_iff.mp hrule
  exact ⟨k, hkey⟩

theorem mem_of_backendForPattern {pattern : String} {backend : Backend}
    (hrule : r.backendForPattern pattern = some backend) :
    ∃ rule ∈ r.rules, rule.backend = backend := by
  rw [backendForPattern_eq] at hrule
  obtain ⟨k, hkey, hat⟩ := Option.map_eq_some_iff.mp hrule
  rw [← hat]
  exact r.backendAt_mem (r.keyIndex_lt hkey)

theorem mem_of_resolve (repo : String) : ∃ rule ∈ r.rules, rule.backend = r.resolve repo := by
  rw [resolve_eq]
  exact r.backendAt_mem (r.routeIndex_lt repo)

-- Putting a new backend behind an existing rule changes that rule only.

theorem upsertRules_getElem (pattern : String) (backend : Backend) (rules : List RouteRule)
    {k : Nat} (h : rules.findIdx? (·.pattern == pattern) = some k) (j : Nat) :
    (upsertRules pattern backend rules).2[j]? =
      if j = k then (rules[j]?).map fun rule => { rule with backend } else rules[j]? := by
  induction rules generalizing k j with
  | nil => cases h
  | cons rule rest ih =>
      rw [List.findIdx?_cons] at h
      unfold upsertRules
      split at h
      · rename_i hp
        obtain rfl := Option.some.inj h
        rw [if_pos hp]
        cases j with
        | zero => rfl
        | succ j => simp
      · rename_i hp
        obtain ⟨k', hk', rfl⟩ := Option.map_eq_some_iff.mp h
        rw [if_neg hp]
        cases j with
        | zero => simp
        | succ j => simpa using ih hk' j

theorem upsertRules_patterns (pattern : String) (backend : Backend) (rules : List RouteRule)
    {k : Nat} (h : rules.findIdx? (·.pattern == pattern) = some k) :
    (upsertRules pattern backend rules).2.map (·.pattern) = rules.map (·.pattern) := by
  apply List.ext_getElem?
  intro j
  rw [List.getElem?_map, List.getElem?_map, upsertRules_getElem pattern backend rules h]
  split
  · rw [Option.map_map]
    rfl
  · rfl

section Upsert

variable {r} {pattern : String} {backend : Backend} {k : Nat} (hkey : r.keyIndex pattern = some k)

include hkey

theorem keyIndex_upsert (pattern' : String) :
    (r.upsert pattern backend).2.keyIndex pattern' = r.keyIndex pattern' := by
  have hp := upsertRules_patterns pattern backend r.rules hkey
  have hk : ∀ rules : List RouteRule, rules.findIdx? (·.pattern == pattern') =
      (rules.map (·.pattern)).findIdx? (· == pattern') := by
    intro rules
    rw [List.findIdx?_map]
    rfl
  exact (hk _).trans ((congrArg (List.findIdx? (· == pattern')) hp).trans (hk _).symm)

theorem length_upsert : (r.upsert pattern backend).2.rules.length = r.rules.length := by
  have hp := congrArg List.length (upsertRules_patterns pattern backend r.rules hkey)
  rw [List.length_map, List.length_map] at hp
  exact hp

theorem bestMatch_upsert (repo : String) :
    (r.upsert pattern backend).2.bestMatch repo = r.bestMatch repo := by
  rw [bestMatch, bestMatch]
  exact congrArg (Option.map Prod.snd) (scan_congr repo _ r.rules 0 none
    (upsertRules_patterns pattern backend r.rules hkey))

theorem routeIndex_upsert (repo : String) :
    (r.upsert pattern backend).2.routeIndex repo = r.routeIndex repo := by
  rw [routeIndex, routeIndex, bestMatch_upsert hkey, length_upsert hkey]

theorem routedBy_upsert (repo : String) :
    (r.upsert pattern backend).2.RoutedBy pattern repo ↔ r.RoutedBy pattern repo := by
  simp only [RoutedBy, keyIndex_upsert hkey, bestMatch_upsert hkey]

theorem backendAt_upsert {i : Nat} (hi : i < r.rules.length) :
    (r.upsert pattern backend).2.backendAt i = if i = k then backend else r.backendAt i := by
  have hold := List.getElem?_eq_getElem hi
  have hget := upsertRules_getElem pattern backend r.rules hkey i
  rw [hold] at hget
  by_cases hik : i = k
  · rw [if_pos hik] at hget
    rw [if_pos hik]
    exact backendAt_of_getElem (r.upsert pattern backend).2 hget
  · rw [if_neg hik] at hget
    rw [if_neg hik, r.backendAt_of_getElem hold]
    exact backendAt_of_getElem (r.upsert pattern backend).2 hget

theorem resolve_upsert (repo : String) : (r.upsert pattern backend).2.resolve repo =
    if r.routeIndex repo = k then backend else r.resolve repo := by
  rw [resolve_eq, routeIndex_upsert hkey, backendAt_upsert hkey (r.routeIndex_lt repo), resolve_eq]

theorem routedThrough_upsert (repo : String) :
    (r.upsert pattern backend).2.RoutedThrough pattern repo ↔ r.RoutedThrough pattern repo := by
  rw [RoutedThrough, RoutedThrough, keyIndex_upsert hkey, routeIndex_upsert hkey]

theorem resolve_upsert_through {repo : String} (h : r.RoutedThrough pattern repo) :
    (r.upsert pattern backend).2.resolve repo = backend := by
  rw [RoutedThrough, hkey] at h
  rw [resolve_upsert hkey, if_pos (Option.some.inj h).symm]

theorem resolve_upsert_other {repo : String} (h : ¬r.RoutedThrough pattern repo) :
    (r.upsert pattern backend).2.resolve repo = r.resolve repo := by
  rw [RoutedThrough, hkey] at h
  rw [resolve_upsert hkey, if_neg fun heq => h (congrArg some heq.symm)]

theorem backendForPattern_upsert :
    (r.upsert pattern backend).2.backendForPattern pattern = some backend := by
  rw [backendForPattern_eq, keyIndex_upsert hkey, hkey, Option.map_some,
    backendAt_upsert hkey (r.keyIndex_lt hkey), if_pos rfl]

theorem upsert_upsert (backend' : Backend) :
    ((r.upsert pattern backend).2.upsert pattern backend').2 = (r.upsert pattern backend').2 := by
  have hkey' : (r.upsert pattern backend).2.keyIndex pattern = some k :=
    (keyIndex_upsert hkey pattern).trans hkey
  apply RepoRouter.ext
  apply List.ext_getElem?
  intro j
  have h₁ := upsertRules_getElem pattern backend r.rules hkey j
  have h₂ := upsertRules_getElem pattern backend' r.rules hkey j
  have h₃ := upsertRules_getElem pattern backend' (upsertRules pattern backend r.rules).2 hkey' j
  refine h₃.trans (Eq.trans ?_ h₂.symm)
  rw [h₁]
  split
  · rw [Option.map_map]
    rfl
  · rfl

end Upsert

end RspaceRegistry.RepoRouter
