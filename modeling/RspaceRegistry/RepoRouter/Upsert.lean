import Mathlib.Data.List.Induction
import RspaceRegistry.RepoRouter.Theorems

namespace RspaceRegistry.RepoRouter

theorem scan_cons (repo : String) (rule : RouteRule) (rest : List RouteRule) (i : Nat)
    (best : Option (Nat × Nat)) :
    scan repo (rule :: rest) i best = scan repo rest (i + 1) (scan repo [rule] i best) := by
  by_cases hm : globMatch rule.pattern repo = true
  · cases best with
    | none => simp only [scan, hm, if_true]
    | some found =>
        obtain ⟨len, j⟩ := found
        by_cases hlt : rule.pattern.utf8ByteSize > len <;>
          simp only [scan, hm, hlt, if_true, if_false]
  · simp only [scan, hm, if_false, Bool.false_eq_true]

theorem scan_append (repo : String) (rules rules' : List RouteRule) (i : Nat)
    (best : Option (Nat × Nat)) : scan repo (rules ++ rules') i best =
      scan repo rules' (i + rules.length) (scan repo rules i best) := by
  induction rules generalizing i best with
  | nil => rfl
  | cons rule rest ih =>
      have hlen : i + (rule :: rest).length = i + 1 + rest.length := by
        rw [List.length_cons]
        omega
      rw [List.cons_append, scan_cons, ih, hlen, scan_cons repo rule rest]

-- Rule `j` goes before rule `i` for this repository: it matches, and its pattern
-- is longer, or as long and declared earlier.
def Outranks (rules : List RouteRule) (repo : String) (j i : Nat) : Prop :=
  ∃ rule rule', rules[j]? = some rule ∧ rules[i]? = some rule' ∧
    globMatch rule.pattern repo = true ∧
      (rule'.pattern.utf8ByteSize < rule.pattern.utf8ByteSize ∨
        rule.pattern.utf8ByteSize = rule'.pattern.utf8ByteSize ∧ j < i)

-- What the scan looks for.
def Wins (rules : List RouteRule) (repo : String) (len i : Nat) : Prop :=
  ∃ rule, rules[i]? = some rule ∧ globMatch rule.pattern repo = true ∧
    rule.pattern.utf8ByteSize = len ∧ ∀ j, ¬Outranks rules repo j i

section Append

variable {rules : List RouteRule} {rule : RouteRule} {repo : String}

theorem getElem_append_lt {i : Nat} {found : RouteRule} (h : rules[i]? = some found) :
    (rules ++ [rule])[i]? = some found := by
  obtain ⟨hi, _⟩ := List.getElem?_eq_some_iff.mp h
  rw [List.getElem?_append_left hi]
  exact h

theorem getElem_append_last : (rules ++ [rule])[rules.length]? = some rule := by
  rw [List.getElem?_append_right (Nat.le_refl _), Nat.sub_self]
  rfl

theorem getElem_append_cases {i : Nat} {found : RouteRule}
    (h : (rules ++ [rule])[i]? = some found) :
    rules[i]? = some found ∨ i = rules.length ∧ rule = found := by
  obtain ⟨hi, _⟩ := List.getElem?_eq_some_iff.mp h
  rw [List.length_append, List.length_singleton] at hi
  by_cases hlt : i < rules.length
  · rw [List.getElem?_append_left hlt] at h
    exact .inl h
  · obtain rfl : i = rules.length := by omega
    rw [getElem_append_last] at h
    exact .inr ⟨rfl, Option.some.inj h⟩

-- The appended rule takes over only when it is strictly longer.
theorem wins_append {len i : Nat} (h : Wins rules repo len i)
    (hrule : globMatch rule.pattern repo = true → rule.pattern.utf8ByteSize ≤ len) :
    Wins (rules ++ [rule]) repo len i := by
  obtain ⟨winner, hget, hm, hlen, hbest⟩ := h
  have hi : i < rules.length := (List.getElem?_eq_some_iff.mp hget).1
  refine ⟨winner, getElem_append_lt hget, hm, hlen, ?_⟩
  intro j hj
  obtain ⟨other, winner', hother, hwinner', hmo, hrank⟩ := hj
  rw [getElem_append_lt hget] at hwinner'
  obtain rfl := Option.some.inj hwinner'
  rcases getElem_append_cases hother with hother | ⟨rfl, rfl⟩
  · exact hbest j ⟨other, winner, hother, hget, hmo, hrank⟩
  · have hle := hrule hmo
    omega

theorem wins_append_last {len i : Nat} (h : Wins rules repo len i)
    (hm : globMatch rule.pattern repo = true) (hlt : len < rule.pattern.utf8ByteSize) :
    Wins (rules ++ [rule]) repo rule.pattern.utf8ByteSize rules.length := by
  obtain ⟨winner, hget, hmw, hlen, hbest⟩ := h
  refine ⟨rule, getElem_append_last, hm, rfl, ?_⟩
  intro j hj
  obtain ⟨other, last, hother, hlast, hmo, hrank⟩ := hj
  rw [getElem_append_last] at hlast
  obtain rfl := Option.some.inj hlast
  rcases getElem_append_cases hother with hother | ⟨rfl, rfl⟩
  · apply hbest j
    exact ⟨other, winner, hother, hget, hmo, .inl (by omega)⟩
  · omega

theorem wins_append_only (hnone : ∀ other ∈ rules, globMatch other.pattern repo = false)
    (hm : globMatch rule.pattern repo = true) :
    Wins (rules ++ [rule]) repo rule.pattern.utf8ByteSize rules.length := by
  refine ⟨rule, getElem_append_last, hm, rfl, ?_⟩
  intro j hj
  obtain ⟨other, last, hother, hlast, hmo, hrank⟩ := hj
  rcases getElem_append_cases hother with hother | ⟨rfl, rfl⟩
  · have hf := hnone other (List.mem_of_getElem? hother)
    rw [hf] at hmo
    cases hmo
  · rw [getElem_append_last] at hlast
    obtain rfl := Option.some.inj hlast
    omega

end Append

-- The scan finds the longest match, and among equally long ones the first.
theorem scan_spec (repo : String) (rules : List RouteRule) :
    (scan repo rules 0 none = none ∧ ∀ rule ∈ rules, globMatch rule.pattern repo = false) ∨
      ∃ len i, scan repo rules 0 none = some (len, i) ∧ Wins rules repo len i := by
  induction rules using List.reverseRecOn with
  | nil => exact .inl ⟨rfl, by simp⟩
  | append_singleton rules rule ih =>
      rw [scan_append, Nat.zero_add]
      rcases ih with ⟨hscan, hnone⟩ | ⟨len, i, hscan, hwins⟩
      · rw [hscan]
        by_cases hm : globMatch rule.pattern repo = true
        · refine .inr ⟨_, _, ?_, wins_append_only hnone hm⟩
          simp [scan, hm]
        · refine .inl ⟨by simp [scan, hm], ?_⟩
          intro other hother
          rcases List.mem_append.mp hother with hother | hother
          · exact hnone other hother
          · rw [List.mem_singleton.mp hother]
            exact Bool.eq_false_iff.mpr hm
      · rw [hscan]
        by_cases hm : globMatch rule.pattern repo = true
        · by_cases hlt : len < rule.pattern.utf8ByteSize
          · refine .inr ⟨_, _, ?_, wins_append_last hwins hm hlt⟩
            simp [scan, hm, hlt]
          · refine .inr ⟨len, i, ?_, wins_append hwins fun _ => by omega⟩
            simp [scan, hm, hlt]
        · refine .inr ⟨len, i, ?_, wins_append hwins fun h => absurd h hm⟩
          simp [scan, hm]

variable (r : RepoRouter)

theorem bestMatch_eq_none {repo : String}
    (h : ∀ rule ∈ r.rules, globMatch rule.pattern repo = false) : r.bestMatch repo = none := by
  rcases scan_spec repo r.rules with ⟨hscan, _⟩ | ⟨len, i, hscan, rule, hget, hm, _⟩
  · rw [bestMatch, hscan]
    rfl
  · rw [h rule (List.mem_of_getElem? hget)] at hm
    cases hm

-- A rule that matches is the one that resolution takes iff none outranks it.
theorem bestMatch_eq_some {repo : String} {i : Nat} {rule : RouteRule}
    (hget : r.rules[i]? = some rule) (hm : globMatch rule.pattern repo = true) :
    r.bestMatch repo = some i ↔ ∀ j, ¬Outranks r.rules repo j i := by
  rcases scan_spec repo r.rules with ⟨_, hnone⟩ | ⟨len, k, hscan, winner, hk, hmk, _, hbest⟩
  · rw [hnone rule (List.mem_of_getElem? hget)] at hm
    cases hm
  · have hbm : r.bestMatch repo = some k := by
      rw [bestMatch, hscan]
      rfl
    rw [hbm, Option.some.injEq]
    constructor
    · intro h j
      rw [← h]
      exact hbest j
    · intro hi
      -- two matching rules are told apart by the length or by the index
      have h₁ : ¬Outranks r.rules repo i k := hbest i
      have h₂ : ¬Outranks r.rules repo k i := hi k
      by_contra hne
      rcases Nat.lt_trichotomy winner.pattern.utf8ByteSize rule.pattern.utf8ByteSize with
        hlt | heq | hgt
      · exact h₁ ⟨rule, winner, hget, hk, hm, .inl hlt⟩
      · rcases Nat.lt_or_gt_of_ne hne with hlt | hgt
        · exact h₂ ⟨winner, rule, hk, hget, hmk, .inr ⟨heq, hlt⟩⟩
        · exact h₁ ⟨rule, winner, hget, hk, hm, .inr ⟨heq.symm, hgt⟩⟩
      · exact h₂ ⟨winner, rule, hk, hget, hmk, .inl hgt⟩

-- Without a rule of this pattern the new one goes to the end.
theorem upsertRules_new (pattern : String) (backend : Backend) (rules : List RouteRule)
    (h : rules.findIdx? (·.pattern == pattern) = none) :
    (upsertRules pattern backend rules).2 = rules ++ [⟨pattern, backend⟩] := by
  induction rules with
  | nil => rfl
  | cons rule rest ih =>
      rw [List.findIdx?_cons] at h
      split at h
      · cases h
      · rename_i hp
        unfold upsertRules
        rw [if_neg hp, List.cons_append, ← ih (Option.map_eq_none_iff.mp h)]

section New

variable {r} {pattern : String} {backend : Backend} (hnew : r.keyIndex pattern = none)

include hnew

theorem rules_upsert_new :
    (r.upsert pattern backend).2.rules = r.rules ++ [⟨pattern, backend⟩] :=
  upsertRules_new pattern backend r.rules hnew

theorem getElem_upsert_new :
    (r.upsert pattern backend).2.rules[r.rules.length]? = some ⟨pattern, backend⟩ := by
  rw [rules_upsert_new hnew]
  exact getElem_append_last

theorem keyIndex_upsert_new :
    (r.upsert pattern backend).2.keyIndex pattern = some r.rules.length := by
  have hnone : r.rules.findIdx? (·.pattern == pattern) = none := hnew
  unfold keyIndex
  rw [rules_upsert_new hnew, List.findIdx?_append, hnone]
  simp

-- The scan passes the old rules first, and only a longer rule displaces a match.
theorem resolve_upsert_new (repo : String) : (r.upsert pattern backend).2.resolve repo =
    if (r.upsert pattern backend).2.routeIndex repo = r.rules.length then backend
    else r.resolve repo := by
  have hrules : (r.upsert pattern backend).2.rules = r.rules ++ [⟨pattern, backend⟩] :=
    rules_upsert_new hnew
  split
  · rename_i hidx
    rw [resolve_eq, hidx]
    exact backendAt_of_getElem _ (getElem_upsert_new hnew)
  · rename_i hidx
    have hsplit : scan repo (r.upsert pattern backend).2.rules 0 none =
        scan repo [⟨pattern, backend⟩] r.rules.length (scan repo r.rules 0 none) := by
      rw [hrules, scan_append, Nat.zero_add]
    have hlen : (r.upsert pattern backend).2.rules.length = r.rules.length + 1 := by
      rw [hrules, List.length_append, List.length_singleton]
    have hsame : (r.upsert pattern backend).2.bestMatch repo = r.bestMatch repo ∧
        (r.bestMatch repo).isSome := by
      unfold routeIndex at hidx
      unfold bestMatch at hidx ⊢
      rw [hsplit, hlen] at hidx
      rw [hsplit]
      cases hscan : scan repo r.rules 0 none with
      | none =>
          rw [hscan] at hidx
          exfalso
          apply hidx
          by_cases hm : globMatch pattern repo = true <;> simp [scan, hm]
      | some found =>
          obtain ⟨len, i⟩ := found
          rw [hscan] at hidx
          simp only [scan] at hidx ⊢
          split
          · split
            · rename_i hm hgt
              rw [if_pos hm, if_pos hgt] at hidx
              exact absurd rfl hidx
            · exact ⟨rfl, rfl⟩
          · exact ⟨rfl, rfl⟩
    obtain ⟨hbest, hsome⟩ := hsame
    obtain ⟨i, hi⟩ := Option.isSome_iff_exists.mp hsome
    have hlt : i < r.rules.length := by
      have hroute := r.routeIndex_lt repo
      rwa [routeIndex, hi] at hroute
    rw [resolve_eq, resolve_eq, routeIndex, routeIndex, hbest, hi]
    have hget : r.rules[i]? = some r.rules[i] := List.getElem?_eq_getElem hlt
    rw [Option.getD_some, Option.getD_some, r.backendAt_of_getElem hget]
    apply backendAt_of_getElem
    rw [hrules]
    exact getElem_append_lt hget

end New

-- Where the rule of the pattern stands after the call, and that a repository
-- moves only if that rule is the one it is routed by then.
theorem upsert_spec (pattern : String) (backend : Backend) :
    ∃ k, (r.upsert pattern backend).2.rules[k]? = some ⟨pattern, backend⟩ ∧
      (r.upsert pattern backend).2.keyIndex pattern = some k ∧
      ∀ repo, (r.upsert pattern backend).2.resolve repo =
        if (r.upsert pattern backend).2.routeIndex repo = k then backend else r.resolve repo := by
  cases hkey : r.keyIndex pattern with
  | none =>
      exact ⟨r.rules.length, getElem_upsert_new hkey, keyIndex_upsert_new hkey,
        resolve_upsert_new hkey⟩
  | some k =>
      refine ⟨k, ?_, (keyIndex_upsert hkey pattern).trans hkey, ?_⟩
      · obtain ⟨rule, hget, hp⟩ := r.pattern_of_keyIndex hkey
        have h := upsertRules_getElem pattern backend r.rules hkey k
        rw [if_pos rfl, hget] at h
        rw [← hp] at h ⊢
        exact h
      · intro repo
        rw [resolve_upsert hkey, routeIndex_upsert hkey]

-- A rule that matches nothing here is skipped, whatever its backend.
theorem rule_upsert_matches {pattern repo : String} (backend : Backend)
    (hm : globMatch pattern repo = false) :
    (∃ rule ∈ r.rules, globMatch rule.pattern repo = true) ↔
      ∃ rule ∈ (r.upsert pattern backend).2.rules, globMatch rule.pattern repo = true := by
  have hpat : ∀ rules : List RouteRule, (∃ rule ∈ rules, globMatch rule.pattern repo = true) ↔
      ∃ p ∈ rules.map (·.pattern), globMatch p repo = true := by
    intro rules
    simp
  cases hkey : r.keyIndex pattern with
  | none =>
      rw [rules_upsert_new hkey]
      simp [or_and_right, exists_or, hm]
  | some k =>
      have hpatterns := upsertRules_patterns pattern backend r.rules hkey
      rw [hpat, hpat]
      exact iff_of_eq (congrArg (fun ps => ∃ p ∈ ps, globMatch p repo = true) hpatterns.symm)

-- An upsert moves the repositories that the rule wins, and with them those that
-- no rule matches when the rule is the last one.
theorem resolve_upsert_local (r : RepoRouter) (pattern : String) (backend : Backend)
    (repo : String) :
    ∃ k, (r.upsert pattern backend).2.rules[k]? = some ⟨pattern, backend⟩ ∧
      (r.upsert pattern backend).2.keyIndex pattern = some k ∧
      (globMatch pattern repo = false →
        (∃ rule ∈ r.rules, globMatch rule.pattern repo = true) →
        (r.upsert pattern backend).2.resolve repo = r.resolve repo) ∧
      (globMatch pattern repo = false →
        (∀ rule ∈ r.rules, globMatch rule.pattern repo = false) →
        (r.upsert pattern backend).2.resolve repo =
          if k + 1 = (r.upsert pattern backend).2.rules.length then backend
          else r.resolve repo) ∧
      (globMatch pattern repo = true →
        (∀ j, ¬Outranks (r.upsert pattern backend).2.rules repo j k) →
        (r.upsert pattern backend).2.resolve repo = backend) ∧
      (globMatch pattern repo = true →
        (∃ j, Outranks (r.upsert pattern backend).2.rules repo j k) →
        (r.upsert pattern backend).2.resolve repo = r.resolve repo) := by
  obtain ⟨k, hget, hkey, hresolve⟩ := r.upsert_spec pattern backend
  refine ⟨k, hget, hkey, ?_, ?_, ?_, ?_⟩
  · intro hm hsome
    obtain ⟨rule, hrule, hmr⟩ := (r.rule_upsert_matches backend hm).mp hsome
    rw [hresolve, if_neg]
    intro hidx
    obtain ⟨i, hi⟩ := List.getElem?_of_mem hrule
    rcases scan_spec repo (r.upsert pattern backend).2.rules with
      ⟨_, hnone⟩ | ⟨len, j, hscan, winner, hj, hmj, _⟩
    · rw [hnone rule hrule] at hmr
      cases hmr
    · have hjk : j = k := by
        rw [routeIndex, bestMatch, hscan] at hidx
        exact hidx
      rw [hjk, hget] at hj
      rw [← Option.some.inj hj, hm] at hmj
      cases hmj
  · intro hm hnone
    have hnone' : ∀ rule ∈ (r.upsert pattern backend).2.rules,
        globMatch rule.pattern repo = false := by
      intro rule hrule
      by_contra hne
      obtain ⟨other, hother, hmo⟩ := (r.rule_upsert_matches backend hm).mpr
        ⟨rule, hrule, Bool.eq_true_of_not_eq_false hne⟩
      rw [hnone other hother] at hmo
      cases hmo
    have hlen := List.length_pos_of_ne_nil (r.upsert pattern backend).2.nonempty
    rw [hresolve, routeIndex, bestMatch_eq_none _ hnone', Option.getD_none]
    refine if_congr ?_ rfl rfl
    omega
  · intro hm hbest
    have hidx := (bestMatch_eq_some _ hget hm).mpr hbest
    rw [hresolve, routeIndex, hidx]
    exact if_pos rfl
  · rintro hm ⟨j, hj⟩
    rw [hresolve, if_neg]
    intro hidx
    have hbest := bestMatch_of_globMatch _ hkey hm
    rw [hidx] at hbest
    exact (bestMatch_eq_some _ hget hm).mp hbest j hj

-- A rule for `logs/*` takes an unmapped repository off the volume of `data/*`.
theorem resolve_upsert_unmatched :
    ¬∀ (r : RepoRouter) (pattern : String) (backend : Backend) (repo : String),
      globMatch pattern repo = false →
        (r.upsert pattern backend).2.resolve repo = r.resolve repo := by
  intro h
  have hmoved := h ⟨[⟨"data/*", .fs 1 1⟩], List.cons_ne_nil _ _⟩ "logs/*" (.fs 2 2) "apps"
    (by decide)
  revert hmoved
  decide

end RspaceRegistry.RepoRouter
