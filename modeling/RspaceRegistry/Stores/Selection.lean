import RspaceRegistry.RepoRouter.Upsert
import RspaceRegistry.Stores.Quota

namespace RspaceRegistry.Stores

-- The quota that is chosen for a repository, against the rule that routes it.

section MaxByKey

variable {α : Type} (key : α → Nat)

-- What one more element changes.
theorem maxByKey_snoc (list : List α) (next : α) : maxByKey key (list ++ [next]) =
    match maxByKey key list with
    | none => some next
    | some best => some (if key best ≤ key next then next else best) := by
  cases list with
  | nil => rfl
  | cons first rest =>
      rw [List.cons_append, maxByKey, maxByKey, List.foldl_append]
      rfl

theorem maxByKey_map {β : Type} (f : β → α) (list : List β) :
    maxByKey key (list.map f) = (maxByKey (fun b => key (f b)) list).map f := by
  induction list using List.reverseRecOn with
  | nil => rfl
  | append_singleton list next ih =>
      rw [List.map_append, List.map_singleton, maxByKey_snoc, ih, maxByKey_snoc]
      cases maxByKey (fun b => key (f b)) list with
      | none => rfl
      | some best =>
          simp only [Option.map_some, apply_ite f]

end MaxByKey

-- Where the quota stands to which `matching_quota` gives a reference.
def matchingIndex (quotas : List Quota) (repo : String) : Option Nat :=
  (maxByKey (fun entry => entry.1.pattern.utf8ByteSize)
    (quotas.zipIdx.filter fun entry => globMatch entry.1.pattern repo)).map Prod.snd

theorem matchingQuota_eq (quotas : List Quota) (repo : String) :
    matchingQuota quotas repo = (maxByKey (fun entry => entry.1.pattern.utf8ByteSize)
      (quotas.zipIdx.filter fun entry => globMatch entry.1.pattern repo)).map Prod.fst := by
  rw [← maxByKey_map (fun quota : Quota => quota.pattern.utf8ByteSize) Prod.fst, matchingQuota]
  congr 1
  have hfilter := List.filter_map (f := Prod.fst) (p := fun quota : Quota =>
    globMatch quota.pattern repo) (l := quotas.zipIdx)
  rw [List.zipIdx_map_fst] at hfilter
  exact hfilter

-- The quota at an index is the last of the longest that match.
def LastLongest (quotas : List Quota) (repo : String) (i : Nat) (quota : Quota) : Prop :=
  quotas[i]? = some quota ∧ globMatch quota.pattern repo = true ∧
    ∀ j other, quotas[j]? = some other → globMatch other.pattern repo = true →
      other.pattern.utf8ByteSize < quota.pattern.utf8ByteSize ∨
        other.pattern.utf8ByteSize = quota.pattern.utf8ByteSize ∧ j ≤ i

theorem selected_spec (quotas : List Quota) (repo : String) :
    let selected := maxByKey (fun entry => entry.1.pattern.utf8ByteSize)
      (quotas.zipIdx.filter fun entry => globMatch entry.1.pattern repo)
    (selected = none ∧ ∀ quota ∈ quotas, globMatch quota.pattern repo = false) ∨
      ∃ quota i, selected = some (quota, i) ∧ LastLongest quotas repo i quota := by
  simp only
  induction quotas using List.reverseRecOn with
  | nil => exact .inl ⟨rfl, by simp⟩
  | append_singleton quotas next ih =>
      have hsplit : ∀ j other, (quotas ++ [next])[j]? = some other →
          quotas[j]? = some other ∧ j < quotas.length ∨ j = quotas.length ∧ other = next := by
        intro j other hget
        rcases Nat.lt_trichotomy j quotas.length with hlt | rfl | hgt
        · rw [List.getElem?_append_left hlt] at hget
          exact .inl ⟨hget, hlt⟩
        · rw [List.getElem?_concat_length] at hget
          exact .inr ⟨rfl, (Option.some.inj hget).symm⟩
        · rw [List.getElem?_eq_none (by simp; omega)] at hget
          cases hget
      rw [List.zipIdx_append, List.filter_append]
      simp only [List.zipIdx_singleton, Nat.zero_add]
      by_cases hm : globMatch next.pattern repo = true
      · simp only [List.filter_singleton, hm, cond_true, maxByKey_snoc]
        right
        have hnext : (quotas ++ [next])[quotas.length]? = some next := List.getElem?_concat_length
        rcases ih with ⟨hnone, hall⟩ | ⟨best, i, hbest, hget, hmatch, hlongest⟩
        · refine ⟨next, quotas.length, by rw [hnone], hnext, hm, fun j other hother hmo => ?_⟩
          rcases hsplit j other hother with ⟨hold, -⟩ | ⟨rfl, rfl⟩
          · rw [hall other (List.mem_of_getElem? hold)] at hmo
            cases hmo
          · exact .inr ⟨rfl, Nat.le_refl _⟩
        · rw [hbest]
          by_cases hle : best.pattern.utf8ByteSize ≤ next.pattern.utf8ByteSize
          · simp only [hle, if_true]
            refine ⟨next, quotas.length, rfl, hnext, hm, fun j other hother hmo => ?_⟩
            rcases hsplit j other hother with ⟨hold, hlt⟩ | ⟨rfl, rfl⟩
            · have hold := hlongest j other hold hmo
              omega
            · exact .inr ⟨rfl, Nat.le_refl _⟩
          · simp only [hle, if_false]
            have hi : i < quotas.length := (List.getElem?_eq_some_iff.mp hget).1
            refine ⟨best, i, rfl, by rwa [List.getElem?_append_left hi], hmatch,
              fun j other hother hmo => ?_⟩
            rcases hsplit j other hother with ⟨hold, -⟩ | ⟨rfl, rfl⟩
            · exact hlongest j other hold hmo
            · exact .inl (by omega)
      · simp only [List.filter_singleton, hm, cond_false, List.append_nil]
        rcases ih with ⟨hnone, hall⟩ | ⟨best, i, hbest, hget, hmatch, hlongest⟩
        · refine .inl ⟨hnone, fun quota hquota => ?_⟩
          rcases List.mem_append.mp hquota with hold | hnew
          · exact hall quota hold
          · rw [List.mem_singleton.mp hnew]
            simpa using hm
        · have hi : i < quotas.length := (List.getElem?_eq_some_iff.mp hget).1
          refine .inr ⟨best, i, hbest, by rwa [List.getElem?_append_left hi], hmatch,
            fun j other hother hmo => ?_⟩
          rcases hsplit j other hother with ⟨hold, -⟩ | ⟨rfl, rfl⟩
          · exact hlongest j other hold hmo
          · exact absurd hmo hm

theorem matchingIndex_spec (quotas : List Quota) (repo : String) :
    (matchingIndex quotas repo = none ∧ matchingQuota quotas repo = none ∧
      ∀ quota ∈ quotas, globMatch quota.pattern repo = false) ∨
    ∃ quota i, matchingIndex quotas repo = some i ∧ matchingQuota quotas repo = some quota ∧
      LastLongest quotas repo i quota := by
  rw [matchingIndex, matchingQuota_eq]
  rcases selected_spec quotas repo with ⟨hnone, hall⟩ | ⟨quota, i, hsome, hlast⟩
  · exact .inl ⟨by rw [hnone]; rfl, by rw [hnone]; rfl, hall⟩
  · exact .inr ⟨quota, i, by rw [hsome]; rfl, by rw [hsome]; rfl, hlast⟩

-- A pattern that matches, and no longer one does.
def Longest (patterns : List String) (repo : String) (i : Nat) : Prop :=
  ∃ pattern, patterns[i]? = some pattern ∧ globMatch pattern repo = true ∧
    ∀ other ∈ patterns, globMatch other repo = true → other.utf8ByteSize ≤ pattern.utf8ByteSize

section Same

variable {router : RepoRouter} {quotas : List Quota} {repo : String}

-- The rule is the first of the longest.
theorem routeIndex_first (hmatch : ∃ rule ∈ router.rules, globMatch rule.pattern repo = true) :
    Longest (router.rules.map (·.pattern)) repo (router.routeIndex repo) ∧
      ∀ j, Longest (router.rules.map (·.pattern)) repo j → router.routeIndex repo ≤ j := by
  rcases RepoRouter.scan_spec repo router.rules with ⟨-, hnone⟩ | ⟨len, i, hscan, rule, hget, hm, -, hbest⟩
  · obtain ⟨rule, hrule, hm⟩ := hmatch
    rw [hnone rule hrule] at hm
    cases hm
  · have hindex : router.routeIndex repo = i := by
      rw [RepoRouter.routeIndex, RepoRouter.bestMatch, hscan]
      rfl
    rw [hindex]
    refine ⟨⟨rule.pattern, by rw [List.getElem?_map, hget]; rfl, hm, fun other hother hmo => ?_⟩,
      fun j hj => ?_⟩
    · obtain ⟨other, hmem, rfl⟩ := List.mem_map.mp hother
      obtain ⟨j, hj⟩ := List.getElem?_of_mem hmem
      by_contra hlt
      exact hbest j ⟨other, rule, hj, hget, hmo, .inl (by omega)⟩
    · obtain ⟨pattern, hpattern, hmp, hlongest⟩ := hj
      rw [List.getElem?_map] at hpattern
      obtain ⟨other, hother, rfl⟩ := Option.map_eq_some_iff.mp hpattern
      have hle := hlongest rule.pattern (List.mem_map_of_mem (List.mem_of_getElem? hget)) hm
      by_contra hlt
      refine hbest j ⟨other, rule, hother, hget, hmp, ?_⟩
      omega

theorem matchingIndex_last (hmatch : ∃ quota ∈ quotas, globMatch quota.pattern repo = true) :
    ∃ i, matchingIndex quotas repo = some i ∧ Longest (quotas.map (·.pattern)) repo i ∧
      ∀ j, Longest (quotas.map (·.pattern)) repo j → j ≤ i := by
  rcases matchingIndex_spec quotas repo with ⟨-, -, hnone⟩ | ⟨quota, i, hindex, -, hget, hm, hlast⟩
  · obtain ⟨quota, hquota, hm⟩ := hmatch
    rw [hnone quota hquota] at hm
    cases hm
  · refine ⟨i, hindex, ⟨quota.pattern, by rw [List.getElem?_map, hget]; rfl, hm,
      fun other hother hmo => ?_⟩, fun j hj => ?_⟩
    · obtain ⟨other, hmem, rfl⟩ := List.mem_map.mp hother
      obtain ⟨j, hj⟩ := List.getElem?_of_mem hmem
      have hle := hlast j other hj hmo
      omega
    · obtain ⟨pattern, hpattern, hmp, hlongest⟩ := hj
      rw [List.getElem?_map] at hpattern
      obtain ⟨other, hother, rfl⟩ := Option.map_eq_some_iff.mp hpattern
      have hle := hlongest quota.pattern (List.mem_map_of_mem (List.mem_of_getElem? hget)) hm
      have hor := hlast j other hother hmp
      omega

-- Quotas under the patterns of the rules: the choices differ as soon as two of the
-- longest patterns that match are equally long.
theorem same_rule_iff (hpatterns : quotas.map (·.pattern) = router.rules.map (·.pattern))
    (hmatch : ∃ rule ∈ router.rules, globMatch rule.pattern repo = true) :
    matchingIndex quotas repo = some (router.routeIndex repo) ↔
      ∀ i j, Longest (router.rules.map (·.pattern)) repo i →
        Longest (router.rules.map (·.pattern)) repo j → i = j := by
  obtain ⟨hroute, hfirst⟩ := routeIndex_first hmatch
  have hquota : ∃ quota ∈ quotas, globMatch quota.pattern repo = true := by
    obtain ⟨rule, hrule, hm⟩ := hmatch
    have hmem := List.mem_map_of_mem (f := fun rule : RouteRule => rule.pattern) hrule
    rw [← hpatterns] at hmem
    obtain ⟨quota, hquota, heq⟩ := List.mem_map.mp hmem
    exact ⟨quota, hquota, by rwa [heq]⟩
  obtain ⟨last, hindex, hlongest, hlast⟩ := matchingIndex_last hquota
  rw [hpatterns] at hlongest hlast
  rw [hindex, Option.some.injEq]
  constructor
  · intro hsame i j hi hj
    have hi' := hlast i hi
    have hj' := hlast j hj
    have hi'' := hfirst i hi
    have hj'' := hfirst j hj
    omega
  · exact fun hunique => hunique last _ hlongest hroute

end Same

def twoVolumes : RepoRouter where
  rules := [⟨"a*", .fs 0 0⟩, ⟨"*b", .fs 1 1⟩, ⟨"*", .fs 0 0⟩]
  nonempty := List.cons_ne_nil _ _

def alikeQuotas : List Quota := [⟨"a*", 1⟩, ⟨"*b", 1⟩, ⟨"*", 1⟩]

theorem ac_same_rule :
    matchingIndex alikeQuotas "ac" = some (twoVolumes.routeIndex "ac") := by
  refine (same_rule_iff (by decide) ⟨⟨"a*", .fs 0 0⟩, by decide, by decide⟩).mpr ?_
  have hfirst : ∀ i, Longest (twoVolumes.rules.map (·.pattern)) "ac" i → i = 0 := by
    rintro i ⟨pattern, hget, hm, hlongest⟩
    have hle := hlongest "a*" (by decide) (by decide)
    match i with
    | 0 => rfl
    | 1 =>
        obtain rfl : "*b" = pattern := Option.some.inj hget
        exact absurd hm (by decide)
    | 2 =>
        obtain rfl : "*" = pattern := Option.some.inj hget
        exact absurd hle (by decide)
    | i + 3 => cases hget
  exact fun i j hi hj => (hfirst i hi).trans (hfirst j hj).symm

-- Of two patterns of one length the router takes the first, and the quotas the last.
theorem tied_rules : ¬∀ (router : RepoRouter) (quotas : List Quota) (repo : String),
    quotas.map (·.pattern) = router.rules.map (·.pattern) →
    (∃ rule ∈ router.rules, globMatch rule.pattern repo = true) →
      matchingIndex quotas repo = some (router.routeIndex repo) := by
  intro hall
  have hsame := hall twoVolumes alikeQuotas "ab" (by decide)
    ⟨⟨"a*", .fs 0 0⟩, by decide, by decide⟩
  exact absurd hsame (by decide)

end RspaceRegistry.Stores
