import RspaceRegistry.Calls.Pool

namespace RspaceRegistry.Calls

-- Programs that take turns under a condition: which call a party may make in
-- which state, and after which calls.

variable {ι Op : Type} {Ans : Op → Type} {ρ : ι → Type} {σ α : Type}

abbrev Condition (ι Op : Type) (Ans : Op → Type) (σ : Type) : Type :=
  ι → Op → Recorded ι Op Ans σ → Prop

-- One party's calls, as far as the condition allows them.
def Sem.within (sem : Sem Op Ans σ) (met : Condition ι Op Ans σ) (i : ι) :
    Sem Op Ans (Recorded ι Op Ans σ) :=
  fun op s answer s' => met i op s ∧ sem.record i op s answer s'

theorem Prog.wp_trivial {sem : Sem Op Ans σ} {rely : σ → σ → Prop} (prog : Prog Op Ans α) (s : σ) :
    prog.wp sem rely (fun _ _ _ _ => True) (fun _ _ => True) s := by
  induction prog generalizing s with
  | pure value => trivial
  | call op next ih => exact fun _ _ answer s' _ => ⟨trivial, ih answer s'⟩

-- A program by what it calls, when every such call keeps the promise.
theorem Prog.wp_promise {sem guar : Sem Op Ans σ} {allowed : Op → Prop} {prog : Prog Op Ans α}
    (hprog : prog.Uses allowed) (rely : σ → σ → Prop)
    (hcall : ∀ op, allowed op → ∀ s answer s', sem op s answer s' → guar op s answer s') (s : σ) :
    prog.wp sem rely guar (fun _ _ => True) s := by
  refine Prog.wp_guar (Prog.wp_calls hprog sem rely s) ?_
  exact fun op s answer s' hs hop => hcall op hop s answer s' hs

namespace Pool

variable [DecidableEq ι] {sem : Sem Op Ans σ} {met : Condition ι Op Ans σ}

inductive TurnWithin (sem : Sem Op Ans σ) (met : Condition ι Op Ans σ) :
    Pool ι Op Ans ρ σ → Pool ι Op Ans ρ σ → Prop
  | call {pool : Pool ι Op Ans ρ σ} {i : ι} {op : Op} {next : Ans op → Prog Op Ans (ρ i)}
      {answer : Ans op} {s' : Recorded ι Op Ans σ} (hi : pool.parties i = .call op next)
      (h : sem.within met i op pool.now answer s') :
      TurnWithin sem met pool ⟨Function.update pool.parties i (next answer), s'⟩

abbrev RunsWithin (sem : Sem Op Ans σ) (met : Condition ι Op Ans σ) :
    Pool ι Op Ans ρ σ → Pool ι Op Ans ρ σ → Prop :=
  Relation.ReflTransGen (TurnWithin sem met)

-- Turns in a given order, each of which is checked.
def allowed (handler : Handler Op Ans σ) (check : ι → Op → Recorded ι Op Ans σ → Bool) :
    Pool ι Op Ans ρ σ → List ι → Bool
  | _, [] => true
  | pool, i :: rest =>
      (match pool.parties i with
        | .pure _ => true
        | .call op _ => check i op pool.now) && allowed handler check (pool.step handler i) rest

theorem runsWithin_play {handler : Handler Op Ans σ} {check : ι → Op → Recorded ι Op Ans σ → Bool}
    (hcheck : ∀ i op s, check i op s = true → met i op s) (schedule : List ι)
    (pool : Pool ι Op Ans ρ σ) (h : pool.allowed handler check schedule = true) :
    RunsWithin handler.sem met pool (pool.play handler schedule) := by
  induction schedule generalizing pool with
  | nil => exact .refl
  | cons i rest ih =>
      rw [allowed, Bool.and_eq_true] at h
      obtain ⟨hturn, hrest⟩ := h
      refine Relation.ReflTransGen.trans ?_ (ih (pool.step handler i) hrest)
      unfold step
      cases hi : pool.parties i with
      | pure value => exact .refl
      | call op next =>
          rw [hi] at hturn
          exact .single (.call hi ⟨hcheck i op pool.now hturn, rfl, rfl⟩)

variable {rely : ι → Recorded ι Op Ans σ → Recorded ι Op Ans σ → Prop}
variable {guar : ι → Sem Op Ans (Recorded ι Op Ans σ)}
variable {post : (i : ι) → ρ i → Recorded ι Op Ans σ → Prop}

-- Every party by itself meets its guarantee, as long as its calls meet the condition.
def MeetsWithin (sem : Sem Op Ans σ) (met : Condition ι Op Ans σ)
    (rely : ι → Recorded ι Op Ans σ → Recorded ι Op Ans σ → Prop)
    (guar : ι → Sem Op Ans (Recorded ι Op Ans σ))
    (post : (i : ι) → ρ i → Recorded ι Op Ans σ → Prop) (pool : Pool ι Op Ans ρ σ) : Prop :=
  ∀ i, (pool.parties i).wp (sem.within met i) (rely i) (guar i) (post i) pool.now

omit [DecidableEq ι] in
theorem MeetsWithin.guarantee {pool : Pool ι Op Ans ρ σ}
    (h : MeetsWithin sem met rely guar post pool)
    (hcomp : Compatible (ρ := ρ) sem rely guar post) {i : ι} {op : Op}
    {next : Ans op → Prog Op Ans (ρ i)} (hi : pool.parties i = .call op next) {answer : Ans op}
    {s' : Recorded ι Op Ans σ} (hs : sem.within met i op pool.now answer s') :
    guar i op pool.now answer s' := by
  have hw := h i
  rw [hi] at hw
  exact (hw pool.now (hcomp.refl i pool.now) answer s' hs).1

theorem MeetsWithin.turn {pool pool' : Pool ι Op Ans ρ σ}
    (h : MeetsWithin sem met rely guar post pool)
    (hcomp : Compatible (ρ := ρ) sem rely guar post) (hturn : TurnWithin sem met pool pool') :
    MeetsWithin sem met rely guar post pool' := by
  obtain ⟨hi, hs⟩ := hturn
  rename_i j op next answer s'
  intro i
  by_cases hij : i = j
  · subst hij
    simp only [Function.update_self]
    have hw := h i
    rw [hi] at hw
    exact (hw pool.now (hcomp.refl i pool.now) answer s' hs).2
  · simp only [Function.update_of_ne hij]
    have hrely := hcomp.others i j hij op pool.now answer s' hs.2 (h.guarantee hcomp hi hs)
    exact Prog.wp_rely (h i) hrely (hcomp.trans i) (hcomp.stable i)

-- What every call within the guarantees keeps holds at every point of such a run.
theorem MeetsWithin.invariant {pool pool' : Pool ι Op Ans ρ σ}
    (h : MeetsWithin sem met rely guar post pool)
    (hcomp : Compatible (ρ := ρ) sem rely guar post) (hrun : RunsWithin sem met pool pool')
    (inv : Recorded ι Op Ans σ → Prop) (hinv : inv pool.now)
    (hcall : ∀ i op s answer s', sem.record i op s answer s' → guar i op s answer s' →
      inv s → inv s') : inv pool'.now := by
  have hboth : MeetsWithin sem met rely guar post pool' ∧ inv pool'.now := by
    induction hrun with
    | refl => exact ⟨h, hinv⟩
    | tail _ hturn ih =>
        obtain ⟨hp, hi⟩ := ih
        refine ⟨hp.turn hcomp hturn, ?_⟩
        obtain ⟨hcalls, hs⟩ := hturn
        exact hcall _ _ _ _ _ hs.2 (hp.guarantee hcomp hcalls hs) hi
  exact hboth.2

end Pool

end RspaceRegistry.Calls
