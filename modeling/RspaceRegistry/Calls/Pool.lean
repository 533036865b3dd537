import Mathlib.Logic.Function.Basic
import RspaceRegistry.Calls.Run

namespace RspaceRegistry.Calls

-- A call that some party has made, and the answer it got.
structure Event (ι Op : Type) (Ans : Op → Type) where
  party : ι
  op : Op
  answer : Ans op

-- A state together with the calls that have led to it.
abbrev Recorded (ι Op : Type) (Ans : Op → Type) (σ : Type) : Type := σ × List (Event ι Op Ans)

-- Programs that take turns on one state, call by call, in any order.
structure Pool (ι Op : Type) (Ans : Op → Type) (ρ : ι → Type) (σ : Type) where
  parties : (i : ι) → Prog Op Ans (ρ i)
  now : Recorded ι Op Ans σ

variable {ι Op : Type} {Ans : Op → Type} {ρ : ι → Type} {σ : Type}

-- One party's calls, put on record.
def Sem.record (sem : Sem Op Ans σ) (i : ι) : Sem Op Ans (Recorded ι Op Ans σ) :=
  fun op s answer s' => sem op s.1 answer s'.1 ∧ s'.2 = s.2 ++ [⟨i, op, answer⟩]

-- The party has made the call and got the answer.
def Did (i : ι) (s : Recorded ι Op Ans σ) (op : Op) (answer : Ans op) : Prop :=
  ⟨i, op, answer⟩ ∈ s.2

theorem did_of_record {sem : Sem Op Ans σ} {i : ι} {op : Op} {s s' : Recorded ι Op Ans σ}
    {answer : Ans op} (h : sem.record i op s answer s') : Did i s' op answer := by
  rw [Did, h.2]
  exact List.mem_append_right _ (List.mem_singleton_self _)

theorem Did.record {sem : Sem Op Ans σ} {i j : ι} {op op' : Op} {s s' : Recorded ι Op Ans σ}
    {answer : Ans op} {answer' : Ans op'} (h : Did i s op answer)
    (hs : sem.record j op' s answer' s') : Did i s' op answer := by
  rw [Did, hs.2]
  exact List.mem_append_left _ h

theorem did_record_iff {sem : Sem Op Ans σ} {i j : ι} {op op' : Op} {s s' : Recorded ι Op Ans σ}
    {answer : Ans op} {answer' : Ans op'} (hs : sem.record j op' s answer' s') :
    Did i s' op answer ↔ Did i s op answer ∨
      (⟨i, op, answer⟩ : Event ι Op Ans) = ⟨j, op', answer'⟩ := by
  rw [Did, hs.2, List.mem_append, List.mem_singleton]
  rfl

-- What a party does leaves the record of another as it is.
theorem did_of_other {sem : Sem Op Ans σ} {i j : ι} (hij : i ≠ j) {op op' : Op}
    {s s' : Recorded ι Op Ans σ} {answer : Ans op} {answer' : Ans op'}
    (hs : sem.record j op' s answer' s') : Did i s' op answer ↔ Did i s op answer := by
  rw [did_record_iff hs]
  refine or_iff_left ?_
  intro h
  exact hij (congrArg Event.party h)

-- Where a call stands in a record that has just grown by one.
theorem append_singleton_split {α : Type} {l before after : List α} {last x : α}
    (h : l ++ [last] = before ++ x :: after) :
    (x = last ∧ before = l) ∨ ∃ after', l = before ++ x :: after' := by
  rcases List.eq_nil_or_concat after with rfl | ⟨after', y, rfl⟩
  · obtain ⟨hl, hx⟩ := List.append_inj' h rfl
    exact .inl ⟨(List.singleton_inj.mp hx).symm, hl.symm⟩
  · rw [List.concat_eq_append, ← List.cons_append, ← List.append_assoc] at h
    exact .inr ⟨after', (List.append_inj' h rfl).1⟩

namespace Pool

variable [DecidableEq ι]

inductive Turn (sem : Sem Op Ans σ) : Pool ι Op Ans ρ σ → Pool ι Op Ans ρ σ → Prop
  | call {pool : Pool ι Op Ans ρ σ} {i : ι} {op : Op} {next : Ans op → Prog Op Ans (ρ i)}
      {answer : Ans op} {s' : Recorded ι Op Ans σ} (hi : pool.parties i = .call op next)
      (h : sem.record i op pool.now answer s') :
      Turn sem pool ⟨Function.update pool.parties i (next answer), s'⟩

abbrev Runs (sem : Sem Op Ans σ) : Pool ι Op Ans ρ σ → Pool ι Op Ans ρ σ → Prop :=
  Relation.ReflTransGen (Turn sem)

theorem Turn.mono {sem sem' : Sem Op Ans σ} {pool pool' : Pool ι Op Ans ρ σ}
    (hturn : Turn sem pool pool') (h : ∀ op s answer s', sem op s answer s' → sem' op s answer s') :
    Turn sem' pool pool' := by
  obtain ⟨hi, hs, hrecord⟩ := hturn
  exact .call hi ⟨h _ _ _ _ hs, hrecord⟩

theorem Runs.mono {sem sem' : Sem Op Ans σ} {pool pool' : Pool ι Op Ans ρ σ}
    (hrun : Runs sem pool pool') (h : ∀ op s answer s', sem op s answer s' → sem' op s answer s') :
    Runs sem' pool pool' :=
  Relation.ReflTransGen.mono (fun _ _ hturn => Turn.mono hturn h) _ _ hrun

-- One party's turn, if it has a call left to make.
def step (handler : Handler Op Ans σ) (pool : Pool ι Op Ans ρ σ) (i : ι) : Pool ι Op Ans ρ σ :=
  match pool.parties i with
  | .pure _ => pool
  | .call op next =>
      let answered := handler op pool.now.1
      ⟨Function.update pool.parties i (next answered.1),
        (answered.2, pool.now.2 ++ [⟨i, op, answered.1⟩])⟩

-- Turns in a given order.
def play (handler : Handler Op Ans σ) (pool : Pool ι Op Ans ρ σ) (schedule : List ι) :
    Pool ι Op Ans ρ σ :=
  schedule.foldl (step handler) pool

theorem turn_step {handler : Handler Op Ans σ} {pool : Pool ι Op Ans ρ σ} {i : ι}
    (h : (pool.parties i).isCall = true) : Turn handler.sem pool (pool.step handler i) := by
  unfold step
  cases hi : pool.parties i with
  | pure value =>
      rw [hi] at h
      cases h
  | call op next => exact .call hi ⟨rfl, rfl⟩

theorem runs_step (handler : Handler Op Ans σ) (pool : Pool ι Op Ans ρ σ) (i : ι) :
    Runs handler.sem pool (pool.step handler i) := by
  cases h : (pool.parties i).isCall with
  | true => exact .single (turn_step h)
  | false =>
      unfold step
      cases hi : pool.parties i with
      | pure value => exact .refl
      | call op next =>
          rw [hi] at h
          cases h

theorem runs_play (handler : Handler Op Ans σ) (schedule : List ι) (pool : Pool ι Op Ans ρ σ) :
    Runs handler.sem pool (pool.play handler schedule) := by
  induction schedule generalizing pool with
  | nil => exact .refl
  | cons i rest ih => exact (runs_step handler pool i).trans (ih (pool.step handler i))

-- What every turn keeps holds at every point of a run.
theorem Runs.invariant {sem : Sem Op Ans σ} {inv : Pool ι Op Ans ρ σ → Prop}
    {pool pool' : Pool ι Op Ans ρ σ} (hrun : Runs sem pool pool') (hinv : inv pool)
    (hturn : ∀ p p', Turn sem p p' → inv p → inv p') : inv pool' := by
  induction hrun with
  | refl => exact hinv
  | tail _ hstep ih => exact hturn _ _ hstep ih

section RelyGuarantee

variable {sem : Sem Op Ans σ}
variable {rely : ι → Recorded ι Op Ans σ → Recorded ι Op Ans σ → Prop}
variable {guar : ι → Sem Op Ans (Recorded ι Op Ans σ)}
variable {post : (i : ι) → ρ i → Recorded ι Op Ans σ → Prop}

-- Every party by itself meets its guarantee while the others keep to its rely.
def Meets (sem : Sem Op Ans σ) (rely : ι → Recorded ι Op Ans σ → Recorded ι Op Ans σ → Prop)
    (guar : ι → Sem Op Ans (Recorded ι Op Ans σ))
    (post : (i : ι) → ρ i → Recorded ι Op Ans σ → Prop) (pool : Pool ι Op Ans ρ σ) : Prop :=
  ∀ i, (pool.parties i).wp (sem.record i) (rely i) (guar i) (post i) pool.now

-- The parts of a rely that let the proofs of the parties be put together.
structure Compatible (sem : Sem Op Ans σ)
    (rely : ι → Recorded ι Op Ans σ → Recorded ι Op Ans σ → Prop)
    (guar : ι → Sem Op Ans (Recorded ι Op Ans σ))
    (post : (i : ι) → ρ i → Recorded ι Op Ans σ → Prop) : Prop where
  refl : ∀ i s, rely i s s
  trans : ∀ i s₁ s₂ s₃, rely i s₁ s₂ → rely i s₂ s₃ → rely i s₁ s₃
  others : ∀ i j, i ≠ j → ∀ op s answer s', sem.record j op s answer s' →
    guar j op s answer s' → rely i s s'
  stable : ∀ i value s s', rely i s s' → post i value s → post i value s'

omit [DecidableEq ι] in
-- Promises may be added to.
theorem Compatible.and (h : Compatible (ρ := ρ) sem rely guar post)
    (guar' : ι → Sem Op Ans (Recorded ι Op Ans σ)) :
    Compatible (ρ := ρ) sem rely
      (fun i op s answer s' => guar i op s answer s' ∧ guar' i op s answer s') post where
  refl := h.refl
  trans := h.trans
  others i j hij op s answer s' hs hg := h.others i j hij op s answer s' hs hg.1
  stable := h.stable

omit [DecidableEq ι] in
-- The call that a turn makes meets its party's guarantee.
theorem Meets.guarantee {pool : Pool ι Op Ans ρ σ} (h : Meets sem rely guar post pool)
    (hcomp : Compatible (ρ := ρ) sem rely guar post) {i : ι} {op : Op}
    {next : Ans op → Prog Op Ans (ρ i)} (hi : pool.parties i = .call op next) {answer : Ans op}
    {s' : Recorded ι Op Ans σ} (hs : sem.record i op pool.now answer s') :
    guar i op pool.now answer s' := by
  have hw := h i
  rw [hi] at hw
  exact (hw pool.now (hcomp.refl i pool.now) answer s' hs).1

theorem Meets.turn {pool pool' : Pool ι Op Ans ρ σ} (h : Meets sem rely guar post pool)
    (hcomp : Compatible (ρ := ρ) sem rely guar post) (hturn : Turn sem pool pool') :
    Meets sem rely guar post pool' := by
  obtain ⟨hi, hs⟩ := hturn
  rename_i j op next answer s'
  intro i
  by_cases hij : i = j
  · subst hij
    simp only [Function.update_self]
    have hw := h i
    rw [hi] at hw
    exact (hw pool.now (hcomp.refl i pool.now) answer s' hs).2
  · simp only [Function.update_of_ne hij]
    have hrely := hcomp.others i j hij op pool.now answer s' hs (h.guarantee hcomp hi hs)
    exact Prog.wp_rely (h i) hrely (hcomp.trans i) (hcomp.stable i)

theorem Meets.runs {pool pool' : Pool ι Op Ans ρ σ} (h : Meets sem rely guar post pool)
    (hcomp : Compatible (ρ := ρ) sem rely guar post) (hrun : Runs sem pool pool') :
    Meets sem rely guar post pool' :=
  hrun.invariant h fun _ _ hturn hp => hp.turn hcomp hturn

-- What every call within the guarantees keeps holds at every point of a run.
theorem Meets.invariant {pool pool' : Pool ι Op Ans ρ σ} (h : Meets sem rely guar post pool)
    (hcomp : Compatible (ρ := ρ) sem rely guar post) (hrun : Runs sem pool pool')
    (inv : Recorded ι Op Ans σ → Prop) (hinv : inv pool.now)
    (hcall : ∀ i op s answer s', sem.record i op s answer s' → guar i op s answer s' →
      inv s → inv s') : inv pool'.now := by
  have hboth : Meets sem rely guar post pool' ∧ inv pool'.now := by
    induction hrun with
    | refl => exact ⟨h, hinv⟩
    | tail _ hturn ih =>
        obtain ⟨hp, hi⟩ := ih
        refine ⟨hp.turn hcomp hturn, ?_⟩
        obtain ⟨hcalls, hs⟩ := hturn
        exact hcall _ _ _ _ _ hs (hp.guarantee hcomp hcalls hs) hi
  exact hboth.2

-- What the other parties may have done, call by call, each within its guarantee.
def Others (sem : Sem Op Ans σ) (guar : ι → Sem Op Ans (Recorded ι Op Ans σ)) (i : ι) :
    Recorded ι Op Ans σ → Recorded ι Op Ans σ → Prop :=
  Relation.ReflTransGen fun s s' => ∃ j op answer, i ≠ j ∧ sem.record j op s answer s' ∧
    guar j op s answer s'

omit [DecidableEq ι] in
theorem Others.invariant {i : ι} {s s' : Recorded ι Op Ans σ} (h : Others sem guar i s s')
    (inv : Recorded ι Op Ans σ → Prop) (hinv : inv s)
    (hcall : ∀ j op s answer s', i ≠ j → sem.record j op s answer s' → guar j op s answer s' →
      inv s → inv s') : inv s' := by
  induction h with
  | refl => exact hinv
  | tail _ hstep ih =>
      obtain ⟨j, op, answer, hij, hs, hg⟩ := hstep
      exact hcall j op _ answer _ hij hs hg ih

omit [DecidableEq ι] in
-- With nothing else relied upon, only the postconditions have to be stable.
theorem compatible_others (hstable : ∀ i value j op s answer s', i ≠ j →
    sem.record j op s answer s' → guar j op s answer s' → post i value s → post i value s') :
    Compatible sem (Others sem guar) guar post where
  refl _ _ := .refl
  trans _ _ _ _ h h' := h.trans h'
  others _ j hij op _ answer _ hs hg := .single ⟨j, op, answer, hij, hs, hg⟩
  stable i value _ _ h hp := h.invariant (post i value) hp fun j op s answer s' hij hs hg hp =>
    hstable i value j op s answer s' hij hs hg hp

end RelyGuarantee

end Pool

-- A program by what it may call, whatever goes on around it.
theorem Prog.wp_calls {α : Type} {allowed : Op → Prop} {prog : Prog Op Ans α}
    (hprog : prog.Uses allowed) (sem : Sem Op Ans σ) (rely : σ → σ → Prop) (s : σ) :
    prog.wp sem rely (fun op _ _ _ => allowed op) (fun _ _ => True) s := by
  induction prog generalizing s with
  | pure value => trivial
  | call op next ih => exact fun s₁ _ answer s₂ _ => ⟨hprog.1, ih answer (hprog.2 answer) s₂⟩

end RspaceRegistry.Calls
