import RspaceRegistry.Calls.Pool

namespace RspaceRegistry.Calls

-- What one party does, in the order it does it, whatever it is answered.

variable {ι Op : Type} {Ans : Op → Type} {σ α : Type}

-- A party alone with its trace: every answer is possible.
def traced (i : ι) : Sem Op Ans (List (Event ι Op Ans)) :=
  fun op t answer t' => t' = t ++ [⟨i, op, answer⟩]

theorem Prog.wp_traced_call {i : ι} (op : Op) (next : Ans op → Prog Op Ans α)
    (post : α → List (Event ι Op Ans) → Prop) (t : List (Event ι Op Ans)) :
    (Prog.call op next).wp (traced i) Eq (fun _ _ _ _ => True) post t ↔ ∀ answer,
      (next answer).wp (traced i) Eq (fun _ _ _ _ => True) post (t ++ [⟨i, op, answer⟩]) := by
  constructor
  · exact fun h answer => (h t rfl answer _ rfl).2
  · rintro h _ rfl answer _ rfl
    exact ⟨trivial, h answer⟩

-- A call whose answer is no error, and what follows.
theorem Fallible.wp_traced_ask {ε β : Type} {i : ι} {op : Op} {rest : Ans op → Fallible ε Op Ans β}
    {post : Except ε β → List (Event ι Op Ans) → Prop} {t : List (Event ι Op Ans)}
    (h : ∀ answer, (rest answer).wp (traced i) Eq (fun _ _ _ _ => True) post
      (t ++ [⟨i, op, answer⟩])) :
    Fallible.wp (traced i) Eq (fun _ _ _ _ => True)
      ((Prog.call op fun answer => .pure (.ok answer) : Fallible ε Op Ans (Ans op)) >>= rest) post t :=
  (Prog.wp_traced_call op _ post t).mpr h

-- A program by what it calls.
theorem Prog.wp_traced_of_uses {i : ι} {allowed : Op → Prop} {prog : Prog Op Ans α}
    (hprog : prog.Uses allowed) (t : List (Event ι Op Ans)) :
    prog.wp (traced i) Eq (fun _ _ _ _ => True)
      (fun _ t' => ∃ calls, t' = t ++ calls ∧ ∀ e ∈ calls, e.party = i ∧ allowed e.op) t := by
  induction prog generalizing t with
  | pure value => exact ⟨[], by simp, by simp⟩
  | call op next ih =>
      rintro _ rfl answer t₁ rfl
      refine ⟨trivial, ?_⟩
      refine Prog.wp_post (ih answer (hprog.2 answer) _) ?_
      rintro _ t' ⟨calls, rfl, hcalls⟩
      refine ⟨⟨i, op, answer⟩ :: calls, by simp, ?_⟩
      intro e he
      rcases List.mem_cons.mp he with rfl | he
      · exact ⟨rfl, hprog.1⟩
      · exact hcalls e he

-- A condition that each call meets, given the calls before it.
def Throughout (cond : List (Event ι Op Ans) → Event ι Op Ans → Prop)
    (record : List (Event ι Op Ans)) : Prop :=
  ∀ before e after, record = before ++ e :: after → cond before e

theorem throughout_snoc {cond : List (Event ι Op Ans) → Event ι Op Ans → Prop}
    {record : List (Event ι Op Ans)} {e : Event ι Op Ans} :
    Throughout cond (record ++ [e]) ↔ Throughout cond record ∧ cond record e := by
  constructor
  · intro h
    refine ⟨?_, h record e [] rfl⟩
    rintro before e' after rfl
    exact h before e' (after ++ [e]) (by simp)
  · rintro ⟨hrecord, hlast⟩ before e' after heq
    rcases append_singleton_split heq with ⟨rfl, rfl⟩ | ⟨after', heq⟩
    · exact hlast
    · exact hrecord before e' after' heq

theorem throughout_iff_get {cond : List (Event ι Op Ans) → Event ι Op Ans → Prop}
    {record : List (Event ι Op Ans)} :
    Throughout cond record ↔ ∀ n : Fin record.length, cond (record.take n) (record.get n) := by
  constructor
  · intro h n
    exact h _ _ (record.drop (n + 1)) (by simp)
  · rintro h before e after rfl
    have hn := h ⟨before.length, by simp⟩
    simpa using hn

instance (cond : List (Event ι Op Ans) → Event ι Op Ans → Prop)
    [∀ before e, Decidable (cond before e)] (record : List (Event ι Op Ans)) :
    Decidable (Throughout cond record) :=
  decidable_of_iff' _ throughout_iff_get

-- A program by what it calls, each call under a condition on the calls before it.
theorem Prog.wp_traced_uses {i : ι} {allowed : Op → Prop} {cond : List (Event ι Op Ans) → Op → Prop}
    {prog : Prog Op Ans α} {t : List (Event ι Op Ans)} (hprog : prog.Uses allowed)
    (hcond : ∀ calls : List (Event ι Op Ans), (∀ e ∈ calls, allowed e.op) →
      ∀ op, allowed op → cond (t ++ calls) op) :
    prog.wp (traced i) Eq (fun op t _ _ => cond t op)
      (fun _ t' => ∃ calls, t' = t ++ calls ∧ ∀ e ∈ calls, allowed e.op) t := by
  induction prog generalizing t with
  | pure value => exact ⟨[], by simp, by simp⟩
  | call op next ih =>
      rintro _ rfl answer _ rfl
      have hhere : cond t op := by
        simpa using hcond [] (by simp) op hprog.1
      refine ⟨hhere, Prog.wp_post (ih answer (hprog.2 answer) ?_) ?_⟩
      · intro calls hcalls op' hop'
        rw [List.append_assoc]
        refine hcond _ ?_ op' hop'
        intro e he
        rcases List.mem_cons.mp he with rfl | he
        · exact hprog.1
        · exact hcalls e he
      · rintro _ _ ⟨calls, rfl, hcalls⟩
        refine ⟨⟨i, op, answer⟩ :: calls, by simp, ?_⟩
        intro e he
        rcases List.mem_cons.mp he with rfl | he
        · exact hprog.1
        · exact hcalls e he

-- On the way through a program every call has met the condition.
theorem throughout_of_wp {i : ι} {cond : List (Event ι Op Ans) → Op → Prop}
    {post : α → List (Event ι Op Ans) → Prop} {first last : Prog Op Ans α × List (Event ι Op Ans)}
    (hreach : Prog.Reaches (traced i) first last)
    (h : first.1.wp (traced i) Eq (fun op t _ _ => cond t op) post first.2)
    (hfirst : Throughout (fun before e => cond before e.op) first.2) :
    Throughout (fun before e => cond before e.op) last.2 := by
  induction hreach with
  | refl => exact hfirst
  | tail hbefore hstep ih =>
      have hwp := Prog.wp_reaches hbefore h
      cases hstep with
      | call hop =>
          have hmet := (hwp _ rfl _ _ hop).1
          obtain rfl := hop
          exact throughout_snoc.mpr ⟨ih, hmet⟩

-- The parties that have made some call since any of them last made another.
def watching (starts stops : Op → Bool) (record : List (Event ι Op Ans)) : List ι :=
  record.foldl (fun parties e =>
    if stops e.op then [] else if starts e.op then e.party :: parties else parties) []

theorem watching_snoc (starts stops : Op → Bool) (record : List (Event ι Op Ans))
    (e : Event ι Op Ans) : watching starts stops (record ++ [e]) =
      if stops e.op then [] else if starts e.op then e.party :: watching starts stops record
      else watching starts stops record := by
  simp [watching]

theorem watching_of_other {starts stops : Op → Bool} {record : List (Event ι Op Ans)}
    {e : Event ι Op Ans} {i : ι} (hi : i ≠ e.party)
    (h : i ∈ watching starts stops (record ++ [e])) :
    i ∈ watching starts stops record ∧ stops e.op = false := by
  rw [watching_snoc] at h
  split at h
  · cases h
  · rename_i hstops
    refine ⟨?_, Bool.not_eq_true _ ▸ hstops⟩
    split at h
    · exact (List.mem_cons.mp h).resolve_left hi
    · exact h

variable [DecidableEq ι]

def own (i : ι) (record : List (Event ι Op Ans)) : List (Event ι Op Ans) :=
  record.filter fun e => e.party = i

theorem mem_own {i : ι} {record : List (Event ι Op Ans)} {e : Event ι Op Ans} :
    e ∈ own i record ↔ e ∈ record ∧ e.party = i := by
  simp [own]

theorem own_append (i : ι) (record record' : List (Event ι Op Ans)) :
    own i (record ++ record') = own i record ++ own i record' :=
  List.filter_append record record'

-- Where one of the party's calls stands in the record of all.
theorem own_split {i : ι} {record before after : List (Event ι Op Ans)} {e : Event ι Op Ans}
    (h : own i record = before ++ e :: after) :
    ∃ before' after', record = before' ++ e :: after' ∧ own i before' = before := by
  obtain ⟨first, rest, rfl, hbefore, hrest⟩ := List.filter_eq_append_iff.mp h
  obtain ⟨skipped, after', rfl, hskipped, _, _⟩ := List.filter_eq_cons_iff.mp hrest
  refine ⟨first ++ skipped, after', by simp, ?_⟩
  have hnone : own i skipped = [] := List.filter_eq_nil_iff.mpr hskipped
  rw [own_append, hnone, List.append_nil]
  exact hbefore

theorem own_record {sem : Sem Op Ans σ} {i : ι} {op : Op} {s s' : Recorded ι Op Ans σ}
    {answer : Ans op} (h : sem.record i op s answer s') :
    own i s'.2 = own i s.2 ++ [⟨i, op, answer⟩] := by
  rw [h.2, own_append]
  simp [own]

theorem own_of_other {sem : Sem Op Ans σ} {i j : ι} (hij : i ≠ j) {op : Op}
    {s s' : Recorded ι Op Ans σ} {answer : Ans op} (h : sem.record j op s answer s') :
    own i s'.2 = own i s.2 := by
  rw [h.2, own_append]
  simp [own, hij.symm]

-- Whatever others do, they do not write into a party's trace.
def Apart (i : ι) (s s' : Recorded ι Op Ans σ) : Prop := own i s'.2 = own i s.2

-- What holds of all traces holds in any company.
theorem Prog.wp_of_traced {sem : Sem Op Ans σ} {i : ι} {prog : Prog Op Ans α}
    {post : α → List (Event ι Op Ans) → Prop} {t : List (Event ι Op Ans)}
    (h : prog.wp (traced i) Eq (fun _ _ _ _ => True) post t) {s : Recorded ι Op Ans σ}
    (hs : own i s.2 = t) :
    prog.wp (sem.record i) (Apart i) (fun _ _ _ _ => True) (fun value s' => post value (own i s'.2))
      s := by
  induction prog generalizing t s with
  | pure value =>
      subst hs
      exact h
  | call op next ih =>
      intro s₁ hr answer s₂ hcall
      have htrace : own i s₂.2 = t ++ [⟨i, op, answer⟩] := by
        rw [own_record hcall, hr, hs]
      exact ⟨trivial, ih answer (h t rfl answer _ rfl).2 htrace⟩

namespace Pool

variable {ρ : ι → Type}

-- The parties of a pool, each by what it calls and by the traces it leaves.
theorem compatible_of_traced (sem : Sem Op Ans σ) (guar : ι → Sem Op Ans (Recorded ι Op Ans σ))
    (post : (i : ι) → ρ i → List (Event ι Op Ans) → Prop) :
    Compatible sem (fun i => Apart i) guar fun i value s => post i value (own i s.2) where
  refl _ _ := rfl
  trans _ _ _ _ h h' := h'.trans h
  others _ _ hij _ _ _ _ hs _ := own_of_other hij hs
  stable _ _ _ _ h hp := h ▸ hp

theorem meets_of_traced {sem : Sem Op Ans σ} {pool : Pool ι Op Ans ρ σ} {allowed : ι → Op → Prop}
    {post : (i : ι) → ρ i → List (Event ι Op Ans) → Prop} (hnow : pool.now.2 = [])
    (hcalls : ∀ i, (pool.parties i).Uses (allowed i))
    (htraces : ∀ i, (pool.parties i).wp (traced i) Eq (fun _ _ _ _ => True) (post i) []) :
    pool.Meets sem (fun i => Apart i) (fun i op _ _ _ => allowed i op)
      fun i value s => post i value (own i s.2) := by
  intro i
  have hown : own i pool.now.2 = [] := by
    rw [hnow]
    rfl
  have hboth := Prog.wp_and (Prog.wp_calls (hcalls i) (sem.record i) (Apart i) pool.now)
    (Prog.wp_of_traced (htraces i) hown)
  exact Prog.wp_mono hboth (fun _ _ _ _ => id) (fun _ _ => id) (fun _ _ _ _ _ h => h.1)
    fun _ _ h => h.2

end Pool

end RspaceRegistry.Calls
