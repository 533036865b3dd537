import RspaceRegistry.Calls.Logic

namespace RspaceRegistry.Calls

-- Surroundings that answer every call at once and in one way.
abbrev Handler (Op : Type) (Ans : Op → Type) (σ : Type) : Type :=
  (op : Op) → σ → Ans op × σ

def Handler.sem {Op : Type} {Ans : Op → Type} {σ : Type} (handler : Handler Op Ans σ) :
    Sem Op Ans σ :=
  fun op s answer s' => handler op s = (answer, s')

def unguarded {Op : Type} {Ans : Op → Type} {σ : Type} : Sem Op Ans σ :=
  fun _ _ _ _ => True

namespace Prog

variable {Op : Type} {Ans : Op → Type} {σ α β : Type} {handler : Handler Op Ans σ}

def run (handler : Handler Op Ans σ) : Prog Op Ans α → σ → α × σ
  | .pure value, s => (value, s)
  | .call op next, s => (next (handler op s).1).run handler (handler op s).2

@[simp] theorem run_pure (value : α) (s : σ) :
    (Prog.pure value : Prog Op Ans α).run handler s = (value, s) := rfl

theorem run_call (op : Op) (next : Ans op → Prog Op Ans α) (s : σ) :
    (Prog.call op next).run handler s =
      (next (handler op s).1).run handler (handler op s).2 := rfl

theorem run_bind (prog : Prog Op Ans α) (rest : α → Prog Op Ans β) (s : σ) :
    (prog.bind rest).run handler s =
      (rest (prog.run handler s).1).run handler (prog.run handler s).2 := by
  induction prog generalizing s with
  | pure value => rfl
  | call op next ih => simp only [call_bind, run_call, ih]

-- The calls that a run makes.
def calls (handler : Handler Op Ans σ) : Prog Op Ans α → σ → List Op
  | .pure _, _ => []
  | .call op next, s => op :: (next (handler op s).1).calls handler (handler op s).2

-- What no call of a run touches is left as it was.
theorem run_keeps {β : Type} (look : σ → β) {allowed : Op → Prop} {prog : Prog Op Ans α} {s : σ}
    (hcalls : ∀ op ∈ prog.calls handler s, allowed op)
    (hkeep : ∀ op s, allowed op → look (handler op s).2 = look s) :
    look (prog.run handler s).2 = look s := by
  induction prog generalizing s with
  | pure value => rfl
  | call op next ih =>
      have hhere := hkeep op s (hcalls op List.mem_cons_self)
      exact (ih _ fun op' h => hcalls op' (List.mem_cons_of_mem op h)).trans hhere

-- Running alone, what is shown of every answer is shown of the one run.
theorem wp_iff_run {prog : Prog Op Ans α} {post : α → σ → Prop} {s : σ} :
    prog.wp handler.sem Eq unguarded post s ↔
      post (prog.run handler s).1 (prog.run handler s).2 := by
  induction prog generalizing s with
  | pure value => rfl
  | call op next ih =>
      rw [run_call, ← ih]
      constructor
      · intro h
        exact (h s rfl _ _ rfl).2
      · rintro h _ rfl answer s₂ hop
        obtain ⟨rfl, rfl⟩ := Prod.mk.inj (hop : handler op s = (answer, s₂)).symm
        exact ⟨trivial, h⟩

theorem run_of_wp {guar : Sem Op Ans σ} {prog : Prog Op Ans α} {post : α → σ → Prop} {s : σ}
    (h : prog.wp handler.sem Eq guar post s) :
    post (prog.run handler s).1 (prog.run handler s).2 :=
  wp_iff_run.mp (wp_guar h fun _ _ _ _ _ _ => trivial)

section Reaches

variable {sem : Sem Op Ans σ} {guar : Sem Op Ans σ}

-- One call of a program that runs alone.
inductive Step (sem : Sem Op Ans σ) : Prog Op Ans α × σ → Prog Op Ans α × σ → Prop
  | call {op : Op} {next : Ans op → Prog Op Ans α} {s s' : σ} {answer : Ans op}
      (h : sem op s answer s') : Step sem (.call op next, s) (next answer, s')

-- Every point of a run: what is left to do, and the state at that moment.
abbrev Reaches (sem : Sem Op Ans σ) : Prog Op Ans α × σ → Prog Op Ans α × σ → Prop :=
  Relation.ReflTransGen (Step sem)

theorem wp_reaches {post : α → σ → Prop} {first last : Prog Op Ans α × σ}
    (hreach : Reaches sem first last) (h : first.1.wp sem Eq guar post first.2) :
    last.1.wp sem Eq guar post last.2 := by
  induction hreach with
  | refl => exact h
  | tail _ hstep ih =>
      cases hstep with
      | call hop => exact (ih _ rfl _ _ hop).2

-- An invariant that every call of the program keeps holds at every point.
theorem invariant_of_wp {post : α → σ → Prop} {inv : σ → Prop} {first last : Prog Op Ans α × σ}
    (h : first.1.wp sem Eq (fun _ s _ s' => inv s → inv s') post first.2)
    (hinv : inv first.2) (hreach : Reaches sem first last) : inv last.2 := by
  induction hreach with
  | refl => exact hinv
  | tail hprefix hstep ih =>
      have hw := wp_reaches hprefix h
      cases hstep with
      | call hop => exact (hw _ rfl _ _ hop).1 ih

theorem reaches_of_run (prog : Prog Op Ans α) (s : σ) :
    Reaches handler.sem (prog, s) (.pure (prog.run handler s).1, (prog.run handler s).2) := by
  induction prog generalizing s with
  | pure result => exact .refl
  | call op next ih => exact .head (.call rfl) (ih _ _)

end Reaches

end Prog

namespace Fallible

variable {Op : Type} {Ans : Op → Type} {σ ε α β : Type} {handler : Handler Op Ans σ}

def run (handler : Handler Op Ans σ) (prog : Fallible ε Op Ans α) (s : σ) : Except ε α × σ :=
  Prog.run handler prog s

@[simp] theorem run_pure (value : α) (s : σ) :
    (pure value : Fallible ε Op Ans α).run handler s = (.ok value, s) := rfl

@[simp] theorem run_fail (err : ε) (s : σ) :
    (fail err : Fallible ε Op Ans α).run handler s = (.error err, s) := rfl

theorem run_eq_mk {prog : Fallible ε Op Ans α} {s s' : σ} {result : Except ε α}
    (h : (prog.run handler s).1 = result) (h' : (prog.run handler s).2 = s') :
    prog.run handler s = (result, s') := Prod.ext h h'

theorem run_bind (prog : Fallible ε Op Ans α) (rest : α → Fallible ε Op Ans β) (s : σ) :
    (prog >>= rest).run handler s =
      (andThen rest (prog.run handler s).1).run handler (prog.run handler s).2 :=
  Prog.run_bind prog (andThen rest) s

theorem run_bind_of_ok {prog : Fallible ε Op Ans α} {s s' : σ} {value : α}
    (h : prog.run handler s = (.ok value, s')) (rest : α → Fallible ε Op Ans β) :
    (prog >>= rest).run handler s = (rest value).run handler s' := by
  rw [run_bind, h]
  rfl

theorem run_bind_of_error {prog : Fallible ε Op Ans α} {s s' : σ} {err : ε}
    (h : prog.run handler s = (.error err, s')) (rest : α → Fallible ε Op Ans β) :
    (prog >>= rest).run handler s = (.error err, s') := by
  rw [run_bind, h]
  rfl

theorem run_bind_eq_ok {prog : Fallible ε Op Ans α} {rest : α → Fallible ε Op Ans β} {s s' : σ}
    {value : β} (h : (prog >>= rest).run handler s = (.ok value, s')) :
    ∃ mid s₁, prog.run handler s = (.ok mid, s₁) ∧ (rest mid).run handler s₁ = (.ok value, s') := by
  rcases hp : prog.run handler s with ⟨result, s₁⟩
  rcases result with err | mid
  · rw [run_bind_of_error hp] at h
    cases (Prod.mk.inj h).1
  · rw [run_bind_of_ok hp] at h
    exact ⟨mid, s₁, rfl, h⟩

@[simp] theorem run_mapError {ε' : Type} (f : ε → ε') (prog : Fallible ε Op Ans α) (s : σ) :
    (mapError f prog).run handler s =
      ((prog.run handler s).1.mapError f, (prog.run handler s).2) :=
  Prog.run_bind prog _ s

theorem run_attempt (prog : Fallible ε Op Ans α) (s : σ) :
    (attempt prog).run handler s = (.ok (prog.run handler s).1, (prog.run handler s).2) :=
  Prog.run_bind prog settle s

theorem run_attempt_bind {prog : Fallible ε Op Ans α} {s s' : σ} {result : Except ε α}
    (h : prog.run handler s = (result, s')) (rest : Except ε α → Fallible ε Op Ans β) :
    (attempt prog >>= rest).run handler s = (rest result).run handler s' := by
  have ha : (attempt prog).run handler s = (.ok result, s') := by
    rw [run_attempt, h]
  exact run_bind_of_ok ha rest

theorem wp_iff_run {prog : Fallible ε Op Ans α} {post : Except ε α → σ → Prop} {s : σ} :
    prog.wp handler.sem Eq unguarded post s ↔
      post (prog.run handler s).1 (prog.run handler s).2 := Prog.wp_iff_run

end Fallible

end RspaceRegistry.Calls
