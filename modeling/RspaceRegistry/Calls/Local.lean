import RspaceRegistry.Calls.Run

namespace RspaceRegistry.Calls

-- What is known of a run from the calls that the program may make.

namespace Prog

variable {Op : Type} {Ans : Op → Type} {σ α β : Type} {handler : Handler Op Ans σ}
variable {allowed : Op → Prop}

theorem Uses.calls {prog : Prog Op Ans α} (h : prog.Uses allowed) {s : σ} {op : Op}
    (hop : op ∈ prog.calls handler s) : allowed op := by
  induction prog generalizing s with
  | pure value => cases hop
  | call first next ih =>
      rcases List.mem_cons.mp hop with rfl | hrest
      · exact h.1
      · exact ih _ (h.2 _) hrest

-- The first call of the program, if it makes one.
def Starts (allowed : Op → Prop) : Prog Op Ans α → Prop
  | .pure _ => True
  | .call op _ => allowed op

theorem Starts.bind {prog : Prog Op Ans α} {rest : α → Prog Op Ans β} (hp : prog.Starts allowed)
    (hr : ∀ value, (rest value).Starts allowed) : (prog.bind rest).Starts allowed := by
  cases prog with
  | pure value => exact hr value
  | call op next => exact hp

theorem Starts.exists_call {prog : Prog Op Ans α} (h : prog.Starts allowed)
    (hcall : prog.isCall = true) (s : σ) : ∃ op ∈ prog.calls handler s, allowed op := by
  cases prog with
  | pure value => cases hcall
  | call op next => exact ⟨op, List.mem_cons_self, h⟩

theorem calls_bind (prog : Prog Op Ans α) (rest : α → Prog Op Ans β) (s : σ) :
    (prog.bind rest).calls handler s = prog.calls handler s ++
      (rest (prog.run handler s).1).calls handler (prog.run handler s).2 := by
  induction prog generalizing s with
  | pure value => rfl
  | call op next ih => exact congrArg (op :: ·) (ih _ _)

theorem calls_eq_nil {prog : Prog Op Ans α} (h : prog.isCall = false) (s : σ) :
    prog.calls handler s = [] := by
  cases prog with
  | pure value => rfl
  | call op next => cases h

-- Where every call is answered alike in two surroundings and changes neither, so is
-- the program.
theorem run_alike {σ' : Type} {handler' : Handler Op Ans σ'} {s : σ} {s' : σ'}
    {prog : Prog Op Ans α} (h : prog.Uses fun op =>
      ∃ answer, handler op s = (answer, s) ∧ handler' op s' = (answer, s')) :
    ∃ value, prog.run handler s = (value, s) ∧ prog.run handler' s' = (value, s') := by
  induction prog with
  | pure value => exact ⟨value, rfl, rfl⟩
  | call op next ih =>
      obtain ⟨answer, hleft, hright⟩ := h.1
      rw [run_call, run_call, hleft, hright]
      exact ih answer (h.2 answer)

end Prog

namespace Fallible

variable {ε ε' : Type} {Op : Type} {Ans : Op → Type} {σ α β : Type} {allowed : Op → Prop}

-- An error that no part ends in is not the outcome.
theorem run_bind_ne_error {handler : Handler Op Ans σ} {prog : Fallible ε Op Ans α}
    {rest : α → Fallible ε Op Ans β} {s : σ} {err : ε} (hprog : (prog.run handler s).1 ≠ .error err)
    (hrest : ∀ value s', prog.run handler s = (.ok value, s') →
      ((rest value).run handler s').1 ≠ .error err) :
    ((prog >>= rest).run handler s).1 ≠ .error err := by
  rcases hrun : prog.run handler s with ⟨result, s'⟩
  cases result with
  | error other =>
      rw [run_bind_of_error hrun]
      rw [hrun] at hprog
      intro heq
      exact hprog (congrArg Except.error (Except.error.inj heq))
  | ok value =>
      rw [run_bind_of_ok hrun]
      exact hrest value s' hrun

def calls (handler : Handler Op Ans σ) (prog : Fallible ε Op Ans α) (s : σ) : List Op :=
  Prog.calls handler prog s

theorem calls_bind {handler : Handler Op Ans σ} (prog : Fallible ε Op Ans α)
    (rest : α → Fallible ε Op Ans β) (s : σ) : (prog >>= rest).calls handler s =
      prog.calls handler s ++
        (andThen rest (prog.run handler s).1 : Fallible ε Op Ans β).calls handler
          (prog.run handler s).2 := Prog.calls_bind prog (andThen rest) s

theorem mem_calls_of_bind {handler : Handler Op Ans σ} {prog : Fallible ε Op Ans α}
    (rest : α → Fallible ε Op Ans β) {s : σ} {op : Op} (hop : op ∈ prog.calls handler s) :
    op ∈ (prog >>= rest).calls handler s := by
  rw [calls_bind]
  exact List.mem_append_left _ hop

theorem mem_calls_bind {handler : Handler Op Ans σ} {prog : Fallible ε Op Ans α}
    {rest : α → Fallible ε Op Ans β} {s : σ} {op : Op} (hop : op ∈ (prog >>= rest).calls handler s)
    (hrest : ∀ value, (rest value).Uses allowed) : op ∈ prog.calls handler s ∨ allowed op := by
  rw [calls_bind, List.mem_append] at hop
  refine hop.imp_right fun hop => ?_
  cases hresult : (prog.run handler s).1 with
  | error err =>
      rw [hresult] at hop
      cases hop
  | ok value =>
      rw [hresult] at hop
      exact Prog.Uses.calls (hrest value) hop

def Starts (allowed : Op → Prop) (prog : Fallible ε Op Ans α) : Prop := Prog.Starts allowed prog

theorem Starts.bind {prog : Fallible ε Op Ans α} {rest : α → Fallible ε Op Ans β}
    (hp : prog.Starts allowed) (hr : ∀ value, (rest value).Starts allowed) :
    (prog >>= rest).Starts allowed := by
  refine Prog.Starts.bind hp fun result => ?_
  cases result with
  | ok value => exact hr value
  | error err => trivial

theorem Uses.mapError {prog : Fallible ε Op Ans α} (h : prog.Uses allowed) (f : ε → ε') :
    (Fallible.mapError f prog).Uses allowed := Prog.Uses.bind h fun _ => trivial

end Fallible

end RspaceRegistry.Calls
