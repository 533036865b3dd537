import RspaceRegistry.Calls.Run

namespace RspaceRegistry.Calls

-- What holds at every point of a run that nobody else takes part in.

namespace Prog

variable {Op : Type} {Ans : Op → Type} {σ α β : Type} {handler : Handler Op Ans σ}
variable {inv inv' : σ → Prop}

def Always (handler : Handler Op Ans σ) (inv : σ → Prop) (prog : Prog Op Ans α) (s : σ) : Prop :=
  ∀ prog' s', Reaches handler.sem (prog, s) (prog', s') → inv s'

theorem Always.first {prog : Prog Op Ans α} {s : σ} (h : prog.Always handler inv s) : inv s :=
  h prog s .refl

theorem Always.last {prog : Prog Op Ans α} {s : σ} (h : prog.Always handler inv s) :
    inv (prog.run handler s).2 := h _ _ (reaches_of_run prog s)

theorem Always.mono {prog : Prog Op Ans α} {s : σ} (h : prog.Always handler inv s)
    (himp : ∀ s, inv s → inv' s) : prog.Always handler inv' s :=
  fun prog' s' hreach => himp s' (h prog' s' hreach)

theorem always_pure (value : α) (s : σ) :
    (Prog.pure value : Prog Op Ans α).Always handler inv s ↔ inv s := by
  refine ⟨Always.first, ?_⟩
  intro h prog' s' hreach
  cases hreach.cases_head with
  | inl heq =>
      cases heq
      exact h
  | inr hstep =>
      obtain ⟨_, hstep, _⟩ := hstep
      cases hstep

theorem always_call (op : Op) (next : Ans op → Prog Op Ans α) (s : σ) :
    (Prog.call op next).Always handler inv s ↔
      inv s ∧ (next (handler op s).1).Always handler inv (handler op s).2 := by
  constructor
  · intro h
    exact ⟨h.first, fun prog' s' hreach => h prog' s' (.head (.call rfl) hreach)⟩
  · rintro ⟨hhere, hnext⟩ prog' s' hreach
    cases hreach.cases_head with
    | inl heq =>
        cases heq
        exact hhere
    | inr hstep =>
        obtain ⟨_, hstep, hrest⟩ := hstep
        cases hstep with
        | call hop =>
            obtain ⟨rfl, rfl⟩ := Prod.mk.inj (hop : handler op s = _).symm
            exact hnext prog' s' hrest

theorem always_bind (prog : Prog Op Ans α) (rest : α → Prog Op Ans β) (s : σ) :
    (prog.bind rest).Always handler inv s ↔ prog.Always handler inv s ∧
      (rest (prog.run handler s).1).Always handler inv (prog.run handler s).2 := by
  induction prog generalizing s with
  | pure value =>
      rw [always_pure]
      exact ⟨fun h => ⟨h.first, h⟩, fun h => h.2⟩
  | call op next ih => rw [call_bind, always_call, always_call, ih, run_call, and_assoc]

-- An invariant of every call of the program.
theorem always_of_wp {post : α → σ → Prop} {prog : Prog Op Ans α} {s : σ}
    (h : prog.wp handler.sem Eq (fun _ s _ s' => inv s → inv s') post s) (hs : inv s) :
    prog.Always handler inv s :=
  fun _ _ hreach => invariant_of_wp h hs hreach

end Prog

namespace Fallible

variable {Op : Type} {Ans : Op → Type} {σ ε α β : Type} {handler : Handler Op Ans σ}
variable {inv : σ → Prop}

def Always (handler : Handler Op Ans σ) (inv : σ → Prop) (prog : Fallible ε Op Ans α) (s : σ) :
    Prop := Prog.Always handler inv prog s

theorem Always.last {prog : Fallible ε Op Ans α} {s s' : σ} {result : Except ε α}
    (h : prog.Always handler inv s) (hrun : prog.run handler s = (result, s')) : inv s' := by
  have hlast := Prog.Always.last h
  have hend : (Prog.run handler prog s).2 = s' := congrArg Prod.snd hrun
  rwa [hend] at hlast

theorem always_pure (value : α) (s : σ) :
    (pure value : Fallible ε Op Ans α).Always handler inv s ↔ inv s := Prog.always_pure _ s

theorem always_bind_of_ok {prog : Fallible ε Op Ans α} {s s' : σ} {value : α}
    (h : prog.run handler s = (.ok value, s')) (rest : α → Fallible ε Op Ans β) :
    (prog >>= rest).Always handler inv s ↔
      prog.Always handler inv s ∧ (rest value).Always handler inv s' := by
  refine (Prog.always_bind prog (andThen rest) s).trans (and_congr_right fun _ => ?_)
  have hrun : Prog.run handler prog s = (.ok value, s') := h
  rw [hrun]
  rfl

theorem always_bind_of_error {prog : Fallible ε Op Ans α} {s s' : σ} {err : ε}
    (h : prog.run handler s = (.error err, s')) (rest : α → Fallible ε Op Ans β) :
    (prog >>= rest).Always handler inv s ↔ prog.Always handler inv s := by
  have hrun : Prog.run handler prog s = (.error err, s') := h
  refine (Prog.always_bind prog (andThen rest) s).trans ⟨fun hboth => hboth.1, ?_⟩
  intro hprog
  refine ⟨hprog, ?_⟩
  have hlast := Always.last hprog h
  rw [hrun]
  exact (Prog.always_pure _ s').mpr hlast

theorem Always.of_bind {prog : Fallible ε Op Ans α} {rest : α → Fallible ε Op Ans β} {s : σ}
    (h : (prog >>= rest).Always handler inv s) : prog.Always handler inv s :=
  ((Prog.always_bind prog (andThen rest) s).mp h).1

-- Nothing happens in a returned value.
theorem always_bind_pure (prog : Fallible ε Op Ans α) (f : α → β) (s : σ) :
    (prog >>= fun value => pure (f value)).Always handler inv s ↔ prog.Always handler inv s := by
  rcases hrun : prog.run handler s with ⟨result, s'⟩
  cases result with
  | error err => exact always_bind_of_error hrun _
  | ok value =>
      rw [always_bind_of_ok hrun, always_pure]
      exact ⟨And.left, fun h => ⟨h, h.last hrun⟩⟩

theorem always_attempt_bind {prog : Fallible ε Op Ans α} {s s' : σ} {result : Except ε α}
    (h : prog.run handler s = (result, s')) (rest : Except ε α → Fallible ε Op Ans β) :
    (attempt prog >>= rest).Always handler inv s ↔
      prog.Always handler inv s ∧ (rest result).Always handler inv s' := by
  have hattempt : (attempt prog).run handler s = (.ok result, s') := by
    rw [run_attempt, h]
  have hprog : (attempt prog).Always handler inv s ↔ prog.Always handler inv s := by
    refine (Prog.always_bind prog settle s).trans ⟨fun hboth => hboth.1, ?_⟩
    exact fun hprog => ⟨hprog, (Prog.always_pure _ _).mpr (Prog.Always.last hprog)⟩
  rw [always_bind_of_ok hattempt, hprog]

end Fallible

end RspaceRegistry.Calls
