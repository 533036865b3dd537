import RspaceRegistry.Calls.Run

namespace RspaceRegistry.Calls.Prog

-- A program at work while others move the state between its calls.

variable {Op : Type} {Ans : Op → Type} {σ α : Type}
variable {sem guar : Sem Op Ans σ} {other rely : σ → σ → Prop}

inductive Move (sem : Sem Op Ans σ) (other : σ → σ → Prop) :
    Prog Op Ans α × σ → Prog Op Ans α × σ → Prop
  | call {op : Op} {next : Ans op → Prog Op Ans α} {s s' : σ} {answer : Ans op}
      (h : sem op s answer s') : Move sem other (.call op next, s) (next answer, s')
  | other {prog : Prog Op Ans α} {s s' : σ} (h : other s s') : Move sem other (prog, s) (prog, s')

abbrev Amid (sem : Sem Op Ans σ) (other : σ → σ → Prop) :
    Prog Op Ans α × σ → Prog Op Ans α × σ → Prop :=
  Relation.ReflTransGen (Move sem other)

-- What is shown of a program under a rely holds at every point that it comes to, if the
-- others keep within the rely.
theorem wp_amid {post : α → σ → Prop} {first last : Prog Op Ans α × σ}
    (hmoves : Amid sem other first last) (h : first.1.wp sem rely guar post first.2)
    (hother : ∀ s s', other s s' → rely s s') (hrefl : ∀ s, rely s s)
    (htrans : ∀ s₁ s₂ s₃, rely s₁ s₂ → rely s₂ s₃ → rely s₁ s₃)
    (hstable : ∀ value s s', rely s s' → post value s → post value s') :
    last.1.wp sem rely guar post last.2 := by
  induction hmoves with
  | refl => exact h
  | tail _ hmove ih =>
      cases hmove with
      | call hop => exact (ih _ (hrefl _) _ _ hop).2
      | other hmoved => exact wp_rely ih (hother _ _ hmoved) htrans hstable

-- A program that is left alone is one amid others.
theorem amid_of_reaches {first last : Prog Op Ans α × σ} (h : Reaches sem first last) :
    Amid sem other first last := by
  induction h with
  | refl => exact .refl
  | tail _ hstep ih =>
      cases hstep with
      | call hop => exact ih.tail (.call hop)

end RspaceRegistry.Calls.Prog
