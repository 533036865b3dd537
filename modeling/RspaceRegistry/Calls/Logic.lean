import RspaceRegistry.Calls.Program

namespace RspaceRegistry.Calls

-- What a call may answer in a state, and the state it leaves.
abbrev Sem (Op : Type) (Ans : Op → Type) (σ : Type) : Type :=
  (op : Op) → σ → Ans op → σ → Prop

namespace Prog

variable {Op : Type} {Ans : Op → Type} {σ α β ε : Type}
variable {sem sem' : Sem Op Ans σ} {rely rely' : σ → σ → Prop} {guar guar' : Sem Op Ans σ}

-- From state `s`, whatever the surroundings do within `rely` before each call,
-- every call that is made meets `guar`, and a returned value meets `post`.
def wp (sem : Sem Op Ans σ) (rely : σ → σ → Prop) (guar : Sem Op Ans σ) :
    Prog Op Ans α → (α → σ → Prop) → σ → Prop
  | .pure value, post, s => post value s
  | .call op next, post, s => ∀ s₁, rely s s₁ → ∀ answer s₂, sem op s₁ answer s₂ →
      guar op s₁ answer s₂ ∧ (next answer).wp sem rely guar post s₂

@[simp] theorem wp_pure (value : α) (post : α → σ → Prop) (s : σ) :
    (Prog.pure value : Prog Op Ans α).wp sem rely guar post s = post value s := rfl

theorem wp_call (op : Op) (next : Ans op → Prog Op Ans α) (post : α → σ → Prop) (s : σ) :
    (Prog.call op next).wp sem rely guar post s ↔ ∀ s₁, rely s s₁ → ∀ answer s₂,
      sem op s₁ answer s₂ → guar op s₁ answer s₂ ∧ (next answer).wp sem rely guar post s₂ :=
  Iff.rfl

theorem wp_bind (prog : Prog Op Ans α) (rest : α → Prog Op Ans β) (post : β → σ → Prop) (s : σ) :
    (prog.bind rest).wp sem rely guar post s ↔
      prog.wp sem rely guar (fun value => (rest value).wp sem rely guar post) s := by
  induction prog generalizing s with
  | pure value => rfl
  | call op next ih => simp only [call_bind, wp_call, ih]

-- Consequence in all four places at once: fewer answers, a stronger rely, a
-- weaker guarantee and a weaker postcondition.
theorem wp_mono {prog : Prog Op Ans α} {post post' : α → σ → Prop} {s : σ}
    (h : prog.wp sem rely guar post s)
    (hsem : ∀ op s answer s', sem' op s answer s' → sem op s answer s')
    (hrely : ∀ s s', rely' s s' → rely s s')
    (hguar : ∀ op s answer s', sem' op s answer s' → guar op s answer s' → guar' op s answer s')
    (hpost : ∀ value s, post value s → post' value s) :
    prog.wp sem' rely' guar' post' s := by
  induction prog generalizing s with
  | pure value => exact hpost value s h
  | call op next ih =>
      intro s₁ hr answer s₂ hs
      obtain ⟨hg, hn⟩ := h s₁ (hrely s s₁ hr) answer s₂ (hsem op s₁ answer s₂ hs)
      exact ⟨hguar op s₁ answer s₂ hs hg, ih answer hn⟩

theorem wp_post {prog : Prog Op Ans α} {post post' : α → σ → Prop} {s : σ}
    (h : prog.wp sem rely guar post s) (hpost : ∀ value s, post value s → post' value s) :
    prog.wp sem rely guar post' s :=
  wp_mono h (fun _ _ _ _ => id) (fun _ _ => id) (fun _ _ _ _ _ => id) hpost

theorem wp_guar {prog : Prog Op Ans α} {post : α → σ → Prop} {s : σ}
    (h : prog.wp sem rely guar post s)
    (hguar : ∀ op s answer s', sem op s answer s' → guar op s answer s' → guar' op s answer s') :
    prog.wp sem rely guar' post s :=
  wp_mono h (fun _ _ _ _ => id) (fun _ _ => id) hguar (fun _ _ => id)

-- What holds of a program before an interference holds after it, once the
-- postcondition is stable.
theorem wp_rely {prog : Prog Op Ans α} {post : α → σ → Prop} {s s' : σ}
    (h : prog.wp sem rely guar post s) (hr : rely s s')
    (htrans : ∀ s₁ s₂ s₃, rely s₁ s₂ → rely s₂ s₃ → rely s₁ s₃)
    (hstable : ∀ value s s', rely s s' → post value s → post value s') :
    prog.wp sem rely guar post s' := by
  cases prog with
  | pure value => exact hstable value s s' hr h
  | call op next => exact fun s₁ hr₁ => h s₁ (htrans s s' s₁ hr hr₁)

theorem wp_and {prog : Prog Op Ans α} {post post' : α → σ → Prop} {s : σ}
    (h : prog.wp sem rely guar post s) (h' : prog.wp sem rely guar' post' s) :
    prog.wp sem rely (fun op s answer s' => guar op s answer s' ∧ guar' op s answer s')
      (fun value s => post value s ∧ post' value s) s := by
  induction prog generalizing s with
  | pure value => exact ⟨h, h'⟩
  | call op next ih =>
      intro s₁ hr answer s₂ hs
      obtain ⟨hg, hn⟩ := h s₁ hr answer s₂ hs
      obtain ⟨hg', hn'⟩ := h' s₁ hr answer s₂ hs
      exact ⟨⟨hg, hg'⟩, ih answer hn hn'⟩

-- An invariant of every call, kept by the surroundings, holds at the end.
theorem wp_invariant {prog : Prog Op Ans α} {inv : σ → Prop} {s : σ} (hs : inv s)
    (hrely : ∀ s s', rely s s' → inv s → inv s')
    (hcall : ∀ op s answer s', sem op s answer s' → inv s → inv s') :
    prog.wp sem rely (fun _ s _ s' => inv s → inv s') (fun _ => inv) s := by
  induction prog generalizing s with
  | pure value => exact hs
  | call op next ih =>
      intro s₁ hr answer s₂ hop
      have hi := hcall op s₁ answer s₂ hop (hrely s s₁ hr hs)
      exact ⟨fun _ => hi, ih answer hi⟩

-- A program alone, all of whose calls move the state along a preorder.
theorem wp_of_uses {allowed : Op → Prop} {prog : Prog Op Ans α} (hprog : prog.Uses allowed)
    {moves : σ → σ → Prop} (hrefl : ∀ s, moves s s)
    (htrans : ∀ s₁ s₂ s₃, moves s₁ s₂ → moves s₂ s₃ → moves s₁ s₃)
    (hcall : ∀ op, allowed op → ∀ s answer s', sem op s answer s' → moves s s') (s : σ) :
    prog.wp sem Eq (fun _ s _ s' => moves s s') (fun _ s' => moves s s') s := by
  induction prog generalizing s with
  | pure value => exact hrefl s
  | call op next ih =>
      rintro _ rfl answer s₂ hop
      have hmove := hcall op hprog.1 s answer s₂ hop
      refine ⟨hmove, ?_⟩
      exact wp_post (ih answer (hprog.2 answer) s₂) fun _ s₃ h => htrans s s₂ s₃ hmove h

end Prog

namespace Fallible

variable {Op : Type} {Ans : Op → Type} {σ ε α β : Type}
variable {sem : Sem Op Ans σ} {rely : σ → σ → Prop} {guar : Sem Op Ans σ}

-- A postcondition by cases on the outcome.
def Outcome (ok : α → σ → Prop) (error : ε → σ → Prop) : Except ε α → σ → Prop
  | .ok value => ok value
  | .error err => error err

@[simp] theorem outcome_ok (ok : α → σ → Prop) (error : ε → σ → Prop) (value : α) :
    Outcome ok error (.ok value) = ok value := rfl

@[simp] theorem outcome_error (ok : α → σ → Prop) (error : ε → σ → Prop) (err : ε) :
    Outcome ok error (.error err) = error err := rfl

def wp (sem : Sem Op Ans σ) (rely : σ → σ → Prop) (guar : Sem Op Ans σ)
    (prog : Fallible ε Op Ans α) (post : Except ε α → σ → Prop) (s : σ) : Prop :=
  Prog.wp sem rely guar prog post s

@[simp] theorem wp_pure (value : α) (post : Except ε α → σ → Prop) (s : σ) :
    (pure value : Fallible ε Op Ans α).wp sem rely guar post s = post (.ok value) s := rfl

@[simp] theorem wp_fail (err : ε) (post : Except ε α → σ → Prop) (s : σ) :
    (fail err : Fallible ε Op Ans α).wp sem rely guar post s = post (.error err) s := rfl

theorem wp_bind (prog : Fallible ε Op Ans α) (rest : α → Fallible ε Op Ans β)
    (post : Except ε β → σ → Prop) (s : σ) :
    (prog >>= rest).wp sem rely guar post s ↔ prog.wp sem rely guar
      (Outcome (fun value => (rest value).wp sem rely guar post) fun err => post (.error err)) s := by
  have ho : (fun result => (andThen rest result).wp sem rely guar post) =
      Outcome (fun value => (rest value).wp sem rely guar post)
        (fun err => post (.error err)) := by
    funext result
    cases result <;> rfl
  refine (Prog.wp_bind prog (andThen rest) post s).trans ?_
  rw [ho]
  rfl

theorem wp_attempt (prog : Fallible ε Op Ans α)
    (post : Except ε (Except ε α) → σ → Prop) (s : σ) :
    (attempt prog).wp sem rely guar post s ↔
      prog.wp sem rely guar (fun result => post (.ok result)) s :=
  Prog.wp_bind prog settle post s

theorem wp_mapError {ε' : Type} (f : ε → ε') (prog : Fallible ε Op Ans α)
    (post : Except ε' α → σ → Prop) (s : σ) :
    (mapError f prog).wp sem rely guar post s ↔
      prog.wp sem rely guar (fun result => post (result.mapError f)) s :=
  Prog.wp_bind prog _ post s

theorem wp_post {prog : Fallible ε Op Ans α} {post post' : Except ε α → σ → Prop} {s : σ}
    (h : prog.wp sem rely guar post s) (hpost : ∀ result s, post result s → post' result s) :
    prog.wp sem rely guar post' s :=
  Prog.wp_post h hpost

end Fallible

end RspaceRegistry.Calls
