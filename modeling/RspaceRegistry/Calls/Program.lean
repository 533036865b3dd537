import Mathlib.Logic.Relation

namespace RspaceRegistry.Calls

-- A program is a tree of calls to its surroundings. The answer to a call picks
-- the subtree to continue with, so every point where another party may act is
-- the edge between two nodes.
inductive Prog (Op : Type) (Ans : Op → Type) (α : Type) : Type
  | pure (value : α)
  | call (op : Op) (next : Ans op → Prog Op Ans α)

namespace Prog

variable {Op : Type} {Ans : Op → Type} {α β γ : Type}

def bind : Prog Op Ans α → (α → Prog Op Ans β) → Prog Op Ans β
  | .pure value, rest => rest value
  | .call op next, rest => .call op fun answer => (next answer).bind rest

@[simp] theorem pure_bind (value : α) (rest : α → Prog Op Ans β) :
    (Prog.pure value).bind rest = rest value := rfl

@[simp] theorem call_bind (op : Op) (next : Ans op → Prog Op Ans α) (rest : α → Prog Op Ans β) :
    (Prog.call op next).bind rest = .call op fun answer => (next answer).bind rest := rfl

theorem bind_pure (prog : Prog Op Ans α) : prog.bind .pure = prog := by
  induction prog with
  | pure value => rfl
  | call op next ih => exact congrArg (Prog.call op) (funext ih)

theorem bind_assoc (prog : Prog Op Ans α) (first : α → Prog Op Ans β)
    (second : β → Prog Op Ans γ) :
    (prog.bind first).bind second = prog.bind fun value => (first value).bind second := by
  induction prog with
  | pure value => rfl
  | call op next ih => exact congrArg (Prog.call op) (funext ih)

-- The program is not over yet.
def isCall : Prog Op Ans α → Bool
  | .pure _ => false
  | .call _ _ => true

def result : Prog Op Ans α → Option α
  | .pure value => some value
  | .call _ _ => none

theorem eq_pure_of_result {prog : Prog Op Ans α} {value : α} (h : prog.result = some value) :
    prog = .pure value := by
  cases prog with
  | pure v => exact congrArg Prog.pure (Option.some.inj h)
  | call op next => cases h

-- The program whose every call satisfies `allowed`, whatever the answers are.
def Uses (allowed : Op → Prop) : Prog Op Ans α → Prop
  | .pure _ => True
  | .call op next => allowed op ∧ ∀ answer, (next answer).Uses allowed

theorem Uses.bind {allowed : Op → Prop} {prog : Prog Op Ans α} {rest : α → Prog Op Ans β}
    (hp : prog.Uses allowed) (hr : ∀ value, (rest value).Uses allowed) :
    (prog.bind rest).Uses allowed := by
  induction prog with
  | pure value => exact hr value
  | call op next ih => exact ⟨hp.1, fun answer => ih answer (hp.2 answer)⟩

theorem Uses.mono {first second : Op → Prop} {prog : Prog Op Ans α}
    (hp : prog.Uses first) (himp : ∀ op, first op → second op) : prog.Uses second := by
  induction prog with
  | pure value => trivial
  | call op next ih => exact ⟨himp op hp.1, fun answer => ih answer (hp.2 answer)⟩

end Prog

-- Programs that may stop early with an error, as a Rust body does at `?`.
def Fallible (ε : Type) (Op : Type) (Ans : Op → Type) (α : Type) : Type :=
  Prog Op Ans (Except ε α)

namespace Fallible

variable {ε : Type} {Op : Type} {Ans : Op → Type} {α β γ : Type}

def andThen (rest : α → Fallible ε Op Ans β) : Except ε α → Prog Op Ans (Except ε β)
  | .ok value => rest value
  | .error err => .pure (.error err)

instance : Monad (Fallible ε Op Ans) where
  pure value := Prog.pure (.ok value)
  bind prog rest := Prog.bind prog (andThen rest)

theorem andThen_pure : (andThen fun value : α => pure value) =
    (Prog.pure : Except ε α → Prog Op Ans (Except ε α)) := by
  funext result
  cases result <;> rfl

theorem andThen_bind (first : α → Fallible ε Op Ans β) (second : β → Fallible ε Op Ans γ)
    (result : Except ε α) :
    (andThen first result).bind (andThen second) =
      andThen (fun value => first value >>= second) result := by
  cases result <;> rfl

theorem bind_assoc' (prog : Fallible ε Op Ans α) (first : α → Fallible ε Op Ans β)
    (second : β → Fallible ε Op Ans γ) :
    prog >>= first >>= second = prog >>= fun value => first value >>= second :=
  (Prog.bind_assoc prog (andThen first) (andThen second)).trans
    (congrArg (Prog.bind prog) (funext (andThen_bind first second)))

instance : LawfulMonad (Fallible ε Op Ans) := LawfulMonad.mk' _
  (fun prog => (congrArg (Prog.bind prog) andThen_pure).trans (Prog.bind_pure prog))
  (fun _ _ => rfl)
  bind_assoc'

def fail (err : ε) : Fallible ε Op Ans α := Prog.pure (.error err)

def settle (result : Except ε α) : Prog Op Ans (Except ε (Except ε α)) := .pure (.ok result)

-- Run a program and hand its outcome on, error or not: Rust's `match call.await`.
def attempt (prog : Fallible ε Op Ans α) : Fallible ε Op Ans (Except ε α) :=
  Prog.bind prog settle

@[simp] theorem fail_bind (err : ε) (rest : α → Fallible ε Op Ans β) :
    (fail err : Fallible ε Op Ans α) >>= rest = fail err := rfl

@[simp] theorem attempt_pure (value : α) :
    attempt (pure value : Fallible ε Op Ans α) = pure (.ok value) := rfl

@[simp] theorem attempt_fail (err : ε) :
    attempt (fail err : Fallible ε Op Ans α) = pure (.error err) := rfl

-- An error under another name: Rust's `map_err`, and the conversion at `?`.
def mapError {ε' : Type} (f : ε → ε') (prog : Fallible ε Op Ans α) : Fallible ε' Op Ans α :=
  Prog.bind prog fun result => .pure (result.mapError f)

@[simp] theorem mapError_pure {ε' : Type} (f : ε → ε') (value : α) :
    mapError f (pure value : Fallible ε Op Ans α) = pure value := rfl

@[simp] theorem mapError_fail {ε' : Type} (f : ε → ε') (err : ε) :
    mapError f (fail err : Fallible ε Op Ans α) = fail (f err) := rfl

-- An outcome that was already caught is never an error.
theorem attempt_attempt_bind (prog : Fallible ε Op Ans α)
    (rest : Except ε α → Fallible ε Op Ans β) :
    attempt (attempt prog >>= rest) = attempt prog >>= fun result => attempt (rest result) := by
  have hl : attempt (attempt prog >>= rest) =
      Prog.bind prog fun result => (rest result).bind settle := by
    have hb : attempt prog >>= rest = Prog.bind prog rest :=
      Prog.bind_assoc prog settle (andThen rest)
    rw [hb]
    exact Prog.bind_assoc prog rest settle
  rw [hl]
  exact (Prog.bind_assoc prog settle (andThen fun result => attempt (rest result))).symm

-- Looking at an outcome and passing it on is doing nothing.
theorem attempt_bind_self (prog : Fallible ε Op Ans α)
    (rest : Except ε α → Fallible ε Op Ans α)
    (hok : ∀ value, rest (.ok value) = pure value) (herror : ∀ err, rest (.error err) = fail err) :
    attempt prog >>= rest = prog := by
  have hr : rest = Prog.pure := by
    funext result
    cases result with
    | ok value => exact hok value
    | error err => exact herror err
  have hl : attempt prog >>= rest = Prog.bind prog rest :=
    Prog.bind_assoc prog settle (andThen rest)
  rw [hl, hr]
  exact Prog.bind_pure prog

def Uses (allowed : Op → Prop) (prog : Fallible ε Op Ans α) : Prop := Prog.Uses allowed prog

theorem uses_pure (allowed : Op → Prop) (value : α) :
    (pure value : Fallible ε Op Ans α).Uses allowed := trivial

theorem uses_fail (allowed : Op → Prop) (err : ε) :
    (fail err : Fallible ε Op Ans α).Uses allowed := trivial

theorem Uses.bind {allowed : Op → Prop} {prog : Fallible ε Op Ans α}
    {rest : α → Fallible ε Op Ans β} (hp : prog.Uses allowed)
    (hr : ∀ value, (rest value).Uses allowed) : (prog >>= rest).Uses allowed := by
  refine Prog.Uses.bind hp ?_
  intro result
  cases result with
  | ok value => exact hr value
  | error err => trivial

theorem Uses.attempt {allowed : Op → Prop} {prog : Fallible ε Op Ans α} (hp : prog.Uses allowed) :
    (Fallible.attempt prog).Uses allowed := Prog.Uses.bind hp fun _ => trivial

theorem Uses.mono {first second : Op → Prop} {prog : Fallible ε Op Ans α} (hp : prog.Uses first)
    (himp : ∀ op, first op → second op) : prog.Uses second := Prog.Uses.mono hp himp

end Fallible

end RspaceRegistry.Calls
