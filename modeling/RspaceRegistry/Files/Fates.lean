import RspaceRegistry.Files.Crash

namespace RspaceRegistry.Files

open Calls

-- Programs on a disk that fails, in processes that die.

-- What comes of an operation: it is done, it fails half-way, or the process dies there.
inductive Fate
  | done
  | failed (err : IoError) (n : Nat)
  | killed (n : Nat)
deriving DecidableEq, Repr

-- An operation up to some byte, or some directory.
def FileOp.part (n : Nat) (tree : Tree) : FileOp → Tree
  | .createDirAll path => (tree.createDirAll (path.drop n)).2
  | .write inode bytes => tree.write inode (bytes.take n)
  | .append inode bytes => tree.append inode (bytes.take n)
  | _ => tree

-- How far an operation came that is not done.
def Fate.reach : Fate → Nat
  | .done => 0
  | .failed _ n | .killed n => n

-- Operations beyond the list are done. Without a result the process has died.
def runUnder {α : Type} : Prog FileOp FileOp.Ans α → List Fate → Tree → Option α × Tree
  | .pure value, _, tree => (some value, tree)
  | .call op next, fates, tree =>
      match fates.headD .done with
      | .done => runUnder (next (Tree.handle op tree).1) fates.tail (Tree.handle op tree).2
      | .failed err n => runUnder (next (.error err)) fates.tail (op.part n tree)
      | .killed n => (none, op.part n tree)

-- A program that an error of any operation ends.
def Strict {ε α : Type} : Prog FileOp FileOp.Ans (Except ε α) → Prop
  | .pure _ => True
  | .call _ next => (∀ err, ∃ err', next (.error err) = .pure (.error err')) ∧
      ∀ answer, Strict (next answer)

section Runs

variable {α β ε ε' : Type} {op : FileOp} {tree : Tree} {n : Nat}

theorem part_cases (op : FileOp) (n : Nat) (tree : Tree) : op.part n tree = tree ∨
    ∃ part, Torn op part ∧ op.part n tree = (Tree.handle part tree).2 := by
  cases op with
  | createDirAll path => exact .inr ⟨_, .createDirAll (List.drop_suffix n path), rfl⟩
  | write inode bytes => exact .inr ⟨_, .write inode bytes n, rfl⟩
  | append inode bytes => exact .inr ⟨_, .append inode bytes n, rfl⟩
  | create _ | openAppend _ | sync _ | len _ | read _ | rename _ _ | remove _ | readDir _
  | metadata _ => exact .inl rfl

theorem left_part {next : op.Ans → Prog FileOp FileOp.Ans α} (n : Nat) (tree : Tree) :
    Left (.call op next) tree (op.part n tree) := by
  rcases part_cases op n tree with hsame | ⟨part, htorn, hpart⟩
  · rw [hsame]
    exact .stop _ tree
  · rw [hpart]
    exact .torn next tree htorn

-- Where nothing befalls an operation, it is the run.
theorem runUnder_nil (prog : Prog FileOp FileOp.Ans α) (tree : Tree) :
    runUnder prog [] tree = (some (prog.run Tree.handle tree).1, (prog.run Tree.handle tree).2) := by
  induction prog generalizing tree with
  | pure value => rfl
  | call op next ih => exact ih _ _

section Call

variable {next : op.Ans → Prog FileOp FileOp.Ans α} {fates : List Fate}

theorem runUnder_done (h : fates.headD .done = .done) : runUnder (.call op next) fates tree =
    runUnder (next (Tree.handle op tree).1) fates.tail (Tree.handle op tree).2 := by
  rw [runUnder, h]

theorem runUnder_failed {err : IoError} (h : fates.headD .done = .failed err n) :
    runUnder (.call op next) fates tree =
      runUnder (next (.error err)) fates.tail (op.part n tree) := by
  rw [runUnder, h]

theorem runUnder_killed (h : fates.headD .done = .killed n) :
    runUnder (.call op next) fates tree = (none, op.part n tree) := by
  rw [runUnder, h]

end Call

-- A fault has the effect of a crash where it ends the program.
theorem left_runUnder {prog : Fallible ε FileOp FileOp.Ans α} (hstrict : Strict prog)
    (fates : List Fate) (tree : Tree) : Left prog tree (runUnder prog fates tree).2 := by
  induction prog generalizing fates tree with
  | pure value => exact .stop _ tree
  | call op next ih =>
      cases hfate : fates.headD .done with
      | done =>
          rw [runUnder_done hfate]
          exact .call (ih _ (hstrict.2 _) fates.tail _)
      | failed err n =>
          obtain ⟨err', hend⟩ := hstrict.1 err
          rw [runUnder_failed hfate, hend]
          exact left_part n tree
      | killed n =>
          rw [runUnder_killed hfate]
          exact left_part n tree

theorem strict_call (op : FileOp) : Strict (FileM.call op) :=
  ⟨fun err => ⟨err, rfl⟩, fun _ => trivial⟩

theorem strict_pure (value : α) : Strict (pure value : Fallible ε FileOp FileOp.Ans α) := trivial

theorem strict_fail (err : ε) : Strict (Fallible.fail err : Fallible ε FileOp FileOp.Ans α) :=
  trivial

theorem Strict.bind {prog : Fallible ε FileOp FileOp.Ans α}
    {rest : α → Fallible ε FileOp FileOp.Ans β} (h : Strict prog)
    (hrest : ∀ value, Strict (rest value)) :
    Strict (prog >>= rest : Fallible ε FileOp FileOp.Ans β) := by
  induction prog with
  | pure result =>
      cases result with
      | ok value => exact hrest value
      | error err => exact strict_fail err
  | call op next ih =>
      refine ⟨fun err => ?_, fun answer => ih answer (h.2 answer)⟩
      obtain ⟨err', hend⟩ := h.1 err
      refine ⟨err', ?_⟩
      show (next (.error err)).bind (Fallible.andThen rest) = _
      rw [hend]
      rfl

theorem Strict.mapError {prog : Fallible ε FileOp FileOp.Ans α} (f : ε → ε') (h : Strict prog) :
    Strict (Fallible.mapError f prog) := by
  induction prog with
  | pure result => exact trivial
  | call op next ih =>
      refine ⟨fun err => ?_, fun answer => ih answer (h.2 answer)⟩
      obtain ⟨err', hend⟩ := h.1 err
      refine ⟨f err', ?_⟩
      show (next (.error err)).bind _ = _
      rw [hend]
      rfl

-- The first operation of a program is not done, ends it, or the rest goes on.
theorem runUnder_first {f : IoError → ε} {rest : op.Value → Fallible ε FileOp FileOp.Ans β}
    (fates : List Fate) (tree : Tree) :
    let last := (runUnder (Fallible.mapError f (FileM.call op) >>= rest :
      Fallible ε FileOp FileOp.Ans β) fates tree).2
    (fates.headD .done ≠ .done ∧ last = op.part (fates.headD .done).reach tree) ∨
      (∃ err, (Tree.handle op tree).1 = .error err ∧ last = (Tree.handle op tree).2) ∨
      ∃ value, fates.headD .done = .done ∧ (Tree.handle op tree).1 = .ok value ∧
        last = (runUnder (rest value) fates.tail (Tree.handle op tree).2).2 := by
  intro last
  cases hfate : fates.headD .done with
  | done =>
      have hrun : last = (runUnder (Fallible.andThen rest ((Tree.handle op tree).1.mapError f))
          fates.tail (Tree.handle op tree).2).2 := congrArg Prod.snd (runUnder_done hfate)
      cases hanswer : (Tree.handle op tree).1 with
      | error err =>
          rw [hanswer] at hrun
          exact .inr (.inl ⟨err, rfl, hrun⟩)
      | ok value =>
          rw [hanswer] at hrun
          exact .inr (.inr ⟨value, rfl, rfl, hrun⟩)
  | failed err n => exact .inl ⟨by simp, congrArg Prod.snd (runUnder_failed hfate)⟩
  | killed n => exact .inl ⟨by simp, congrArg Prod.snd (runUnder_killed hfate)⟩

-- Where its error is looked at, the program goes on after it.
theorem runUnder_attempt {f : IoError → ε}
    {rest : Except IoError op.Value → Fallible ε FileOp FileOp.Ans β} (fates : List Fate)
    (tree : Tree) :
    let last := (runUnder (Fallible.mapError f (Fallible.attempt (FileM.call op)) >>= rest :
      Fallible ε FileOp FileOp.Ans β) fates tree).2
    (∃ n, fates.headD .done = .killed n ∧ last = op.part n tree) ∨
      (∃ err n, fates.headD .done = .failed err n ∧
        last = (runUnder (rest (.error err)) fates.tail (op.part n tree)).2) ∨
      fates.headD .done = .done ∧
        last = (runUnder (rest (Tree.handle op tree).1) fates.tail (Tree.handle op tree).2).2 := by
  intro last
  cases hfate : fates.headD .done with
  | done => exact .inr (.inr ⟨rfl, congrArg Prod.snd (runUnder_done hfate)⟩)
  | failed err n => exact .inr (.inl ⟨err, n, rfl, congrArg Prod.snd (runUnder_failed hfate)⟩)
  | killed n => exact .inl ⟨n, rfl, congrArg Prod.snd (runUnder_killed hfate)⟩

end Runs

end RspaceRegistry.Files
