import RspaceRegistry.Backend.Uses
import RspaceRegistry.Volumes

namespace RspaceRegistry.World

open Calls Fallible

variable [Sha2]

theorem handle_of_faulty {op : Op} {w w' : World} {answer : op.Ans} (hop : op.isFs = false)
    (h : Faulty op w answer w') : handle op w = (answer, w') := by
  cases h with
  | regular op w => rfl
  | fault root call w fs err hf hne => cases hop

-- A call on a directory, failed or not, changes nothing but that directory.
theorem faulty_fs {root : RootId} {call : FsCall} {w w' : World}
    {answer : Except StorageError call.Value} (h : Faulty (.fs root call) w answer w') :
    ∃ fs, w' = w.setRoot root fs := by
  cases h with
  | regular => exact ⟨_, rfl⟩
  | fault _ _ _ fs err hf hne => exact ⟨fs, rfl⟩

theorem exec_of_readOnly {call : FsCall} (root : RootId) (h : (Op.fs root call).Confined [] [])
    (fs : FsStorage) : (call.exec fs).2 = fs := by
  cases call with
  | blobWrite expected content => cases h
  | manifestPut repo reference content => cases h
  | blobDelete digest => cases h
  | manifestDelete repo reference => cases h
  | _ => rfl

theorem fault_of_readOnly {call : FsCall} (root : RootId) (h : (Op.fs root call).Confined [] [])
    {fs fs' : FsStorage} (hf : call.Fault fs fs') : fs' = fs := by
  cases hf with
  | nothing => rfl
  | directory => cases h
  | manifest => cases h

-- What a program leaves alone, however its calls fail.
structure Keeps (roots : List RootId) (w w' : World) : Prop where
  sameRules : SameRules w w'
  other : ∀ root ∉ roots, w'.roots root = w.roots root

theorem keeps_of_confined {writes deletes : List RootId} {op : Op}
    (hop : op.Confined writes deletes) {w w' : World} {answer : op.Ans}
    (h : Faulty op w answer w') : Keeps (writes ++ deletes) w w' := by
  cases op with
  | fs root call =>
      by_cases hread : (Op.fs root call).Confined [] []
      · have hsame : w' = w := by
          cases h with
          | regular =>
              have hw := exec_of_readOnly root hread (w.roots root)
              rw [handle, hw, w.setRoot_self]
          | fault _ _ _ fs err hf hne =>
              rw [fault_of_readOnly root hread hf, w.setRoot_self]
        rw [hsame]
        exact ⟨.refl w, fun _ _ => rfl⟩
      · obtain ⟨fs, rfl⟩ := faulty_fs h
        refine ⟨w.setRoot_sameRules root fs, ?_⟩
        intro other ho
        have hne : other ≠ root := by
          rintro rfl
          cases call with
          | blobWrite expected content => exact ho (List.mem_append_left _ hop)
          | manifestPut repo reference content => exact ho (List.mem_append_left _ hop)
          | blobDelete digest => exact ho (List.mem_append_right _ hop)
          | manifestDelete repo reference => exact ho (List.mem_append_right _ hop)
          | _ => exact hread trivial
        exact Function.update_of_ne hne fs w.roots
  | _ => exact hop.elim

theorem wp_keeps {α : Type} {writes deletes : List RootId} {prog : StoreM α}
    (hprog : prog.Uses (Op.Confined writes deletes)) (w : World) :
    prog.wp Faulty Eq (fun _ w _ w' => Keeps (writes ++ deletes) w w')
      (fun _ w' => Keeps (writes ++ deletes) w w') w := by
  refine Prog.wp_of_uses hprog ?_ ?_ ?_ w
  · exact fun w => ⟨.refl w, fun _ _ => rfl⟩
  · rintro w₁ w₂ w₃ ⟨hs, ho⟩ ⟨hs', ho'⟩
    exact ⟨hs.trans hs', fun root hr => (ho' root hr).trans (ho root hr)⟩
  · intro op hop w answer w' h
    exact keeps_of_confined hop h

-- A call on the rules does not fail.

section Rules

variable {α : Type} {guar : Sem Op Op.Ans World} {post : Except StorageError α → World → Prop}
variable {w : World}

theorem wp_asks {op : Op} {next : op.Ans → StoreM α} (hop : op.isFs = false)
    (hguar : guar op w (handle op w).1 (handle op w).2)
    (h : (next (handle op w).1).wp Faulty Eq guar post (handle op w).2) :
    Fallible.wp Faulty Eq guar (Prog.call op next) post w := by
  rintro _ rfl answer w' hstep
  have hhandle := handle_of_faulty hop hstep
  rw [hhandle] at h hguar
  exact ⟨hguar, h⟩

theorem wp_backendFor {repo : String} {rest : Backend → StoreM α}
    (hguar : guar (.backendFor repo) w (w.router.resolve repo) w)
    (h : (rest (w.router.resolve repo)).wp Faulty Eq guar post w) :
    (StoreM.backendFor repo >>= rest).wp Faulty Eq guar post w := wp_asks rfl hguar h

theorem wp_backendForPattern {pattern : String} {rest : Option Backend → StoreM α}
    (hguar : guar (.backendForPattern pattern) w (w.router.backendForPattern pattern) w)
    (h : (rest (w.router.backendForPattern pattern)).wp Faulty Eq guar post w) :
    (StoreM.backendForPattern pattern >>= rest).wp Faulty Eq guar post w := wp_asks rfl hguar h

theorem wp_upsert {pattern : String} {backend : Backend} {rest : Bool → StoreM α}
    (hguar : guar (.upsert pattern backend) w (w.router.upsert pattern backend).1
      (w.upsert pattern backend))
    (h : (rest (w.router.upsert pattern backend).1).wp Faulty Eq guar post
      (w.upsert pattern backend)) :
    (StoreM.upsert pattern backend >>= rest).wp Faulty Eq guar post w := wp_asks rfl hguar h

theorem wp_newArc {rest : Nat → StoreM α} (hguar : guar .newArc w w.nextArc w.newArc)
    (h : (rest w.nextArc).wp Faulty Eq guar post w.newArc) :
    (StoreM.newArc >>= rest).wp Faulty Eq guar post w := wp_asks rfl hguar h

end Rules

-- Surroundings in which one call on a directory fails, after a number of calls
-- that do not.
def failAfter : Handler Op Op.Ans (Option Nat × World)
  | .fs _ _, (some 0, w) => (.error .io, (none, w))
  | .fs root call, (some (left + 1), w) =>
      ((handle (.fs root call) w).1, (some left, (handle (.fs root call) w).2))
  | op, (left, w) => ((handle op w).1, (left, (handle op w).2))

theorem faulty_failAfter (op : Op) (left : Option Nat) (w : World) :
    Faulty op w (failAfter op (left, w)).1 (failAfter op (left, w)).2.2 := by
  cases op with
  | fs root call =>
      match left with
      | some 0 =>
          have h := Faulty.fault root call w (w.roots root) .io (.nothing call _) (by decide)
          rw [w.setRoot_self] at h
          exact h
      | some (left + 1) => exact .regular _ _
      | none => exact .regular _ _
  | _ => exact .regular _ _

theorem reaches_failAfter {α : Type} (prog : StoreM α) (left : Option Nat) (w : World) :
    Prog.Reaches Faulty (prog, w)
      (.pure (prog.run failAfter (left, w)).1, (prog.run failAfter (left, w)).2.2) := by
  induction prog generalizing left w with
  | pure result => exact .refl
  | call op next ih =>
      exact .head (.call (faulty_failAfter op left w)) (ih _ _ _)

theorem reaches_run {α : Type} (prog : StoreM α) (w : World) :
    Prog.Reaches Faulty (prog, w) (.pure (prog.run handle w).1, (prog.run handle w).2) := by
  induction prog generalizing w with
  | pure result => exact .refl
  | call op next ih => exact .head (.call (.regular op w)) (ih _ _)

theorem failAfter_other {op : Op} {root : RootId} (hroot : ∀ call, op ≠ .fs root call)
    (s : Option Nat × World) : (failAfter op s).2.2.roots root = s.2.roots root := by
  obtain ⟨left, w⟩ := s
  cases op with
  | fs touched call =>
      have hne : root ≠ touched := by
        rintro rfl
        exact hroot call rfl
      match left with
      | some 0 => rfl
      | some (left + 1) => exact Function.update_of_ne hne _ _
      | none => exact Function.update_of_ne hne _ _
  | _ => rfl

end RspaceRegistry.World
