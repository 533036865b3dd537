import RspaceRegistry.Backend.Run
import RspaceRegistry.World.Faults

namespace RspaceRegistry

open Calls Fallible MultiStore

variable [Sha2] {α β : Type}

-- A call that only looks, and leaves everything as it is.
def Undisturbed (op : Op) (w : World) (_ : op.Ans) (w' : World) : Prop :=
  (op.isFs = true → op.Confined [] []) ∧ w' = w

-- Programs that only read and hide no fault: what they answer is what they would
-- without faults, or a fault.
def Forthright (prog : StoreM α) : Prop :=
  ∀ w, prog.wp World.Faulty Eq Undisturbed (fun result w' => w' = w ∧
    (result = (prog.run World.handle w).1 ∨ ∃ err, err ≠ .notFound ∧ result = .error err)) w

namespace Forthright

variable {prog : StoreM α}

theorem run_eq (h : Forthright prog) (w : World) :
    prog.run World.handle w = ((prog.run World.handle w).1, w) := by
  have hw := Prog.wp_mono (h w) World.faulty_of_handle
    (fun _ _ => id) (fun _ _ _ _ _ => id) fun _ _ => id
  exact Prod.ext rfl (Prog.run_of_wp hw).1

theorem pure (value : α) : Forthright (Pure.pure value : StoreM α) :=
  fun _ => ⟨rfl, .inl rfl⟩

theorem fail (err : StorageError) : Forthright (Fallible.fail err : StoreM α) :=
  fun _ => ⟨rfl, .inl rfl⟩

theorem fs {root : RootId} {call : FsCall} (h : (Op.fs root call).Confined [] []) :
    Forthright (StoreM.fs root call) := by
  rintro w _ rfl answer w' hop
  cases hop with
  | regular =>
      have hsame : (World.handle (.fs root call) w).2 = w := by
        simp only [World.handle, World.exec_of_readOnly root h, w.setRoot_self]
      exact ⟨⟨fun _ => h, hsame⟩, hsame, .inl rfl⟩
  | fault _ _ _ fs err hf hne =>
      have hsame : w.setRoot root fs = w := by
        rw [World.fault_of_readOnly root h hf, w.setRoot_self]
      exact ⟨⟨fun _ => h, hsame⟩, hsame, .inr ⟨err, hne, rfl⟩⟩

theorem backendFor (repo : String) : Forthright (StoreM.backendFor repo) := by
  rintro w _ rfl answer w' hop
  cases World.handle_of_faulty rfl hop
  exact ⟨⟨nofun, rfl⟩, rfl, .inl rfl⟩

theorem bind {rest : α → StoreM β} (hp : Forthright prog) (hr : ∀ value, Forthright (rest value)) :
    Forthright (prog >>= rest) := by
  intro w
  rw [Fallible.wp_bind]
  refine Fallible.wp_post (hp w) ?_
  rintro (err | value) w' ⟨hw, hresult⟩
  · subst hw
    refine ⟨rfl, ?_⟩
    rcases hresult with hrun | hfault
    · have hrun := (hp.run_eq w').trans (congrArg (·, w') hrun.symm)
      exact .inl (by rw [run_bind_of_error hrun])
    · obtain ⟨_, hne, heq⟩ := hfault
      cases heq
      exact .inr ⟨err, hne, rfl⟩
  · subst hw
    rcases hresult with hrun | ⟨_, _, heq⟩
    · have hrun := (hp.run_eq w').trans (congrArg (·, w') hrun.symm)
      rw [run_bind_of_ok hrun]
      exact hr value w'
    · cases heq

-- Only a missing thing is looked at, every other error is passed on.
theorem attempt_bind {rest : Except StorageError α → StoreM β} (hp : Forthright prog)
    (hok : ∀ value, Forthright (rest (.ok value))) (hmissing : Forthright (rest (.error .notFound)))
    (herror : ∀ err, err ≠ .notFound → rest (.error err) = Fallible.fail err) :
    Forthright (attempt prog >>= rest) := by
  intro w
  rw [Fallible.wp_bind, Fallible.wp_attempt]
  refine Fallible.wp_post (hp w) ?_
  rintro result w' ⟨hw, hresult⟩
  subst hw
  rw [outcome_ok]
  rcases hresult with hrun | ⟨err, hne, rfl⟩
  · have hrun := (hp.run_eq w').trans (congrArg (·, w') hrun.symm)
    rw [run_attempt_bind hrun]
    rcases result with err | value
    · by_cases hne : err = .notFound
      · subst hne
        exact hmissing w'
      · rw [herror err hne]
        exact ⟨rfl, .inl rfl⟩
    · exact hok value w'
  · rw [herror err hne]
    exact ⟨rfl, .inr ⟨err, hne, rfl⟩⟩

-- A read through several directories.

theorem readSecondaries {γ : Type} {f : γ → StoreM α} (list : List γ)
    (hf : ∀ s, Forthright (f s)) : Forthright (MultiStore.readSecondaries f list) := by
  induction list with
  | nil => exact fail _
  | cons s rest ih =>
      apply (hf s).attempt_bind
      · exact fun value => pure value
      · exact ih
      · intro err hne
        cases err <;> first | rfl | exact absurd rfl hne

theorem existsInAny {γ : Type} {f : γ → StoreM Bool} (list : List γ)
    (hf : ∀ s, Forthright (f s)) : Forthright (MultiStore.existsInAny f list) := by
  induction list with
  | nil => exact pure false
  | cons s rest ih =>
      refine (hf s).bind ?_
      intro found
      cases found with
      | true => exact pure true
      | false => exact ih

theorem listUnion [LinearOrder α] {γ : Type} {f : γ → StoreM (Ordered.BTreeSet α)} (list : List γ)
    (hf : ∀ s, Forthright (f s)) : Forthright (MultiStore.listUnion f list) := by
  have hinto : ∀ set, Forthright (unionInto f list set) := by
    induction list with
    | nil => exact fun set => pure set
    | cons s rest ih =>
        intro set
        exact (hf s).bind fun values => ih _
  exact hinto .empty

end Forthright

namespace Backend

variable (b : Backend)

theorem forthright_manifestGet (repo : RepoName) (reference : Reference) :
    Forthright (b.storage.manifestGet repo reference) := by
  rw [b.manifestGet_flat]
  exact .readSecondaries _ fun _ => .fs trivial

theorem forthright_blobRead (repo : String) (d : Digest) :
    Forthright (b.storage.blobRead repo d) := by
  rw [b.blobRead_flat]
  exact .readSecondaries _ fun _ => .fs trivial

theorem forthright_blobExists (repo : String) (d : Digest) :
    Forthright (b.storage.blobExists repo d) := by
  rw [b.blobExists_flat]
  exact .existsInAny _ fun _ => .fs trivial

theorem forthright_listRepos : Forthright b.storage.listRepos := by
  rw [b.listRepos_flat]
  exact .listUnion _ fun _ => .fs trivial

theorem forthright_listTags (repo : RepoName) : Forthright (b.storage.listTags repo) := by
  rw [b.listTags_flat]
  exact .listUnion _ fun _ => .fs trivial

theorem forthright_listManifestDigests (repo : RepoName) :
    Forthright (b.storage.listManifestDigests repo) := by
  rw [b.listManifestDigests_flat]
  exact .listUnion _ fun _ => .fs trivial

end Backend

end RspaceRegistry
