import RspaceRegistry.Backend.Copies
import RspaceRegistry.Calls.Always

namespace RspaceRegistry

open Calls Fallible

variable [Sha2] {α : Type} {prog : StoreM α} {inv : World → Prop} {w : World}

-- What holds at every point of a run without failures.

namespace World

-- A failure is never needed to keep an invariant.
theorem always_of_wp {post : Except StorageError α → World → Prop}
    (h : prog.wp World.Faulty Eq (fun _ s _ s' => inv s → inv s') post w) (hw : inv w) :
    prog.Always World.handle inv w :=
  Prog.always_of_wp (Prog.wp_mono h faulty_of_handle (fun _ _ => id) (fun _ _ _ _ _ => id)
    fun _ _ => id) hw

theorem always_router {writes deletes : List RootId}
    (hprog : prog.Uses (Op.Confined writes deletes)) (w : World) :
    prog.Always World.handle (fun w' => w'.router = w.router) w := by
  refine always_of_wp (Prog.wp_guar (wp_keeps hprog w) ?_) rfl
  exact fun _ _ _ _ _ hkeeps hs => hkeeps.sameRules.router.trans hs

end World

theorem Forthright.always_iff (h : Forthright prog) :
    prog.Always World.handle inv w ↔ inv w := by
  refine ⟨Prog.Always.first, World.always_of_wp (Prog.wp_guar (h w) ?_)⟩
  rintro op s answer s' _ ⟨_, rfl⟩
  exact id

theorem always_fs (root : RootId) (call : FsCall) :
    (StoreM.fs root call).Always World.handle inv w ↔ inv w ∧ inv (World.handle (.fs root call) w).2 := by
  refine (Prog.always_call (Op.fs root call) _ w).trans (and_congr_right fun _ => ?_)
  exact Prog.always_pure _ _

theorem Backend.always_manifestPut (b : Backend) (repo : RepoName) (reference : Reference)
    (content : Bytes) : (b.storage.manifestPut repo reference content).Always World.handle inv w ↔
      inv w ∧ inv ((b.storage.manifestPut repo reference content).run World.handle w).2 := by
  rw [b.manifestPut_flat]
  exact always_fs _ _

-- How far a copier has come.
theorem always_advanced {plan : Plan} {src : Backend} {dsts : List Backend} {v : Volumes}
    {post : Except StorageError α → World → Prop}
    (h : prog.wp World.Faulty Eq (Careful plan src dsts v) post w)
    (hw : plan.Advanced src (dsts.map Backend.head) v v w.volumes) :
    prog.Always World.handle
      (fun w' => plan.Advanced src (dsts.map Backend.head) v v w'.volumes) w := by
  refine World.always_of_wp (Prog.wp_guar h ?_) hw
  exact fun _ _ _ _ _ hstep hs => hs.trans hstep.advanced

end RspaceRegistry
