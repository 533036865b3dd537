import RspaceRegistry.Backend.Advanced
import RspaceRegistry.Backend.Run

namespace RspaceRegistry

open Calls Fallible Places

section

variable [Sha2]

-- Writing a tag and its manifest where both are as they would be written.
theorem Contents.put_same {c : Contents} {repo : RepoName} {tag : TagName} {content : Bytes}
    (hmanifest : c.manifest repo (sha256Digest content) = some content)
    (htag : c.tag repo tag = some (sha256Digest content)) (hrepo : c.repo repo) :
    c.put repo (.tag tag) content = c := by
  refine Contents.ext rfl ?_ ?_ ?_
  · funext r d
    show (if r = repo ∧ d = sha256Digest content then some content else c.manifest r d) = _
    split
    · rename_i heq
      rw [heq.1, heq.2, hmanifest]
    · rfl
  · funext r t
    show (if r = repo ∧ t = tag then some (sha256Digest content) else c.tag r t) = _
    split
    · rename_i heq
      rw [heq.1, heq.2, htag]
    · rfl
  · funext r
    show (r = repo ∨ c.repo r) = c.repo r
    exact propext ⟨fun h => h.elim (fun heq => heq ▸ hrepo) id, .inr⟩

end

theorem Volumes.onRoots_same {v : Volumes} {root : RootId} {change : Contents → Contents}
    (h : change (v root) = v root) : v.onRoots [root] change = v := by
  rw [Volumes.onRoots_singleton, h, Function.update_eq_self]

namespace Plan

-- The destination has all that a plan would bring it: what the source has of it can be
-- read there, and the tags stand where they would be written.
structure Settled (plan : Plan) (src dst : Backend) (v : Volumes) : Prop where
  held : plan.Held src dst v v
  tag : ∀ r t d, plan.tag r t d → v.tagAt r t dst.head = some d ∧ (v.manifestAt r d dst.head).isSome

namespace Settled

variable {plan : Plan} {src dst : Backend} {v : Volumes} (h : plan.Settled src dst v)

include h

theorem blob {d : Digest} (hd : plan.blob d) (hsrc : (src.blob v d).isSome) :
    (dst.blob v d).isSome := by
  obtain ⟨bytes, hbytes⟩ := Option.isSome_iff_exists.mp hsrc
  rw [h.held.blob d hd bytes hbytes]
  rfl

theorem manifest {r : RepoName} {d : Digest} (hd : plan.manifest r d)
    (hsrc : (src.read v r (.digest d)).isSome) : (dst.read v r (.digest d)).isSome := by
  obtain ⟨bytes, hbytes⟩ := Option.isSome_iff_exists.mp hsrc
  rw [h.held.manifest r d hd bytes hbytes]
  rfl

-- What is written for a tag is what is there.
theorem run_put [Sha2] {w : World} (hv : w.volumes = v) (hcoh : ∀ r, v.Coherent r) {r : RepoName}
    {t : TagName} {d : Digest} {bytes : Bytes} (ht : plan.tag r t d)
    (hsrc : src.read v r (.digest d) = some bytes) : ∃ w',
      (dst.storage.manifestPut r (.tag t) bytes).run World.handle w =
        (.ok (sha256Digest bytes), w') ∧ World.SameRules w w' ∧ w'.volumes = v := by
  subst hv
  obtain ⟨w', hput, hsame, hvolumes⟩ := dst.run_manifestPut w r (.tag t) bytes
  refine ⟨w', hput, hsame, ?_⟩
  obtain ⟨htag, hmanifest⟩ := h.tag r t d ht
  obtain ⟨content, hcontent⟩ := Option.isSome_iff_exists.mp hmanifest
  obtain ⟨root, _, hroot⟩ := Backend.exists_of_read hsrc
  obtain rfl : content = bytes := hcoh r d dst.head root content bytes hcontent hroot
  have hwell := w.volumes_wellFormed dst.head
  have haddr : sha256Digest content = d := hwell.manifest_addressed r d content hcontent
  subst haddr
  rw [hvolumes]
  exact Volumes.onRoots_same
    (Contents.put_same hcontent htag (hwell.manifest_listed r _ content hcontent))

end Settled

end Plan

end RspaceRegistry
