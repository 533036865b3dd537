import RspaceRegistry.Backend.Advanced
import RspaceRegistry.Replicate.Pull

namespace RspaceRegistry

-- The partitions that hang below a node of a tree of stores.
def Partitions.backends (ps : Partitions) : List Backend := ps.toList.map (·.storage)

theorem Partitions.storages_eq (ps : Partitions) :
    ps.storages = ps.backends.map Backend.storage := by
  cases ps with
  | nil => rfl
  | cons name storage rest => exact congrArg (storage.storage :: ·) rest.storages_eq

namespace Replicate

open Calls Fallible Ordered Places
open Migrate (Target Reads fillSlot forceSlot)

variable [Sha2] [SerdeJson]

def plan (cfg : ReplicateConfig) (src : Backend) (v : Volumes) : Plan where
  blob d := ∃ r, WantsBlob cfg src v r d
  manifest := Wants cfg src v
  tag := WantsTag cfg src v

-- How far some secondaries have caught up: `u` is what has become of `v`.
structure Synced (cfg : ReplicateConfig) (src : Backend) (done : List Backend) (v u : Volumes) :
    Prop where
  advanced : (plan cfg src v).Advanced src (done.map Backend.head) v v u
  filled : ∀ r d root bytes, u.manifestAt r d root = some bytes →
    v.manifestAt r d root = some bytes ∨ ∃ dst ∈ done, dst.head = root ∧
      ((∃ t, WantsTag cfg src v r t d) ∨ dst.read v r (.digest d) = none)
  repoKept : ∀ root r, (v root).repo r → (u root).repo r
  repoNew : ∀ root r, (u root).repo r → (v root).repo r ∨ ∃ d, Wants cfg src v r d

-- A secondary has what is wanted of the source.
structure CaughtUp (cfg : ReplicateConfig) (src dst : Backend) (v u : Volumes) : Prop where
  held : (plan cfg src v).Held src dst v u
  tag : ∀ r t d, WantsTag cfg src v r t d →
    u.tagAt r t dst.head = some d ∧ (u.manifestAt r d dst.head).isSome

theorem synced_nil (cfg : ReplicateConfig) (src : Backend) (v : Volumes) :
    Synced cfg src [] v v where
  advanced := .refl v v
  filled _ _ _ _ := .inl
  repoKept _ _ := id
  repoNew _ _ := .inl

variable {cfg : ReplicateConfig} {src : Backend} {done : List Backend} {v u u' : Volumes}

section Pull

variable {dst : Backend} (h : Synced cfg src done v u) (hpull : Pulled cfg src dst v u u')

include hpull

variable (hblobs : ∀ d, Places.Coherent (v.blobAt d)) (hcoh : ∀ r, v.Coherent r)

include h hblobs hcoh

omit hblobs in
-- Where a manifest comes from that was not there before.
theorem Pulled.manifestNew (r : RepoName) (d : Digest) (root : RootId) (bytes : Bytes)
    (hu' : u'.manifestAt r d root = some bytes) : u.manifestAt r d root = some bytes ∨
      root = dst.head ∧ Wants cfg src v r d ∧ src.read v r (.digest d) = some bytes ∧
        ((∃ t, WantsTag cfg src v r t d) ∨ dst.read u r (.digest d) = none) := by
  have hsrc := h.advanced.src_read (hcoh r) d
  by_cases hd : Wants cfg src v r d
  · by_cases ht : ∃ t, WantsTag cfg src v r t d
    · rw [hpull.pointed r d ht] at hu'
      exact (force_new hu').imp_right fun hn => ⟨hn.1, hd, hsrc.symm.trans hn.2, .inl ht⟩
    · rw [hpull.walked r d hd ht] at hu'
      exact (fill_new hu').imp_right fun hn => ⟨hn.1, hd, hsrc.symm.trans hn.2.1, .inr hn.2.2⟩
  · rw [hpull.otherManifest r d hd] at hu'
    exact .inl hu'

theorem Pulled.advanced (hv : ∀ root, (v root).WellFormed) :
    (plan cfg src v).Advanced src [dst.head] v u u' where
  blobKept := by
    intro d root bytes hu
    by_cases hd : ∃ r, WantsBlob cfg src v r d
    · rw [hpull.blob d hd]
      exact fill_kept dst.head_mem_readOrder hu
    · rw [hpull.otherBlob d hd]
      exact hu
  blobNew := by
    intro d root bytes hu'
    by_cases hd : ∃ r, WantsBlob cfg src v r d
    · rw [hpull.blob d hd] at hu'
      refine (fill_new hu').imp_right fun hn => ⟨List.mem_singleton.mpr hn.1, hd, ?_⟩
      exact (h.advanced.src_blob (hblobs d)).symm.trans hn.2.1
    · rw [hpull.otherBlob d hd] at hu'
      exact .inl hu'
  manifestKept := by
    intro r d root bytes hu
    by_cases hd : Wants cfg src v r d
    · by_cases ht : ∃ t, WantsTag cfg src v r t d
      · rw [hpull.pointed r d ht]
        exact force_kept (h.advanced.coherent (hcoh r) d) hu
      · rw [hpull.walked r d hd ht]
        exact fill_kept dst.head_mem_readOrder hu
    · rw [hpull.otherManifest r d hd]
      exact hu
  manifestNew := by
    intro r d root bytes hu'
    refine (hpull.manifestNew h hcoh r d root bytes hu').imp_right ?_
    rintro ⟨rfl, hd, hsrc, _⟩
    exact ⟨List.mem_singleton_self _, hd, hsrc⟩
  tag := by
    intro r t root
    by_cases ht : ∃ d, WantsTag cfg src v r t d
    · obtain ⟨d, hd⟩ := ht
      rw [hpull.tag r t d hd]
      by_cases hroot : root = dst.head
      · subst hroot
        obtain ⟨bytes, _, hr⟩ := reads_of_wantsTag hcoh hv hd
        have hsrc : first src.readOrder (u.manifestAt r d) = some bytes :=
          (h.advanced.src_read (hcoh r) d).trans hr
        refine .inr ⟨List.mem_singleton_self _, d, hd, Function.update_self .., ?_⟩
        rw [hpull.pointed r d ⟨t, hd⟩, forceSlot, force_of_some hsrc, Function.update_self]
        rfl
      · exact .inl (Function.update_of_ne hroot _ _)
    · rw [hpull.otherTag r t ht]
      exact .inl rfl

-- One secondary more.
theorem Synced.pull (hv : ∀ root, (v root).WellFormed) : Synced cfg src (dst :: done) v u' where
  advanced := by
    have hdone : done.map Backend.head ⊆ (dst :: done).map Backend.head :=
      fun root => List.mem_cons_of_mem _
    have hhere : [dst.head] ⊆ (dst :: done).map Backend.head := by simp
    exact (h.advanced.mono hdone (fun _ => id) (fun _ _ => id) (fun _ _ _ => id)).trans
      ((hpull.advanced h hblobs hcoh hv).mono hhere (fun _ => id) (fun _ _ => id) fun _ _ _ => id)
  filled := by
    intro r d root bytes hu'
    rcases hpull.manifestNew h hcoh r d root bytes hu' with hu | ⟨rfl, _, _, habsent⟩
    · refine (h.filled r d root bytes hu).imp_right ?_
      rintro ⟨b, hb, hnew⟩
      exact ⟨b, List.mem_cons_of_mem dst hb, hnew⟩
    · refine .inr ⟨dst, List.mem_cons_self, rfl, habsent.imp_right fun hnone => ?_⟩
      cases hread : dst.read v r (.digest d) with
      | none => rfl
      | some other =>
          rw [h.advanced.kept_read (hcoh r) hread] at hnone
          cases hnone
  repoKept root r hr := hpull.repoKept root r (h.repoKept root r hr)
  repoNew := by
    intro root r hr
    rcases hpull.repoNew root r hr with hr | hd
    · exact h.repoNew root r hr
    · exact .inr hd

theorem Synced.caughtUp (hv : ∀ root, (v root).WellFormed) : CaughtUp cfg src dst v u' := by
  obtain ⟨rest, horder⟩ := dst.readOrder_eq_cons
  refine ⟨⟨?_, ?_⟩, ?_⟩
  · intro d hd bytes hsrc
    have hu : first src.readOrder (u.blobAt d) = some bytes :=
      (h.advanced.src_blob (hblobs d)).trans hsrc
    rw [Backend.blob, hpull.blob d hd, fillSlot, first_dst_fill horder, hu]
    cases hbu : first dst.readOrder (u.blobAt d) with
    | none => rfl
    | some other => rw [Option.some_or, (h.advanced.coherent_blob (hblobs d)).first_unique hbu hu]
  · intro r d hd bytes hr
    have hu : first src.readOrder (u.manifestAt r d) = some bytes :=
      (h.advanced.src_read (hcoh r) d).trans hr
    by_cases ht : ∃ t, WantsTag cfg src v r t d
    · rw [Backend.read_digest, hpull.pointed r d ht, forceSlot, first_dst_force horder, hu,
        Option.some_or]
    · rw [Backend.read_digest, hpull.walked r d hd ht, fillSlot, first_dst_fill horder, hu]
      cases hbu : first dst.readOrder (u.manifestAt r d) with
      | none => rfl
      | some other => rw [Option.some_or, (h.advanced.coherent (hcoh r) d).first_unique hbu hu]
  · intro r t d ht
    obtain ⟨bytes, _, hr⟩ := reads_of_wantsTag hcoh hv ht
    have hu : first src.readOrder (u.manifestAt r d) = some bytes :=
      (h.advanced.src_read (hcoh r) d).trans hr
    rw [hpull.tag r t d ht, hpull.pointed r d ⟨t, ht⟩, forceSlot, force_of_some hu,
      Function.update_self, Function.update_self]
    exact ⟨rfl, rfl⟩

-- A secondary that has caught up stays so when another one does.
theorem CaughtUp.pull (hv : ∀ root, (v root).WellFormed) {b : Backend}
    (hb : CaughtUp cfg src b v u) : CaughtUp cfg src b v u' where
  held := by
    have hdone : [dst.head] ⊆ dst.head :: done.map Backend.head := by simp
    have hadvanced := h.advanced.mono (List.subset_cons_self dst.head _) (fun _ => id)
      (fun _ _ => id) (fun _ _ _ => id)
    exact hb.held.advance hadvanced ((hpull.advanced h hblobs hcoh hv).mono hdone (fun _ => id)
      (fun _ _ => id) fun _ _ _ => id) hblobs hcoh
  tag := by
    intro r t d ht
    have hstep := hpull.advanced h hblobs hcoh hv
    obtain ⟨htag, hmanifest⟩ := hb.tag r t d ht
    rcases hstep.tag r t b.head with hsame | ⟨_, d', ht', hnew, hthere⟩
    · obtain ⟨bytes, hbytes⟩ := Option.isSome_iff_exists.mp hmanifest
      have hkept := hstep.manifestKept r d _ bytes hbytes
      exact ⟨hsame.trans htag, Option.isSome_iff_exists.mpr ⟨bytes, hkept⟩⟩
    · obtain rfl : d' = d := by
        obtain ⟨_, bytes₁, hbytes₁, rfl⟩ := ht
        obtain ⟨_, bytes₂, hbytes₂, rfl⟩ := ht'
        rw [Option.some.inj (hbytes₁.symm.trans hbytes₂)]
      exact ⟨hnew, hthere⟩

end Pull

variable {wanted : Wanted} {repos : RepoName → Prop}
variable (hwanted : Gathered cfg src v repos wanted)
variable (hlisted : ∀ r d, Wants cfg src v r d → repos r)
variable (hv : ∀ root, (v root).WellFormed)
variable (hblobs : ∀ d, Places.Coherent (v.blobAt d)) (hcoh : ∀ r, v.Coherent r)

include hwanted hlisted hv hblobs hcoh

theorem run_fanOut (secondaries : List Backend) (report : ReplicateReport) (w : World)
    (h : Synced cfg src done v w.volumes) (hdone : ∀ b ∈ done, CaughtUp cfg src b v w.volumes) :
    ∃ report' w', (fanOut src.storage wanted (secondaries.map Backend.storage) report).run
        World.handle w = (.ok report', w') ∧ World.SameRules w w' ∧
      Synced cfg src (secondaries.reverse ++ done) v w'.volumes ∧
      ∀ b ∈ secondaries.reverse ++ done, CaughtUp cfg src b v w'.volumes := by
  induction secondaries generalizing done report w with
  | nil => exact ⟨report, w, rfl, .refl w, h, hdone⟩
  | cons dst rest ih =>
      obtain ⟨report₁, w₁, hrun₁, hsame₁, hpull⟩ := run_copyInto dst
        { report with partitionsScanned := report.partitionsScanned + 1 } w hwanted hlisted hcoh hv
        fun r d => h.advanced.src_read (hcoh r) d
      have hdone₁ : ∀ b ∈ dst :: done, CaughtUp cfg src b v w₁.volumes := by
        intro b hb
        rcases List.mem_cons.mp hb with rfl | hb
        · exact h.caughtUp hpull hblobs hcoh hv
        · exact CaughtUp.pull h hpull hblobs hcoh hv (hdone b hb)
      obtain ⟨report', w', hrun, hsame, h', hdone'⟩ :=
        ih report₁ w₁ (h.pull hpull hblobs hcoh hv) hdone₁
      have horder : (dst :: rest).reverse ++ done = rest.reverse ++ dst :: done := by
        rw [List.reverse_cons, List.append_assoc]
        rfl
      rw [horder]
      refine ⟨report', w', ?_, hsame₁.trans hsame, h', hdone'⟩
      rw [List.map_cons, fanOut, run_bind_of_ok hrun₁]
      exact hrun

end Replicate


end RspaceRegistry
