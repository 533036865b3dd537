import RspaceRegistry.Volumes

namespace RspaceRegistry

open Places

-- What a copier sets out to bring from one store to others.
structure Plan where
  blob : Digest → Prop
  manifest : RepoName → Digest → Prop
  tag : RepoName → TagName → Digest → Prop

namespace Plan

variable (plan : Plan) (src : Backend)

-- How the roots change while a plan is carried out, from `u` to `u'`: nothing goes,
-- what comes is what the source had when its roots were `v`, and a tag is repointed
-- only to its target, which is there already. Only the roots of `heads` change.
structure Advanced (heads : List RootId) (v u u' : Volumes) : Prop where
  blobKept : ∀ d root bytes, u.blobAt d root = some bytes → u'.blobAt d root = some bytes
  blobNew : ∀ d root bytes, u'.blobAt d root = some bytes → u.blobAt d root = some bytes ∨
    root ∈ heads ∧ plan.blob d ∧ src.blob v d = some bytes
  manifestKept : ∀ r d root bytes, u.manifestAt r d root = some bytes →
    u'.manifestAt r d root = some bytes
  manifestNew : ∀ r d root bytes, u'.manifestAt r d root = some bytes →
    u.manifestAt r d root = some bytes ∨
      root ∈ heads ∧ plan.manifest r d ∧ src.read v r (.digest d) = some bytes
  tag : ∀ r t root, u'.tagAt r t root = u.tagAt r t root ∨ root ∈ heads ∧
    ∃ d, plan.tag r t d ∧ u'.tagAt r t root = some d ∧ (u'.manifestAt r d root).isSome

-- What the source has of the plan is at the destination too.
structure Held (dst : Backend) (v u : Volumes) : Prop where
  blob : ∀ d, plan.blob d → ∀ bytes, src.blob v d = some bytes → dst.blob u d = some bytes
  manifest : ∀ r d, plan.manifest r d → ∀ bytes, src.read v r (.digest d) = some bytes →
    dst.read u r (.digest d) = some bytes

variable {plan src} {heads : List RootId} {v u u' u'' : Volumes}

namespace Advanced

theorem refl (v u : Volumes) : plan.Advanced src heads v u u where
  blobKept _ _ _ := id
  blobNew _ _ _ := .inl
  manifestKept _ _ _ _ := id
  manifestNew _ _ _ _ := .inl
  tag _ _ _ := .inl rfl

theorem trans (h : plan.Advanced src heads v u u') (h' : plan.Advanced src heads v u' u'') :
    plan.Advanced src heads v u u'' where
  blobKept d root bytes hu := h'.blobKept d root bytes (h.blobKept d root bytes hu)
  blobNew := by
    intro d root bytes hu
    rcases h'.blobNew d root bytes hu with hu | hnew
    · exact h.blobNew d root bytes hu
    · exact .inr hnew
  manifestKept r d root bytes hu := h'.manifestKept r d root bytes (h.manifestKept r d root bytes hu)
  manifestNew := by
    intro r d root bytes hu
    rcases h'.manifestNew r d root bytes hu with hu | hnew
    · exact h.manifestNew r d root bytes hu
    · exact .inr hnew
  tag := by
    intro r t root
    rcases h'.tag r t root with hsame | hnew
    · rw [hsame]
      refine (h.tag r t root).imp_right ?_
      rintro ⟨hroot, d, hd, htag, hmanifest⟩
      obtain ⟨bytes, hbytes⟩ := Option.isSome_iff_exists.mp hmanifest
      have hkept := h'.manifestKept r d root bytes hbytes
      exact ⟨hroot, d, hd, htag, Option.isSome_iff_exists.mpr ⟨bytes, hkept⟩⟩
    · exact .inr hnew

theorem mono {plan' : Plan} {heads' : List RootId} (h : plan.Advanced src heads v u u')
    (hheads : heads ⊆ heads') (hblob : ∀ d, plan.blob d → plan'.blob d)
    (hmanifest : ∀ r d, plan.manifest r d → plan'.manifest r d)
    (htag : ∀ r t d, plan.tag r t d → plan'.tag r t d) : plan'.Advanced src heads' v u u' where
  blobKept := h.blobKept
  blobNew d root bytes hu := (h.blobNew d root bytes hu).imp_right
    fun hn => ⟨hheads hn.1, hblob d hn.2.1, hn.2.2⟩
  manifestKept := h.manifestKept
  manifestNew r d root bytes hu := (h.manifestNew r d root bytes hu).imp_right
    fun hn => ⟨hheads hn.1, hmanifest r d hn.2.1, hn.2.2⟩
  tag := by
    intro r t root
    refine (h.tag r t root).imp_right ?_
    rintro ⟨hroot, d, hd, hrest⟩
    exact ⟨hheads hroot, d, htag r t d hd, hrest⟩

-- A tag that resolved at a root still does.
theorem readAt_kept (h : plan.Advanced src heads v u u') {r : RepoName} {t : TagName} {root : RootId}
    (hread : (u.readAt r (.tag t) root).isSome) : (u'.readAt r (.tag t) root).isSome := by
  obtain ⟨bytes, hbytes⟩ := Option.isSome_iff_exists.mp hread
  obtain ⟨d, hd, hm⟩ := (Contents.read_eq_some _ _ _ _).mp hbytes
  have hresolves : ∀ e, (u' root).tag r t = some e → ((u' root).manifest r e).isSome →
      (u'.readAt r (.tag t) root).isSome := by
    intro e he hmanifest
    rw [Volumes.readAt, Contents.read_tag, he]
    exact hmanifest
  rcases h.tag r t root with hsame | ⟨_, e, _, he, hmanifest⟩
  · have hsame : (u' root).tag r t = (u root).tag r t := hsame
    have hd : (u root).tag r t = some d := hd
    have hkept : (u' root).manifest r d = some bytes := h.manifestKept r d root bytes hm
    exact hresolves d (hsame.trans hd) (by rw [hkept]; rfl)
  · exact hresolves e he hmanifest

-- The source of another moment at which it read the same.
theorem rebase {v' : Volumes} (h : plan.Advanced src heads v u u')
    (hblob : ∀ d, src.blob v d = src.blob v' d)
    (hread : ∀ r d, src.read v r (.digest d) = src.read v' r (.digest d)) :
    plan.Advanced src heads v' u u' where
  blobKept := h.blobKept
  blobNew d root bytes hu := (h.blobNew d root bytes hu).imp_right
    fun hn => ⟨hn.1, hn.2.1, hblob d ▸ hn.2.2⟩
  manifestKept := h.manifestKept
  manifestNew r d root bytes hu := (h.manifestNew r d root bytes hu).imp_right
    fun hn => ⟨hn.1, hn.2.1, hread r d ▸ hn.2.2⟩
  tag := h.tag

-- Other roots stay as they are.
theorem readAt_apart (h : plan.Advanced src heads v u u') {root : RootId} (hroot : root ∉ heads)
    (r : RepoName) (reference : Reference) : u'.readAt r reference root = u.readAt r reference root := by
  have hmanifest : ∀ d, (u' root).manifest r d = (u root).manifest r d := by
    intro d
    cases hu : (u root).manifest r d with
    | some bytes => exact h.manifestKept r d root bytes hu
    | none =>
        cases hu' : (u' root).manifest r d with
        | none => rfl
        | some bytes =>
            rcases h.manifestNew r d root bytes hu' with hold | ⟨hmem, _⟩
            · exact hold.symm.trans hu
            · exact absurd hmem hroot
  cases reference with
  | digest d => exact hmanifest d
  | tag t =>
      have htag : (u' root).tag r t = (u root).tag r t :=
        (h.tag r t root).resolve_right fun hn => hroot hn.1
      rw [Volumes.readAt, Volumes.readAt, Contents.read_tag, Contents.read_tag, htag]
      cases (u root).tag r t with
      | none => rfl
      | some d => exact hmanifest d

theorem tagAt_apart (h : plan.Advanced src heads v u u') {root : RootId} (hroot : root ∉ heads)
    (r : RepoName) (t : TagName) : u'.tagAt r t root = u.tagAt r t root :=
  (h.tag r t root).resolve_right fun hn => hroot hn.1

section Origin

-- From the moment at which the plan was made.
variable (h : plan.Advanced src heads v v u)

include h

-- Every text comes from somewhere in `v`.

theorem exists_blob {d : Digest} {root : RootId} {bytes : Bytes}
    (hu : u.blobAt d root = some bytes) : ∃ p, v.blobAt d p = some bytes := by
  rcases h.blobNew d root bytes hu with hv | ⟨_, _, hv⟩
  · exact ⟨root, hv⟩
  · obtain ⟨p, _, hp⟩ := exists_of_first hv
    exact ⟨p, hp⟩

theorem exists_manifest {r : RepoName} {d : Digest} {root : RootId} {bytes : Bytes}
    (hu : u.manifestAt r d root = some bytes) : ∃ p, v.manifestAt r d p = some bytes := by
  rcases h.manifestNew r d root bytes hu with hv | ⟨_, _, hv⟩
  · exact ⟨root, hv⟩
  · obtain ⟨p, _, hp⟩ := exists_of_first hv
    exact ⟨p, hp⟩

theorem coherent_blob {d : Digest} (hcoh : Places.Coherent (v.blobAt d)) :
    Places.Coherent (u.blobAt d) := by
  intro p q bytes bytes' hp hq
  obtain ⟨p', hp'⟩ := h.exists_blob hp
  obtain ⟨q', hq'⟩ := h.exists_blob hq
  exact hcoh p' q' bytes bytes' hp' hq'

theorem coherent {r : RepoName} (hcoh : v.Coherent r) : u.Coherent r := by
  intro d p q bytes bytes' hp hq
  obtain ⟨p', hp'⟩ := h.exists_manifest hp
  obtain ⟨q', hq'⟩ := h.exists_manifest hq
  exact hcoh d p' q' bytes bytes' hp' hq'

theorem stores {content : Bytes} (hu : u.Stores content) : v.Stores content := by
  obtain ⟨root, ⟨d, hd⟩ | ⟨r, d, hd⟩⟩ := hu
  · obtain ⟨p, hp⟩ := h.exists_blob hd
    exact ⟨p, .inl ⟨d, hp⟩⟩
  · obtain ⟨p, hp⟩ := h.exists_manifest hd
    exact ⟨p, .inr ⟨r, d, hp⟩⟩

-- The source reads what it read.

theorem src_blob {d : Digest} (hcoh : Places.Coherent (v.blobAt d)) :
    src.blob u d = src.blob v d := by
  apply hcoh.first_grown (h.blobKept d)
  intro root bytes hu
  exact (h.blobNew d root bytes hu).imp_right fun hnew => hnew.2.2

theorem src_read {r : RepoName} (hcoh : v.Coherent r) (d : Digest) :
    src.read u r (.digest d) = src.read v r (.digest d) := by
  apply (hcoh d).first_grown (h.manifestKept r d)
  intro root bytes hu
  exact (h.manifestNew r d root bytes hu).imp_right fun hnew => hnew.2.2

-- What a reader has it keeps.

theorem kept_blob {d : Digest} (hcoh : Places.Coherent (v.blobAt d)) {b : Backend} {bytes : Bytes}
    (hb : b.blob v d = some bytes) : b.blob u d = some bytes := by
  obtain ⟨root, hroot, hv⟩ := exists_of_first hb
  exact (h.coherent_blob hcoh).first_eq hroot (h.blobKept d root bytes hv)

theorem kept_read {r : RepoName} (hcoh : v.Coherent r) {d : Digest} {b : Backend} {bytes : Bytes}
    (hb : b.read v r (.digest d) = some bytes) : b.read u r (.digest d) = some bytes := by
  obtain ⟨root, hroot, hv⟩ := exists_of_first hb
  exact (h.coherent hcoh d).first_eq hroot (h.manifestKept r d root bytes hv)

end Origin

end Advanced

-- A destination keeps what it holds of a plan.
theorem Held.advance {dst : Backend} (hheld : plan.Held src dst v u)
    (h : plan.Advanced src heads v v u) (h' : plan.Advanced src heads v u u')
    (hblobs : ∀ d, Places.Coherent (v.blobAt d)) (hcoh : ∀ r, v.Coherent r) :
    plan.Held src dst v u' where
  blob := by
    intro d hd bytes hsrc
    obtain ⟨root, hroot, hu⟩ := exists_of_first (hheld.blob d hd bytes hsrc)
    exact ((h.trans h').coherent_blob (hblobs d)).first_eq hroot (h'.blobKept d root bytes hu)
  manifest := by
    intro r d hd bytes hsrc
    obtain ⟨root, hroot, hu⟩ := exists_of_first (hheld.manifest r d hd bytes hsrc)
    exact ((h.trans h').coherent (hcoh r) d).first_eq hroot (h'.manifestKept r d root bytes hu)

-- One copy.

section Copy

variable {root : RootId}

theorem advanced_setBlob {d : Digest} {bytes : Bytes} (hroot : root ∈ heads) (hd : plan.blob d)
    (hsrc : src.blob v d = some bytes) (hcoh : Places.Coherent (v.blobAt d))
    (h : plan.Advanced src heads v v u) :
    plan.Advanced src heads v u (u.onRoots [root] fun c => c.setBlob d (some bytes)) where
  blobKept := by
    intro e p content hu
    by_cases he : e = d
    · subst he
      rw [Volumes.blobAt_setBlob_self]
      by_cases hp : p = root
      · subst hp
        obtain ⟨q, hq⟩ := h.exists_blob hu
        obtain ⟨q', _, hq'⟩ := exists_of_first hsrc
        rw [Function.update_self, hcoh q' q bytes content hq' hq]
      · rw [Function.update_of_ne hp, hu]
    · rw [u.blobAt_setBlob_of_ne _ _ _ he, hu]
  blobNew := by
    intro e p content hu
    by_cases he : e = d
    · subst he
      rw [Volumes.blobAt_setBlob_self] at hu
      by_cases hp : p = root
      · subst hp
        rw [Function.update_self] at hu
        exact .inr ⟨hroot, hd, hsrc.trans hu⟩
      · rw [Function.update_of_ne hp] at hu
        exact .inl hu
    · rw [u.blobAt_setBlob_of_ne _ _ _ he] at hu
      exact .inl hu
  manifestKept r e p content hu := by rwa [u.manifestAt_setBlob]
  manifestNew := by
    intro r e p content hu
    rw [u.manifestAt_setBlob] at hu
    exact .inl hu
  tag r t p := by rw [u.tagAt_setBlob]; exact .inl rfl

variable [Sha2]

-- The manifest file of a put, before its tag file.
theorem manifestAt_put {repo : RepoName} {reference : Reference} {bytes : Bytes} {d : Digest}
    (haddr : sha256Digest bytes = d) (r : RepoName) (e : Digest) :
    (u.onRoots [root] fun c => c.put repo reference bytes).manifestAt r e =
      if r = repo ∧ e = d then Function.update (u.manifestAt r e) root (some bytes)
      else u.manifestAt r e := by
  subst haddr
  split
  · rename_i hre
    obtain ⟨rfl, rfl⟩ := hre
    exact u.manifestAt_put_self root r reference bytes
  · rename_i hre
    exact u.manifestAt_put_of_ne root repo reference bytes hre

theorem advanced_put {repo : RepoName} {reference : Reference} {d : Digest} {bytes : Bytes}
    (hroot : root ∈ heads) (hd : plan.manifest repo d)
    (hsrc : src.read v repo (.digest d) = some bytes) (haddr : sha256Digest bytes = d)
    (hcoh : v.Coherent repo) (h : plan.Advanced src heads v v u)
    (htag : ∀ t, reference = .tag t → plan.tag repo t d) :
    plan.Advanced src heads v u (u.onRoots [root] fun c => c.put repo reference bytes) where
  blobKept e p content hu := by rwa [u.blobAt_put]
  blobNew := by
    intro e p content hu
    rw [u.blobAt_put] at hu
    exact .inl hu
  manifestKept := by
    intro r e p content hu
    rw [manifestAt_put haddr]
    split
    · rename_i hre
      obtain ⟨rfl, rfl⟩ := hre
      by_cases hp : p = root
      · subst hp
        obtain ⟨q, hq⟩ := h.exists_manifest hu
        obtain ⟨q', _, hq'⟩ := exists_of_first hsrc
        rw [Function.update_self, hcoh e q' q bytes content hq' hq]
      · rw [Function.update_of_ne hp, hu]
    · exact hu
  manifestNew := by
    intro r e p content hu
    rw [manifestAt_put haddr] at hu
    split at hu
    · rename_i hre
      obtain ⟨rfl, rfl⟩ := hre
      by_cases hp : p = root
      · subst hp
        rw [Function.update_self] at hu
        exact .inr ⟨hroot, hd, hsrc.trans hu⟩
      · rw [Function.update_of_ne hp] at hu
        exact .inl hu
    · exact .inl hu
  tag := by
    intro r t p
    cases reference with
    | digest e =>
        rw [u.tagAt_put_digest]
        exact .inl rfl
    | tag tag =>
        by_cases hrt : r = repo ∧ t = tag
        · obtain ⟨rfl, rfl⟩ := hrt
          rw [u.tagAt_put_self, haddr]
          by_cases hp : p = root
          · subst hp
            refine .inr ⟨hroot, d, htag t rfl, Function.update_self .., ?_⟩
            rw [manifestAt_put haddr, if_pos ⟨rfl, rfl⟩, Function.update_self]
            rfl
          · exact .inl (Function.update_of_ne hp _ _)
        · rw [u.tagAt_put_of_ne _ _ _ hrt]
          exact .inl rfl

end Copy

end Plan

end RspaceRegistry
