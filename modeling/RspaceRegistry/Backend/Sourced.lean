import RspaceRegistry.World.Recorded

namespace RspaceRegistry

open Calls Fallible Ordered MultiStore

variable [Sha2] {ι : Type} (i : ι) (src : Backend)

-- What a copier goes by, while others are at work: it writes only what it has read
-- from its source, a manifest by its digest and a blob by its own. The place it read
-- it at is on record.
structure Sourced (op : Op) (s : History ι) (_ : op.Ans) (_ : History ι) : Prop where
  rules : ∀ pattern backend, op ≠ .upsert pattern backend
  blob : ∀ root d content, op = .fs root (.blobWrite d content) →
    ∃ p ∈ src.leaves, ∃ bytes, Did i s (.fs p (.blobRead d)) (.ok bytes)
  manifest : ∀ root repo reference content, op = .fs root (.manifestPut repo reference content) →
    ∃ p ∈ src.leaves, ∃ d, Did i s (.fs p (.manifestGet repo (.digest d))) (.ok content)
  tag : ∀ root repo t content, op = .fs root (.manifestPut repo (.tag t) content) →
    ∃ p ∈ src.leaves, ∃ bytes, Did i s (.fs p (.manifestGet repo (.tag t))) (.ok bytes)

-- A tag that was read.
def TagRead (repo : RepoName) (t : TagName) (s : History ι) : Prop :=
  ∃ p ∈ src.leaves, ∃ bytes, Did i s (.fs p (.manifestGet repo (.tag t))) (.ok bytes)

variable {i src}

theorem TagRead.adds {New : (op : Op) → op.Ans → Prop} {repo : RepoName} {t : TagName}
    {s s' : History ι} (h : TagRead i src repo t s) (hadds : Adds i New s s') :
    TagRead i src repo t s' := by
  obtain ⟨p, hp, bytes, hd⟩ := h
  exact ⟨p, hp, bytes, hadds.kept _ _ hd⟩

theorem sourced_of_looks {op : Op} {s s' : History ι} {answer : op.Ans} (h : op.Looks) :
    Sourced i src op s answer s' where
  rules := by
    rintro pattern backend rfl
    exact h
  blob := by
    rintro root d content rfl
    cases h
  manifest := by
    rintro root repo reference content rfl
    cases h
  tag := by
    rintro root repo t content rfl
    cases h

section Bodies

variable {β : Type} {rely : History ι → History ι → Prop}
variable (hrely : ∀ s s', rely s s' → Steady i s s')
variable {post : Except StorageError β → History ι → Prop} {s : History ι} {dst : Backend}

include hrely

-- The body of the blob loops.
theorem wp_sourcedBlob {repo : String} {d : Digest} {skip : StoreM β} {copied : Bytes → StoreM β}
    (hskip : ∀ s', Adds i (fun _ _ => True) s s' →
      skip.wp (recorded i) rely (Sourced i src) post s')
    (hcopied : ∀ bytes s', Adds i (fun _ _ => True) s s' →
      (copied bytes).wp (recorded i) rely (Sourced i src) post s')
    (herror : ∀ err s', post (.error err) s') :
    (dst.storage.blobExists repo d >>= fun found =>
      if found then skip
      else attempt (src.storage.blobRead repo d) >>= fun
        | .ok bytes => dst.storage.blobWrite repo d bytes >>= fun _ => copied bytes
        | .error .notFound => skip
        | .error err => fail err).wp (recorded i) rely (Sourced i src) post s := by
  have hguar : ∀ op s answer s', op.Looks → Sourced i src op s answer s' :=
    fun _ _ _ _ => sourced_of_looks
  refine wp_readThen hrely hguar (dst.readOnly_blobExists repo d) ?_ herror
  intro found s₁ h₁
  have h₁ : Adds i (fun _ _ => True) s s₁ := h₁.mono fun _ _ _ => trivial
  split
  · exact hskip s₁ h₁
  · have hcall : ∀ root, (Op.fs root (.blobRead d)).Confined [] [] := fun _ => trivial
    rw [src.blobRead_flat]
    refine wp_fetchThen hrely hguar hcall src ?_ ?_ ?_
    · intro bytes s₂ h₂ ⟨p, hp, hdid⟩
      have h₂ : Adds i (fun _ _ => True) s₁ s₂ := h₂.mono fun _ _ _ => trivial
      simp only [Backend.blobWrite_flat]
      refine wp_callThen hrely ?_ ?_ herror
      · intro s₃ hsteady answer s'
        constructor
        · intro pattern backend h
          cases h
        · rintro root e content heq
          cases heq
          exact ⟨p, hp, bytes, (hsteady.record _ _).mpr hdid⟩
        · intro root r reference content h
          cases h
        · intro root r t content h
          cases h
      · intro _ s₃ h₃ _
        exact hcopied bytes s₃ ((h₁.trans h₂).trans (h₃.mono fun _ _ _ => trivial))
    · intro s₂ h₂
      exact hskip s₂ (h₁.trans (h₂.mono fun _ _ _ => trivial))
    · intro err s₂ hne
      cases err <;> first | exact absurd rfl hne | exact herror _ s₂

-- The body of the tag loops, and what the manifest loops do with a manifest that the
-- destination has not.
theorem wp_sourcedManifest {repo : RepoName} {d : Digest} (reference : Reference)
    {skip copied : StoreM β} (htag : ∀ t, reference = .tag t → TagRead i src repo t s)
    (hskip : ∀ s', Adds i (fun _ _ => True) s s' →
      skip.wp (recorded i) rely (Sourced i src) post s')
    (hcopied : ∀ s', Adds i (fun _ _ => True) s s' →
      copied.wp (recorded i) rely (Sourced i src) post s')
    (herror : ∀ err s', post (.error err) s') :
    (attempt (src.storage.manifestGet repo (.digest d)) >>= fun
      | .ok bytes => dst.storage.manifestPut repo reference bytes >>= fun _ => copied
      | .error .notFound => skip
      | .error err => fail err).wp (recorded i) rely (Sourced i src) post s := by
  have hguar : ∀ op s answer s', op.Looks → Sourced i src op s answer s' :=
    fun _ _ _ _ => sourced_of_looks
  have hcall : ∀ root, (Op.fs root (.manifestGet repo (.digest d))).Confined [] [] :=
    fun _ => trivial
  rw [src.manifestGet_flat]
  refine wp_fetchThen hrely hguar hcall src ?_ ?_ ?_
  · intro bytes s₁ h₁ ⟨p, hp, hdid⟩
    have h₁ : Adds i (fun _ _ => True) s s₁ := h₁.mono fun _ _ _ => trivial
    simp only [Backend.manifestPut_flat]
    refine wp_callThen hrely ?_ ?_ herror
    · intro s₂ hsteady answer s'
      constructor
      · intro pattern backend h
        cases h
      · intro root e content h
        cases h
      · rintro root r reference' content heq
        cases heq
        exact ⟨p, hp, d, (hsteady.record _ _).mpr hdid⟩
      · rintro root r t content heq
        cases heq
        have h₂ : Adds i (fun _ _ => True) s₁ s₂ := .of_steady hsteady
        exact ((htag t rfl).adds h₁).adds h₂
    · intro _ s₂ h₂ _
      exact hcopied s₂ (h₁.trans (h₂.mono fun _ _ _ => trivial))
  · intro s₁ h₁
    exact hskip s₁ (h₁.mono fun _ _ _ => trivial)
  · intro err s₁ hne
    cases err <;> first | exact absurd rfl hne | exact herror _ s₁

end Bodies

end RspaceRegistry
