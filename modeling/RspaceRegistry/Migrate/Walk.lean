import RspaceRegistry.Digest.Count
import RspaceRegistry.Migrate

namespace RspaceRegistry.Migrate

open Calls Fallible Ordered

variable [SerdeJson]

-- The part of a text's references that the copier moves as blobs.
def blobReferences (bytes : Bytes) : List Digest :=
  match parseManifestRefs bytes with
  | some m => m.blobDigests
  | none => []

-- The part that it goes on to walk.
def childReferences (bytes : Bytes) : List Digest :=
  match parseManifestRefs bytes with
  | some m => m.childDigests
  | none => []

-- The manifests that are read on the way down from some digests.
inductive Reached (Read : Digest → Bytes → Prop) (Start : Digest → Prop) : Digest → Prop
  | start {d : Digest} {bytes : Bytes} (hd : Start d) (hr : Read d bytes) : Reached Read Start d
  | child {d c : Digest} {bytes bytes' : Bytes} (hd : Reached Read Start d) (hr : Read d bytes)
      (hc : c ∈ childReferences bytes) (hr' : Read c bytes') : Reached Read Start c

-- How a walk grows its two sets when every text it reads for a digest is one
-- that `Read` allows and every digest it does not find is `Missing`: what is
-- added to the manifests has its blobs and children added too, and nothing comes
-- from anywhere else than below `Start`.
structure Walked.Extends (Read : Digest → Bytes → Prop) (Missing Start : Digest → Prop)
    (walked walked' : Walked) : Prop where
  manifests : ∀ d ∈ walked.manifests, d ∈ walked'.manifests
  blobs : ∀ d ∈ walked.blobs, d ∈ walked'.blobs
  complete : ∀ d ∈ walked'.manifests, d ∈ walked.manifests ∨
    ∃ bytes, Read d bytes ∧ (∀ b ∈ blobReferences bytes, b ∈ walked'.blobs) ∧
      ∀ c ∈ childReferences bytes, c ∈ walked'.manifests ∨ Missing c
  sound : ∀ b ∈ walked'.blobs, b ∈ walked.blobs ∨
    ∃ d bytes, Reached Read Start d ∧ Read d bytes ∧ b ∈ blobReferences bytes
  reached : ∀ d ∈ walked'.manifests, d ∈ walked.manifests ∨ Reached Read Start d

namespace Walked

variable {Read : Digest → Bytes → Prop} {Missing Start : Digest → Prop}
variable {walked walked' walked'' : Walked}

theorem Extends.refl (walked : Walked) : walked.Extends Read Missing Start walked :=
  ⟨fun _ => id, fun _ => id, fun _ => .inl, fun _ => .inl, fun _ => .inl⟩

theorem Extends.trans (h : walked.Extends Read Missing Start walked')
    (h' : walked'.Extends Read Missing Start walked'') :
    walked.Extends Read Missing Start walked'' where
  manifests d hd := h'.manifests d (h.manifests d hd)
  blobs d hd := h'.blobs d (h.blobs d hd)
  complete := by
    intro d hd
    rcases h'.complete d hd with hd | hd
    · rcases h.complete d hd with hd | ⟨bytes, hr, hb, hc⟩
      · exact .inl hd
      · refine .inr ⟨bytes, hr, fun b hm => h'.blobs b (hb b hm), ?_⟩
        intro c hm
        exact (hc c hm).imp_left (h'.manifests c)
    · exact .inr hd
  sound := by
    intro b hb
    rcases h'.sound b hb with hb | hb
    · exact h.sound b hb
    · exact .inr hb
  reached := by
    intro d hd
    rcases h'.reached d hd with hd | hd
    · exact h.reached d hd
    · exact .inr hd

-- A walk from nothing that took in all it started from has exactly what is
-- reached, and the blobs of that.

section

variable (h : Walked.empty.Extends Read Missing Start walked)
variable (hfun : ∀ d bytes bytes', Read d bytes → Read d bytes' → bytes = bytes')
variable (hmissing : ∀ d bytes, Read d bytes → ¬Missing d)
variable (hstart : ∀ d bytes, Start d → Read d bytes → d ∈ walked.manifests)

include h hfun hmissing hstart

theorem Extends.mem_manifests (d : Digest) : d ∈ walked.manifests ↔ Reached Read Start d := by
  constructor
  · intro hd
    exact (h.reached d hd).resolve_left (BTreeSet.not_mem_empty d)
  · intro hd
    induction hd with
    | start hd hr => exact hstart _ _ hd hr
    | @child d c bytes bytes' _ hr hc hr' ih =>
        obtain ⟨bytes₁, hr₁, _, hchildren⟩ :=
          (h.complete d ih).resolve_left (BTreeSet.not_mem_empty d)
        rw [hfun d bytes bytes₁ hr hr₁] at hc
        exact (hchildren c hc).resolve_right (hmissing c bytes' hr')

theorem Extends.mem_blobs (b : Digest) : b ∈ walked.blobs ↔
    ∃ d bytes, Reached Read Start d ∧ Read d bytes ∧ b ∈ blobReferences bytes := by
  constructor
  · intro hb
    exact (h.sound b hb).resolve_left (BTreeSet.not_mem_empty b)
  · rintro ⟨d, bytes, hd, hr, hb⟩
    have hwalked := (h.mem_manifests hfun hmissing hstart d).mpr hd
    obtain ⟨bytes₁, hr₁, hblobs, _⟩ :=
      (h.complete d hwalked).resolve_left (BTreeSet.not_mem_empty d)
    rw [hfun d bytes bytes₁ hr hr₁] at hb
    exact hblobs b hb

end

omit [SerdeJson] in
theorem length_visit {d : Digest} (h : d ∉ walked.manifests) :
    walked.manifests.toList.length < (walked.visit d).manifests.toList.length := by
  have hn : (d :: walked.manifests.toList).Nodup := List.nodup_cons.mpr ⟨h, walked.manifests.nodup⟩
  have hs : (d :: walked.manifests.toList) ⊆ (walked.visit d).manifests.toList := by
    intro e he
    exact (BTreeSet.mem_insert _ _ _).mpr (List.mem_cons.mp he)
  exact (hn.subperm hs).length_le

-- How many manifests a walk may still read: every one that it marks is one fewer.
structure Bounds (Read : Digest → Bytes → Prop) (left : Walked → Nat) : Prop where
  mono : ∀ walked walked', (∀ d ∈ walked.manifests, d ∈ walked'.manifests) →
    left walked' ≤ left walked
  visit : ∀ d bytes walked, Read d bytes → d ∉ walked.manifests →
    left (walked.visit d) < left walked

omit [SerdeJson] in
theorem bounds_count (Read : Digest → Bytes → Prop) :
    Bounds Read fun walked => Digest.count - walked.manifests.toList.length where
  mono walked walked' h := by
    have hle := (walked.manifests.nodup.subperm h).length_le
    omega
  visit d _ walked _ hvisited := by
    have hlen := length_visit hvisited
    have hle := Digest.nodup_length_le _ (walked.visit d).manifests.nodup
    omega

-- One manifest that does not parse, or parses to something without children.
theorem extends_visit {d : Digest} {bytes : Bytes} (hd : Reached Read Start d) (hr : Read d bytes)
    (hparse : parseManifestRefs bytes = none) :
    walked.Extends Read Missing Start (walked.visit d) where
  manifests e he := (BTreeSet.mem_insert _ _ _).mpr (.inr he)
  blobs _ := id
  complete := by
    intro e he
    rcases (BTreeSet.mem_insert _ _ _).mp he with rfl | he
    · refine .inr ⟨bytes, hr, ?_, ?_⟩
      · intro b hb
        rw [blobReferences, hparse] at hb
        cases hb
      · intro c hc
        rw [childReferences, hparse] at hc
        cases hc
    · exact .inl he
  sound _ := .inl
  reached := by
    intro e he
    rcases (BTreeSet.mem_insert _ _ _).mp he with rfl | he
    · exact .inr hd
    · exact .inl he

-- One manifest with its children walked in between.
theorem extends_collect {d : Digest} {bytes : Bytes} {m : Manifest} (hd : Reached Read Start d)
    (hr : Read d bytes) (hparse : parseManifestRefs bytes = some m)
    (h : (walked.visit d).Extends Read Missing Start walked')
    (hchildren : ∀ c ∈ m.childDigests, c ∈ walked'.manifests ∨ Missing c) :
    walked.Extends Read Missing Start (walked'.collect m) := by
  have hrefs : blobReferences bytes = m.blobDigests := by
    rw [blobReferences, hparse]
  have hchildRefs : childReferences bytes = m.childDigests := by
    rw [childReferences, hparse]
  refine ⟨?_, ?_, ?_, ?_, ?_⟩
  · intro e he
    exact h.manifests e ((BTreeSet.mem_insert _ _ _).mpr (.inr he))
  · intro b hb
    exact (BTreeSet.mem_extend _ _ _).mpr (.inr (h.blobs b hb))
  · intro e he
    rcases h.complete e he with he | ⟨bytes', hr', hb, hc⟩
    · rcases (BTreeSet.mem_insert _ _ _).mp he with rfl | he
      · refine .inr ⟨bytes, hr, ?_, ?_⟩
        · intro b hb
          rw [hrefs] at hb
          exact (BTreeSet.mem_extend _ _ _).mpr (.inl hb)
        · rw [hchildRefs]
          exact hchildren
      · exact .inl he
    · exact .inr ⟨bytes', hr', fun b hm => (BTreeSet.mem_extend _ _ _).mpr (.inr (hb b hm)), hc⟩
  · intro b hb
    rcases (BTreeSet.mem_extend _ _ _).mp hb with hb | hb
    · exact .inr ⟨d, bytes, hd, hr, hrefs ▸ hb⟩
    · exact h.sound b hb
  · intro e he
    rcases h.reached e he with he | he
    · rcases (BTreeSet.mem_insert _ _ _).mp he with rfl | he
      · exact .inr hd
      · exact .inl he
    · exact .inr he

end Walked

section

-- The assumptions about the reads that a walk makes: `Inv` is what holds of the
-- state between them, `Failed d err` what is known when the one for `d` fails.
variable {σ : Type} {sem : Sem Op Op.Ans σ} {rely : σ → σ → Prop} {guar : Sem Op Op.Ans σ}
variable {storage : Storage} {repo : RepoName}
variable {Read : Digest → Bytes → Prop} {Failed : Digest → StorageError → Prop} {Inv : σ → Prop}
variable {Start : Digest → Prop}

def ReadsWith (sem : Sem Op Op.Ans σ) (rely : σ → σ → Prop) (guar : Sem Op Op.Ans σ)
    (storage : Storage) (repo : RepoName) (Read : Digest → Bytes → Prop)
    (Failed : Digest → StorageError → Prop) (Inv : σ → Prop) : Prop :=
  ∀ d s, Inv s → (storage.manifestGet repo (.digest d)).wp sem rely guar
    (Outcome (fun bytes s' => Read d bytes ∧ Inv s') (fun err s' => Failed d err ∧ Inv s')) s

-- What is known of a walk that stops with an error.
def Stopped (Failed : Digest → StorageError → Prop) (Inv : σ → Prop) (err : StorageError) (s : σ) :
    Prop :=
  err ≠ .notFound ∧ (∃ d, Failed d err) ∧ Inv s

variable (hget : ReadsWith sem rely guar storage repo Read Failed Inv)

include hget

section Bounded

variable {left : Walked → Nat} (hleft : Walked.Bounds Read left)

include hleft

theorem wp_walkChildren {walk : Digest → Bytes → Walked → StoreM Walked} {most : Nat}
    (hwalk : ∀ d bytes walked s, Inv s → Reached Read Start d → Read d bytes →
      left walked ≤ most → (walk d bytes walked).wp sem rely guar
        (Outcome (fun walked' s' => Inv s' ∧
            walked.Extends Read (Failed · .notFound) Start walked' ∧ d ∈ walked'.manifests)
          (Stopped Failed Inv)) s)
    (children : List Digest) (walked : Walked) (s : σ) (hs : Inv s)
    (hreached : ∀ d ∈ children, ∀ bytes, Read d bytes → Reached Read Start d)
    (hmost : left walked ≤ most) :
    (walkChildren storage repo walk children walked).wp sem rely guar
      (Outcome (fun walked' s' => Inv s' ∧
          walked.Extends Read (Failed · .notFound) Start walked' ∧
          ∀ d ∈ children, d ∈ walked'.manifests ∨ Failed d .notFound)
        (Stopped Failed Inv)) s := by
  induction children generalizing walked s with
  | nil => exact ⟨hs, .refl walked, by simp⟩
  | cons child rest ih =>
      have hnext : ∀ walked₁ s₁, Inv s₁ → walked.Extends Read (Failed · .notFound) Start walked₁ →
          (child ∈ walked₁.manifests ∨ Failed child .notFound) →
          (walkChildren storage repo walk rest walked₁).wp sem rely guar
            (Outcome (fun walked' s' => Inv s' ∧
                walked.Extends Read (Failed · .notFound) Start walked' ∧
                ∀ d ∈ child :: rest, d ∈ walked'.manifests ∨ Failed d .notFound)
              (Stopped Failed Inv)) s₁ := by
        intro walked₁ s₁ hs₁ hext hchild
        refine wp_post (ih walked₁ s₁ hs₁ (fun d hd => hreached d (List.mem_cons_of_mem _ hd))
          ((hleft.mono _ _ hext.manifests).trans hmost)) ?_
        rintro (err | walked₂) s₂ h
        · exact h
        · obtain ⟨hs₂, hext₂, hrest⟩ := h
          refine ⟨hs₂, hext.trans hext₂, ?_⟩
          intro d hd
          rcases List.mem_cons.mp hd with rfl | hd
          · exact hchild.imp_left (hext₂.manifests d)
          · exact hrest d hd
      rw [walkChildren]
      split
      · rename_i hvisited
        exact hnext walked s hs (.refl walked) (.inl hvisited)
      · rw [wp_bind, wp_attempt]
        refine wp_post (hget child s hs) ?_
        rintro (err | bytes) s₁ hread
        · obtain ⟨hfailed, hs₁⟩ := hread
          cases err with
          | notFound => exact hnext walked s₁ hs₁ (.refl walked) (.inr hfailed)
          | _ => exact ⟨by simp, ⟨child, hfailed⟩, hs₁⟩
        · obtain ⟨hr, hs₁⟩ := hread
          have hchild := hreached child List.mem_cons_self bytes hr
          simp only [outcome_ok]
          rw [wp_bind]
          refine wp_post (hwalk child bytes walked s₁ hs₁ hchild hr hmost) ?_
          rintro (err | walked₁) s₂ h
          · exact h
          · obtain ⟨hs₂, hext, hd⟩ := h
            exact hnext walked₁ s₂ hs₂ hext (.inl hd)

theorem wp_walkFrom (steps : Nat) (d : Digest) (bytes : Bytes) (walked : Walked) (s : σ)
    (hs : Inv s) (hd : Reached Read Start d) (hr : Read d bytes)
    (hsteps : left walked < steps) :
    (walkFrom storage repo steps d bytes walked).wp sem rely guar
      (Outcome (fun walked' s' => Inv s' ∧
          walked.Extends Read (Failed · .notFound) Start walked' ∧ d ∈ walked'.manifests)
        (Stopped Failed Inv)) s := by
  induction steps generalizing d bytes walked s with
  | zero => omega
  | succ steps ih =>
      rw [walkFrom]
      split
      · rename_i hvisited
        exact ⟨hs, .refl walked, hvisited⟩
      · rename_i hvisited
        have hmem : d ∈ (walked.visit d).manifests := (BTreeSet.mem_insert _ _ _).mpr (.inl rfl)
        have hlen := hleft.visit d bytes walked hr hvisited
        split
        · rename_i hparse
          exact ⟨hs, Walked.extends_visit hd hr hparse, hmem⟩
        · rename_i m hparse
          have hwalk : ∀ e bytes walked' s, Inv s → Reached Read Start e → Read e bytes →
              left walked' ≤ left (walked.visit d) →
              (walkFrom storage repo steps e bytes walked').wp sem rely guar
                (Outcome (fun walked'' s' => Inv s' ∧
                  walked'.Extends Read (Failed · .notFound) Start walked'' ∧
                  e ∈ walked''.manifests) (Stopped Failed Inv)) s := by
            intro e bytes walked' s hs he hr hle
            exact ih e bytes walked' s hs he hr (by omega)
          have hchildren : ∀ c ∈ m.childDigests, ∀ bytes', Read c bytes' → Reached Read Start c := by
            intro c hc bytes' hr'
            have hc' : c ∈ childReferences bytes := by
              rw [childReferences, hparse]
              exact hc
            exact .child hd hr hc' hr'
          rw [wp_bind]
          refine wp_post (wp_walkChildren hget hleft hwalk m.childDigests (walked.visit d) s hs hchildren
            (Nat.le_refl _)) ?_
          rintro (err | walked') s' h
          · exact h
          · obtain ⟨hs', hext, hwalked⟩ := h
            exact ⟨hs', Walked.extends_collect hd hr hparse hext hwalked, hext.manifests d hmem⟩

end Bounded

theorem wp_walk (d : Digest) (bytes : Bytes) (walked : Walked) (s : σ) (hs : Inv s)
    (hd : Reached Read Start d) (hr : Read d bytes) :
    (walk storage repo d bytes walked).wp sem rely guar
      (Outcome (fun walked' s' => Inv s' ∧
          walked.Extends Read (Failed · .notFound) Start walked' ∧ d ∈ walked'.manifests)
        (Stopped Failed Inv)) s :=
  wp_walkFrom hget (Walked.bounds_count Read) _ d bytes walked s hs hd hr (by omega)

theorem wp_walkDetached (digests : List Digest) (walked : Walked) (s : σ) (hs : Inv s)
    (hstart : ∀ d ∈ digests, Start d) :
    (walkDetached storage repo digests walked).wp sem rely guar
      (Outcome (fun walked' s' => Inv s' ∧
          walked.Extends Read (Failed · .notFound) Start walked' ∧
        ∀ d ∈ digests, d ∈ walked'.manifests ∨ Failed d .notFound) (Stopped Failed Inv)) s := by
  induction digests generalizing walked s with
  | nil => exact ⟨hs, .refl walked, by simp⟩
  | cons d rest ih =>
      have hnext : ∀ walked₁ s₁, Inv s₁ → walked.Extends Read (Failed · .notFound) Start walked₁ →
          (d ∈ walked₁.manifests ∨ Failed d .notFound) →
          (walkDetached storage repo rest walked₁).wp sem rely guar
            (Outcome (fun walked' s' => Inv s' ∧
                walked.Extends Read (Failed · .notFound) Start walked' ∧
              ∀ e ∈ d :: rest, e ∈ walked'.manifests ∨ Failed e .notFound)
                (Stopped Failed Inv)) s₁ := by
        intro walked₁ s₁ hs₁ hext hd
        refine wp_post (ih walked₁ s₁ hs₁ fun e he => hstart e (List.mem_cons_of_mem _ he)) ?_
        rintro (err | walked₂) s₂ h
        · exact h
        · obtain ⟨hs₂, hext₂, hrest⟩ := h
          refine ⟨hs₂, hext.trans hext₂, ?_⟩
          intro e he
          rcases List.mem_cons.mp he with rfl | he
          · exact hd.imp_left (hext₂.manifests e)
          · exact hrest e he
      rw [walkDetached]
      split
      · rename_i hd
        exact hnext walked s hs (.refl walked) (.inl hd)
      · rw [wp_bind, wp_attempt]
        refine wp_post (hget d s hs) ?_
        rintro (err | bytes) s₁ hread
        · obtain ⟨hfailed, hs₁⟩ := hread
          cases err with
          | notFound => exact hnext walked s₁ hs₁ (.refl walked) (.inr hfailed)
          | _ => exact ⟨by simp, ⟨d, hfailed⟩, hs₁⟩
        · obtain ⟨hr, hs₁⟩ := hread
          have hreached : Reached Read Start d := .start (hstart d List.mem_cons_self) hr
          simp only [outcome_ok]
          rw [wp_bind]
          refine wp_post (wp_walk hget d bytes walked s₁ hs₁ hreached hr) ?_
          rintro (err | walked₁) s₂ h
          · exact h
          · obtain ⟨hs₂, hext, hd⟩ := h
            exact hnext walked₁ s₂ hs₂ hext (.inl hd)

variable [Sha2] {Points : TagName → Digest → Prop} {TagFailed : TagName → StorageError → Prop}

-- The walk from the tags: what is read for a tag is remembered as what it
-- points to. A tag that cannot be read ends the walk, a missing one too.
theorem wp_walkTags (listed : List TagName)
    (htag : ∀ tag s, Inv s → (storage.manifestGet repo (.tag tag)).wp sem rely guar
      (Outcome (fun bytes s' => Read (sha256Digest bytes) bytes ∧
        Points tag (sha256Digest bytes) ∧ Inv s') (fun err s' => TagFailed tag err ∧ Inv s')) s)
    (hstart : ∀ tag ∈ listed, ∀ d, Points tag d → Start d)
    (tags : List (TagName × Digest)) (walked : Walked) (s : σ) (hs : Inv s) :
    (walkTags storage repo listed tags walked).wp sem rely guar
      (Outcome (fun result s' => Inv s' ∧
          walked.Extends Read (Failed · .notFound) Start result.2 ∧
        (∃ found, result.1 = tags ++ found ∧ found.map Prod.fst = listed ∧
          ∀ entry ∈ found, Points entry.1 entry.2 ∧ entry.2 ∈ result.2.manifests))
        (fun err s' => Inv s' ∧ ((∃ tag ∈ listed, TagFailed tag err) ∨
          Stopped Failed Inv err s'))) s := by
  induction listed generalizing tags walked s with
  | nil => exact ⟨hs, .refl walked, [], by simp⟩
  | cons tag rest ih =>
      have hrest : ∀ t ∈ rest, ∀ d, Points t d → Start d :=
        fun t ht => hstart t (List.mem_cons_of_mem tag ht)
      rw [walkTags, wp_bind]
      refine wp_post (htag tag s hs) ?_
      rintro (err | bytes) s₁ hread
      · exact ⟨hread.2, .inl ⟨tag, List.mem_cons_self, hread.1⟩⟩
      · obtain ⟨hr, hpoints, hs₁⟩ := hread
        have hreached : Reached Read Start (sha256Digest bytes) :=
          .start (hstart tag List.mem_cons_self _ hpoints) hr
        simp only [outcome_ok]
        rw [wp_bind]
        refine wp_post (wp_walk hget (sha256Digest bytes) bytes walked s₁ hs₁ hreached hr) ?_
        rintro (err | walked₁) s₂ h
        · exact ⟨h.2.2, .inr h⟩
        · obtain ⟨hs₂, hext, hd⟩ := h
          refine wp_post (ih hrest (tags ++ [(tag, sha256Digest bytes)]) walked₁ s₂ hs₂) ?_
          rintro (err | ⟨tags', walked₂⟩) s₃ h
          · refine ⟨h.1, h.2.imp_left ?_⟩
            rintro ⟨t, ht, hf⟩
            exact ⟨t, List.mem_cons_of_mem _ ht, hf⟩
          · obtain ⟨hs₃, hext₂, found, rfl, hfst, hfound⟩ := h
            refine ⟨hs₃, hext.trans hext₂, (tag, sha256Digest bytes) :: found, by simp, ?_, ?_⟩
            · rw [List.map_cons, hfst]
            · intro entry he
              rcases List.mem_cons.mp he with rfl | he
              · exact ⟨hpoints, hext₂.manifests _ hd⟩
              · exact hfound entry he

end

end RspaceRegistry.Migrate
