import RspaceRegistry.Contents
import RspaceRegistry.Backend.Flat
import RspaceRegistry.Places.Slot

namespace RspaceRegistry

open Calls Fallible Ordered MultiStore Places

-- All storage roots, by what is in them.
abbrev Volumes := RootId → Contents

namespace Volumes

-- One change on each of some roots.
def onRoots (v : Volumes) (roots : List RootId) (change : Contents → Contents) : Volumes :=
  fun root => if root ∈ roots then change (v root) else v root

theorem onRoots_of_mem {v : Volumes} {roots : List RootId} {change : Contents → Contents}
    {root : RootId} (h : root ∈ roots) : v.onRoots roots change root = change (v root) := if_pos h

theorem onRoots_of_not_mem {v : Volumes} {roots : List RootId} {change : Contents → Contents}
    {root : RootId} (h : root ∉ roots) : v.onRoots roots change root = v root := if_neg h

@[simp] theorem onRoots_nil (v : Volumes) (change : Contents → Contents) :
    v.onRoots [] change = v := rfl

theorem onRoots_cons (v : Volumes) (root : RootId) (rest : List RootId)
    (change : Contents → Contents) (hidem : ∀ c, change (change c) = change c) :
    (v.onRoots [root] change).onRoots rest change = v.onRoots (root :: rest) change := by
  funext other
  by_cases ho : other = root
  · subst ho
    have h := @onRoots_of_mem v _ change other (List.mem_singleton_self other)
    by_cases hr : other ∈ rest
    · rw [onRoots_of_mem hr, h, hidem, onRoots_of_mem List.mem_cons_self]
    · rw [onRoots_of_not_mem hr, h, onRoots_of_mem List.mem_cons_self]
  · have h : v.onRoots [root] change other = v other :=
      onRoots_of_not_mem fun hm => ho (List.mem_singleton.mp hm)
    by_cases hr : other ∈ rest
    · rw [onRoots_of_mem hr, h, onRoots_of_mem (List.mem_cons_of_mem root hr)]
    · have hn : other ∉ root :: rest := by simp [ho, hr]
      rw [onRoots_of_not_mem hr, h, onRoots_of_not_mem hn]

-- What the first of several roots had, or one of the others still has after the
-- first one let it go.
theorem exists_cons_of_onRoots {β : Type} {v : Volumes} {root : RootId} {rest : List RootId}
    {change : Contents → Contents} (look : Contents → Option β) (hgone : ∀ c, look (change c) = none) :
    ((look (v root)).isSome ∨ ∃ r ∈ rest, (look (v.onRoots [root] change r)).isSome) ↔
      ∃ r ∈ root :: rest, (look (v r)).isSome := by
  rw [List.exists_mem_cons_iff]
  by_cases hroot : (look (v root)).isSome
  · simp [hroot]
  · refine or_congr_right (exists_congr fun r => and_congr_right fun _ => ?_)
    by_cases hr : r = root
    · subst hr
      rw [onRoots_of_mem (List.mem_singleton_self r), hgone]
      simp [hroot]
    · rw [onRoots_of_not_mem fun hm => hr (List.mem_singleton.mp hm)]

-- The files of one name in all roots.

def blobAt (v : Volumes) (d : Digest) : Slot RootId Bytes := fun root => (v root).blob d

def manifestAt (v : Volumes) (repo : RepoName) (d : Digest) : Slot RootId Bytes :=
  fun root => (v root).manifest repo d

def tagAt (v : Volumes) (repo : RepoName) (tag : TagName) : Slot RootId Digest :=
  fun root => (v root).tag repo tag

-- What each root by itself answers for a reference.
def readAt (v : Volumes) (repo : RepoName) (reference : Reference) : Slot RootId Bytes :=
  fun root => (v root).read repo reference

-- Reads of a repository depend on its manifests and tags only.
theorem readAt_congr {v v' : Volumes} {repo : RepoName}
    (hm : ∀ d, v'.manifestAt repo d = v.manifestAt repo d)
    (ht : ∀ tag, v'.tagAt repo tag = v.tagAt repo tag) (reference : Reference) :
    v'.readAt repo reference = v.readAt repo reference := by
  funext root
  have hmr : (v' root).manifest repo = (v root).manifest repo := funext fun d => congrFun (hm d) root
  cases reference with
  | digest d => exact congrFun (hm d) root
  | tag tag =>
      have htr : (v' root).tag repo tag = (v root).tag repo tag := congrFun (ht tag) root
      simp only [readAt, Contents.read_tag, hmr, htr]

-- A change on some roots that takes a file away, and one that leaves it alone.

theorem slot_onRoots_clear {α : Type} (v : Volumes) (roots : List RootId)
    (change : Contents → Contents) (look : Contents → Option α) (h : ∀ c, look (change c) = none) :
    (fun root => look (v.onRoots roots change root)) = clear roots fun root => look (v root) := by
  funext root
  by_cases hr : root ∈ roots
  · rw [onRoots_of_mem hr, clear_of_mem hr, h]
  · rw [onRoots_of_not_mem hr, clear_of_not_mem hr]

theorem slot_onRoots_same {β : Type} (v : Volumes) (roots : List RootId)
    (change : Contents → Contents) (look : Contents → β) (h : ∀ c, look (change c) = look c) :
    (fun root => look (v.onRoots roots change root)) = fun root => look (v root) := by
  funext root
  by_cases hr : root ∈ roots
  · rw [onRoots_of_mem hr, h]
  · rw [onRoots_of_not_mem hr]

-- What the writes of one call do to the files of each name.

variable (v : Volumes) (root : RootId)

theorem onRoots_singleton (change : Contents → Contents) :
    v.onRoots [root] change = Function.update v root (change (v root)) := by
  funext other
  by_cases ho : other = root
  · subst ho
    rw [onRoots_of_mem (List.mem_singleton_self other), Function.update_self]
  · rw [onRoots_of_not_mem fun hm => ho (List.mem_singleton.mp hm), Function.update_of_ne ho]

theorem slot_update {α : Type} (look : Contents → Option α) (c : Contents) :
    (fun other => look (Function.update v root c other)) =
      Function.update (fun other => look (v other)) root (look c) := by
  funext other
  by_cases ho : other = root
  · subst ho
    rw [Function.update_self, Function.update_self]
  · rw [Function.update_of_ne ho, Function.update_of_ne ho]

theorem slot_update_same {α : Type} (look : Contents → Option α) (c : Contents)
    (h : look c = look (v root)) :
    (fun other => look (Function.update v root c other)) = fun other => look (v other) := by
  rw [slot_update, h]
  exact Function.update_eq_self root fun other => look (v other)

section SetBlob

variable (d : Digest) (content : Option Bytes)

theorem blobAt_setBlob_self : (v.onRoots [root] fun c => c.setBlob d content).blobAt d =
    Function.update (v.blobAt d) root content := by
  rw [onRoots_singleton]
  refine (slot_update v root (fun c => c.blob d) _).trans ?_
  simp only [Contents.setBlob, if_pos]
  rfl

theorem blobAt_setBlob_of_ne {d' : Digest} (h : d' ≠ d) :
    (v.onRoots [root] fun c => c.setBlob d content).blobAt d' = v.blobAt d' := by
  rw [onRoots_singleton]
  exact slot_update_same v root (fun c => c.blob d') _ (by simp [Contents.setBlob, h])

theorem manifestAt_setBlob (repo : RepoName) (d' : Digest) :
    (v.onRoots [root] fun c => c.setBlob d content).manifestAt repo d' = v.manifestAt repo d' := by
  rw [onRoots_singleton]
  exact slot_update_same v root (fun c => c.manifest repo d') _ rfl

theorem tagAt_setBlob (repo : RepoName) (tag : TagName) :
    (v.onRoots [root] fun c => c.setBlob d content).tagAt repo tag = v.tagAt repo tag := by
  rw [onRoots_singleton]
  exact slot_update_same v root (fun c => c.tag repo tag) _ rfl

theorem repo_setBlob (other : RootId) (repo : RepoName) :
    (v.onRoots [root] (fun c => c.setBlob d content) other).repo repo = (v other).repo repo := by
  unfold onRoots
  split <;> rfl

end SetBlob

section Put

variable [Sha2] (repo : RepoName) (reference : Reference) (content : Bytes)

theorem blobAt_put (d : Digest) :
    (v.onRoots [root] fun c => c.put repo reference content).blobAt d = v.blobAt d := by
  rw [onRoots_singleton]
  exact slot_update_same v root (fun c => c.blob d) _ (by cases reference <;> rfl)

theorem manifestAt_put_self :
    (v.onRoots [root] fun c => c.put repo reference content).manifestAt repo (sha256Digest content) =
      Function.update (v.manifestAt repo (sha256Digest content)) root (some content) := by
  have hput : ((v root).put repo reference content).manifest repo (sha256Digest content) =
      some content := by
    cases reference <;> simp [Contents.put, Contents.setManifest, Contents.addRepo, Contents.setTag]
  rw [onRoots_singleton]
  refine (slot_update v root (fun c => c.manifest repo (sha256Digest content)) _).trans ?_
  rw [hput]
  rfl

theorem manifestAt_put_of_ne {r : RepoName} {d : Digest}
    (h : ¬(r = repo ∧ d = sha256Digest content)) :
    (v.onRoots [root] fun c => c.put repo reference content).manifestAt r d = v.manifestAt r d := by
  rw [onRoots_singleton]
  refine slot_update_same v root (fun c => c.manifest r d) _ ?_
  cases reference <;> simp [Contents.put, Contents.setManifest, Contents.addRepo, Contents.setTag, h]

theorem tagAt_put_digest (d : Digest) (r : RepoName) (t : TagName) :
    (v.onRoots [root] fun c => c.put repo (.digest d) content).tagAt r t = v.tagAt r t := by
  rw [onRoots_singleton]
  exact slot_update_same v root (fun c => c.tag r t) _ rfl

theorem tagAt_put_self (tag : TagName) :
    (v.onRoots [root] fun c => c.put repo (.tag tag) content).tagAt repo tag =
      Function.update (v.tagAt repo tag) root (some (sha256Digest content)) := by
  have hput : ((v root).put repo (.tag tag) content).tag repo tag = some (sha256Digest content) := by
    simp [Contents.put, Contents.setTag]
  rw [onRoots_singleton]
  refine (slot_update v root (fun c => c.tag repo tag) _).trans ?_
  rw [hput]
  rfl

theorem tagAt_put_of_ne {tag : TagName} {r : RepoName} {t : TagName} (h : ¬(r = repo ∧ t = tag)) :
    (v.onRoots [root] fun c => c.put repo (.tag tag) content).tagAt r t = v.tagAt r t := by
  rw [onRoots_singleton]
  refine slot_update_same v root (fun c => c.tag r t) _ ?_
  simp [Contents.put, Contents.setManifest, Contents.addRepo, Contents.setTag, h]

theorem repo_put (other : RootId) (r : RepoName) :
    (v.onRoots [root] (fun c => c.put repo reference content) other).repo r ↔
      (v other).repo r ∨ other = root ∧ r = repo := by
  by_cases ho : other = root
  · subst ho
    rw [onRoots_of_mem (List.mem_singleton_self other)]
    cases reference <;> simp [Contents.put, Contents.setManifest, Contents.addRepo, Contents.setTag,
      or_comm]
  · rw [onRoots_of_not_mem fun hm => ho (List.mem_singleton.mp hm)]
    simp [ho]

end Put

end Volumes

namespace Backend

-- What a read through a tree of stores finds.
def read (b : Backend) (v : Volumes) (repo : RepoName) (reference : Reference) : Option Bytes :=
  first b.readOrder (v.readAt repo reference)

def blob (b : Backend) (v : Volumes) (d : Digest) : Option Bytes :=
  first b.readOrder (v.blobAt d)

def HasTag (b : Backend) (v : Volumes) (repo : RepoName) (tag : TagName) : Prop :=
  ∃ root ∈ b.leaves, ((v root).tag repo tag).isSome

def HasRepo (b : Backend) (v : Volumes) (repo : RepoName) : Prop :=
  ∃ root ∈ b.leaves, (v root).repo repo

theorem read_digest (b : Backend) (v : Volumes) (repo : RepoName) (d : Digest) :
    b.read v repo (.digest d) = first b.readOrder (v.manifestAt repo d) := rfl

theorem blob_isSome (b : Backend) (v : Volumes) (d : Digest) :
    (b.blob v d).isSome ↔ ∃ root ∈ b.leaves, ((v root).blob d).isSome := by
  simp only [blob, first_isSome, b.mem_readOrder]
  rfl

theorem read_isSome (b : Backend) (v : Volumes) (repo : RepoName) (reference : Reference) :
    (b.read v repo reference).isSome ↔ ∃ root ∈ b.leaves, ((v root).read repo reference).isSome := by
  simp only [read, first_isSome, b.mem_readOrder]
  rfl

theorem exists_of_read {b : Backend} {v : Volumes} {repo : RepoName} {reference : Reference}
    {content : Bytes} (h : b.read v repo reference = some content) :
    ∃ root ∈ b.leaves, (v root).read repo reference = some content := by
  obtain ⟨root, hr, hc⟩ := exists_of_first h
  exact ⟨root, (b.mem_readOrder root).mp hr, hc⟩

theorem exists_of_blob {b : Backend} {v : Volumes} {d : Digest} {content : Bytes}
    (h : b.blob v d = some content) : ∃ root ∈ b.leaves, (v root).blob d = some content := by
  obtain ⟨root, hr, hc⟩ := exists_of_first h
  exact ⟨root, (b.mem_readOrder root).mp hr, hc⟩

@[simp] theorem read_fs (arc : Nat) (root : RootId) (v : Volumes) (repo : RepoName)
    (reference : Reference) : (fs arc root).read v repo reference = (v root).read repo reference := by
  simp only [read, readOrder, first, List.findSome?_cons, List.findSome?_nil, Volumes.readAt]
  cases (v root).read repo reference <;> rfl

@[simp] theorem blob_fs (arc : Nat) (root : RootId) (v : Volumes) (d : Digest) :
    (fs arc root).blob v d = (v root).blob d := by
  simp only [blob, readOrder, first, List.findSome?_cons, List.findSome?_nil, Volumes.blobAt]
  cases (v root).blob d <;> rfl

end Backend

namespace Volumes

-- No two places that hold a manifest of one digest differ in its bytes.
def Coherent (v : Volumes) (repo : RepoName) : Prop := ∀ d, Places.Coherent (v.manifestAt repo d)

end Volumes

variable [Sha2]

namespace Volumes

-- A text that some root holds, as a blob or as a manifest.
def Stores (v : Volumes) (content : Bytes) : Prop :=
  ∃ root, (∃ d, (v root).blob d = some content) ∨ ∃ repo d, (v root).manifest repo d = some content

omit [Sha2] in
-- What is stored after a change was stored before or comes with the change.
theorem stores_onRoots {v : Volumes} {roots : List RootId} {change : Contents → Contents}
    {new : Bytes → Prop}
    (hblob : ∀ c d content, (change c).blob d = some content → c.blob d = some content ∨ new content)
    (hmanifest : ∀ c repo d content, (change c).manifest repo d = some content →
      c.manifest repo d = some content ∨ new content)
    {content : Bytes} (h : (v.onRoots roots change).Stores content) :
    v.Stores content ∨ new content := by
  obtain ⟨root, hat⟩ := h
  by_cases hr : root ∈ roots
  · rw [onRoots_of_mem hr] at hat
    rcases hat with ⟨d, hat⟩ | ⟨repo, d, hat⟩
    · exact (hblob _ d content hat).imp_left fun hc => ⟨root, .inl ⟨d, hc⟩⟩
    · exact (hmanifest _ repo d content hat).imp_left fun hc => ⟨root, .inr ⟨repo, d, hc⟩⟩
  · rw [onRoots_of_not_mem hr] at hat
    exact .inl ⟨root, hat⟩

-- The hashes tell the stored texts apart.
def CollisionFree (v : Volumes) : Prop :=
  ∀ algorithm content content', v.Stores content → v.Stores content' →
    hashContent algorithm content = hashContent algorithm content' → content = content'

-- The same for any texts, stored already or not.
def TellsApart (texts : Bytes → Prop) : Prop :=
  ∀ algorithm content content', texts content → texts content' →
    hashContent algorithm content = hashContent algorithm content' → content = content'

theorem TellsApart.collisionFree {texts : Bytes → Prop} (h : TellsApart texts) {v : Volumes}
    (hv : ∀ content, v.Stores content → texts content) : v.CollisionFree :=
  fun algorithm content content' hc hc' =>
    h algorithm content content' (hv content hc) (hv content' hc')

variable {v : Volumes} (hfree : v.CollisionFree) (hv : ∀ root, (v root).WellFormed)

include hfree hv

theorem CollisionFree.coherent (repo : RepoName) : v.Coherent repo := by
  intro d p q content content' hp hq
  have hd := (hv p).manifest_addressed repo d content hp
  have hd' := (hv q).manifest_addressed repo d content' hq
  exact hfree .sha256 content content' ⟨p, .inr ⟨repo, d, hp⟩⟩ ⟨q, .inr ⟨repo, d, hq⟩⟩
    (hd.trans hd'.symm)

theorem CollisionFree.blobAt (d : Digest) : Places.Coherent (v.blobAt d) := by
  intro p q content content' hp hq
  have hd := (hv p).blob_addressed d content hp
  have hd' := (hv q).blob_addressed d content' hq
  exact hfree d.algorithm content content' ⟨p, .inl ⟨d, hp⟩⟩ ⟨q, .inl ⟨d, hq⟩⟩
    (hd.trans hd'.symm)

end Volumes

namespace FsStorage

-- The texts in the files of a directory.
def texts (fs : FsStorage) : List Bytes :=
  fs.blobs.entries.map (·.2) ++ fs.manifests.entries.map (·.2)

theorem mem_texts (fs : FsStorage) (content : Bytes)
    (h : (∃ d, fs.contents.blob d = some content) ∨
      ∃ repo d, fs.contents.manifest repo d = some content) : content ∈ fs.texts := by
  rcases h with ⟨d, h⟩ | ⟨repo, d, h⟩
  · exact List.mem_append_left _ (List.mem_map_of_mem (f := (·.2)) (List.of_mem_dlookup h))
  · exact List.mem_append_right _ (List.mem_map_of_mem (f := (·.2)) (List.of_mem_dlookup h))

end FsStorage

namespace World

def volumes (w : World) : Volumes := fun root => (w.roots root).contents

theorem volumes_wellFormed (w : World) (root : RootId) : (w.volumes root).WellFormed :=
  (w.roots root).contents_wellFormed

-- `w'` is `w` with other things in the roots: the rules are the same.
structure SameRules (w w' : World) : Prop where
  router : w'.router = w.router
  nextArc : w'.nextArc = w.nextArc

theorem SameRules.refl (w : World) : SameRules w w := ⟨rfl, rfl⟩

theorem SameRules.trans {w w' w'' : World} (h : SameRules w w') (h' : SameRules w' w'') :
    SameRules w w'' := ⟨h'.router.trans h.router, h'.nextArc.trans h.nextArc⟩

theorem setRoot_self (w : World) (root : RootId) : w.setRoot root (w.roots root) = w := by
  rw [setRoot, Function.update_eq_self]

theorem setRoot_volumes (w : World) (root : RootId) (fs : FsStorage)
    (change : Contents → Contents) (h : fs.contents = change (w.roots root).contents) :
    (w.setRoot root fs).volumes = w.volumes.onRoots [root] change := by
  funext other
  by_cases ho : other = root
  · subst ho
    have hself : (w.setRoot other fs).roots other = fs := by simp [setRoot]
    rw [Volumes.onRoots_of_mem (List.mem_singleton_self other), volumes, hself, h]
    rfl
  · have hother : (w.setRoot root fs).roots other = w.roots other := by simp [setRoot, ho]
    rw [Volumes.onRoots_of_not_mem fun hm => ho (List.mem_singleton.mp hm), volumes, hother]
    rfl

theorem setRoot_sameRules (w : World) (root : RootId) (fs : FsStorage) :
    SameRules w (w.setRoot root fs) := ⟨rfl, rfl⟩

end World

end RspaceRegistry
