import RspaceRegistry.Disk.Blobs
import RspaceRegistry.Volumes

namespace RspaceRegistry.Disk

open Calls Calls.Pool Files

-- A `manifest_put` under a tag.
structure Push where
  tag : String
  isName : IsFileName tag
  content : Bytes

section Resolve

-- What `manifest_get` answers for a tag.
def resolve (repo tag : String) (tree : Tree) : Except StorageError Bytes :=
  ((manifestGet repo (.tag tag)).run Tree.handle tree).1

-- The digest that a tag file names.
def tagTarget (repo tag : String) (tree : Tree) : Option Digest :=
  (tree.fileAt (manifestTagPath repo tag)).bind fun bytes =>
    (fromUtf8 bytes).bind fun s => (Digest.fromStr (trim s)).toOption

theorem mapError_eq_ok {ε ε' α : Type} {f : ε → ε'} {result : Except ε α} {value : α} :
    result.mapError f = .ok value ↔ result = .ok value := by
  cases result <;> simp [Except.mapError]

theorem tagDigest_eq_ok {s : String} {d : Digest} :
    tagDigest s = .ok d ↔ (Digest.fromStr (trim s)).toOption = some d := by
  rw [tagDigest]
  cases Digest.fromStr (trim s) <;> simp [Except.toOption]

theorem resolve_eq_ok {repo tag : String} {tree : Tree} {bytes : Bytes} :
    resolve repo tag tree = .ok bytes ↔ ∃ digest, tagTarget repo tag tree = some digest ∧
      tree.fileAt (manifestDigestPath repo digest) = some bytes := by
  rw [resolve, run_manifestGet_tag, tagTarget]
  cases hread : tree.read (manifestTagPath repo tag) with
  | error err =>
      have hnone : tree.fileAt (manifestTagPath repo tag) = none := by
        rw [Option.eq_none_iff_forall_ne_some]
        intro bytes hbytes
        rw [Tree.read_ok.mpr hbytes] at hread
        cases hread
      simp [hnone, Except.bind, Except.mapError]
  | ok text =>
      rw [Tree.read_ok.mp hread, Option.bind_some, Except.bind]
      cases fromUtf8 text with
      | none => simp [Except.bind, Except.mapError]
      | some s =>
          simp only [Option.elim_some, Except.mapError, Except.bind, Option.bind_some,
            ← tagDigest_eq_ok]
          cases tagDigest s with
          | error err => simp
          | ok d => simp [← Tree.read_ok, ← mapError_eq_ok (f := ioToStorage), Except.mapError]

theorem resolve_toOption {repo tag : String} {tree : Tree} :
    (resolve repo tag tree).toOption = (tagTarget repo tag tree).bind fun digest =>
      tree.fileAt (manifestDigestPath repo digest) := by
  apply Option.ext
  intro bytes
  rw [Option.bind_eq_some_iff, ← resolve_eq_ok]
  cases resolve repo tag tree <;> simp [Except.toOption]

end Resolve

section Pool

variable [Sha2] {ι : Type} (repo : String) (pushes : ι → Push)

def Push.digest (push : Push) : Digest := hashContent .sha256 push.content

-- Any number of pushes under tags of one repository.
def tagPushes (tree : Tree) :
    Pool ι FileOp FileOp.Ans (fun _ => Except StorageError Digest) Tree :=
  ⟨fun i => manifestPut repo (.tag (pushes i).tag) (pushes i).content, (tree, [])⟩

def PushTarget (path : Path) : Prop :=
  ∃ i, path = manifestTagPath repo (pushes i).tag ∨
    path = manifestDigestPath repo (pushes i).digest

def PushTmp (path : Path) : Prop :=
  ∃ i, path = withExtension (manifestTagPath repo (pushes i).tag) "tmp" ∨
    path = withExtension (manifestDigestPath repo (pushes i).digest) "tmp"

-- A tag is written once its manifest is there.
def PushContent (i : ι) (path : Path) (bytes : List UInt8) (tree : Tree) : Prop :=
  path = manifestDigestPath repo (pushes i).digest ∧ bytes = (pushes i).content ∨
    path = manifestTagPath repo (pushes i).tag ∧ bytes = utf8 (pushes i).digest.toString ∧
      tree.fileAt (manifestDigestPath repo (pushes i).digest) = some (pushes i).content

variable {repo pushes}

theorem pushTmp_tag (i : ι) : PushTmp repo pushes
    (tmpName (pushes i).tag :: "tags" :: repoPath repo) := ⟨i, .inl rfl⟩

theorem pushTmp_digest (i : ι) : PushTmp repo pushes
    (tmpName (pushes i).digest.toString :: "digests" :: repoPath repo) := ⟨i, .inr rfl⟩

-- A temporary name is that of a tag or ends in the extension.
theorem not_pushTmp_digest (d : Digest) : ¬PushTmp repo pushes (manifestDigestPath repo d) := by
  rintro ⟨i, h | h⟩
  · exact absurd (List.cons.inj (List.cons.inj h).2).1 (by decide)
  · exact tmpName_ne (isTmp_digest d) (List.cons.inj h).1.symm

theorem not_pushTmp_tag {tag : String} (h : ∀ i, tmpName (pushes i).tag ≠ tag) :
    ¬PushTmp repo pushes (manifestTagPath repo tag) := by
  rintro ⟨i, heq | heq⟩
  · exact h i (List.cons.inj heq).1.symm
  · exact absurd (List.cons.inj (List.cons.inj heq).2).1 (by decide)

theorem pushLayout (htags : ∀ i, isTmp (pushes i).tag = false) :
    Layout (PushTmp repo pushes) (PushTarget repo pushes) := by
  apply Layout.of_length ((repoPath repo).length + 2)
  · rintro path (⟨i, rfl | rfl⟩ | ⟨i, rfl | rfl⟩) <;> rfl
  · rintro path htmp ⟨i, rfl | rfl⟩
    · exact not_pushTmp_tag (fun j => tmpName_ne (htags i)) htmp
    · exact not_pushTmp_digest _ htmp

theorem sane_of_pushes {tree : Tree}
    (h : ∀ i, Writable tree (manifestTagPath repo (pushes i).tag) ∧
      Writable tree (manifestDigestPath repo (pushes i).digest)) :
    Sane (PushTmp repo pushes) (PushTarget repo pushes) tree := by
  rintro path (⟨i, rfl | rfl⟩ | ⟨i, rfl | rfl⟩)
  · obtain ⟨⟨-, htmp, hfree⟩, -⟩ := h i
    exact ⟨htmp, Tree.blocked_cons.not.mpr (Tree.blocked_cons.not.mp hfree)⟩
  · obtain ⟨-, -, htmp, hfree⟩ := h i
    exact ⟨htmp, Tree.blocked_cons.not.mpr (Tree.blocked_cons.not.mp hfree)⟩
  · exact ⟨(h i).1.1, (h i).1.2.2⟩
  · exact ⟨(h i).2.1, (h i).2.2.2⟩

variable [DecidableEq ι] (htags : ∀ i, isTmp (pushes i).tag = false)
variable (hdistinct : ∀ i j, (pushes i).digest = (pushes j).digest →
  (pushes i).content = (pushes j).content)

include htags hdistinct

-- Once a pushed manifest is there it stays.
theorem kept_manifest (i : ι) :
    Kept (PushTmp repo pushes) (PushTarget repo pushes) (PushContent repo pushes) fun tree =>
      tree.fileAt (manifestDigestPath repo (pushes i).digest) = some (pushes i).content := by
  apply kept_content (pushLayout htags) ⟨i, .inr rfl⟩
    (fun bytes => bytes = some (pushes i).content)
  rintro j content tree (⟨hpath, rfl⟩ | ⟨hpath, -, -⟩)
  · have hdigest := toString_injective (List.cons.inj hpath).1
    rw [hdistinct i j hdigest]
  · exact absurd hpath.symm (tagPath_ne_digestPath _ _ _ _)

theorem replacing_tagPushes {tree : Tree}
    (hwritable : ∀ i, Writable tree (manifestTagPath repo (pushes i).tag) ∧
      Writable tree (manifestDigestPath repo (pushes i).digest)) :
    Replacing (PushTmp repo pushes) (PushTarget repo pushes) (PushContent repo pushes)
      (fun i result => result = .ok (pushes i).digest) (tagPushes repo pushes tree) := by
  intro i
  have hkept : Kept (PushTmp repo pushes) (PushTarget repo pushes) (PushContent repo pushes)
      fun _ => True := fun _ _ _ _ _ _ _ _ _ _ => trivial
  show (manifestPut repo (.tag (pushes i).tag) (pushes i).content).wp _ _ _ _ _
  rw [manifestPut, Fallible.wp_bind, Fallible.wp_mapError]
  apply Fallible.wp_post
  · exact wp_replaceFile hkept (pushLayout htags) (pushTmp_digest i) ⟨i, .inr rfl⟩
      (fun _ _ => .inl ⟨rfl, rfl⟩) fun _ => ⟨sane_of_pushes hwritable, trivial⟩
  · intro result s h
    cases result with
    | error err => exact fun hexclusive => nomatch (h hexclusive).1
    | ok written =>
        simp only [Except.mapError, Fallible.outcome_ok]
        rw [Fallible.wp_bind, Fallible.wp_mapError]
        apply Fallible.wp_post
        · exact wp_replaceFile (kept_manifest htags hdistinct i) (pushLayout htags) (pushTmp_tag i)
            ⟨i, .inl rfl⟩ (fun _ h => .inr ⟨rfl, rfl, h⟩)
            fun hexclusive => ⟨(h hexclusive).2.1.1, (h hexclusive).2.2⟩
        · intro result s h
          cases result with
          | error err => exact fun hexclusive => nomatch (h hexclusive).1
          | ok tagged => exact fun _ => rfl

-- A tag file is as it was, or a push under that tag has written it.
theorem kept_tag (before : Tree) {tag : String} (htag : ∀ i, tmpName (pushes i).tag ≠ tag) :
    Kept (PushTmp repo pushes) (PushTarget repo pushes) (PushContent repo pushes) fun tree =>
      tree.fileAt (manifestTagPath repo tag) = before.fileAt (manifestTagPath repo tag) ∨
        ∃ i, (pushes i).tag = tag ∧
          tree.fileAt (manifestTagPath repo tag) = some (utf8 (pushes i).digest.toString) ∧
          tree.fileAt (manifestDigestPath repo (pushes i).digest) = some (pushes i).content := by
  intro j op s answer s' hs hlaw hexclusive hsane h
  have hmanifest := fun i => kept_manifest htags hdistinct i j op s answer s' hs hlaw hexclusive hsane
  have hwritten : s'.1.fileAt (manifestTagPath repo tag) = s.1.fileAt (manifestTagPath repo tag) ∨
      ∃ content, PushContent repo pushes j (manifestTagPath repo tag) content s.1 ∧
        s'.1.fileAt (manifestTagPath repo tag) = some content := by
    by_cases htarget : PushTarget repo pushes (manifestTagPath repo tag)
    · exact hlaw.fileAt (pushLayout htags) hs hsane htarget
    · exact .inl (hlaw.untouched hs (not_pushTmp_tag htag) htarget)
  rcases hwritten with heq | ⟨content, ⟨hpath, -⟩ | ⟨hpath, rfl, hstored⟩, heq⟩
  · rw [heq]
    exact h.imp_right fun ⟨i, hi, hfile, hstored⟩ => ⟨i, hi, hfile, hmanifest i hstored⟩
  · exact absurd hpath (tagPath_ne_digestPath _ _ _ _)
  · exact .inr ⟨j, (List.cons.inj hpath).1.symm, heq, hmanifest j hstored⟩

omit hdistinct in
-- And so is a manifest.
theorem kept_stored (before : Tree) (d : Digest) :
    Kept (PushTmp repo pushes) (PushTarget repo pushes) (PushContent repo pushes) fun tree =>
      tree.fileAt (manifestDigestPath repo d) = before.fileAt (manifestDigestPath repo d) ∨
        ∃ i, (pushes i).digest = d ∧
          tree.fileAt (manifestDigestPath repo d) = some (pushes i).content := by
  by_cases hpushed : ∃ i, (pushes i).digest = d
  · obtain ⟨i, rfl⟩ := hpushed
    apply kept_content (pushLayout htags) ⟨i, .inr rfl⟩ (fun bytes =>
      bytes = before.fileAt (manifestDigestPath repo (pushes i).digest) ∨
        ∃ j, (pushes j).digest = (pushes i).digest ∧ bytes = some (pushes j).content)
    rintro j content tree (⟨hpath, rfl⟩ | ⟨hpath, -, -⟩)
    · exact .inr ⟨j, (toString_injective (List.cons.inj hpath).1).symm, rfl⟩
    · exact absurd hpath.symm (tagPath_ne_digestPath _ _ _ _)
  · apply kept_elsewhere (not_pushTmp_digest d) ?_ (fun bytes =>
      bytes = before.fileAt (manifestDigestPath repo d) ∨
        ∃ i, (pushes i).digest = d ∧ bytes = some (pushes i).content)
    rintro ⟨i, h | h⟩
    · exact absurd h.symm (tagPath_ne_digestPath _ _ _ _)
    · exact hpushed ⟨i, (toString_injective (List.cons.inj h).1).symm⟩

end Pool

section Theorems

variable [Sha2] {ι : Type} [DecidableEq ι] {repo : String} {pushes : ι → Push} {tree : Tree}

-- Concurrent pushes under tags of one repository all succeed, and a tag answers as
-- before or with a manifest pushed under it, if each call makes its temporary files
-- while no other is between making and renaming them.
theorem pushed_tags_apart
    (htexts : Volumes.TellsApart fun content => (∃ i, content = (pushes i).content) ∨
      ∃ d, tree.fileAt (manifestDigestPath repo d) = some content)
    (haddressed : ∀ d content, tree.fileAt (manifestDigestPath repo d) = some content →
      hashContent .sha256 content = d)
    (hwritable : ∀ i, Writable tree (manifestTagPath repo (pushes i).tag) ∧
      Writable tree (manifestDigestPath repo (pushes i).digest))
    (htags : ∀ i, isTmp (pushes i).tag = false)
    {q : Pool ι FileOp FileOp.Ans (fun _ => Except StorageError Digest) Tree}
    (hrun : Runs Tree.handle.sem (tagPushes repo pushes tree) q) (hexclusive : Exclusive q.now.2) :
    (∀ i result, q.parties i = .pure result → result = .ok (pushes i).digest) ∧
      ∀ tag, (∀ i, tmpName (pushes i).tag ≠ tag) →
        (∀ i, tagTarget repo tag tree = some (pushes i).digest →
          tree.fileAt (manifestDigestPath repo (pushes i).digest) ≠ none) →
        (resolve repo tag q.now.1).toOption = (resolve repo tag tree).toOption ∨
          ∃ i, (pushes i).tag = tag ∧ resolve repo tag q.now.1 = .ok (pushes i).content := by
  have hdistinct : ∀ i j, (pushes i).digest = (pushes j).digest →
      (pushes i).content = (pushes j).content :=
    fun i j h => htexts .sha256 _ _ (.inl ⟨i, rfl⟩) (.inl ⟨j, rfl⟩) h
  have hpushes := replacing_tagPushes htags hdistinct hwritable
  have hsane := sane_of_pushes hwritable
  refine ⟨fun i result hresult => hpushes.finished hrun hexclusive hresult, ?_⟩
  intro tag htag hstored
  have htarget := hpushes.kept (kept_tag htags hdistinct tree htag) (pushLayout htags) hrun
    hexclusive hsane (.inl rfl)
  rcases htarget with hsame | ⟨i, hi, hfile, hmanifest⟩
  · left
    have hname : tagTarget repo tag q.now.1 = tagTarget repo tag tree := by
      rw [tagTarget, hsame, tagTarget]
    rw [resolve_toOption, resolve_toOption, hname]
    apply Option.bind_congr
    intro d hd
    have hmanifest := hpushes.kept (kept_stored htags tree d) (pushLayout htags) hrun hexclusive
      hsane (.inl rfl)
    rcases hmanifest with heq | ⟨i, rfl, hpushed⟩
    · exact heq
    · obtain ⟨bytes, hbytes⟩ := Option.ne_none_iff_exists'.mp (hstored i hd)
      have hhash := haddressed _ bytes hbytes
      rw [hpushed, hbytes, htexts .sha256 _ _ (.inl ⟨i, rfl⟩) (.inr ⟨_, hbytes⟩) hhash.symm]
  · refine .inr ⟨i, hi, resolve_eq_ok.mpr ⟨_, ?_, hmanifest⟩⟩
    simp [tagTarget, hfile, Except.toOption]

end Theorems

section

attribute [local instance] Sample.sha2

-- Two releases whose tags differ behind the last dot, so that both are written to
-- `1.tmp` first.
def releases : Bool → Push
  | true => ⟨"1.0", by decide, Sample.braces⟩
  | false => ⟨"1.1", by decide, Sample.brackets⟩

def releasing : Pool Bool FileOp FileOp.Ans (fun _ => Except StorageError Digest) Tree :=
  tagPushes "data/x" releases new

-- The first renames what the second has just written, and the second finds nothing
-- to rename.
def entangled : List Bool :=
  List.replicate 8 true ++ List.replicate 8 false ++ [true, true, false, false]

theorem releases_mixed :
    ¬(∀ q, Runs Tree.handle.sem releasing q →
      ∀ i result, q.parties i = .pure result → result = .ok (releases i).digest) ∧
    ¬(∀ q, Runs Tree.handle.sem releasing q → ∀ tag,
      (resolve "data/x" tag q.now.1).toOption = (resolve "data/x" tag new).toOption ∨
        ∃ i, (releases i).tag = tag ∧ resolve "data/x" tag q.now.1 = .ok (releases i).content) := by
  have hrun := runs_play Tree.handle entangled releasing
  have houtcome : ((releasing.play Tree.handle entangled).parties false).result =
        some (.error .io) ∧
      resolve "data/x" "1.0" (releasing.play Tree.handle entangled).now.1 = .ok Sample.brackets ∧
      (resolve "data/x" "1.0" new).toOption = none := by decide +kernel
  obtain ⟨hfailed, hmixed, hbefore⟩ := houtcome
  constructor
  · intro h
    cases h _ hrun false _ (Prog.eq_pure_of_result hfailed)
  · intro h
    rcases h _ hrun "1.0" with hsame | ⟨i, htag, hpushed⟩
    · rw [hmixed, hbefore] at hsame
      cases hsame
    · rw [hmixed] at hpushed
      cases i with
      | true => exact absurd (Except.ok.inj hpushed) (by decide)
      | false => exact absurd htag (by decide)

-- The same pushes one after the other.
def inTurn : List Bool := List.replicate 10 true ++ List.replicate 10 false

theorem releases_texts : Volumes.TellsApart fun content =>
    (∃ i, content = (releases i).content) ∨
      ∃ d, new.fileAt (manifestDigestPath "data/x" d) = some content := by
  have hmem : ∀ content, ((∃ i, content = (releases i).content) ∨
      ∃ d, new.fileAt (manifestDigestPath "data/x" d) = some content) →
        content ∈ [Sample.braces, Sample.brackets] := by
    rintro content (⟨i, rfl⟩ | ⟨d, hd⟩)
    · cases i <;> simp [releases]
    · rw [no_file_new] at hd
      cases hd
  have hdistinct : ∀ algorithm ∈ [Algorithm.sha256, .sha512],
      ∀ a ∈ [Sample.braces, Sample.brackets], ∀ b ∈ [Sample.braces, Sample.brackets],
        hashContent algorithm a = hashContent algorithm b → a = b := by decide +kernel
  intro algorithm a b ha hb
  exact hdistinct algorithm (by cases algorithm <;> simp) a (hmem a ha) b (hmem b hb)

theorem releases_in_turn :
    (∀ i result, (releasing.play Tree.handle inTurn).parties i = .pure result →
      result = .ok (releases i).digest) ∧
    ((resolve "data/x" "1.0" (releasing.play Tree.handle inTurn).now.1).toOption =
      (resolve "data/x" "1.0" new).toOption ∨ ∃ i, (releases i).tag = "1.0" ∧
        resolve "data/x" "1.0" (releasing.play Tree.handle inTurn).now.1 =
          .ok (releases i).content) := by
  have hrun := runs_play Tree.handle inTurn releasing
  have hturns : (∀ i, Writable new (manifestTagPath "data/x" (releases i).tag) ∧
        Writable new (manifestDigestPath "data/x" (releases i).digest)) ∧
      Exclusive (releasing.play Tree.handle inTurn).now.2 := by decide +kernel
  obtain ⟨hwritable, hexclusive⟩ := hturns
  obtain ⟨hok, htags⟩ := pushed_tags_apart releases_texts
    (fun d content h => by rw [no_file_new] at h; cases h) hwritable (by decide) hrun hexclusive
  refine ⟨hok, htags "1.0" (by decide) ?_⟩
  intro i htarget
  rw [tagTarget, no_file_new] at htarget
  cases htarget

end

end RspaceRegistry.Disk
