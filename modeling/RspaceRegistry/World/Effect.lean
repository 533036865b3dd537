import RspaceRegistry.World.Faults

namespace RspaceRegistry

open Calls Fallible

variable [Sha2]

-- What a call may do to the contents of its directory, whether it fails or not.
inductive Effect : FsCall → Contents → Contents → Prop
  | same (call : FsCall) (c : Contents) : Effect call c c
  | blobWrite (d : Digest) (content : Bytes) (c : Contents) :
      Effect (.blobWrite d content) c (c.setBlob d (some content))
  | blobDelete (d : Digest) (c : Contents) : Effect (.blobDelete d) c (c.setBlob d none)
  | directory (repo : RepoName) (reference : Reference) (content : Bytes) (c : Contents) :
      Effect (.manifestPut repo reference content) c (c.addRepo repo)
  | manifest (repo : RepoName) (reference : Reference) (content : Bytes) (c : Contents) :
      Effect (.manifestPut repo reference content) c (c.put repo (.digest (sha256Digest content)) content)
  | put (repo : RepoName) (reference : Reference) (content : Bytes) (c : Contents) :
      Effect (.manifestPut repo reference content) c (c.put repo reference content)
  | delete (repo : RepoName) (reference : Reference) (c : Contents) :
      Effect (.manifestDelete repo reference) c (c.delete repo reference)

theorem effect_of_exec (call : FsCall) (fs : FsStorage) :
    Effect call fs.contents (call.exec fs).2.contents := by
  cases call with
  | blobWrite d content =>
      by_cases h : hashContent d.algorithm content = d
      · have hcontents : ((FsCall.blobWrite d content).exec fs).2.contents =
            fs.contents.setBlob d (some content) := (fs.blobWrite_addressed d content h).2
        rw [hcontents]
        exact .blobWrite d content fs.contents
      · have hsame : ((FsCall.blobWrite d content).exec fs).2 = fs :=
          congrArg Prod.snd (fs.blobWrite_mismatch d content h)
        rw [hsame]
        exact .same _ fs.contents
  | blobDelete d =>
      have hcontents : ((FsCall.blobDelete d).exec fs).2.contents = fs.contents.setBlob d none :=
        (fs.blobDelete_eq d).2
      rw [hcontents]
      exact .blobDelete d fs.contents
  | manifestPut repo reference content =>
      have hcontents : ((FsCall.manifestPut repo reference content).exec fs).2.contents =
          fs.contents.put repo reference content := fs.manifestPut_contents repo reference content
      rw [hcontents]
      exact .put repo reference content fs.contents
  | manifestDelete repo reference =>
      have hcontents : ((FsCall.manifestDelete repo reference).exec fs).2.contents =
          fs.contents.delete repo reference := fs.manifestDelete_contents repo reference
      rw [hcontents]
      exact .delete repo reference fs.contents
  | _ => exact .same _ fs.contents

theorem effect_of_fault {call : FsCall} {fs fs' : FsStorage} (h : call.Fault fs fs') :
    Effect call fs.contents fs'.contents := by
  cases h with
  | nothing => exact .same _ _
  | directory repo reference content =>
      rw [fs.makeRepoDir_contents]
      exact .directory repo reference content fs.contents
  | manifest repo tag content =>
      rw [fs.insertManifest_contents]
      exact .manifest repo (.tag tag) content fs.contents

namespace Effect

variable {call : FsCall} {c c' : Contents}

theorem blob_kept (h : Effect call c c') {d : Digest} (hcall : call ≠ .blobDelete d)
    (hd : (c.blob d).isSome) : (c'.blob d).isSome := by
  cases h with
  | same => exact hd
  | blobWrite e content =>
      by_cases he : d = e
      · simp [Contents.setBlob, he]
      · simpa [Contents.setBlob, he] using hd
  | blobDelete e =>
      have he : d ≠ e := fun heq => hcall (heq ▸ rfl)
      simpa [Contents.setBlob, he] using hd
  | directory => exact hd
  | manifest => simpa using hd
  | put => simpa using hd
  | delete repo reference => cases reference <;> exact hd

-- A blob that is there now was there before, or is written here.
theorem blob_new (h : Effect call c c') {d : Digest} {content : Bytes}
    (hd : c'.blob d = some content) : c.blob d = some content ∨ call = .blobWrite d content := by
  cases h with
  | same => exact .inl hd
  | blobWrite e text =>
      by_cases he : d = e
      · subst he
        have heq : some text = some content := by simpa [Contents.setBlob] using hd
        rw [Option.some.inj heq]
        exact .inr rfl
      · exact .inl (by simpa [Contents.setBlob, he] using hd)
  | blobDelete e =>
      by_cases he : d = e
      · simp [Contents.setBlob, he] at hd
      · exact .inl (by simpa [Contents.setBlob, he] using hd)
  | directory => exact .inl hd
  | manifest => exact .inl (by simpa using hd)
  | put => exact .inl (by simpa using hd)
  | delete repo reference => cases reference <;> exact .inl hd

theorem put_manifest_kept {repo : RepoName} {d : Digest} (hd : (c.manifest repo d).isSome)
    (r : RepoName) (reference : Reference) (content : Bytes) :
    ((c.put r reference content).manifest repo d).isSome := by
  rw [Contents.put_manifest]
  split
  · rfl
  · exact hd

theorem manifest_kept (h : Effect call c c') {repo : RepoName} {d : Digest}
    (hcall : call ≠ .manifestDelete repo (.digest d)) (hd : (c.manifest repo d).isSome) :
    (c'.manifest repo d).isSome := by
  cases h with
  | manifest r reference content => exact put_manifest_kept hd r _ content
  | put r reference content => exact put_manifest_kept hd r reference content
  | delete r reference =>
      cases reference with
      | tag tag => exact hd
      | digest e =>
          have he : ¬(repo = r ∧ d = e) := by
            rintro ⟨rfl, rfl⟩
            exact hcall rfl
          simpa [Contents.delete, Contents.setManifest, he] using hd
  | _ => exact hd

theorem put_manifest_new {repo r : RepoName} {d : Digest} {reference reference' : Reference}
    {content text : Bytes} (hd : (c.put r reference' text).manifest repo d = some content) :
    c.manifest repo d = some content ∨ ∃ reference'', sha256Digest content = d ∧
      FsCall.manifestPut r reference text = .manifestPut repo reference'' content := by
  rw [Contents.put_manifest] at hd
  split at hd
  · rename_i hkey
    obtain ⟨rfl, rfl⟩ := hkey
    obtain rfl := Option.some.inj hd
    exact .inr ⟨reference, rfl, rfl⟩
  · exact .inl hd

-- The same for a manifest.
theorem manifest_new (h : Effect call c c') {repo : RepoName} {d : Digest} {content : Bytes}
    (hd : c'.manifest repo d = some content) : c.manifest repo d = some content ∨
      ∃ reference, sha256Digest content = d ∧ call = .manifestPut repo reference content := by
  cases h with
  | manifest r reference text => exact put_manifest_new hd
  | put r reference text => exact put_manifest_new hd
  | delete r reference =>
      cases reference with
      | tag tag => exact .inl hd
      | digest e =>
          by_cases he : repo = r ∧ d = e
          · simp [Contents.delete, Contents.setManifest, he] at hd
          · exact .inl (by simpa [Contents.delete, Contents.setManifest, he] using hd)
  | _ => exact .inl hd

-- A tag changes by a put or a delete of its own.
theorem tag_after (h : Effect call c c') (repo : RepoName) (t : TagName) :
    c'.tag repo t = c.tag repo t ∨
      (∃ content, call = .manifestPut repo (.tag t) content ∧
        c'.tag repo t = some (sha256Digest content)) ∨
      call = .manifestDelete repo (.tag t) ∧ c'.tag repo t = none := by
  cases h with
  | manifest r reference text => exact .inl (by simp [Contents.put_tag])
  | put r reference text =>
      by_cases he : repo = r ∧ reference = .tag t
      · obtain ⟨rfl, rfl⟩ := he
        exact .inr (.inl ⟨text, rfl, by simp [Contents.put_tag]⟩)
      · exact .inl (by simp [Contents.put_tag, he])
  | delete r reference =>
      cases reference with
      | digest e => exact .inl rfl
      | tag t' =>
          by_cases he : repo = r ∧ t = t'
          · obtain ⟨rfl, rfl⟩ := he
            exact .inr (.inr ⟨rfl, by simp [Contents.delete, Contents.setTag]⟩)
          · exact .inl (by simp [Contents.delete, Contents.setTag, he])
  | _ => exact .inl rfl

-- So a tag that is there now was there before, or is put here.
theorem tag_new (h : Effect call c c') {repo : RepoName} {t : TagName} {d : Digest}
    (hd : c'.tag repo t = some d) : c.tag repo t = some d ∨
      ∃ content, call = .manifestPut repo (.tag t) content := by
  rcases h.tag_after repo t with hsame | ⟨content, hcall, _⟩ | ⟨_, hnone⟩
  · exact .inl (hsame ▸ hd)
  · exact .inr ⟨content, hcall⟩
  · rw [hnone] at hd
    cases hd

end Effect

-- A call that puts the text somewhere.
def Op.Brings (content : Bytes) : Op → Prop
  | .fs _ (.blobWrite _ text) => text = content
  | .fs _ (.manifestPut _ _ text) => text = content
  | _ => False

namespace World

variable {op : Op} {w w' : World} {answer : op.Ans}

-- One call, as seen from one directory.
theorem effect_of_faulty (h : Faulty op w answer w') (root : RootId) :
    w'.volumes root = w.volumes root ∨
      ∃ call, op = .fs root call ∧ Effect call (w.volumes root) (w'.volumes root) := by
  cases op with
  | fs p call =>
      by_cases hp : root = p
      · subst hp
        refine .inr ⟨call, rfl, ?_⟩
        cases h with
        | regular =>
            have hself : (w.setRoot root (call.exec (w.roots root)).2).volumes root =
                (call.exec (w.roots root)).2.contents := by
              simp [volumes, setRoot]
            exact hself ▸ effect_of_exec call (w.roots root)
        | fault _ _ _ fs err hf hne =>
            have hself : (w.setRoot root fs).volumes root = fs.contents := by
              simp [volumes, setRoot]
            exact hself ▸ effect_of_fault hf
      · obtain ⟨fs, rfl⟩ := faulty_fs h
        exact .inl (by simp [volumes, setRoot, hp])
  | _ =>
      cases h
      exact .inl rfl

theorem blob_kept (h : Faulty op w answer w') {root : RootId} {d : Digest}
    (hop : op ≠ .fs root (.blobDelete d)) (hd : ((w.volumes root).blob d).isSome) :
    ((w'.volumes root).blob d).isSome := by
  rcases effect_of_faulty h root with hsame | ⟨call, rfl, heffect⟩
  · rwa [hsame]
  · exact heffect.blob_kept (fun hcall => hop (hcall ▸ rfl)) hd

theorem manifest_kept (h : Faulty op w answer w') {root : RootId} {repo : RepoName} {d : Digest}
    (hop : op ≠ .fs root (.manifestDelete repo (.digest d)))
    (hd : ((w.volumes root).manifest repo d).isSome) :
    ((w'.volumes root).manifest repo d).isSome := by
  rcases effect_of_faulty h root with hsame | ⟨call, rfl, heffect⟩
  · rwa [hsame]
  · exact heffect.manifest_kept (fun hcall => hop (hcall ▸ rfl)) hd

theorem stores_new (h : Faulty op w answer w') {content : Bytes} (hs : w'.volumes.Stores content) :
    w.volumes.Stores content ∨ op.Brings content := by
  obtain ⟨root, hheld⟩ := hs
  rcases effect_of_faulty h root with hsame | ⟨call, rfl, heffect⟩
  · rw [hsame] at hheld
    exact .inl ⟨root, hheld⟩
  · rcases hheld with ⟨d, hd⟩ | ⟨repo, d, hd⟩
    · rcases heffect.blob_new hd with hold | rfl
      · exact .inl ⟨root, .inl ⟨d, hold⟩⟩
      · exact .inr rfl
    · rcases heffect.manifest_new hd with hold | ⟨reference, _, rfl⟩
      · exact .inl ⟨root, .inr ⟨repo, d, hold⟩⟩
      · exact .inr rfl

-- An answer that is no fault is what the directory holds.
theorem handle_of_answer {root : RootId} {call : FsCall} {answer : Except StorageError call.Value}
    (h : Faulty (.fs root call) w answer w') (hanswer : ∀ err, answer = .error err → err = .notFound) :
    handle (.fs root call) w = (answer, w') := by
  cases h with
  | regular => rfl
  | fault _ _ _ fs err hf hne => exact absurd (hanswer err rfl) hne

-- A put or a delete that fails leaves every tag as it is.
theorem tag_of_failed {root : RootId} {call : FsCall} {err : StorageError}
    (h : Faulty (.fs root call) w (.error err) w') (hne : err ≠ .notFound) (p : RootId)
    (repo : RepoName) (t : TagName) : (w'.volumes p).tag repo t = (w.volumes p).tag repo t := by
  rcases effect_of_faulty h p with hsame | ⟨call', hop, heffect⟩
  · rw [hsame]
  cases hop
  generalize hanswer : (Except.error err : Except StorageError call.Value) = answer at h
  cases h with
  | regular =>
      rcases heffect.tag_after repo t with hsame | ⟨content, rfl, _⟩ | ⟨rfl, _⟩
      · exact hsame
      · exact absurd (hanswer.trans ((w.roots root).manifestPut_answer repo (.tag t) content)) nofun
      · have hmissing := hanswer.trans ((w.roots root).manifestDelete_answer repo (.tag t))
        cases hpresent : (w.roots root).contents.present repo (.tag t) with
        | none =>
            rw [hpresent] at hmissing
            exact absurd (Except.error.inj hmissing) hne
        | some value =>
            rw [hpresent] at hmissing
            cases hmissing
  | fault _ _ _ fs err' hf hne' =>
      have hself : (w.setRoot root fs).volumes root = fs.contents := by
        simp [volumes, setRoot]
      rw [hself]
      cases hf with
      | nothing => rfl
      | directory repo' reference content =>
          rw [FsStorage.makeRepoDir_contents]
          rfl
      | manifest repo' tag content =>
          rw [FsStorage.insertManifest_contents]
          rfl

theorem volumes_of_delete {root : RootId} {repo : RepoName} {reference : Reference}
    {answer : Except StorageError Unit} (h : Faulty (.fs root (.manifestDelete repo reference)) w answer w')
    (hanswer : ∀ err, answer = .error err → err = .notFound) :
    w'.volumes = w.volumes.onRoots [root] fun c => c.delete repo reference := by
  have hw : (handle (.fs root (.manifestDelete repo reference)) w).2 = w' :=
    congrArg Prod.snd (handle_of_answer h hanswer)
  rw [← hw]
  exact w.setRoot_volumes root _ _ ((w.roots root).manifestDelete_contents repo reference)

theorem volumes_of_put {root : RootId} {repo : RepoName} {reference : Reference} {content : Bytes}
    {digest : Digest} (h : Faulty (.fs root (.manifestPut repo reference content)) w (.ok digest) w') :
    w'.volumes = w.volumes.onRoots [root] fun c => c.put repo reference content := by
  have hw : (handle (.fs root (.manifestPut repo reference content)) w).2 = w' :=
    congrArg Prod.snd (handle_of_answer h nofun)
  rw [← hw]
  exact w.setRoot_volumes root _ _ ((w.roots root).manifestPut_contents repo reference content)

end World

end RspaceRegistry
