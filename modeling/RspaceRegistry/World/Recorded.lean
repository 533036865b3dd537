import RspaceRegistry.Backend.Flat
import RspaceRegistry.Backend.Uses
import RspaceRegistry.Calls.Pool
import RspaceRegistry.World.Faults

namespace RspaceRegistry

open Calls Fallible Ordered MultiStore

-- What a party knows of its own calls while others are at work too.

abbrev History [Sha2] (ι : Type) : Type := Recorded ι Op Op.Ans World

variable [Sha2] {ι : Type} {i : ι}

-- The surroundings: they leave the rules and the party's record alone.
structure Steady (i : ι) (s s' : History ι) : Prop where
  router : s'.1.router = s.1.router
  record : ∀ op answer, Did i s' op answer ↔ Did i s op answer

theorem Steady.refl (i : ι) (s : History ι) : Steady i s s := ⟨rfl, fun _ _ => Iff.rfl⟩

theorem Steady.trans {s₁ s₂ s₃ : History ι} (h : Steady i s₁ s₂) (h' : Steady i s₂ s₃) :
    Steady i s₁ s₃ :=
  ⟨h'.router.trans h.router, fun op answer => (h'.record op answer).trans (h.record op answer)⟩

-- The party goes on, and what it does is as described.
structure Adds (i : ι) (New : (op : Op) → op.Ans → Prop) (s s' : History ι) : Prop where
  router : s'.1.router = s.1.router
  kept : ∀ op answer, Did i s op answer → Did i s' op answer
  new : ∀ op answer, Did i s' op answer → Did i s op answer ∨ New op answer

namespace Adds

variable {New New' : (op : Op) → op.Ans → Prop} {s s₁ s' : History ι}

theorem of_steady (h : Steady i s s') : Adds i New s s' where
  router := h.router
  kept op answer := (h.record op answer).mpr
  new op answer hd := .inl ((h.record op answer).mp hd)

theorem refl (s : History ι) : Adds i New s s := of_steady (.refl i s)

theorem trans (h : Adds i New s s₁) (h' : Adds i New s₁ s') : Adds i New s s' where
  router := h'.router.trans h.router
  kept op answer hd := h'.kept op answer (h.kept op answer hd)
  new := by
    intro op answer hd
    rcases h'.new op answer hd with hd | hn
    · exact h.new op answer hd
    · exact .inr hn

theorem mono (h : Adds i New s s') (himp : ∀ op answer, New op answer → New' op answer) :
    Adds i New' s s' where
  router := h.router
  kept := h.kept
  new op answer hd := (h.new op answer hd).imp_right (himp op answer)

end Adds

-- A call that looks at a directory or at the rules.
def Op.Looks : Op → Prop
  | .fs root call => (Op.fs root call).Confined [] []
  | .upsert _ _ => False
  | _ => True

omit [Sha2] in
theorem looks_of_confined {op : Op} (h : op.Confined [] []) : op.Looks := by
  cases op with
  | fs root call => exact h
  | _ => exact h.elim

theorem World.router_of_faulty {op : Op} (hop : ∀ pattern backend, op ≠ .upsert pattern backend)
    {w w' : World} {answer : op.Ans} (h : World.Faulty op w answer w') : w'.router = w.router := by
  cases op with
  | fs root call =>
      obtain ⟨fs, rfl⟩ := World.faulty_fs h
      rfl
  | upsert pattern backend => exact absurd rfl (hop pattern backend)
  | backendFor repo =>
      cases h
      rfl
  | backendForPattern pattern =>
      cases h
      rfl
  | distinctBackends =>
      cases h
      rfl
  | newArc =>
      cases h
      rfl

-- One party's calls on the world, put on record.
abbrev recorded (i : ι) : Sem Op Op.Ans (History ι) := Sem.record World.Faulty i

-- The one call, with the one answer.
def Is (i : ι) (op : Op) (answer : op.Ans) (op' : Op) (answer' : op'.Ans) : Prop :=
  (⟨i, op', answer'⟩ : Event ι Op Op.Ans) = ⟨i, op, answer⟩

omit [Sha2] in
theorem Is.op {i : ι} {op op' : Op} {answer : op.Ans} {answer' : op'.Ans}
    (h : Is i op answer op' answer') : op' = op := congrArg Event.op h

theorem Adds.of_record {op : Op} (hop : ∀ pattern backend, op ≠ .upsert pattern backend)
    {s s' : History ι} {answer : op.Ans} (h : recorded i op s answer s') :
    Adds i (Is i op answer) s s' where
  router := World.router_of_faulty hop h.1
  kept _ _ hd := hd.record h
  new _ _ := (did_record_iff h).mp

section Calls

variable {α β : Type} {rely : History ι → History ι → Prop} {guar : Sem Op Op.Ans (History ι)}

-- A program by what it calls.
theorem wp_adds {prog : StoreM α} {allowed : Op → Prop} (hprog : prog.Uses allowed)
    (hrely : ∀ s s', rely s s' → Steady i s s')
    (hallowed : ∀ pattern backend, ¬allowed (.upsert pattern backend)) {s : History ι}
    (hguar : ∀ op s₁, allowed op → Adds i (fun op' _ => allowed op') s s₁ →
      ∀ answer s', guar op s₁ answer s') :
    prog.wp (recorded i) rely guar
      (fun _ s' => Adds i (fun op' _ => allowed op') s s') s := by
  suffices h : ∀ (prog : Prog Op Op.Ans (Except StorageError α)) s₁, prog.Uses allowed →
      Adds i (fun op' _ => allowed op') s s₁ → prog.wp (recorded i) rely guar
        (fun _ s' => Adds i (fun op' _ => allowed op') s s') s₁ from h prog s hprog (.refl s)
  intro prog
  induction prog with
  | pure value => exact fun s₁ _ hs₁ => hs₁
  | call op next ih =>
      intro s₁ huses hs₁ s₂ hr answer s₃ hs
      have hs₂ := hs₁.trans (.of_steady (hrely s₁ s₂ hr))
      have hne : ∀ pattern backend, op ≠ .upsert pattern backend :=
        fun pattern backend heq => hallowed pattern backend (heq ▸ huses.1)
      have hcall : Adds i (fun op' _ => allowed op') s₂ s₃ := by
        refine (Adds.of_record hne hs).mono ?_
        intro op' _ hop
        rw [hop.op]
        exact huses.1
      exact ⟨hguar op s₂ huses.1 hs₂ answer s₃, ih answer s₃ (huses.2 answer) (hs₂.trans hcall)⟩

variable (hrely : ∀ s s', rely s s' → Steady i s s')
variable (hguar : ∀ op s answer s', op.Looks → guar op s answer s')

include hrely hguar

-- A look at one directory, or at the rules.
theorem wp_look {op : Op} {next : op.Ans → Prog Op Op.Ans (Except StorageError α)}
    {post : Except StorageError α → History ι → Prop} {s : History ι} (hop : op.Looks)
    (hnext : ∀ answer s₁ s', Steady i s s₁ → World.Faulty op s₁.1 answer s'.1 →
      Adds i (Is i op answer) s s' → Did i s' op answer →
      (next answer).wp (recorded i) rely guar post s') :
    Fallible.wp (recorded i) rely guar (Prog.call op next) post s := by
  intro s₁ hr answer s' hs
  have hsteady := hrely s s₁ hr
  have hne : ∀ pattern backend, op ≠ .upsert pattern backend := by
    rintro pattern backend rfl
    exact hop
  refine ⟨hguar op s₁ answer s' hop, ?_⟩
  exact hnext answer s₁ s' hsteady hs.1 ((Adds.of_steady hsteady).trans (.of_record hne hs))
    (did_of_record hs)

theorem wp_fs {root : RootId} {call : FsCall}
    {post : Except StorageError call.Value → History ι → Prop} {s : History ι}
    (hcall : (Op.fs root call).Confined [] [])
    (hpost : ∀ answer s', Adds i (Is i (.fs root call) answer) s s' →
      Did i s' (.fs root call) answer → post answer s') :
    (StoreM.fs root call).wp (recorded i) rely guar post s :=
  wp_look hrely hguar hcall fun answer _ s' _ _ => hpost answer s'

theorem wp_askBackend {repo : String} {rest : Backend → StoreM α}
    {post : Except StorageError α → History ι → Prop} {s : History ι}
    (hrest : ∀ s', Adds i (fun op _ => op = .backendFor repo) s s' →
      (rest (s.1.router.resolve repo)).wp (recorded i) rely guar post s') :
    (StoreM.backendFor repo >>= rest).wp (recorded i) rely guar post s := by
  refine wp_look hrely hguar trivial ?_
  intro answer s₁ s' hsteady hanswer hadds _
  obtain ⟨rfl, _⟩ := Prod.mk.inj (World.handle_of_faulty rfl hanswer).symm
  rw [hsteady.router]
  exact hrest s' (hadds.mono fun op a h => h.op)

theorem wp_askDistinct {rest : List Backend → StoreM α}
    {post : Except StorageError α → History ι → Prop} {s : History ι}
    (hrest : ∀ s', Adds i (fun op _ => op = .distinctBackends) s s' →
      (rest s.1.router.distinctBackends).wp (recorded i) rely guar post s') :
    (StoreM.distinctBackends >>= rest).wp (recorded i) rely guar post s := by
  refine wp_look hrely hguar trivial ?_
  intro answer s₁ s' hsteady hanswer hadds _
  obtain ⟨rfl, _⟩ := Prod.mk.inj (World.handle_of_faulty rfl hanswer).symm
  rw [hsteady.router]
  exact hrest s' (hadds.mono fun op a h => h.op)

-- The calls of a read through several directories: misses, and then what was found.
def ReadCalls (i : ι) (call : FsCall) (found : Except StorageError call.Value) (op : Op)
    (answer : op.Ans) : Prop :=
  ∃ root, Is i (.fs root call) (.error .notFound) op answer ∨ Is i (.fs root call) found op answer

-- The outcome of such a read, by what is on record.
def Fetched (i : ι) (call : FsCall) (roots : List RootId) (s : History ι) :
    Except StorageError call.Value → History ι → Prop :=
  Outcome (fun value s' => Adds i (ReadCalls i call (.ok value)) s s' ∧
      ∃ root ∈ roots, Did i s' (.fs root call) (.ok value))
    (fun err s' => err = .notFound → Adds i (ReadCalls i call (.error .notFound)) s s' ∧
      ∀ root ∈ roots, Did i s' (.fs root call) (.error .notFound))

theorem wp_readSecondaries {call : FsCall} (hcall : ∀ root, (Op.fs root call).Confined [] [])
    (roots : List RootId) (s : History ι) :
    (readSecondaries (fun root => StoreM.fs root call) roots).wp (recorded i) rely guar
      (Fetched i call roots s) s := by
  induction roots generalizing s with
  | nil => exact fun _ => ⟨.refl s, by simp⟩
  | cons root rest ih =>
      rw [readSecondaries, fallThrough, Fallible.wp_bind, Fallible.wp_attempt]
      refine wp_fs hrely hguar (hcall root) ?_
      intro answer s₁ hadds hdid
      rw [outcome_ok]
      rcases answer with err | value
      · cases err with
        | notFound =>
            refine Fallible.wp_post (ih s₁) ?_
            rintro (err | value) s₂ h
            · intro herr
              obtain ⟨hrest, hall⟩ := h herr
              refine ⟨(hadds.mono fun op a h => ⟨root, .inl h⟩).trans hrest, ?_⟩
              intro other hother
              rcases List.mem_cons.mp hother with rfl | hother
              · exact hrest.kept _ _ hdid
              · exact hall other hother
            · obtain ⟨hrest, found, hfound, hd⟩ := h
              exact ⟨(hadds.mono fun op a h => ⟨root, .inl h⟩).trans hrest, found,
                List.mem_cons_of_mem root hfound, hd⟩
        | _ => exact fun herr => nomatch herr
      · exact ⟨hadds.mono fun op a h => ⟨root, .inr h⟩, root, List.mem_cons_self, hdid⟩

-- Looks that more follows after.

theorem wp_readThen {prog : StoreM α} (hprog : ReadOnly prog) {rest : α → StoreM β}
    {post : Except StorageError β → History ι → Prop} {s : History ι}
    (hok : ∀ value s', Adds i (fun op _ => op.Looks) s s' →
      (rest value).wp (recorded i) rely guar post s')
    (herror : ∀ err s', post (.error err) s') :
    (prog >>= rest).wp (recorded i) rely guar post s := by
  rw [Fallible.wp_bind]
  refine Fallible.wp_post (wp_adds (hprog.mono fun op => looks_of_confined) hrely (fun _ _ => id)
    fun op s₁ hop _ answer s' => hguar op s₁ answer s' hop) ?_
  rintro (err | value) s' hadds
  · exact herror err s'
  · exact hok value s' hadds

theorem wp_attemptThen {prog : StoreM α} (hprog : ReadOnly prog)
    {rest : Except StorageError α → StoreM β}
    {post : Except StorageError β → History ι → Prop} {s : History ι}
    (hrest : ∀ result s', Adds i (fun op _ => op.Looks) s s' →
      (rest result).wp (recorded i) rely guar post s') :
    (attempt prog >>= rest).wp (recorded i) rely guar post s := by
  rw [Fallible.wp_bind, Fallible.wp_attempt]
  refine Fallible.wp_post (wp_adds (hprog.mono fun op => looks_of_confined) hrely (fun _ _ => id)
    fun op s₁ hop _ answer s' => hguar op s₁ answer s' hop) ?_
  exact fun result s' hadds => hrest result s' hadds

-- A read whose answer matters.
theorem wp_fetchThen {call : FsCall} (hcall : ∀ root, (Op.fs root call).Confined [] []) (b : Backend)
    {rest : Except StorageError call.Value → StoreM β}
    {post : Except StorageError β → History ι → Prop} {s : History ι}
    (hok : ∀ value s', Adds i (fun op _ => op.Looks) s s' →
      (∃ p ∈ b.leaves, Did i s' (.fs p call) (.ok value)) →
      (rest (.ok value)).wp (recorded i) rely guar post s')
    (hmissing : ∀ s', Adds i (fun op _ => op.Looks) s s' →
      (rest (.error .notFound)).wp (recorded i) rely guar post s')
    (herror : ∀ err s', err ≠ .notFound → (rest (.error err)).wp (recorded i) rely guar post s') :
    (attempt (readSecondaries (fun root => StoreM.fs root call) b.readOrder) >>= rest).wp (recorded i)
      rely guar post s := by
  have hlooks : ∀ found op answer, ReadCalls i call found op answer → op.Looks := by
    rintro found op answer ⟨root, h | h⟩ <;> exact h.op ▸ hcall root
  rw [Fallible.wp_bind, Fallible.wp_attempt]
  refine Fallible.wp_post (wp_readSecondaries hrely hguar hcall b.readOrder s) ?_
  rintro (err | value) s' hfetched
  · by_cases herr : err = .notFound
    · subst herr
      exact hmissing s' ((hfetched rfl).1.mono (hlooks _))
    · exact herror err s' herr
  · obtain ⟨hadds, p, hp, hdid⟩ := hfetched
    exact hok value s' (hadds.mono (hlooks _)) ⟨p, (b.mem_readOrder p).mp hp, hdid⟩

omit hguar in
-- A call that changes something.
theorem wp_callThen {root : RootId} {call : FsCall} {rest : call.Value → StoreM β}
    {post : Except StorageError β → History ι → Prop} {s : History ι}
    (hpromise : ∀ s₁, Steady i s s₁ → ∀ answer s', guar (.fs root call) s₁ answer s')
    (hok : ∀ value s', Adds i (Is i (.fs root call) (.ok value)) s s' →
      Did i s' (.fs root call) (.ok value) → (rest value).wp (recorded i) rely guar post s')
    (herror : ∀ err s', post (.error err) s') :
    (StoreM.fs root call >>= rest).wp (recorded i) rely guar post s := by
  intro s₁ hr answer s' hs
  have hsteady := hrely s s₁ hr
  have hne : ∀ pattern backend, Op.fs root call ≠ .upsert pattern backend := by
    intro pattern backend h
    cases h
  refine ⟨hpromise s₁ hsteady answer s', ?_⟩
  rcases answer with err | value
  · exact herror err s'
  · exact hok value s' ((Adds.of_steady hsteady).trans (.of_record hne hs)) (did_of_record hs)

-- The calls of a listing of several directories, all of which show up in the set.
def ListCalls [LinearOrder β] (i : ι) (event : RootId → BTreeSet β → Event ι Op Op.Ans) (set : BTreeSet β)
    (op : Op) (answer : op.Ans) : Prop :=
  ∃ root values, (⟨i, op, answer⟩ : Event ι Op Op.Ans) = event root values ∧
    ∀ value ∈ values, value ∈ set

omit hrely hguar in
theorem wp_listUnion [LinearOrder β] {g : RootId → StoreM (BTreeSet β)}
    (event : RootId → BTreeSet β → Event ι Op Op.Ans)
    (hparty : ∀ root values, (event root values).party = i)
    (hg : ∀ root s, (g root).wp (recorded i) rely guar
      (Outcome (fun values s' => Adds i (fun op a => ⟨i, op, a⟩ = event root values) s s' ∧
        event root values ∈ s'.2) fun _ _ => True) s)
    (roots : List RootId) (s : History ι) :
    (listUnion g roots).wp (recorded i) rely guar
      (Outcome (fun set s' => Adds i (ListCalls i event set) s s' ∧
        ∀ root ∈ roots, ∃ values, event root values ∈ s'.2) fun _ _ => True) s := by
  have hinto : ∀ set s, (unionInto g roots set).wp (recorded i) rely guar
      (Outcome (fun set' s' => (∀ value ∈ set, value ∈ set') ∧ Adds i (ListCalls i event set') s s' ∧
        ∀ root ∈ roots, ∃ values, event root values ∈ s'.2) fun _ _ => True) s := by
    induction roots with
    | nil => exact fun set s => ⟨fun _ => id, .refl s, by simp⟩
    | cons root rest ih =>
        intro set s
        rw [unionInto, Fallible.wp_bind]
        refine Fallible.wp_post (hg root s) ?_
        rintro (err | values) s₁ h₁
        · trivial
        · obtain ⟨hadds, hevent⟩ := h₁
          refine Fallible.wp_post (ih (set.extend values.toList) s₁) ?_
          rintro (err | set') s₂ h₂
          · trivial
          · obtain ⟨hsub, hadds', hall⟩ := h₂
            refine ⟨fun value hv => hsub value ((BTreeSet.mem_extend ..).mpr (.inr hv)), ?_, ?_⟩
            · refine (hadds.mono ?_).trans hadds'
              exact fun op a he => ⟨root, values, he,
                fun value hv => hsub value ((BTreeSet.mem_extend ..).mpr (.inl hv))⟩
            · intro other hother
              rcases List.mem_cons.mp hother with rfl | hother
              · refine ⟨values, ?_⟩
                have hp := hparty other values
                revert hevent hp
                generalize event other values = e
                rintro hevent rfl
                exact hadds'.kept e.op e.answer hevent
              · exact hall other hother
  refine Fallible.wp_post (hinto .empty s) ?_
  rintro (err | set) s' h
  · trivial
  · exact h.2

end Calls

end RspaceRegistry
