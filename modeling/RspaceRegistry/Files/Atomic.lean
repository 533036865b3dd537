import Mathlib.Data.List.Induction
import RspaceRegistry.Calls.Trace
import RspaceRegistry.Files.Disk

namespace RspaceRegistry.Files

open Calls Calls.Pool

-- Replacing a file as a whole: the new content goes to a temporary name beside it,
-- which is then renamed.
def replaceFile (tmp path : Path) (content : List UInt8) : FileM Unit := do
  FileM.call (.createDirAll path.tail)
  let file ← FileM.call (.create tmp)
  FileM.call (.write file content)
  FileM.call (.sync file)
  FileM.call (.rename tmp path)

-- What replacing a file changes when nothing else is at work.
structure Replaced (tmp path : Path) (content : List UInt8) (tree tree' : Tree) : Prop where
  content : tree'.fileAt path = some content
  gone : tmp ≠ path → tree'.fileAt tmp = none
  others : ∀ other, other ≠ path → other ≠ tmp → tree'.fileAt other = tree.fileAt other
  dirs : ∀ other, tree'.node other = some .dir → tree.node other = some .dir ∨ other <:+ path.tail
  kept : ∀ other, tree.node other = some .dir → tree'.node other = some .dir

theorem run_replaceFile {base name : String} {parent : Path} {tree : Tree}
    (content : List UInt8) (htmp : tree.node (base :: parent) ≠ some .dir)
    (hpath : tree.node (name :: parent) ≠ some .dir) (hfree : ¬tree.Blocked (name :: parent)) :
    ∃ tree', (replaceFile (base :: parent) (name :: parent) content).run Tree.handle tree =
        (.ok (), tree') ∧
      Replaced (base :: parent) (name :: parent) content tree tree' := by
  obtain ⟨hmade, hparent⟩ := Tree.createDirAll_ok fun above inode habove hfile =>
    hfree (Tree.blocked_cons.mpr ⟨above, inode, habove, hfile⟩)
  have hnodir : ∀ last, tree.node (last :: parent) ≠ some .dir →
      (tree.createDirAll parent).2.node (last :: parent) ≠ some .dir := by
    intro last hlast hdir
    rcases tree.createDirAll_node parent (last :: parent) with heq | ⟨-, -, habove⟩
    · exact hlast (heq ▸ hdir)
    · exact Nat.lt_irrefl _ habove.length_le
  have hdirs : ∀ other, (tree.createDirAll parent).2.node other = some .dir →
      tree.node other = some .dir ∨ other <:+ parent := by
    intro other hdir
    rcases tree.createDirAll_node parent other with heq | ⟨-, -, habove⟩
    · exact .inl (heq ▸ hdir)
    · exact .inr habove
  obtain ⟨inode, hcreated, hnode, hcontents, honly⟩ :=
    Tree.create_ok hparent (hnodir base htmp)
  generalize hmadeTree : (tree.createDirAll parent).2 = made at *
  generalize hnewTree : (made.create (base :: parent)).2 = new at *
  have hsrc : (new.write inode content).node (base :: parent) = some (.file inode) := by
    rw [Tree.write, Tree.store_node, hnode, if_pos rfl]
  have habove : (new.write inode content).node parent = some .dir := by
    rw [Tree.write, Tree.store_node, hnode, if_neg (List.ne_cons_self), hparent]
  have hdst : (new.write inode content).node (name :: parent) ≠ some .dir := by
    rw [Tree.write, Tree.store_node, hnode]
    split
    · nofun
    · exact hnodir name hpath
  have hmoved := Tree.move_node hsrc habove hdst
  refine ⟨((new.write inode content).rename (base :: parent) (name :: parent)).2,
    ?_, ?_, ?_, ?_, ?_, ?_⟩
  · have hstart : (FileM.call (.createDirAll parent)).run Tree.handle tree = (.ok (), made) :=
      Fallible.run_eq_mk hmade hmadeTree
    have hopen : (FileM.call (.create (base :: parent))).run Tree.handle made = (.ok inode, new) :=
      Fallible.run_eq_mk hcreated hnewTree
    have hlast : (new.write inode content).rename (base :: parent) (name :: parent) =
        (.ok (), _) := Tree.rename_ok hsrc habove hdst
    rw [replaceFile, List.tail_cons, Fallible.run_bind_of_ok hstart, Fallible.run_bind_of_ok hopen]
    show ((new.write inode content).rename (base :: parent) (name :: parent)) = _
    rw [hlast]
  · rw [Tree.rename_fileAt hsrc habove hdst, Tree.write, Tree.store_contents, Function.update_self,
      hcontents, Function.update_self, List.drop_nil, List.append_nil]
  · intro hne
    rw [Tree.rename_ok hsrc habove hdst, Tree.fileAt, hmoved, if_neg hne, if_pos rfl]
  · intro other hname hbase
    rw [(Tree.rename_frame hbase hname).fileAt, Tree.write]
    rw [(Tree.store_frame _).fileAt, ← hnewTree, (Tree.create_frame hbase).fileAt, ← hmadeTree,
      (Tree.createDirAll_frame parent other).fileAt]
    rw [hnode, if_neg hbase]
    exact fun hfile => hbase (honly other hfile)
  · intro other hdir
    rw [Tree.rename_ok hsrc habove hdst, hmoved] at hdir
    split at hdir
    · cases hdir
    · split at hdir
      · cases hdir
      · rw [Tree.write, Tree.store_node, hnode] at hdir
        split at hdir
        · cases hdir
        · exact hdirs other hdir
  · intro other hdir
    have hmade : (tree.handle (.createDirAll parent)).2.node other = some .dir :=
      Tree.handle_dir hdir
    rw [Tree.handle, hmadeTree] at hmade
    have hopened : (made.handle (.create (base :: parent))).2.node other = some .dir :=
      Tree.handle_dir hmade
    rw [Tree.handle, hnewTree] at hopened
    have hwritten : (new.write inode content).node other = some .dir := hopened
    have hrenamed : ((new.write inode content).handle
      (.rename (base :: parent) (name :: parent))).2.node other = some .dir := Tree.handle_dir hwritten
    exact hrenamed

section Record

variable {ι : Type} [DecidableEq ι]

abbrev FileEvent (ι : Type) : Type := Event ι FileOp FileOp.Ans

abbrev FileState (ι : Type) : Type := Recorded ι FileOp FileOp.Ans Tree

def advance (flight : List (ι × Path)) (e : FileEvent ι) : List (ι × Path) :=
  match e.op with
  | .create tmp => (e.party, tmp) :: flight
  | .rename tmp _ => flight.erase (e.party, tmp)
  | _ => flight

-- The temporary names that were created and are still to be renamed, with the
-- party at work on each.
def inFlight (record : List (FileEvent ι)) : List (ι × Path) := record.foldl advance []

theorem inFlight_snoc (record : List (FileEvent ι)) (e : FileEvent ι) :
    inFlight (record ++ [e]) = advance (inFlight record) e := by
  simp [inFlight]

-- No temporary name is created while another party is at work on it.
def Exclusive (record : List (FileEvent ι)) : Prop :=
  Throughout (fun before e => ∀ entry ∈ inFlight before, e.op ≠ .create entry.2) record

instance (record : List (FileEvent ι)) : Decidable (Exclusive record) :=
  inferInstanceAs (Decidable (Throughout _ record))

theorem Exclusive.before {record : List (FileEvent ι)} {e : FileEvent ι}
    (h : Exclusive (record ++ [e])) : Exclusive record := (throughout_snoc.mp h).1

theorem Exclusive.last {record : List (FileEvent ι)} {e : FileEvent ι}
    (h : Exclusive (record ++ [e])) {tmp : Path} (hop : e.op = .create tmp) (j : ι) :
    (j, tmp) ∉ inFlight record := fun hmem => (throughout_snoc.mp h).2 _ hmem hop

-- Each name has one party at work on it.
theorem Exclusive.nodup {record : List (FileEvent ι)} (h : Exclusive record) :
    ((inFlight record).map Prod.snd).Nodup := by
  induction record using List.reverseRecOn with
  | nil => exact List.nodup_nil
  | append_singleton record e ih =>
      have hrecord := ih h.before
      rw [inFlight_snoc, advance]
      split
      · rename_i tmp hop
        rw [List.map_cons, List.nodup_cons]
        refine ⟨?_, hrecord⟩
        intro hmem
        obtain ⟨⟨j, path⟩, hj, rfl⟩ := List.mem_map.mp hmem
        exact h.last hop j hj
      · exact hrecord.sublist (List.erase_sublist.map Prod.snd)
      · exact hrecord

theorem Exclusive.unique {record : List (FileEvent ι)} (h : Exclusive record) {i j : ι}
    {tmp : Path} (hi : (i, tmp) ∈ inFlight record) (hj : (j, tmp) ∈ inFlight record) : i = j :=
  congrArg Prod.fst (List.inj_on_of_nodup_map h.nodup hi hj rfl)

-- Others do not take a name out of a party's hands.
theorem inFlight_of_other {record : List (FileEvent ι)} {e : FileEvent ι} {i : ι} {tmp : Path}
    (hij : i ≠ e.party) (h : (i, tmp) ∈ inFlight record) : (i, tmp) ∈ inFlight (record ++ [e]) := by
  rw [inFlight_snoc, advance]
  split
  · exact List.mem_cons_of_mem _ h
  · refine (List.mem_erase_of_ne ?_).mpr h
    intro heq
    exact hij (congrArg Prod.fst heq)
  · exact h

end Record

-- Where temporary files and the files they become may stand: apart from each
-- other, and none above another.
structure Layout (Temp Target : Path → Prop) : Prop where
  apart : ∀ path, Temp path → ¬Target path
  above : ∀ path above, Temp path ∨ Target path → above <:+ path → above ≠ path →
    ¬Temp above ∧ ¬Target above

-- Places at one depth are not above one another.
theorem Layout.of_length {Temp Target : Path → Prop} (depth : Nat)
    (hlength : ∀ path, Temp path ∨ Target path → path.length = depth)
    (hapart : ∀ path, Temp path → ¬Target path) : Layout Temp Target where
  apart := hapart
  above path above hpath habove hne := by
    have hlt : above.length < path.length :=
      lt_of_le_of_ne habove.length_le fun heq => hne (habove.eq_of_length heq)
    have hpath := hlength path hpath
    constructor
    · intro h
      have := hlength above (.inl h)
      omega
    · intro h
      have := hlength above (.inr h)
      omega

-- All these places are free for files.
def Sane (Temp Target : Path → Prop) (tree : Tree) : Prop :=
  ∀ path, Temp path ∨ Target path → tree.node path ≠ some .dir ∧ ¬tree.Blocked path

-- What a party that only replaces files may do. `Allowed` is what it may give a
-- file for content.
inductive Lawful {ι : Type} [DecidableEq ι] (Temp Target : Path → Prop)
    (Allowed : ι → Path → List UInt8 → Tree → Prop) (i : ι) (s : FileState ι) : FileOp → Prop
  | createDirAll (path : Path) (h : ∀ above, above <:+ path → ¬Temp above ∧ ¬Target above) :
      Lawful Temp Target Allowed i s (.createDirAll path)
  | create (name : String) (parent : Path) (htmp : Temp (name :: parent))
      (hparent : s.1.node parent = some .dir) :
      Lawful Temp Target Allowed i s (.create (name :: parent))
  | write (tmp : Path) (inode : Nat) (bytes : List UInt8) (htmp : Temp tmp)
      (hheld : (i, tmp) ∈ inFlight s.2) (hfile : s.1.node tmp = some (.file inode)) :
      Lawful Temp Target Allowed i s (.write inode bytes)
  | sync (inode : Nat) : Lawful Temp Target Allowed i s (.sync inode)
  | rename (tmp : Path) (inode : Nat) (name : String) (parent : Path) (htmp : Temp tmp)
      (hheld : (i, tmp) ∈ inFlight s.2) (hfile : s.1.node tmp = some (.file inode))
      (hparent : s.1.node parent = some .dir) (htarget : Target (name :: parent))
      (hallowed : Allowed i (name :: parent) (s.1.contents inode) s.1) :
      Lawful Temp Target Allowed i s (.rename tmp (name :: parent))

section Lawful

variable {ι : Type} [DecidableEq ι] {Temp Target : Path → Prop}
variable {Allowed : ι → Path → List UInt8 → Tree → Prop}
variable {i j : ι} {op : FileOp} {s s' : FileState ι} {answer : op.Ans}

omit [DecidableEq ι] in
theorem handle_of_record (h : Tree.handle.sem.record i op s answer s') :
    (s.1.handle op).1 = answer ∧ (s.1.handle op).2 = s'.1 :=
  Prod.mk.inj (h.1 : s.1.handle op = (answer, s'.1))

theorem Lawful.sane (hlayout : Layout Temp Target) (hlaw : Lawful Temp Target Allowed i s op)
    (h : Tree.handle.sem.record i op s answer s') (hsane : Sane Temp Target s.1) :
    Sane Temp Target s'.1 := by
  rw [← (handle_of_record h).2]
  intro path hpath
  obtain ⟨hdir, hfree⟩ := hsane path hpath
  constructor
  · intro hnew
    rcases Tree.dir_of_handle hnew with hold | ⟨made, rfl, habove⟩
    · exact hdir hold
    · cases hlaw with
      | createDirAll _ hmade => exact hpath.elim (hmade path habove).1 (hmade path habove).2
  · rintro ⟨above, inode, habove, hne, hfile⟩
    have hapart := hlayout.above path above hpath habove hne
    by_cases htouches : s.1.Touches op above
    · cases hlaw with
      | createDirAll _ _ => exact htouches
      | sync _ => exact htouches
      | create _ _ htmp _ => exact hapart.1 (htouches ▸ htmp)
      | write _ _ _ _ _ _ => exact hfree ⟨above, inode, habove, hne, hfile⟩
      | rename _ _ _ _ htmp _ _ _ htarget _ =>
          rcases htouches with rfl | rfl
          · exact hapart.1 htmp
          · exact hapart.2 htarget
    · exact hfree ⟨above, inode, habove, hne, (Tree.handle_frame htouches inode).1.mp hfile⟩

-- A temporary file is left alone by all but the party at work on it.
theorem Lawful.spares (hlayout : Layout Temp Target) (hlaw : Lawful Temp Target Allowed j s op)
    (h : Tree.handle.sem.record j op s answer s') (hexclusive : Exclusive s'.2) (hij : i ≠ j)
    {tmp : Path} (htmp : Temp tmp) (hheld : (i, tmp) ∈ inFlight s.2) : ¬s.1.Touches op tmp := by
  rw [h.2] at hexclusive
  intro htouches
  cases hlaw with
  | createDirAll _ _ => exact htouches
  | sync _ => exact htouches
  | create name parent _ _ => exact hexclusive.last rfl i (htouches ▸ hheld)
  | write other inode _ _ hother hfile =>
      have hsame := s.1.single _ _ _ htouches hfile
      exact hij (hexclusive.before.unique hheld (hsame ▸ hother))
  | rename other _ _ _ _ hother _ _ htarget _ =>
      rcases htouches with rfl | rfl
      · exact hij (hexclusive.before.unique hheld hother)
      · exact hlayout.apart _ htmp htarget

-- What readers see of a file: the content it had, or all of one it was allowed.
theorem Lawful.fileAt (hlayout : Layout Temp Target) (hlaw : Lawful Temp Target Allowed j s op)
    (h : Tree.handle.sem.record j op s answer s') (hsane : Sane Temp Target s.1) {path : Path}
    (hpath : Target path) : s'.1.fileAt path = s.1.fileAt path ∨
      ∃ content, Allowed j path content s.1 ∧ s'.1.fileAt path = some content := by
  rw [← (handle_of_record h).2]
  by_cases htouches : s.1.Touches op path
  · cases hlaw with
    | createDirAll _ _ => exact htouches.elim
    | sync _ => exact htouches.elim
    | create _ _ htmp _ => exact absurd hpath (hlayout.apart path (htouches ▸ htmp))
    | write tmp inode _ htmp _ hfile =>
        have hsame := s.1.single _ _ _ htouches hfile
        exact absurd hpath (hlayout.apart path (hsame ▸ htmp))
    | rename tmp inode name parent htmp _ hfile hparent htarget hallowed =>
        rcases htouches with rfl | rfl
        · exact absurd hpath (hlayout.apart _ htmp)
        · exact .inr ⟨_, hallowed, Tree.rename_fileAt hfile hparent (hsane _ (.inr htarget)).1⟩
  · exact .inl (Tree.handle_frame htouches).fileAt

theorem Lawful.untouched (hlaw : Lawful Temp Target Allowed j s op)
    (h : Tree.handle.sem.record j op s answer s') {path : Path} (htmp : ¬Temp path)
    (htarget : ¬Target path) : s'.1.fileAt path = s.1.fileAt path := by
  have htouches : ¬s.1.Touches op path := by
    intro htouches
    cases hlaw with
    | createDirAll _ _ => exact htouches
    | sync _ => exact htouches
    | create _ _ hnew _ => exact htmp (htouches ▸ hnew)
    | write _ _ _ hother _ hfile => exact htmp (s.1.single _ _ _ htouches hfile ▸ hother)
    | rename _ _ _ _ hother _ _ _ hdst _ =>
        rcases htouches with rfl | rfl
        · exact htmp hother
        · exact htarget hdst
  rw [← (handle_of_record h).2]
  exact (Tree.handle_frame htouches).fileAt

end Lawful

section Replace

variable {ι : Type} [DecidableEq ι] (Temp Target : Path → Prop)
variable (Allowed : ι → Path → List UInt8 → Tree → Prop)

-- The promise of each party, as long as no temporary name is shared.
def promise (i : ι) : Sem FileOp FileOp.Ans (FileState ι) :=
  fun op s _ s' => Exclusive s'.2 → Lawful Temp Target Allowed i s op

-- A fact about the files that no promised call breaks.
def Kept (fact : Tree → Prop) : Prop :=
  ∀ (i : ι) (op : FileOp) (s : FileState ι) (answer : op.Ans) (s' : FileState ι),
    Tree.handle.sem.record i op s answer s' → Lawful Temp Target Allowed i s op →
    Exclusive s'.2 → Sane Temp Target s.1 → fact s.1 → fact s'.1

variable {Temp Target Allowed} {i j : ι} {op : FileOp} {s s' : FileState ι} {answer : op.Ans}

theorem Kept.and {fact fact' : Tree → Prop} (h : Kept Temp Target Allowed fact)
    (h' : Kept Temp Target Allowed fact') : Kept Temp Target Allowed fun t => fact t ∧ fact' t :=
  fun i op s answer s' hs hlaw hexclusive hsane hfacts =>
    ⟨h i op s answer s' hs hlaw hexclusive hsane hfacts.1,
      h' i op s answer s' hs hlaw hexclusive hsane hfacts.2⟩

theorem kept_dir (path : Path) :
    Kept Temp Target Allowed fun tree => tree.node path = some .dir := by
  intro i op s answer s' hs _ _ _ hdir
  rw [← (handle_of_record hs).2]
  exact Tree.handle_dir hdir

-- One promised call: what it asked for holds, and a kept fact stays true.
theorem Kept.call {fact : Tree → Prop} (hfact : Kept Temp Target Allowed fact)
    (hlayout : Layout Temp Target) (hs : Tree.handle.sem.record i op s answer s')
    (hlaw : Exclusive s'.2 → Lawful Temp Target Allowed i s op)
    (h : Exclusive s.2 → Sane Temp Target s.1 ∧ fact s.1) (hexclusive : Exclusive s'.2) :
    Sane Temp Target s'.1 ∧ fact s'.1 := by
  have hbefore : Exclusive s.2 := by
    rw [hs.2] at hexclusive
    exact hexclusive.before
  have hlaw := hlaw hexclusive
  exact ⟨hlaw.sane hlayout hs (h hbefore).1,
    hfact i op s answer s' hs hlaw hexclusive (h hbefore).1 (h hbefore).2⟩

theorem Kept.others {fact : Tree → Prop} (hfact : Kept Temp Target Allowed fact)
    (hlayout : Layout Temp Target)
    (hr : Others Tree.handle.sem (promise Temp Target Allowed) i s s')
    (h : Exclusive s.2 → Sane Temp Target s.1 ∧ fact s.1) :
    Exclusive s'.2 → Sane Temp Target s'.1 ∧ fact s'.1 :=
  hr.invariant (fun s => Exclusive s.2 → Sane Temp Target s.1 ∧ fact s.1) h
    fun _ _ _ _ _ _ hs hlaw h hexclusive => hfact.call hlayout hs hlaw h hexclusive

variable (Temp Target) in
-- Between creating the temporary file and renaming it.
structure Working (fact : Tree → Prop) (i : ι) (tmp : Path) (inode : Nat) (bytes : List UInt8)
    (s : FileState ι) : Prop where
  flight : (i, tmp) ∈ inFlight s.2
  file : s.1.node tmp = some (.file inode)
  content : s.1.contents inode = bytes
  facts : Sane Temp Target s.1 ∧ fact s.1

theorem Working.others {fact : Tree → Prop} (hfact : Kept Temp Target Allowed fact)
    (hlayout : Layout Temp Target) {tmp : Path} (htmp : Temp tmp) {inode : Nat}
    {bytes : List UInt8} (hr : Others Tree.handle.sem (promise Temp Target Allowed) i s s')
    (h : Exclusive s.2 → Working Temp Target fact i tmp inode bytes s) :
    Exclusive s'.2 → Working Temp Target fact i tmp inode bytes s' := by
  refine hr.invariant (fun s => Exclusive s.2 → Working Temp Target fact i tmp inode bytes s) h ?_
  intro j op s answer s' hij hs hlaw h hexclusive
  have hfacts := hfact.call hlayout hs hlaw (fun hbefore => (h hbefore).facts) hexclusive
  have hbefore : Exclusive s.2 := by
    rw [hs.2] at hexclusive
    exact hexclusive.before
  obtain ⟨hflight, hfile, hcontent, hold⟩ := h hbefore
  have hspared := (hlaw hexclusive).spares hlayout hs hexclusive hij htmp hflight
  have hframe := Tree.handle_frame hspared inode
  rw [(handle_of_record hs).2] at hframe
  refine ⟨?_, hframe.1.mpr hfile, (hframe.2 hfile).trans hcontent, hfacts⟩
  rw [hs.2]
  exact inFlight_of_other hij hflight

-- What all contents that a file is allowed have in common.
theorem kept_content (hlayout : Layout Temp Target) {path : Path} (hpath : Target path)
    (seen : Option (List UInt8) → Prop)
    (hseen : ∀ i content tree, Allowed i path content tree → seen (some content)) :
    Kept Temp Target Allowed fun tree => seen (tree.fileAt path) := by
  intro i op s answer s' hs hlaw _ hsane h
  rcases hlaw.fileAt hlayout hs hsane hpath with heq | ⟨content, hallowed, heq⟩
  · rw [heq]
    exact h
  · rw [heq]
    exact hseen i content s.1 hallowed

-- And where no party writes, nothing changes.
theorem kept_elsewhere {path : Path} (htmp : ¬Temp path) (htarget : ¬Target path)
    (seen : Option (List UInt8) → Prop) :
    Kept Temp Target Allowed fun tree => seen (tree.fileAt path) := by
  intro i op s answer s' hs hlaw _ _ h
  rw [hlaw.untouched hs htmp htarget]
  exact h

theorem before_of_record (hs : Tree.handle.sem.record i op s answer s')
    (hexclusive : Exclusive s'.2) : Exclusive s.2 := by
  rw [hs.2] at hexclusive
  exact hexclusive.before

section Pool

variable {ρ : ι → Type} {pool pool' : Pool ι FileOp FileOp.Ans ρ Tree} {good : (i : ι) → ρ i → Prop}

variable (Temp Target Allowed) in
-- Parties that keep their promises and, as long as no temporary name is shared,
-- come to a good end.
abbrev Replacing (good : (i : ι) → ρ i → Prop) (pool : Pool ι FileOp FileOp.Ans ρ Tree) : Prop :=
  pool.Meets Tree.handle.sem (Others Tree.handle.sem (promise Temp Target Allowed))
    (promise Temp Target Allowed) fun i result s => Exclusive s.2 → good i result

theorem compatible_promise (good : (i : ι) → ρ i → Prop) :
    Compatible Tree.handle.sem (Others Tree.handle.sem (promise Temp Target Allowed))
      (promise Temp Target Allowed) fun i result s => Exclusive s.2 → good i result :=
  compatible_others fun _ _ _ _ _ _ _ _ hs _ hgood hexclusive =>
    hgood (before_of_record hs hexclusive)

theorem Replacing.finished (h : Replacing Temp Target Allowed good pool)
    (hrun : Runs Tree.handle.sem pool pool') (hexclusive : Exclusive pool'.now.2) {i : ι}
    {result : ρ i} (hresult : pool'.parties i = .pure result) : good i result := by
  have hend := h.runs (compatible_promise good) hrun i
  rw [hresult] at hend
  exact hend hexclusive

-- Kept facts hold at every point of a run.
theorem Replacing.kept {fact : Tree → Prop} (h : Replacing Temp Target Allowed good pool)
    (hfact : Kept Temp Target Allowed fact) (hlayout : Layout Temp Target)
    (hrun : Runs Tree.handle.sem pool pool') (hexclusive : Exclusive pool'.now.2)
    (hsane : Sane Temp Target pool.now.1) (hbefore : fact pool.now.1) : fact pool'.now.1 := by
  have hinv := h.invariant (compatible_promise good) hrun
    (fun s => Exclusive s.2 → Sane Temp Target s.1 ∧ fact s.1) (fun _ => ⟨hsane, hbefore⟩)
    fun i op s answer s' hs hlaw h hexclusive => hfact.call hlayout hs hlaw h hexclusive
  exact (hinv hexclusive).2

end Pool

section Stages

variable {fact : Tree → Prop} (hfact : Kept Temp Target Allowed fact)
variable (hlayout : Layout Temp Target)
variable {base name : String} {parent : Path} (htmp : Temp (base :: parent))
variable (hpath : Target (name :: parent)) {content : List UInt8}

-- What a party knows from its first call on.
abbrev Opened (fact : Tree → Prop) (parent : Path) (tree : Tree) : Prop :=
  fact tree ∧ tree.node parent = some .dir

include hlayout hpath in
theorem lawful_createDirAll (i : ι) (s : FileState ι) :
    Lawful Temp Target Allowed i s (.createDirAll parent) := by
  refine .createDirAll parent fun above habove => ?_
  refine hlayout.above _ above (.inr hpath) (habove.trans (List.suffix_cons name parent)) ?_
  rintro rfl
  exact Nat.lt_irrefl _ habove.length_le

include hfact hlayout hpath in
theorem createDirAll_stage {answer : FileOp.Ans (.createDirAll parent)}
    (hs : Tree.handle.sem.record i (.createDirAll parent) s answer s')
    (h : Exclusive s.2 → Sane Temp Target s.1 ∧ fact s.1) (hexclusive : Exclusive s'.2) :
    answer = .ok () ∧ Sane Temp Target s'.1 ∧ Opened fact parent s'.1 := by
  have hsane := (h (before_of_record hs hexclusive)).1
  have hclear : ∀ above inode, above <:+ parent → s.1.node above ≠ some (.file inode) := by
    intro above inode habove hfile
    refine (hsane _ (.inr hpath)).2 ⟨above, inode, habove.trans (List.suffix_cons ..), ?_, hfile⟩
    rintro rfl
    exact Nat.lt_irrefl _ habove.length_le
  obtain ⟨hok, hdir⟩ := Tree.createDirAll_ok hclear
  obtain ⟨hanswer, hafter⟩ := handle_of_record hs
  have hfacts := hfact.call hlayout hs (fun _ => lawful_createDirAll hlayout hpath i s) h hexclusive
  refine ⟨hanswer.symm.trans hok, hfacts.1, hfacts.2, ?_⟩
  rw [← hafter]
  exact hdir

include hfact hlayout htmp in
theorem create_stage {answer : FileOp.Ans (.create (base :: parent))}
    (hs : Tree.handle.sem.record i (.create (base :: parent)) s answer s')
    (h : Exclusive s.2 → Sane Temp Target s.1 ∧ Opened fact parent s.1)
    (hexclusive : Exclusive s'.2) : ∃ inode, answer = .ok inode ∧
      Working Temp Target (Opened fact parent) i (base :: parent) inode [] s' := by
  obtain ⟨hsane, hopened⟩ := h (before_of_record hs hexclusive)
  have hfacts := (hfact.and (kept_dir parent)).call hlayout hs
    (fun _ => .create base parent htmp hopened.2) h hexclusive
  obtain ⟨inode, hok, hnode, hcontents, -⟩ :=
    Tree.create_ok hopened.2 (hsane _ (.inl htmp)).1
  obtain ⟨hanswer, hafter⟩ := handle_of_record hs
  refine ⟨inode, hanswer.symm.trans hok, ?_, ?_, ?_, hfacts⟩
  · rw [hs.2, inFlight_snoc]
    exact List.mem_cons_self
  · rw [← hafter]
    exact (hnode _).trans (if_pos rfl)
  · rw [← hafter]
    exact (congrFun hcontents inode).trans (Function.update_self ..)

include hfact hlayout htmp in
theorem write_stage {inode : Nat} {answer : FileOp.Ans (.write inode content)}
    (hs : Tree.handle.sem.record i (.write inode content) s answer s')
    (h : Exclusive s.2 → Working Temp Target (Opened fact parent) i (base :: parent) inode [] s)
    (hexclusive : Exclusive s'.2) : answer = .ok () ∧
      Working Temp Target (Opened fact parent) i (base :: parent) inode content s' := by
  have hbefore := before_of_record hs hexclusive
  obtain ⟨hflight, hfile, hcontent, -⟩ := h hbefore
  have hfacts := (hfact.and (kept_dir parent)).call hlayout hs
    (fun _ => .write _ inode content htmp hflight hfile) (fun hb => (h hb).facts) hexclusive
  obtain ⟨hanswer, hafter⟩ := handle_of_record hs
  refine ⟨hanswer.symm, ?_, ?_, ?_, hfacts⟩
  · rw [hs.2, inFlight_snoc]
    exact hflight
  · rw [← hafter]
    exact hfile
  · rw [← hafter]
    simp [Tree.handle, Tree.write, hcontent]

include hfact hlayout in
theorem sync_stage {inode : Nat} {answer : FileOp.Ans (.sync inode)}
    (hs : Tree.handle.sem.record i (.sync inode) s answer s')
    (h : Exclusive s.2 →
      Working Temp Target (Opened fact parent) i (base :: parent) inode content s)
    (hexclusive : Exclusive s'.2) : answer = .ok () ∧
      Working Temp Target (Opened fact parent) i (base :: parent) inode content s' := by
  obtain ⟨hflight, hfile, hcontent, -⟩ := h (before_of_record hs hexclusive)
  have hfacts := (hfact.and (kept_dir parent)).call hlayout hs (fun _ => .sync inode)
    (fun hb => (h hb).facts) hexclusive
  obtain ⟨hanswer, hafter⟩ := handle_of_record hs
  refine ⟨hanswer.symm, ?_, ?_, ?_, hfacts⟩
  · rw [hs.2, inFlight_snoc]
    exact hflight
  · rw [← hafter]
    exact hfile
  · rw [← hafter]
    exact hcontent

variable (hallowed : ∀ tree, fact tree → Allowed i (name :: parent) content tree)

include hfact hlayout htmp hpath hallowed in
theorem rename_stage {inode : Nat} {answer : FileOp.Ans (.rename (base :: parent) (name :: parent))}
    (hs : Tree.handle.sem.record i (.rename (base :: parent) (name :: parent)) s answer s')
    (h : Exclusive s.2 →
      Working Temp Target (Opened fact parent) i (base :: parent) inode content s)
    (hexclusive : Exclusive s'.2) : answer = .ok () ∧ (Sane Temp Target s'.1 ∧ fact s'.1) ∧
      s'.1.fileAt (name :: parent) = some content := by
  obtain ⟨hflight, hfile, hcontent, hsane, hopened⟩ := h (before_of_record hs hexclusive)
  have hdir := (hsane _ (.inr hpath)).1
  have hfacts := hfact.call hlayout hs
    (fun _ => .rename _ inode name parent htmp hflight hfile hopened.2 hpath
      (hcontent ▸ hallowed _ hopened.1)) (fun _ => ⟨hsane, hopened.1⟩) hexclusive
  obtain ⟨hanswer, hafter⟩ := handle_of_record hs
  have hrename := Tree.rename_ok hfile hopened.2 hdir
  refine ⟨hanswer.symm.trans (congrArg Prod.fst hrename), hfacts, ?_⟩
  rw [← hafter, ← hcontent]
  exact Tree.rename_fileAt hfile hopened.2 hdir

include hfact hlayout htmp hpath hallowed in
-- A file is replaced as a whole: the party keeps its promise, succeeds and leaves
-- its content there.
theorem wp_replaceFile (h : Exclusive s.2 → Sane Temp Target s.1 ∧ fact s.1) :
    (replaceFile (base :: parent) (name :: parent) content).wp (Tree.handle.sem.record i)
      (Others Tree.handle.sem (promise Temp Target Allowed) i) (promise Temp Target Allowed i)
      (fun result s' => Exclusive s'.2 → result = .ok () ∧ (Sane Temp Target s'.1 ∧ fact s'.1) ∧
        s'.1.fileAt (name :: parent) = some content) s := by
  have hopened := hfact.and (kept_dir parent)
  rw [replaceFile, Fallible.wp_bind]
  intro s₁ hr answer s₂ hs
  have h := hfact.others hlayout hr h
  have hmade := createDirAll_stage hfact hlayout hpath hs h
  refine ⟨fun _ => lawful_createDirAll hlayout hpath i s₁, ?_⟩
  cases answer with
  | error err => exact fun hexclusive => nomatch (hmade hexclusive).1
  | ok made =>
      rw [Prog.wp_pure, Fallible.outcome_ok, Fallible.wp_bind]
      intro s₃ hr answer s₄ hs
      have h := hopened.others hlayout hr fun hexclusive => (hmade hexclusive).2
      have hcreated := create_stage hfact hlayout htmp hs h
      refine ⟨fun hexclusive =>
        .create base parent htmp (h (before_of_record hs hexclusive)).2.2, ?_⟩
      cases answer with
      | error err =>
          intro hexclusive
          obtain ⟨_, hanswer, -⟩ := hcreated hexclusive
          cases hanswer
      | ok inode =>
          rw [Prog.wp_pure, Fallible.outcome_ok, Fallible.wp_bind]
          intro s₅ hr answer s₆ hs
          have h := Working.others hopened hlayout htmp hr fun hexclusive => by
            obtain ⟨inode', hanswer, hworking⟩ := hcreated hexclusive
            exact Except.ok.inj hanswer ▸ hworking
          have hwritten := write_stage hfact hlayout htmp hs h
          refine ⟨fun hexclusive => ?_, ?_⟩
          · obtain ⟨hflight, hfile, -, -⟩ := h (before_of_record hs hexclusive)
            exact .write _ inode content htmp hflight hfile
          cases answer with
          | error err => exact fun hexclusive => nomatch (hwritten hexclusive).1
          | ok written =>
              rw [Prog.wp_pure, Fallible.outcome_ok, Fallible.wp_bind]
              intro s₇ hr answer s₈ hs
              have h := Working.others hopened hlayout htmp hr fun hexclusive =>
                (hwritten hexclusive).2
              have hsynced := sync_stage hfact hlayout hs h
              refine ⟨fun _ => .sync inode, ?_⟩
              cases answer with
              | error err => exact fun hexclusive => nomatch (hsynced hexclusive).1
              | ok synced =>
                  rw [Prog.wp_pure, Fallible.outcome_ok]
                  intro s₉ hr answer s₁₀ hs
                  have h := Working.others hopened hlayout htmp hr fun hexclusive =>
                    (hsynced hexclusive).2
                  refine ⟨fun hexclusive => ?_, rename_stage hfact hlayout htmp hpath hallowed hs h⟩
                  obtain ⟨hflight, hfile, hcontent, -, hknown⟩ := h (before_of_record hs hexclusive)
                  exact .rename _ inode name parent htmp hflight hfile hknown.2 hpath
                    (hcontent ▸ hallowed _ hknown.1)

end Stages

end Replace

end RspaceRegistry.Files
