import RspaceRegistry.Http.Query
import RspaceRegistry.RepoRouter.Theorems
import RspaceRegistry.Slices

namespace RspaceRegistry.Http.Checked

open Cuts Disk Slices

-- The functions on the way of a request with the steps that may panic as steps of
-- their own: what is unwrapped, sliced or indexed. `none` is a panic.

-- The loop of `url_decode`, at position `i` with what it has put out so far.
def decodeFrom (bytes : Bytes) (i : Nat) (out : Bytes) : Option Bytes :=
  if i < bytes.length then do
    let b ← bytes[i]?
    if b = 43 then decodeFrom bytes (i + 1) (out ++ [32])
    else if b = 37 ∧ i + 2 < bytes.length then do
      let x ← bytes[i + 1]?
      let y ← bytes[i + 2]?
      match hexNibble x, hexNibble y with
      | some hi, some lo => decodeFrom bytes (i + 3) (out ++ [hi <<< 4 ||| lo])
      | _, _ => do
          let b ← bytes[i]?
          decodeFrom bytes (i + 1) (out ++ [b])
    else decodeFrom bytes (i + 1) (out ++ [b])
  else some out
termination_by bytes.length - i

def urlDecode (s : String) : Option String := (decodeFrom (utf8 s) 0 []).map fromUtf8Lossy

def urlFormPairs (q : String) : Option Query :=
  ((q.toList.splitOn '&').filter (· ≠ [])).mapM fun pair => do
    let (key, value) := (cutOnce '=' pair).getD (pair, [])
    let key ← urlDecode (String.ofList key)
    let value ← urlDecode (String.ofList value)
    some (key, value)

def stripTwoSuffix (s marker : Text) : Option (Option (Text × Text)) :=
  match rfind marker s with
  | none => some none
  | some idx => do
      let front ← sliceTo s idx
      let back ← sliceFrom s (idx + String.utf8Len marker)
      some (if front = [] ∨ back = [] ∨ '/' ∈ back then none else some (front, back))

-- The patterns one after the other, each if those before it do not take the path.
def endpoint (rest : Text) : Option (Option Endpoint) :=
  match stripSuffix rest "/tags/list".toList with
  | some repo => some (some (.tags repo))
  | none =>
      match stripSuffix ((rest.dropSuffix? "/".toList).getD rest) "/blobs/uploads".toList with
      | some repo => some (some (.uploads repo))
      | none => do
          match ← stripTwoSuffix rest "/blobs/uploads/".toList with
          | some parts => some (some (.upload parts.1 parts.2))
          | none =>
              match ← stripTwoSuffix rest "/manifests/".toList with
              | some parts => some (some (.manifest parts.1 parts.2))
              | none =>
                  match ← stripTwoSuffix rest "/blobs/".toList with
                  | some parts => some (some (.blob parts.1 parts.2))
                  | none => do
                      let parts ← stripTwoSuffix rest "/referrers/".toList
                      some (parts.map fun parts => .referrers parts.1 parts.2)

def dispatch (state : AppState) (method : Method) (path : Text) : Option Outcome :=
  if path = "/token".toList then
    some (if method = .get then if state.k8sAuth then .call .tokenEndpoint else .notFound
      else .methodNotAllowed)
  else if path = "/v2".toList ∨ path = "/v2/".toList then
    some (if method.isRead then .call .versionCheck else .methodNotAllowed)
  else
    match path.dropPrefix? "/v2/".toList with
    | none => some ((adminHandler state method path).elim .notFound .call)
    | some rest =>
        if rest = "_catalog".toList then
          some (if method.isRead then .call .catalog else .methodNotAllowed)
        else do
          match ← endpoint rest with
          | some e => some ((e.handler method).elim .methodNotAllowed .call)
          | none => some .notFound

-- The scope that is asked of the token endpoint: its first and its last colon.
def parseScope (scope : Text) : Option (Option (Text × Text × Text)) :=
  match find ":".toList scope, rfind ":".toList scope with
  | some first, some last =>
      if first = last then some none
      else do
        let resourcetype ← sliceTo scope first
        let name ← slice scope (first + 1) last
        let actions ← sliceFrom scope (last + 1)
        some (if resourcetype = [] ∨ name = [] ∨ actions = [] then none
          else some (resourcetype, name, actions))
  | _, _ => some none

-- `chars.next().unwrap()`, of a component that is not empty.
def validateComponent (component : String) : Option (Except OciError Unit) :=
  if component.toList = [] then some (.error (.new .nameInvalid "empty path component"))
  else do
    let first ← component.toList.head?
    some (if !isLowerOrDigit first then
        .error (.new .nameInvalid "component must start with [a-z0-9]")
      else if component.toList.tail.all isNameChar then .ok ()
      else .error (.new .nameInvalid "component contains invalid character"))

def validateComponents : List String → Option (Except OciError Unit)
  | [] => some (.ok ())
  | component :: rest => do
      match ← validateComponent component with
      | .error err => some (.error err)
      | .ok () => validateComponents rest

def validateRepoName (name : String) : Option (Except OciError Unit) :=
  if name.isEmpty || name.utf8ByteSize > 255 then
    some (.error (.new .nameInvalid "name out of range"))
  else validateComponents (components name)

-- `FsStorage::blob_path`
def blobPath (d : Digest) : Option Files.Path := do
  let front ← slice d.hex.toList 0 2
  some [d.hex, String.ofList front, d.algorithm.name, "blobs"]

-- `RepoRouter::resolve`: no rule is last in an empty list.
def resolve (r : RepoRouter) (repo : String) : Option Backend := do
  match (RepoRouter.scan repo r.rules 0 none).map Prod.snd with
  | some i => do
      let rule ← r.rules[i]?
      some rule.backend
  | none =>
      if r.rules.length = 0 then none
      else do
        let rule ← r.rules[r.rules.length - 1]?
        some rule.backend

section Query

theorem decodeFrom_eq (bytes : Bytes) (i : Nat) (out : Bytes) :
    decodeFrom bytes i out = some (out ++ decodeBytes (bytes.drop i)) := by
  fun_induction decodeFrom bytes i out with
  | case1 i out hlt ihPlus ihEscape ihPercent ihOther =>
      obtain ⟨b, hb⟩ : ∃ b, bytes[i]? = some b := ⟨bytes[i], List.getElem?_eq_getElem hlt⟩
      have hdrop : bytes.drop i = b :: bytes.drop (i + 1) := by
        rw [List.drop_eq_getElem_cons hlt]
        rw [List.getElem?_eq_getElem hlt] at hb
        rw [Option.some.inj hb]
      simp only [hb, Option.bind_eq_bind, Option.bind_some]
      rw [hdrop]
      by_cases hplus : b = 43
      · rw [if_pos hplus, ihPlus, decodeBytes_cons b _ (.inl (by rw [hplus]; decide)), if_pos hplus]
        simp
      · rw [if_neg hplus]
        by_cases hescape : b = 37 ∧ i + 2 < bytes.length
        · obtain ⟨rfl, hlen⟩ := hescape
          have hrest : bytes.drop (i + 1) = bytes[i + 1] :: bytes[i + 2] :: bytes.drop (i + 3) := by
            rw [List.drop_eq_getElem_cons (by omega), List.drop_eq_getElem_cons (by omega)]
          rw [if_pos ⟨rfl, hlen⟩, List.getElem?_eq_getElem (by omega), Option.bind_some,
            List.getElem?_eq_getElem hlen, Option.bind_some]
          have hpercent := decodeBytes_percent bytes[i + 1] bytes[i + 2] (bytes.drop (i + 3))
          rw [← hrest] at hpercent
          rw [hpercent]
          cases hexNibble bytes[i + 1] with
          | none => 
              simp only [ihPercent 37 ⟨rfl, hlen⟩]
              simp
          | some hi =>
              cases hexNibble bytes[i + 2] with
              | none => 
                  simp only [ihPercent 37 ⟨rfl, hlen⟩]
                  simp
              | some lo => 
                  simp only [ihEscape 37 ⟨rfl, hlen⟩]
                  simp
        · have hshort : b ≠ 37 ∨ (bytes.drop (i + 1)).length < 2 := by
            rw [List.length_drop]
            by_cases hb37 : b = 37
            · have hlen : ¬i + 2 < bytes.length := fun hlen => hescape ⟨hb37, hlen⟩
              right
              omega
            · exact .inl hb37
          rw [if_neg hescape, ihOther, decodeBytes_cons b _ hshort, if_neg hplus]
          simp
  | case2 i out hend =>
      rw [List.drop_eq_nil_of_le (by omega), decodeBytes, List.append_nil]

theorem urlDecode_eq (s : String) : urlDecode s = some (Http.urlDecode s) := by
  rw [urlDecode, decodeFrom_eq]
  rfl

theorem mapM_some {α β : Type} (f : α → β) (xs : List α) :
    xs.mapM (fun x => some (f x)) = some (xs.map f) := by
  induction xs with
  | nil => rfl
  | cons x rest ih =>
      rw [List.mapM_cons, ih]
      rfl

theorem urlFormPairs_eq (q : String) : urlFormPairs q = some (Http.urlFormPairs q) := by
  simp only [urlFormPairs, urlDecode_eq, Option.bind_eq_bind, Option.bind_some]
  exact mapM_some _ _

end Query

section Splitting

variable {text marker : Text}

theorem stripTwoSuffix_eq : stripTwoSuffix text marker = some (Http.stripTwoSuffix text marker) := by
  rw [stripTwoSuffix, rfind, Http.stripTwoSuffix]
  cases hcut : cutLast marker text with
  | none => rfl
  | some parts =>
      obtain ⟨front, back⟩ := parts
      have htext := cutLast_eq_some hcut
      have hfront : sliceTo text (String.utf8Len front) = some front := by
        rw [htext, List.append_assoc, sliceTo_append]
      have hback : sliceFrom text (String.utf8Len front + String.utf8Len marker) = some back := by
        rw [htext, ← utf8Len_append, sliceFrom_append]
      simp only [Option.map_some, hfront, hback, Option.bind_eq_bind, Option.bind_some]

theorem endpoint_eq (rest : Text) : endpoint rest = some (Http.endpoint rest) := by
  unfold endpoint Http.endpoint
  simp only [stripTwoSuffix_eq, Option.bind_eq_bind, Option.bind_some]
  cases stripSuffix rest "/tags/list".toList with
  | some repo => rfl
  | none =>
      cases stripSuffix ((rest.dropSuffix? "/".toList).getD rest) "/blobs/uploads".toList with
      | some repo => rfl
      | none =>
          cases Http.stripTwoSuffix rest "/blobs/uploads/".toList with
          | some parts => rfl
          | none =>
              cases Http.stripTwoSuffix rest "/manifests/".toList with
              | some parts => rfl
              | none => cases Http.stripTwoSuffix rest "/blobs/".toList <;> rfl

theorem dispatch_eq (state : AppState) (method : Method) (path : Text) :
    dispatch state method path = some (Http.dispatch state method path) := by
  unfold dispatch Http.dispatch
  split
  · rfl
  · split
    · rfl
    · cases path.dropPrefix? "/v2/".toList with
      | none => rfl
      | some rest =>
          simp only [endpoint_eq, Option.bind_eq_bind, Option.bind_some]
          by_cases hcatalog : rest = "_catalog".toList
          · simp only [if_pos hcatalog]
          · simp only [if_neg hcatalog]
            cases Http.endpoint rest <;> rfl

-- The first colon and the last, if they are two, have a name between them.
theorem between_cuts {front rest before back : Text} (h : text = front ++ marker ++ rest)
    (h' : text = before ++ marker ++ back) (hle : front.length ≤ before.length)
    (hne : front ≠ before) (hone : marker.length = 1) : ∃ name, before = front ++ marker ++ name := by
  have hbefore : before <+: text := ⟨marker ++ back, by rw [h', List.append_assoc]⟩
  have hbegins : front <+: text := ⟨marker ++ rest, by rw [h, List.append_assoc]⟩
  have hfront : front <+: before := List.prefix_of_prefix_length_le hbegins hbefore hle
  have hlt : front.length < before.length := by
    refine lt_of_le_of_ne hle fun hlen => hne (hfront.eq_of_length hlen)
  have hmarker : front ++ marker <+: text := ⟨rest, h.symm⟩
  have hboth : front ++ marker <+: before := by
    apply List.prefix_of_prefix_length_le hmarker hbefore
    rw [List.length_append]
    omega
  obtain ⟨name, hname⟩ := hboth
  exact ⟨name, hname.symm⟩

theorem parseScope_isSome (scope : Text) : (parseScope scope).isSome := by
  unfold parseScope find rfind
  cases hfirst : cutFirst ":".toList scope with
  | none => rfl
  | some first =>
      cases hlast : cutLast ":".toList scope with
      | none => rfl
      | some last =>
          obtain ⟨front, rest⟩ := first
          obtain ⟨before, back⟩ := last
          simp only [Option.map_some]
          split
          · rfl
          · rename_i hne
            obtain ⟨htext, hleast⟩ := cutFirst_eq_some.mp hfirst
            have htext' := cutLast_eq_some hlast
            obtain ⟨name, hname⟩ := between_cuts htext htext' (hleast before back htext')
              (fun heq => hne (by rw [heq])) rfl
            have hresource : sliceTo scope (String.utf8Len front) = some front := by
              rw [htext, List.append_assoc, sliceTo_append]
            have hactions : sliceFrom scope (String.utf8Len before + 1) = some back := by
              rw [htext', show 1 = String.utf8Len ":".toList from rfl, ← utf8Len_append,
                sliceFrom_append]
            have hmiddle : slice scope (String.utf8Len front + 1) (String.utf8Len before) =
                some name := by
              rw [show 1 = String.utf8Len ":".toList from rfl, ← utf8Len_append, hname, htext',
                hname, List.append_assoc, slice_append]
            rw [hresource, hmiddle, hactions]
            rfl

end Splitting

section Names

theorem validateComponent_eq (component : String) :
    validateComponent component = some (RspaceRegistry.validateComponent component) := by
  unfold validateComponent RspaceRegistry.validateComponent
  cases component.toList with
  | nil => rfl
  | cons first chars => rfl

theorem validateComponents_eq (parts : List String) :
    validateComponents parts = some (RspaceRegistry.validateComponents parts) := by
  induction parts with
  | nil => rfl
  | cons component rest ih =>
      rw [validateComponents, RspaceRegistry.validateComponents, validateComponent_eq]
      simp only [Option.bind_eq_bind, Option.bind_some]
      cases RspaceRegistry.validateComponent component with
      | error err => rfl
      | ok _ => exact ih

theorem validateRepoName_eq (name : String) :
    validateRepoName name = some (RspaceRegistry.validateRepoName name) := by
  unfold validateRepoName RspaceRegistry.validateRepoName
  split
  · rfl
  · exact validateComponents_eq _

end Names

section Stores

-- Hex digits are single bytes.
theorem blobPath_eq (d : Digest) : blobPath d = some (Disk.blobPath d) := by
  have hsplit := List.take_append_drop 2 d.hex.toList
  have hascii : (d.hex.toList.take 2).all isLowerHex = true := by
    rw [List.all_eq_true]
    exact fun c hc => List.all_eq_true.mp d.valid.2 c (List.take_subset 2 _ hc)
  have hlen : String.utf8Len (d.hex.toList.take 2) = 2 := by
    rw [utf8Len_lowerHex _ hascii, List.length_take]
    have hhex := d.valid.length
    have htwo : 2 ≤ d.algorithm.hexLen := by cases d.algorithm <;> decide
    omega
  have hslice : slice d.hex.toList 0 2 = some (d.hex.toList.take 2) := by
    have hmiddle := slice_append [] (d.hex.toList.drop 2) (d.hex.toList.take 2)
    rwa [List.nil_append, hlen, hsplit] at hmiddle
  rw [blobPath, hslice]
  rfl

-- The scan answers with the index of a rule, and there is a last one.
theorem resolve_eq (r : RepoRouter) (repo : String) : resolve r repo = some (r.resolve repo) := by
  rw [resolve, RepoRouter.resolve, RepoRouter.bestMatch]
  cases hscan : RepoRouter.scan repo r.rules 0 none with
  | none =>
      have hlen : r.rules.length ≠ 0 := mt List.length_eq_zero_iff.mp r.nonempty
      have hlast : r.rules[r.rules.length - 1]? = some r.last := by
        rw [RepoRouter.last, List.getLast_eq_getElem, List.getElem?_eq_getElem]
      simp only [Option.map_none, if_neg hlen, hlast, Option.bind_eq_bind, Option.bind_some]
  | some best =>
      obtain ⟨len, i⟩ := best
      rcases RepoRouter.scan_sound repo r.rules 0 none len i hscan with hnone | ⟨k, rule, hi, hget, -⟩
      · cases hnone
      · have hindex : r.rules[i]? = some rule := by rw [hi, Nat.zero_add, hget]
        simp only [Option.map_some, hindex, List.getD_eq_getElem?_getD, Option.getD_some,
          Option.bind_eq_bind, Option.bind_some]

end Stores

end RspaceRegistry.Http.Checked
