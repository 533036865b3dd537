import Mathlib.Data.List.AList
import RspaceRegistry.Disk.Paths
import RspaceRegistry.Http.Classify

namespace RspaceRegistry.Http

open Cuts Disk

-- Basic authentication by an htpasswd file.

-- The `bcrypt` crate: `verify` of a password and a hash, which may be none.
class Bcrypt where
  verify : String → String → Option Bool

inductive Hash
  | bcrypt (hash : String)
  | plain (password : String)
deriving DecidableEq

structure Htpasswd where
  users : AList fun _ : String => Hash

-- `str::lines`: what follows the last line break is a line unless it is empty.
def withoutBreaks : List Text → List Text
  | [] => []
  | [last] => if last = [] then [] else [last]
  | line :: rest => (if line.getLast? = some '\r' then line.dropLast else line) :: withoutBreaks rest

def lines (text : String) : List Text := withoutBreaks (text.toList.splitOn '\n')

def parseHash (hash : Text) : Option Hash :=
  if "$2y$".toList <+: hash ∨ "$2a$".toList <+: hash ∨ "$2b$".toList <+: hash then
    some (.bcrypt (String.ofList hash))
  else if ['$'] <+: hash ∨ ['{'] <+: hash then none
  else some (.plain (String.ofList hash))

def loadLine (users : AList fun _ : String => Hash) (line : Text) : AList fun _ : String => Hash :=
  let line := (Disk.trim (String.ofList line)).toList
  if line = [] ∨ ['#'] <+: line then users
  else
    match cutOnce ':' line with
    | none => users
    | some (user, hash) =>
        match parseHash hash with
        | none => users
        | some h => users.insert (String.ofList user) h

def Htpasswd.load (text : String) : Except String Htpasswd :=
  let users := (lines text).foldl loadLine ∅
  if users.entries = [] then .error "htpasswd file has no usable entries" else .ok ⟨users⟩

def constantEq (a b : Bytes) : Bool :=
  if a.length ≠ b.length then false
  else (a.zip b).foldl (fun diff (x, y) => diff ||| (x ^^^ y)) 0 = 0

def Hash.verify [Bcrypt] (stored : Hash) (password : String) : Bool :=
  match stored with
  | .plain p => constantEq (utf8 p) (utf8 password)
  | .bcrypt h => (Bcrypt.verify password h).getD false

def Htpasswd.verify [Bcrypt] (file : Htpasswd) (user password : String) : Bool :=
  match file.users.lookup user with
  | none => false
  | some stored => stored.verify password

-- The lines that have a user field, with what follows it.
def fields (line : Text) : Option (String × Text) :=
  let line := (Disk.trim (String.ofList line)).toList
  if line = [] ∨ ['#'] <+: line then none
  else (cutOnce ':' line).map fun parts => (String.ofList parts.1, parts.2)

def entries (text : String) : List (String × Text) := (lines text).filterMap fields

-- What follows the user field in the last line of a user.
def lastHash (text user : String) : Option Text := (entries text).reverse.lookup user

-- Of the lines of a user with a supported scheme, the last.
def lastUsable (text user : String) : Option Hash :=
  ((entries text).filterMap fun entry => (parseHash entry.2).map (entry.1, ·)).reverse.lookup user

-- A supported entry, and the password that it is for.
def Opens [Bcrypt] (hash : Text) (password : String) : Prop :=
  (("$2y$".toList <+: hash ∨ "$2a$".toList <+: hash ∨ "$2b$".toList <+: hash) ∧
    Bcrypt.verify password (String.ofList hash) = some true) ∨
  (hash ≠ [] ∧ ¬['$'] <+: hash ∧ ¬['{'] <+: hash ∧ password.toList = hash)

-- What the last line of a user does not undo: an entry before an unsupported scheme, and
-- what an empty password is taken for.
def Lingers [Bcrypt] (text user password : String) : Prop :=
  ∃ hash, lastHash text user = some hash ∧
    ((parseHash hash = none ∧ ∃ stored, lastUsable text user = some stored ∧
      stored.verify password = true) ∨ (hash = [] ∧ password = ""))

section Compare

-- No difference is lost: the accumulated bits only grow.
theorem fold_diff {a b : Bytes} (hlen : a.length = b.length) (diff : UInt8) :
    (a.zip b).foldl (fun diff (x, y) => diff ||| (x ^^^ y)) diff = 0 ↔ diff = 0 ∧ a = b := by
  induction a generalizing b diff with
  | nil =>
      have hb := List.length_eq_zero_iff.mp hlen.symm
      simp [hb]
  | cons x rest ih =>
      cases b with
      | nil => simp at hlen
      | cons y others =>
          have hrest : rest.length = others.length := by simpa using hlen
          simp [ih hrest, and_assoc]

theorem constantEq_iff {a b : Bytes} : constantEq a b = true ↔ a = b := by
  unfold constantEq
  split_ifs with hlen
  · simp only [false_iff]
    intro h
    exact hlen (congrArg List.length h)
  · rw [decide_eq_true_iff, fold_diff (not_not.mp hlen)]
    simp

theorem utf8_inj {s t : String} : utf8 s = utf8 t ↔ s = t := by
  constructor
  · intro h
    have := congrArg fromUtf8 h
    simpa using this
  · exact congrArg utf8

theorem plain_verify [Bcrypt] {stored password : String} :
    (Hash.plain stored).verify password = true ↔ stored = password := by
  rw [Hash.verify, constantEq_iff, utf8_inj]

end Compare

section Load

variable {users : AList fun _ : String => Hash} {text user : String}

theorem loadLine_eq (users : AList fun _ : String => Hash) (line : Text) : loadLine users line =
    match (fields line).bind fun entry => (parseHash entry.2).map (entry.1, ·) with
    | none => users
    | some entry => users.insert entry.1 entry.2 := by
  unfold loadLine fields
  extract_lets line
  by_cases hskip : line = [] ∨ ['#'] <+: line
  · rw [if_pos hskip, if_pos hskip]
    rfl
  · rw [if_neg hskip, if_neg hskip]
    cases hcut : cutOnce ':' line with
    | none => rfl
    | some parts =>
        cases hhash : parseHash parts.2 <;> simp [hhash]

-- A later line of a user takes the place of an earlier one.
theorem lookup_foldl_insert (added : List (String × Hash)) (users : AList fun _ : String => Hash) :
    (added.foldl (fun users entry => users.insert entry.1 entry.2) users).lookup user =
      (added.reverse.lookup user).or (users.lookup user) := by
  induction added generalizing users with
  | nil => rfl
  | cons entry rest ih =>
      rw [List.foldl_cons, ih, List.reverse_cons, List.lookup_append, Option.or_assoc]
      congr 1
      obtain ⟨name, stored⟩ := entry
      by_cases h : user = name
      · subst h
        rw [AList.lookup_insert, List.lookup_cons_self, Option.some_or]
      · have hkey : (user == name) = false := by simpa using h
        rw [AList.lookup_insert_ne h, List.lookup_cons, hkey]
        rfl

theorem foldl_loadLine (text : String) (users : AList fun _ : String => Hash) :
    ((lines text).foldl loadLine users).lookup user =
      (lastUsable text user).or (users.lookup user) := by
  rw [lastUsable, entries, List.filterMap_filterMap, ← lookup_foldl_insert]
  generalize lines text = rest
  induction rest generalizing users with
  | nil => rfl
  | cons line rest ih =>
      rw [List.foldl_cons, ih, loadLine_eq, List.filterMap_cons]
      cases (fields line).bind fun entry => (parseHash entry.2).map (entry.1, ·) <;> rfl

theorem lookup_load {file : Htpasswd} (h : Htpasswd.load text = .ok file) :
    file.users.lookup user = lastUsable text user := by
  unfold Htpasswd.load at h
  extract_lets users at h
  split_ifs at h
  obtain rfl := Except.ok.inj h
  have hlookup : ((lines text).foldl loadLine ∅).lookup user = _ := foldl_loadLine text ∅
  rwa [AList.lookup_empty, Option.or_none] at hlookup

-- Behind the last line of a user there is no other one: what it holds is what counts.
theorem lookup_filterMap {entries : List (String × Text)} {hash : Text}
    (h : entries.lookup user = some hash) {stored : Hash} (hstored : parseHash hash = some stored) :
    (entries.filterMap fun entry => (parseHash entry.2).map (entry.1, ·)).lookup user =
      some stored := by
  induction entries with
  | nil => cases h
  | cons entry rest ih =>
      obtain ⟨name, other⟩ := entry
      by_cases hname : user = name
      · subst hname
        rw [List.lookup_cons_self] at h
        obtain rfl := Option.some.inj h
        simp [hstored]
      · have hkey : (user == name) = false := by simpa using hname
        rw [List.lookup_cons, hkey] at h
        cases hother : parseHash other with
        | none => simpa [hother] using ih h
        | some _ => simpa [hother, List.lookup_cons, hkey] using ih h

theorem lookup_filterMap_none {entries : List (String × Text)} (h : entries.lookup user = none) :
    (entries.filterMap fun entry => (parseHash entry.2).map (entry.1, ·)).lookup user = none := by
  rw [List.lookup_eq_none_iff] at h ⊢
  intro entry hentry
  obtain ⟨source, hsource, hmap⟩ := List.mem_filterMap.mp hentry
  obtain ⟨_, -, rfl⟩ := Option.map_eq_some_iff.mp hmap
  exact h source hsource

theorem lastUsable_of_supported {hash : Text} {stored : Hash}
    (h : lastHash text user = some hash) (hstored : parseHash hash = some stored) :
    lastUsable text user = some stored := by
  rw [lastUsable, ← List.filterMap_reverse]
  exact lookup_filterMap h hstored

theorem lastUsable_of_none (h : lastHash text user = none) : lastUsable text user = none := by
  rw [lastUsable, ← List.filterMap_reverse]
  exact lookup_filterMap_none h

end Load

section Verify

theorem dollar_of_bcrypt {hash : Text}
    (h : "$2y$".toList <+: hash ∨ "$2a$".toList <+: hash ∨ "$2b$".toList <+: hash) :
    ['$'] <+: hash := by
  obtain h | h | h := h <;> exact List.IsPrefix.trans (by decide) h

variable [Bcrypt] {text user password : String}

-- An empty hash aside, an entry is verified for the passwords that it is for.
theorem verify_iff_opens {hash : Text} {stored : Hash} (h : parseHash hash = some stored)
    (hne : hash ≠ []) : stored.verify password = true ↔ Opens hash password := by
  unfold parseHash at h
  split_ifs at h with hbcrypt hother
  · obtain rfl := Option.some.inj h
    have hdollar := dollar_of_bcrypt hbcrypt
    simp only [Hash.verify, Opens, hbcrypt, hdollar, true_and, not_true_eq_false, false_and,
      and_false, or_false]
    cases Bcrypt.verify password (String.ofList hash) <;> simp
  · obtain rfl := Option.some.inj h
    rw [not_or] at hother
    rw [plain_verify, Opens, or_iff_right (fun h => hbcrypt h.1)]
    constructor
    · intro heq
      exact ⟨hne, hother.1, hother.2, by rw [← heq, String.toList_ofList]⟩
    · intro ⟨_, _, _, heq⟩
      rw [← heq, String.ofList_toList]

theorem not_opens_unsupported {hash : Text} (h : parseHash hash = none) : ¬Opens hash password := by
  unfold parseHash at h
  split_ifs at h with hbcrypt hother
  intro hopens
  obtain ⟨hscheme, -⟩ | ⟨-, hdollar, hbrace, -⟩ := hopens
  · exact hbcrypt hscheme
  · exact hother.elim hdollar hbrace

theorem not_opens_empty : ¬Opens [] password := by simp [Opens]

theorem verify_of_load {file : Htpasswd} (h : Htpasswd.load text = .ok file) :
    file.verify user password = true ↔
      ∃ stored, lastUsable text user = some stored ∧ stored.verify password = true := by
  rw [Htpasswd.verify, lookup_load h]
  cases lastUsable text user <;> simp

end Verify

-- A password that is accepted is that of the last line of its user, unless an entry
-- lingers behind a line with an unsupported scheme, or the last line has no password.
theorem verify_last_iff [Bcrypt] {text : String} {file : Htpasswd}
    (hload : Htpasswd.load text = .ok file) (user password : String) :
    (file.verify user password = true →
      ∃ hash, lastHash text user = some hash ∧ Opens hash password) ↔
    ¬Lingers text user password := by
  rw [verify_of_load hload, Lingers]
  cases hlast : lastHash text user with
  | none => simp [lastUsable_of_none hlast]
  | some hash =>
      simp only [Option.some.injEq, exists_eq_left']
      cases hparse : parseHash hash with
      | none =>
          have hne : hash ≠ [] := by
            rintro rfl
            cases hparse
          simp [not_opens_unsupported hparse, hne]
      | some stored =>
          rw [lastUsable_of_supported hlast hparse]
          by_cases hempty : hash = []
          · subst hempty
            obtain rfl : Hash.plain "" = stored := Option.some.inj hparse
            simp [plain_verify, not_opens_empty, @eq_comm _ "" password]
          · simp [verify_iff_opens hparse hempty, hempty]

section Sample

abbrev Sample.bcrypt : Bcrypt := ⟨fun _ _ => none⟩

attribute [local instance] Sample.bcrypt

-- A password that was replaced, one that was revoked, and one that was left empty.
def passwords : String := "carol:old\nalice:old\nbob:\n# retired\ncarol:new\nalice:$apr1$x$y\n"

theorem replaced_carol : ∃ file, Htpasswd.load passwords = .ok file ∧
    (file.verify "carol" "new" = true →
      ∃ hash, lastHash passwords "carol" = some hash ∧ Opens hash "new") := by
  refine ⟨⟨(lines passwords).foldl loadLine ∅⟩, rfl, (verify_last_iff rfl _ _).mpr ?_⟩
  intro ⟨hash, hlast, hlingers⟩
  have hnew : lastHash passwords "carol" = some "new".toList := by decide +kernel
  obtain rfl := Option.some.inj (hnew.symm.trans hlast)
  obtain ⟨hparse, -⟩ | ⟨hempty, -⟩ := hlingers
  · cases hparse
  · cases hempty

theorem revoked_alice : ∃ file, Htpasswd.load passwords = .ok file ∧
    (file.verify "alice" "old" = true ∧ lastHash passwords "alice" = some "$apr1$x$y".toList ∧
      ¬Opens "$apr1$x$y".toList "old") ∧
    (file.verify "bob" "" = true ∧ lastHash passwords "bob" = some [] ∧ ¬Opens [] "") := by
  refine ⟨⟨(lines passwords).foldl loadLine ∅⟩, rfl, ⟨by decide, by decide, ?_⟩,
    by decide, by decide, not_opens_empty⟩
  exact not_opens_unsupported (by decide)

end Sample

end RspaceRegistry.Http
