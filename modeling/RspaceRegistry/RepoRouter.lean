import RspaceRegistry.Backend
import RspaceRegistry.Glob

namespace RspaceRegistry

structure RouteRule where
  pattern : String
  backend : Backend
deriving DecidableEq

-- The rules behind the lock; the constructor refuses an empty list.
structure RepoRouter where
  rules : List RouteRule
  nonempty : rules ≠ []

namespace RepoRouter

def new (rules : List RouteRule) : Except StorageError RepoRouter :=
  if h : rules = [] then .error (.invalid "RepoRouter needs at least one rule")
  else .ok ⟨rules, h⟩

def single (backend : Backend) : RepoRouter := ⟨[⟨"*", backend⟩], List.cons_ne_nil _ _⟩

-- The scan of `resolve`, from index `i` on with the best match so far: its
-- pattern's length and its index.
def scan (repo : String) : List RouteRule → Nat → Option (Nat × Nat) → Option (Nat × Nat)
  | [], _, best => best
  | rule :: rest, i, best =>
      if globMatch rule.pattern repo then
        match best with
        | none => scan repo rest (i + 1) (some (rule.pattern.utf8ByteSize, i))
        | some (len, _) =>
            if rule.pattern.utf8ByteSize > len then
              scan repo rest (i + 1) (some (rule.pattern.utf8ByteSize, i))
            else scan repo rest (i + 1) best
      else scan repo rest (i + 1) best

-- The index of the rule that wins the match, if any rule matches.
def bestMatch (r : RepoRouter) (repo : String) : Option Nat :=
  (scan repo r.rules 0 none).map Prod.snd

def last (r : RepoRouter) : RouteRule := r.rules.getLast r.nonempty

def resolve (r : RepoRouter) (repo : String) : Backend :=
  match r.bestMatch repo with
  | some i => (r.rules.getD i r.last).backend
  | none => r.last.backend

def backendForPattern (r : RepoRouter) (pattern : String) : Option Backend :=
  (r.rules.find? fun rule => rule.pattern == pattern).map (·.backend)

def repoint (r : RepoRouter) (pattern : String) (backend : Backend) : Nat × RepoRouter :=
  (r.rules.countP (·.pattern == pattern),
    { rules := r.rules.map fun rule =>
        if rule.pattern == pattern then { rule with backend } else rule
      nonempty := by simpa using r.nonempty })

-- Swap the first rule of this pattern, or append one.
def upsertRules (pattern : String) (backend : Backend) : List RouteRule → Bool × List RouteRule
  | [] => (true, [⟨pattern, backend⟩])
  | rule :: rest =>
      if rule.pattern == pattern then (false, { rule with backend } :: rest)
      else
        let (added, rules) := upsertRules pattern backend rest
        (added, rule :: rules)

theorem upsertRules_ne_nil (pattern : String) (backend : Backend) (rules : List RouteRule) :
    (upsertRules pattern backend rules).2 ≠ [] := by
  cases rules with
  | nil => exact List.cons_ne_nil _ _
  | cons rule rest =>
      rw [upsertRules]
      split <;> exact List.cons_ne_nil _ _

def upsert (r : RepoRouter) (pattern : String) (backend : Backend) : Bool × RepoRouter :=
  ((upsertRules pattern backend r.rules).1,
    ⟨(upsertRules pattern backend r.rules).2, upsertRules_ne_nil pattern backend r.rules⟩)

def distinct : List RouteRule → List Backend → List Backend
  | [], out => out
  | rule :: rest, out =>
      if out.any rule.backend.ptrEq then distinct rest out
      else distinct rest (out ++ [rule.backend])

def distinctBackends (r : RepoRouter) : List Backend := distinct r.rules []

end RepoRouter

end RspaceRegistry
