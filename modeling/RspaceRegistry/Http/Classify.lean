import RspaceRegistry.Cuts

namespace RspaceRegistry.Http

open Cuts

-- Paths, names and tokens as their characters.
abbrev Text := List Char

inductive Method
  | get
  | head
  | post
  | put
  | patch
  | delete
  | other (name : Text)
deriving DecidableEq

inductive Action
  | pull
  | push
  | delete
  | list
  | admin
  | version
deriving DecidableEq

def Action.verb : Action → Text
  | .pull => "get".toList
  | .push => "update".toList
  | .delete => "delete".toList
  | .list => "list".toList
  | .admin => "update".toList
  | .version => "get".toList

structure Operation where
  action : Action
  repo : Option Text
deriving DecidableEq

def nonEmpty (s : Text) : Option Text := if s = [] then none else some s

def markers : List Text :=
  ["/blobs/uploads".toList, "/blobs/".toList, "/manifests/".toList, "/referrers/".toList]

-- The first marker of the list that stands anywhere decides, where it stands first.
def repoFromRest (rest : Text) : Option Text :=
  match markers.findSome? fun marker => cutFirst marker rest with
  | some (repo, _) => nonEmpty repo
  | none => none

def Method.action : Method → Action
  | .get | .head => .pull
  | .post | .patch | .put => .push
  | .delete => .delete
  | .other _ => .pull

def classify (method : Method) (path : Text) : Operation :=
  if path = "/v2".toList ∨ path = "/v2/".toList then ⟨.version, none⟩
  else if "/admin/".toList <+: path then ⟨.admin, none⟩
  else if path = "/v2/_catalog".toList then ⟨.list, none⟩
  else
    let rest := (path.dropPrefix? "/v2/".toList).getD path
    match rest.dropSuffix? "/tags/list".toList with
    | some repo => ⟨.list, nonEmpty repo⟩
    | none => ⟨method.action, repoFromRest rest⟩

theorem classify_below {method : Method} {rest : Text} (hroot : rest ≠ [])
    (hcatalog : rest ≠ "_catalog".toList) : classify method ("/v2/".toList ++ rest) =
      match rest.dropSuffix? "/tags/list".toList with
      | some repo => ⟨.list, nonEmpty repo⟩
      | none => ⟨method.action, repoFromRest rest⟩ := by
  have hversion : ¬("/v2/".toList ++ rest = "/v2".toList ∨ "/v2/".toList ++ rest = "/v2/".toList) := by
    rintro (h | h)
    · exact absurd (congrArg List.length h) (by simp)
    · exact hroot (List.append_cancel_left (h.trans (List.append_nil _).symm))
  have hadmin : ¬"/admin/".toList <+: "/v2/".toList ++ rest := by
    intro h
    exact absurd (List.cons_prefix_cons.mp (List.cons_prefix_cons.mp h).2).1 (by decide)
  have hlist : "/v2/".toList ++ rest ≠ "/v2/_catalog".toList :=
    fun h => hcatalog (List.append_cancel_left (h : "/v2/".toList ++ rest = "/v2/".toList ++ _))
  have hdrop : ("/v2/".toList ++ rest).dropPrefix? "/v2/".toList = some rest :=
    dropPrefix_eq_some.mpr rfl
  rw [classify, if_neg hversion, if_neg hadmin, if_neg hlist, hdrop, Option.getD_some]

structure K8sAuthConfig where
  resourceGroup : Text
  resource : Text
  defaultNamespace : Option Text
  cacheTtl : Nat
  allowLoopback : Bool

def namespaceFor (cfg : K8sAuthConfig) (op : Operation) : Option Text :=
  match op.repo with
  | some repo =>
      match cutOnce '/' repo with
      | some (ns, _) => if ns ≠ [] then some ns else cfg.defaultNamespace
      | none => cfg.defaultNamespace
  | none => cfg.defaultNamespace

end RspaceRegistry.Http
