import RspaceRegistry.OciError
import Mathlib.Data.String.Basic

namespace RspaceRegistry

def isLowerOrDigit (c : Char) : Bool :=
  ('a' ≤ c && c ≤ 'z') || ('0' ≤ c && c ≤ '9')

def isNameChar (c : Char) : Bool :=
  isLowerOrDigit c || c == '.' || c == '_' || c == '-'

-- `name.split('/')`
def components (name : String) : List String :=
  (name.toList.splitOn '/').map String.ofList

def validateComponent (component : String) : Except OciError Unit :=
  match component.toList with
  | [] => .error (.new .nameInvalid "empty path component")
  | first :: chars =>
      if !isLowerOrDigit first then
        .error (.new .nameInvalid "component must start with [a-z0-9]")
      else if chars.all isNameChar then .ok ()
      else .error (.new .nameInvalid "component contains invalid character")

def validateComponents : List String → Except OciError Unit
  | [] => .ok ()
  | component :: rest =>
      match validateComponent component with
      | .error err => .error err
      | .ok () => validateComponents rest

def validateRepoName (name : String) : Except OciError Unit :=
  if name.isEmpty || name.utf8ByteSize > 255 then .error (.new .nameInvalid "name out of range")
  else validateComponents (components name)

-- A name that the handlers let through and that the directory tree keeps apart
-- from every other: below `manifests/<repo>/` the entries `tags` and `digests`
-- are the storage's own, so a repository with such a component is not walked.
def RepoName.Ordinary (name : String) : Prop :=
  validateRepoName name = .ok () ∧ "tags" ∉ components name ∧ "digests" ∉ components name

instance (name : String) : Decidable (RepoName.Ordinary name) :=
  inferInstanceAs (Decidable (_ ∧ _))

structure RepoName where
  text : String
  ordinary : RepoName.Ordinary text
deriving DecidableEq

namespace RepoName

theorem text_injective : Function.Injective text := by
  rintro ⟨a, ha⟩ ⟨b, hb⟩ h
  simp only at h
  subst h
  rfl

instance : LinearOrder RepoName := LinearOrder.lift' text text_injective

end RepoName

-- A tag that is one path component and that the tag listing shows: names that
-- end in `.tmp` are the storage's temporary files.
def TagName.Ordinary (tag : String) : Prop :=
  tag ≠ "" ∧ '/' ∉ tag.toList ∧ tag ≠ "." ∧ tag ≠ ".." ∧ ¬['.', 't', 'm', 'p'] <:+ tag.toList

instance (tag : String) : Decidable (TagName.Ordinary tag) :=
  inferInstanceAs (Decidable (_ ∧ _))

structure TagName where
  text : String
  ordinary : TagName.Ordinary text
deriving DecidableEq

namespace TagName

theorem text_injective : Function.Injective text := by
  rintro ⟨a, ha⟩ ⟨b, hb⟩ h
  simp only at h
  subst h
  rfl

instance : LinearOrder TagName := LinearOrder.lift' text text_injective

end TagName

end RspaceRegistry
