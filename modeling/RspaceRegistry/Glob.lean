import Mathlib.Data.String.Basic

namespace RspaceRegistry

-- `glob_helper`, on what is left of the pattern and of the text. A star tries
-- every split point in order, the empty run first.
def globHelper : List Char → List Char → Bool
  | [], text => text.isEmpty
  | '*' :: pat, text => text.tails.any fun rest => globHelper pat rest
  | '?' :: pat, text =>
      match text with
      | [] => false
      | _ :: rest => globHelper pat rest
  | c :: pat, text =>
      match text with
      | [] => false
      | head :: rest => head == c && globHelper pat rest

def globMatch (pat s : String) : Bool := globHelper pat.toList s.toList

end RspaceRegistry
