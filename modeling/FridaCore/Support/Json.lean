import Mathlib

/-!
# JSON documents

Documents as trees. A reader positioned on a value asks for a member, a string
or a boolean, and gets nothing when the value is not of that kind.
-/

namespace FridaCore

inductive Json
  | null
  | bool (b : Bool)
  | int (n : Int)
  | str (s : String)
  | arr (elements : List Json)
  | obj (members : List (String × Json))
  deriving Repr

namespace Json

/-- `read_member` -/
def member? : Json → String → Option Json
  | .obj members, name => members.lookup name
  | _, _ => none

/-- `get_string_value` -/
def str? : Json → Option String
  | .str s => some s
  | _ => none

/-- `get_boolean_value`, false for anything else. -/
def isTrue : Json → Bool
  | .bool b => b
  | _ => false

def string? (j : Json) (name : String) : Option String := (j.member? name).bind str?

end Json

end FridaCore
