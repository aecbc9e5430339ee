import EndpointPreview.Table
import EndpointPreview.Text.Bytes

/-!
JSON values over bytes. Integers and floats are different values; a float is its
bit pattern. The members of an object stand in the byte order of their keys.
-/

namespace EndpointPreview

inductive Json where
  | null
  | bool (value : Bool)
  | int (value : Int)
  | float (bits : UInt64)
  | str (text : Bytes)
  | arr (items : List Json)
  | obj (members : List (Bytes × Json))
  deriving Repr, Inhabited, BEq

namespace Json

abbrev Members := List (Bytes × Json)

def setMember (key : Bytes) (value : Json) (members : Members) : Members :=
  Table.set Text.precedes key value members

def member? (key : Bytes) (members : Members) : Option Json :=
  Table.find? Text.precedes key members

def object (members : Members) : Json := .obj (Table.ofList Text.precedes members)

def text (s : String) : Json := .str (ascii s)

def nat (n : Nat) : Json := .int n

def ofOption (encode : α → Json) : Option α → Json
  | none => .null
  | some value => encode value

def get? (key : String) : Json → Option Json
  | .obj members => member? (ascii key) members
  | _ => none

def isNull : Json → Bool
  | .null => true
  | _ => false

def failureText : Bytes := ascii "[json.exception]"

end Json
end EndpointPreview
