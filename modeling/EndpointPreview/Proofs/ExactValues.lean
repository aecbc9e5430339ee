import EndpointPreview.Json.Value
import EndpointPreview.Proofs.Tables

/-!
Values that have an exact written form: they hold no floats, their whole numbers are in a given
range, and the members of their objects stand in the order of their keys, each key once.
-/

namespace EndpointPreview.Json

open Text

inductive Exact (inRange : Int → Prop) : Json → Prop where
  | null : Exact inRange .null
  | bool (value : Bool) : Exact inRange (.bool value)
  | int (n : Int) (inside : inRange n) : Exact inRange (.int n)
  | str (text : Bytes) : Exact inRange (.str text)
  | arr (items : List Json) (exact_items : ∀ item ∈ items, Exact inRange item) :
      Exact inRange (.arr items)
  | obj (members : Members) (sorted : Table.Sorted precedes members)
      (exact_members : ∀ member ∈ members, Exact inRange member.2) : Exact inRange (.obj members)

theorem object_sorted (members : Members) (sorted : Table.Sorted precedes members) :
    object members = .obj members :=
  congrArg Json.obj (Table.setAll_sorted precedes_orders members [] sorted)

end EndpointPreview.Json
