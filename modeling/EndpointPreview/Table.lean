/-!
Tables kept in the order of their keys. Two keys are one key when neither comes
before the other; assigning to a key that is present keeps the key as it was
first written and replaces the value.
-/

namespace EndpointPreview.Table

variable {Key Value : Type}

def sameKey (less : Key → Key → Bool) (a b : Key) : Bool := !less a b && !less b a

def set (less : Key → Key → Bool) (key : Key) (value : Value) :
    List (Key × Value) → List (Key × Value)
  | [] => [(key, value)]
  | (first, old) :: rest =>
      if less key first then (key, value) :: (first, old) :: rest
      else if less first key then (first, old) :: set less key value rest
      else (first, value) :: rest

def find? (less : Key → Key → Bool) (key : Key) : List (Key × Value) → Option Value
  | [] => none
  | (first, value) :: rest => if sameKey less key first then some value else find? less key rest

def erase (less : Key → Key → Bool) (key : Key) : List (Key × Value) → List (Key × Value)
  | [] => []
  | (first, value) :: rest =>
      if sameKey less key first then erase less key rest
      else (first, value) :: erase less key rest

def setAll (less : Key → Key → Bool) (assignments table : List (Key × Value)) :
    List (Key × Value) :=
  assignments.foldl (fun made entry => set less entry.1 entry.2 made) table

def ofList (less : Key → Key → Bool) (assignments : List (Key × Value)) : List (Key × Value) :=
  setAll less assignments []

end EndpointPreview.Table
