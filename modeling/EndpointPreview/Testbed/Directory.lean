import EndpointPreview.Control.Command

/-!
A working directory that holds files and no folders, in a small tree: it lies in
`/tmp`, beside which the root has a few folders that are empty but for `/dev/null`. A
path is followed name by name from the root or from the working directory, and ends
at its first zero byte.
-/

namespace EndpointPreview.Testbed

open Text Control

structure Directory where
  files : List (Bytes × Bytes)

namespace Directory

def find? (name : Bytes) (directory : Directory) : Option Bytes :=
  (directory.files.find? (·.1 == name)).map Prod.snd

inductive Place where
  | root
  | top (name : Bytes)
  | home
  | file (name : Bytes)
  | sink
  deriving DecidableEq, Repr

inductive PathError where
  | missing
  | nameTooLong
  deriving DecidableEq, Repr

def topFolders : List Bytes := ["bin", "dev", "etc", "lib", "proc", "tmp", "usr"].map ascii

def Place.isFolder : Place → Bool
  | root | top _ | home => true
  | file _ | sink => false

def Place.parent : Place → Place
  | home => .top (ascii "tmp")
  | _ => .root

def longestName : Nat := 255
def longestPath : Nat := 4095

def entry (directory : Directory) (folder : Place) (name : Bytes) : Except PathError Place :=
  if longestName < name.length then .error .nameTooLong
  else
    match folder with
    | .root => if topFolders.contains name then .ok (.top name) else .error .missing
    | .top above =>
        if above == ascii "dev" && name == ascii "null" then .ok .sink else .error .missing
    | .home => if (directory.find? name).isSome then .ok (.file name) else .error .missing
    | _ => .error .missing

/-- Follows one name; only a folder has names, the dots among them. -/
def follow (directory : Directory) (place : Place) (name : Bytes) : Except PathError Place :=
  if !place.isFolder then .error .missing
  else if name == ascii "." then .ok place
  else if name == ascii ".." then .ok place.parent
  else directory.entry place name

def endsInSlash (path : Bytes) : Bool := path.getLast? == some (byte '/')

/-- The names of a path; a slash at the end asks for a folder, as a dot does. -/
def names (path : Bytes) : List Bytes :=
  (splitAt (byte '/') path).filter (!·.isEmpty) ++ if endsInSlash path then [ascii "."] else []

def start (path : Bytes) : Place := if startsWith (ascii "/") path then .root else .home

def followable (path : Bytes) : Except PathError (List Bytes) :=
  if longestPath < path.length then .error .nameTooLong
  else if path.isEmpty then .error .missing
  else .ok (names path)

def place (directory : Directory) (path : Bytes) : Except PathError Place := do
  (← followable path).foldlM directory.follow (start path)

-- What reading gives; a folder reads as nothing.
def read (directory : Directory) (path : Bytes) : FileRead :=
  match directory.place (beforeZero path) with
  | .ok (.file name) => (directory.find? name).elim .missing .contents
  | .ok _ => .contents []
  | .error .missing => .missing
  | .error .nameTooLong => .nameTooLong

-- The directory after a text was written under a name of a folder, if it can be.
def writeIn (directory : Directory) (folder : Place) (name text : Bytes) : Option Directory :=
  if name == ascii "." || name == ascii ".." || longestName < name.length then none
  else
    match folder with
    | .home => some ⟨(name, text) :: directory.files.filter (·.1 != name)⟩
    | .top above =>
        if above == ascii "tmp" || (above == ascii "dev" && name == ascii "null") then
          some directory
        else none
    | _ => none

def write? (path text : Bytes) (directory : Directory) : Option Directory :=
  let path := beforeZero path
  match followable path with
  | .error _ => none
  | .ok names =>
      match names.getLast?, names.dropLast.foldlM directory.follow (start path) with
      | some name, .ok folder => directory.writeIn folder name text
      | _, _ => none

end Directory
end EndpointPreview.Testbed
