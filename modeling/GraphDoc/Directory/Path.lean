import GraphDoc.Text

/-!
# Paths

The pieces of a path are what stands between its slashes. Followed piece by piece, a path leads from
the working directory or from the root to a place in the file tree. The folder of a path is the path
without its last name.
-/

set_option autoImplicit false

namespace GraphDoc

/-- Where the names of a place begin: some levels above the working directory, or at the root. -/
inductive Anchor where
  | above (levels : Nat)
  | root
deriving DecidableEq, Inhabited

structure Place where
  anchor : Anchor
  names : List String
deriving DecidableEq, Inhabited

namespace Path

def pieces (path : String) : List String := (Text.cut '/' path.toList).map String.ofList

def isAbsolute (path : String) : Bool := path.toList.head? = some '/'

/-- A piece that stays where it is. -/
def isIdle (piece : String) : Bool := piece.isEmpty || piece == "."

/-- A name has at most 255 bytes. -/
def isName (piece : String) : Bool := piece.utf8ByteSize ≤ 255

def dropIdle (ps : List String) : List String := (ps.reverse.dropWhile isIdle).reverse

/-- The path of the folder that the last name of a path lies in. Idle pieces at the end count
neither before nor after the name is gone, but a first piece that is idle stays: it says where the
path starts. There is no folder above the root. -/
def folder? (path : String) : Option String :=
  match pieces path with
  | [] => none
  | first :: rest =>
    if isIdle first then
      match dropIdle rest with
      | [] => if first == "." then some "" else none
      | body =>
        let above := dropIdle body.dropLast
        some (if first.isEmpty then "/" ++ Text.joinWith "/" above
          else Text.joinWith "/" (first :: above))
    else some (Text.joinWith "/" (dropIdle (dropIdle (first :: rest)).dropLast))

end Path

namespace Place

def here : Place := ⟨.above 0, []⟩

def root : Place := ⟨.root, []⟩

def child (p : Place) (name : String) : Place := { p with names := p.names ++ [name] }

/-- One step up; the root has nothing above it. -/
def up (p : Place) : Place :=
  if p.names.isEmpty then
    match p.anchor with
    | .above levels => ⟨.above (levels + 1), []⟩
    | .root => p
  else { p with names := p.names.dropLast }

def start (path : String) : Place := if Path.isAbsolute path then root else here

def name? (p : Place) : Option String := p.names.getLast?

/-- The place beside a place whose name has an ending more. -/
def beside (p : Place) (ending : String) : Place :=
  match p.name? with
  | some name => p.up.child (name ++ ending)
  | none => p

def path (p : Place) : String :=
  match p.anchor with
  | .root => "/" ++ Text.joinWith "/" p.names
  | .above levels => Text.joinWith "/" ("." :: (List.replicate levels ".." ++ p.names))

@[simp] theorem up_child (p : Place) (name : String) : (p.child name).up = p := by
  simp [child, up]

end Place

end GraphDoc
