import GraphDoc.Directory.Path

/-!
# Directories

The files and folders around a running command. A path can be followed only through folders, so what
lies behind a file, or behind nothing, is not there, even if the path comes back from it.
-/

set_option autoImplicit false

namespace GraphDoc

structure Directory where
  files : List (Place × String) := []
  folders : List Place := []
deriving DecidableEq, Inhabited

inductive FileError where
  | cannotRead (path : String)
  | cannotCreate (path : String)
  | cannotRemove (path : String)
deriving DecidableEq, Inhabited

def FileError.message : FileError → String
  | cannotRead path => "Could not read " ++ path
  | cannotCreate path => "Could not create " ++ path
  | cannotRemove path => "Could not remove " ++ path

namespace Directory

def isFile (d : Directory) (p : Place) : Bool := (d.files.lookup p).isSome

/-- The working directory and all that is above it are there. -/
def isFolder (d : Directory) (p : Place) : Bool := p.names.isEmpty || p ∈ d.folders

def contains (d : Directory) (p : Place) : Bool := d.isFile p || d.isFolder p

/-- Follows the pieces of a path; each place that is left must be a folder. -/
def follow (d : Directory) : Place → List String → Option Place
  | p, [] => some p
  | p, piece :: rest =>
    if !d.isFolder p then none
    else if Path.isIdle piece then d.follow p rest
    else if piece == ".." then d.follow p.up rest
    else d.follow (p.child piece) rest

def find? (d : Directory) (path : String) : Option Place :=
  if path.isEmpty then none else d.follow (.start path) (Path.pieces path)

def read? (d : Directory) (path : String) : Option String :=
  (d.find? path).bind fun p => d.files.lookup p

def exists? (d : Directory) (path : String) : Bool := (d.find? path).any d.contains

/-- Follows the pieces of a path and makes the folders that are missing, until one cannot be made.
Also says whether all could. -/
def makeOnTheWay (d : Directory) : Place → List String → Directory × Bool
  | _, [] => (d, true)
  | p, piece :: rest =>
    if Path.isIdle piece then d.makeOnTheWay p rest
    else if piece == ".." then d.makeOnTheWay p.up rest
    else
      let next := p.child piece
      if d.isFolder next then d.makeOnTheWay next rest
      else if d.isFile next || !Path.isName piece then (d, false)
      else { d with folders := d.folders ++ [next] }.makeOnTheWay next rest

def makeFolders (d : Directory) (path : String) : Directory × Bool :=
  d.makeOnTheWay (.start path) (Path.pieces path)

def write (d : Directory) (p : Place) (content : String) : Directory :=
  { d with files := d.files.filter (·.1 ≠ p) ++ [(p, content)] }

def remove (d : Directory) (p : Place) : Directory :=
  { d with files := d.files.filter (·.1 ≠ p) }

def put (d : Directory) (path content : String) : Directory :=
  let d := (d.makeFolders ((Path.folder? path).getD "")).1
  match d.find? path with
  | some p => d.write p content
  | none => d

def ofFiles (files : List (String × String)) : Directory :=
  files.foldl (fun d file => d.put file.1 file.2) {}

end Directory

/-- Work on the files. What was done before it fails stays done. -/
abbrev FileTask (ε α : Type) := ExceptT ε (StateM Directory) α

namespace FileTask

def readFile (path : String) : FileTask FileError String := do
  match (← get).read? path with
  | some content => return content
  | none => throw (.cannotRead path)

def makeFolderOf (path : String) : FileTask FileError Unit := do
  let some folder := Path.folder? path | return
  let (d, complete) := (← get).makeFolders folder
  set d
  unless complete do throw (.cannotCreate folder)

def removeFile (path : String) : FileTask FileError Unit := do
  let d ← get
  let some p := d.find? path | return
  if d.isFolder p then throw (.cannotRemove path)
  set (d.remove p)

end FileTask

end GraphDoc
