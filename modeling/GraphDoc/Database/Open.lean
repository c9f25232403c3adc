import GraphDoc.Database.Address
import GraphDoc.Directory.Basic

/-!
# Opening a database

A database is a new file, or a blank one that is there already. Its place is found from the names of
its path alone: a step up undoes the name before it, whether or not that name is there.
-/

set_option autoImplicit false

namespace GraphDoc

inductive Database where
  | transient
  | kept (place : Place)
deriving DecidableEq, Inhabited

namespace Database

/-- The place that the pieces of a path name; nothing lies below a file. -/
def locate? (d : Directory) : Place → List String → Option Place
  | p, [] => if p = .root then none else some p
  | p, piece :: rest =>
    if Path.isIdle piece then locate? d p rest
    else if piece == ".." then locate? d p.up rest
    else if d.isFile p || !Path.isName piece then none
    else locate? d (p.child piece) rest

/-- The files that a database has beside it while it is in use. -/
def companions : List String := ["-journal", "-wal", "-shm"]

def hasRoom (p : Place) : Bool :=
  companions.all fun ending => ((p.beside ending).name?).any Path.isName

/-- A file of at most one byte holds nothing. -/
def isBlank (content : String) : Bool := content.utf8ByteSize ≤ 1

/-- Whether a place has the file of a database, which is made if it may be. -/
def openFile (a : Address) (p : Place) : FileTask DatabaseError Bool := do
  let d ← get
  if d.isFolder p then return false
  match d.files.lookup p with
  | some content =>
    unless isBlank content do throw .notDatabase
    return true
  | none =>
    if a.access = .create && d.isFolder p.up then
      set (d.write p "")
      return true
    else return false

def openAt (text : String) : FileTask DatabaseError Database := do
  let a ← Address.parse text
  if a.isTransient then
    if a.access = .read then throw .readOnly
    return .transient
  match locate? (← get) (.start a.path) (Path.pieces a.path) with
  | none => throw (.cannotOpen text)
  | some p =>
    unless ← openFile a p do
      throw (if (← get).isFolder p && a.access = .read then .unreadable else .cannotOpen text)
    if a.access = .read || a.frozen then throw .readOnly
    unless hasRoom p do throw .noJournal
    return .kept p

def close (database : Database) (content : String) (d : Directory) : Directory :=
  match database with
  | transient => d
  | kept p => (companions.map p.beside).foldl Directory.remove (d.write p content)

end Database

end GraphDoc
