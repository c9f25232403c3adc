import GraphDoc.Text

/-!
# Database addresses

A database is given by a path, or by an address that starts with `file:` and may carry options after
a question mark. In an address `%` and two hexadecimal digits stand for a byte, and a number sign
ends what counts.
-/

set_option autoImplicit false

namespace GraphDoc

inductive DatabaseError where
  | cannotOpen (address : String)
  | unknownHost (name : String)
  | unknownAccess (word : String)
  | deniedAccess (word : String)
  | unknownCache (word : String)
  | unknownSystem (word : String)
  /-- There is a file with other content. -/
  | notDatabase
  | readOnly
  | unreadable
  | noJournal
deriving DecidableEq, Inhabited

def DatabaseError.message : DatabaseError → String
  | cannotOpen address => "unable to open database file: " ++ address
  | unknownHost name => "invalid uri authority: " ++ name
  | unknownAccess word => "no such access mode: " ++ word
  | deniedAccess word => "access mode not allowed: " ++ word
  | unknownCache word => "no such cache mode: " ++ word
  | unknownSystem word => "no such vfs: " ++ word
  | notDatabase => "file is not a database"
  | readOnly => "attempt to write a readonly database"
  | unreadable => "disk I/O error"
  | noJournal => "unable to open database file"

inductive Access where
  | read | write | create
  /-- There is no file. -/
  | memory
deriving DecidableEq, Inhabited

namespace Access

def ofText? : String → Option Access
  | "ro" => some read
  | "rw" => some write
  | "rwc" => some create
  | "memory" => some memory
  | _ => none

/-- An option may narrow the access that was given before but not widen it. -/
def allows : Access → Access → Bool
  | _, memory => true
  | memory, _ => true
  | create, _ => true
  | write, wanted => wanted ≠ create
  | read, wanted => wanted = read

end Access

structure Address where
  path : String
  access : Access := .create
  system : String := "unix"
  /-- The file counts as one that never changes. -/
  frozen : Bool := false
deriving DecidableEq, Inhabited

namespace Address

def scheme : String := "file:"

/-- The bytes of a part of an address, up to a zero byte. -/
def bytes : List Char → List UInt8
  | [] => []
  | '%' :: a :: b :: rest =>
    match Text.hexValue? a, Text.hexValue? b with
    | some high, some low =>
      if high = 0 && low = 0 then [] else UInt8.ofNat (high * 16 + low) :: bytes rest
    | _, _ => 37 :: bytes (a :: b :: rest)
  | c :: rest => String.utf8EncodeChar c ++ bytes rest

/-- Bytes as text. Where they are not the bytes of a text, each that is no ASCII character gives a
replacement character. -/
def textOf (bs : List UInt8) : String :=
  match String.fromUTF8? ⟨bs.toArray⟩ with
  | some text => text
  | none => String.ofList (bs.map fun b => if b < 128 then Char.ofNat b.toNat else '�')

def decode (cs : List Char) : String := textOf (bytes cs)

def dropHost : List Char → Except DatabaseError (List Char)
  | '/' :: '/' :: rest =>
    let host := String.ofList (rest.takeWhile (· ≠ '/'))
    if host.isEmpty || host == "localhost" then .ok (rest.dropWhile (· ≠ '/'))
    else .error (.unknownHost host)
  | cs => .ok cs

/-- Names and values; one without a name does not count. -/
def options (query : List Char) : List (String × String) :=
  (Text.cut '&' query).filterMap fun item =>
    let name := decode (item.takeWhile (· ≠ '='))
    if name.isEmpty then none else some (name, decode ((item.dropWhile (· ≠ '=')).drop 1))

/-- The systems that keep a database in a file. -/
def fileSystems : List String := ["unix", "unix-dotfile", "unix-excl", "unix-none"]

def memorySystem : String := "memdb"

def applyOption (a : Address) (option : String × String) : Except DatabaseError Address :=
  match option with
  | ("vfs", word) => .ok { a with system := word }
  | ("cache", word) =>
    if word == "shared" || word == "private" then .ok a else .error (.unknownCache word)
  | ("mode", word) =>
    match Access.ofText? word with
    | none => .error (.unknownAccess word)
    | some access =>
      if a.access.allows access then .ok { a with access := access }
      else .error (.deniedAccess word)
  | _ => .ok a

/-- A number is true unless its last byte is zero. -/
def isTrue (word : String) : Bool :=
  match word.toList.takeWhile Char.isDigit with
  | [] => word.toLower ∈ ["on", "yes", "true"]
  | digits =>
    let n := digits.foldl (fun n c => 10 * n + (c.toNat - 48)) 0
    n ≤ 2147483647 && n % 256 ≠ 0

def ofParts (name query : List Char) : Except DatabaseError Address := do
  let given := options query
  let a ← given.foldlM applyOption { path := decode name }
  if a.system ∉ memorySystem :: fileSystems then throw (.unknownSystem a.system)
  return { a with frozen := (given.lookup "immutable").any isTrue }

def parse (text : String) : Except DatabaseError Address := do
  if scheme.toList.isPrefixOf text.toList then
    let rest ← dropHost (text.toList.drop scheme.length)
    let body := rest.takeWhile (· ≠ '#')
    ofParts (body.takeWhile (· ≠ '?')) ((body.dropWhile (· ≠ '?')).drop 1)
  else return { path := text }

def isTransient (a : Address) : Bool :=
  a.path.isEmpty || a.path == ":memory:" || a.access = .memory || a.system == memorySystem

end Address

end GraphDoc
