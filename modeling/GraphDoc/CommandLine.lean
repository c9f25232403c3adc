import GraphDoc.Compile
import GraphDoc.Database.Open
import GraphDoc.Document.Print
import GraphDoc.Store.View

/-!
# The command line

`compile` prints the compiled documents and `check` only reports. The commands are functions from
the arguments and the files at hand to what is printed and left behind.
-/

set_option autoImplicit false

namespace GraphDoc

structure CompileArguments where
  schema : String
  documents : List String
  config? : Option String := none
  database? : Option String := none
deriving DecidableEq, Inhabited

inductive ArgumentError where
  | configNeedsFile | databaseNeedsPath | missingSchema
deriving DecidableEq, Inhabited

def ArgumentError.message : ArgumentError → String
  | configNeedsFile => "--config needs a file"
  | databaseNeedsPath => "--db needs a path"
  | missingSchema => "Missing schema file"

namespace CompileArguments

/-- Splits arguments into paths and the last value of each option. -/
def split : List String → Except ArgumentError (List String × Option String × Option String)
  | [] => .ok ([], none, none)
  | a :: rest =>
    if a == "--config" then
      match rest with
      | [] => .error .configNeedsFile
      | file :: more => do
        let (paths, config?, database?) ← split more
        return (paths, config?.orElse fun _ => some file, database?)
    else if a == "--db" then
      match rest with
      | [] => .error .databaseNeedsPath
      | path :: more => do
        let (paths, config?, database?) ← split more
        return (paths, config?, database?.orElse fun _ => some path)
    else do
      let (paths, config?, database?) ← split rest
      return (a :: paths, config?, database?)

/-- Reads `<schema> <documents>... [--config file] [--db path]`. -/
def parse (arguments : List String) : Except ArgumentError CompileArguments := do
  match ← split arguments with
  | ([], _, _) => throw .missingSchema
  | (schema :: documents, config?, database?) => return ⟨schema, documents, config?, database?⟩

end CompileArguments

inductive CommandError where
  | argument (e : ArgumentError)
  | file (e : FileError)
  | invalidConfig
  | database (e : DatabaseError)
  | failure (f : Failure)
deriving DecidableEq, Inhabited

namespace CommandError

def invalidConfigText : String := "Invalid project configuration"

def message : CommandError → String
  | argument e => e.message
  | file e => e.message
  | invalidConfig => invalidConfigText
  | database e => e.message
  | failure f => f.headline

end CommandError

structure CommandOutcome where
  success : Bool
  output : String := ""
  errors : String := ""
  directory : Directory
deriving Inhabited

namespace CommandLine

def usage : String :=
"gqlc: GraphQL client document compiler

USAGE:
    gqlc <COMMAND> <SCHEMA> <DOCUMENTS>... [OPTIONS]

COMMANDS:
    compile                Compile documents and print the rewritten documents
    check                  Compile documents and report diagnostics only
    help                   Show this help message

OPTIONS:
    --config <FILE>        Project configuration (JSON)
    --db <PATH>            Keep the IR in a SQLite file instead of memory

EXAMPLES:
    gqlc check schema.graphql src/queries/*.graphql
    gqlc compile schema.graphql app.graphql --config gqlc.json --db .gqlc/ir.db

Set RUST_LOG=debug for per-document logging.

"

def version : String := "gqlc 0.1.0\n"

abbrev CommandTask (α : Type) := FileTask CommandError α

def onFiles {α : Type} (t : FileTask FileError α) : CommandTask α := ExceptT.adapt .file t

def readConfig : Option String → CommandTask Config
  | none => return {}
  | some path => do
    match Config.ofText? (← onFiles (FileTask.readFile path)) with
    | some config => return config
    | none => throw .invalidConfig

def readProject (a : CompileArguments) : CommandTask Project := do
  let config ← readConfig a.config?
  let schema ← onFiles (FileTask.readFile a.schema)
  let sources ← a.documents.mapM fun path => do
    return { filepath := path, content := ← onFiles (FileTask.readFile path) }
  return ⟨config, schema, sources⟩

def report (found : Diagnostics) (stats : Stats) : String :=
  (if found.isEmpty then "" else Diagnostics.text found ++ "\n") ++
  "\nCompile complete!\n" ++
  "  Documents: " ++ toString stats.documents ++ "\n" ++
  "  Selections: " ++ toString stats.selections ++ "\n" ++
  "  Lists: " ++ toString stats.lists ++ "\n" ++
  "  Fragment clones: " ++ toString stats.clones ++ "\n" ++
  (if found.isEmpty then "" else "  Diagnostics: " ++ toString found.length ++ "\n")

def leftovers (path : String) : List String := [path, path ++ "-wal", path ++ "-shm"]

/-- Makes room for a new database and opens it. Its folder and the leftovers go by the text as it
is given, even if that is an address. -/
def openDatabase (text : String) : CommandTask Database := do
  onFiles (FileTask.makeFolderOf text)
  (leftovers text).forM fun path => onFiles (FileTask.removeFile path)
  ExceptT.adapt .database (Database.openAt text)

def dump (s : Store) : String :=
  let line := fun (row : List Cell) => (Json.array (row.map Cell.toJson)).render ++ "\n"
  let documents := s.documents.entries.flatMap fun (id, _) =>
    s.placementsView id ++ s.fieldArgumentsView id ++ s.valuesView id
  String.join ((s.documentsView ++ documents ++ s.componentFieldsView).map line)

/-- Compiles a project, leaves its database behind and reports. The documents are printed if asked
for and if there are no errors. -/
def compileProject (database : Database) (project : Project) (printing : Bool) :
    CommandTask (Bool × String × String) := do
  match project.compile false with
  | .error f =>
    modify (database.close "")
    throw (.failure f)
  | .ok result =>
    modify (database.close (dump result.store))
    let clean := !Diagnostics.hasErrors result.diagnostics
    let summary := report result.diagnostics result.stats
    if printing && clean then
      match result.store.printAll with
      | .error f => throw (.failure f)
      | .ok text => return (clean, text ++ "\n", summary)
    else return (clean, "", summary)

def compile (arguments : List String) (printing : Bool) :
    CommandTask (Bool × String × String) := do
  match CompileArguments.parse arguments with
  | .error e => throw (.argument e)
  | .ok a =>
    let project ← readProject a
    let database ← match a.database? with
      | none => pure .transient
      | some text => openDatabase text
    compileProject database project printing

def outcome (d : Directory) (t : CommandTask (Bool × String × String)) : CommandOutcome :=
  match t.run.run d with
  | (.ok (success, output, errors), d) => ⟨success, output, errors, d⟩
  | (.error e, d) => ⟨false, "", "Error: " ++ e.message ++ "\n", d⟩

def run (d : Directory) (arguments : List String) : CommandOutcome :=
  match arguments with
  | [] => ⟨true, usage, "", d⟩
  | command :: rest =>
    if command == "compile" then outcome d (compile rest true)
    else if command == "check" then outcome d (compile rest false)
    else if command ∈ ["help", "--help", "-h"] then ⟨true, usage, "", d⟩
    else if command ∈ ["--version", "-V", "version"] then ⟨true, version, "", d⟩
    else ⟨false, usage, "Unknown command: " ++ command ++ "\n", d⟩

def wantedFiles (arguments : List String) : List String :=
  match CompileArguments.parse (arguments.drop 1) with
  | .error _ => []
  | .ok a => a.config?.toList ++ [a.schema] ++ a.documents ++ a.database?.toList.flatMap leftovers

end CommandLine

end GraphDoc
