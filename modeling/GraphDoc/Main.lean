import GraphDoc.CommandLine

/-!
# The program

Reads the files that the command wants, runs it and brings the disk to the state that it leaves
behind.
-/

set_option autoImplicit false

namespace GraphDoc

def readFiles : List String → IO (List (String × String))
  | [] => return []
  | path :: rest => do
    let found ← try pure [(path, ← IO.FS.readFile path)] catch _ => pure []
    return found ++ (← readFiles rest)

def bringTo (before after : Directory) : IO Unit := do
  for p in after.folders do
    unless before.isFolder p do IO.FS.createDirAll p.path
  for (p, _) in before.files do
    unless after.isFile p do IO.FS.removeFile p.path
  for (p, content) in after.files do
    unless before.files.lookup p == some content do IO.FS.writeFile p.path content

def runProgram (arguments : List String) : IO UInt32 := do
  let before := Directory.ofFiles (← readFiles (CommandLine.wantedFiles arguments))
  let outcome := CommandLine.run before arguments
  bringTo before outcome.directory
  (← IO.getStdout).putStr outcome.output
  (← IO.getStderr).putStr outcome.errors
  return if outcome.success then 0 else 1

end GraphDoc

def main (arguments : List String) : IO UInt32 := GraphDoc.runProgram arguments
