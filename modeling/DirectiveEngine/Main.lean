import DirectiveEngine.CommandLine.Run

/-!
# The program

Takes the command line, the settings and the catalogue from the system, and prints what the order yields.
-/

namespace DirectiveEngine

/-- Where the program keeps its working directory in a file tree. -/
def workingDirectory : FilePath := ["work"]

/-- The content of a file, if it can be read. -/
def loadFile? (path : Text) : IO (Option FileContent) := do
  try
    let bytes ← IO.FS.readBinFile (String.ofList path)
    return some (.ofBytes bytes.toList)
  catch _ => return none

/-- A tree with the files under some relative paths, as far as they exist. -/
def loadTree (paths : List Text) : IO FileTree := do
  let mut tree := (FileTree.initial.makeDirectories [] workingDirectory).1
  for path in paths do
    match ← loadFile? path with
    | some content =>
      let names := workingDirectory ++ pathNames path
      tree := (tree.makeDirectories [] names.dropLast).1.put names (.file content)
    | none => pure ()
  return tree

end DirectiveEngine

open DirectiveEngine in
def main (args : List String) : IO UInt32 := do
  let words := args.map String.toList
  let fromSystem ← IO.getEnv (String.ofList CommandLine.bundlesVariable)
  let environment : Dictionary Text :=
    match fromSystem with
    | some value => [(CommandLine.bundlesVariable, value.toList)]
    | none => []
  let paths := match CommandLine.order (fromSystem.map String.toList) words with
    | .ok o => [o.config, o.bundles]
    | .error _ => []
  let tree ← loadTree paths
  let draw ← IO.rand 0 0x100000000
  let outcome := CommandLine.run { tree, working := workingDirectory, environment } draw words
  IO.print (String.ofList outcome.output)
  IO.eprint (String.ofList outcome.errors)
  return outcome.status.toUInt32
