import DirectiveEngine.File.Tree
import DirectiveEngine.Yaml.Path
import DirectiveEngine.Yaml.PlainText
import DirectiveEngine.Yaml.Read

/-!
# Files for bundles

What a file token reads and writes.  A path is read where it leads from the working directory, or else in the
data directory; it is written in the data directory unless it is absolute.  With a key, a token is about one
value of a YAML document.
-/

namespace DirectiveEngine

/-- Why a file cannot be read or written. -/
inductive FileError where
  | fault (path : Text) (fault : FileFault)
  | malformed
  /-- A mapping with a tag stands where an entry is to be set: no failure that is reported, but a panic. -/
  | tagged
  deriving DecidableEq

structure FileAccess where
  tree : FileTree
  /-- Where relative paths start. -/
  working : FilePath
  /-- The data directory, as written in the settings. -/
  dataDir : Text
  deriving DecidableEq

namespace FileAccess

/-- The document in a file; a blank one is null. -/
def document (content : Text) : Except FileError Yaml :=
  if content.trim.isEmpty then .ok .null
  else
    match Yaml.read? content with
    | some v => .ok v
    | none => .error .malformed

/-- The place that a path is read from, with the path that leads there. -/
def locate? (files : FileAccess) (path : Text) : Option (Text × FilePath) :=
  let place? (t : Text) := ((files.tree.locateText files.working t).toOption).map fun p => (t, p)
  (place? path).or (place? (if path.isEmpty then files.dataDir ++ "/" else joinPath files.dataDir path))

/-- The trimmed content of a file, or the value under a key in it.  What is not there reads as nothing. -/
def read (files : FileAccess) (path : Text) (key : Option Text) : Except FileError Text :=
  match files.locate? path with
  | none => .ok []
  | some (written, place) =>
    match files.tree.readText place with
    | .error f => .error (.fault written f)
    | .ok content =>
      match key with
      | none => .ok content.trim
      | some key => (document content).map fun v => ((v.get? (Yaml.pathOf key)).map Yaml.plainText).getD []

/-- The directories on the way to a file, its name, and whether the path goes on behind that name. -/
def splitFileName (names : List Text) : List Text × Option Text × Bool :=
  let rest := names.reverse.dropWhile fun n : Text => n.isEmpty || n == ['.']
  match rest with
  | [] => ([], none, false)
  | name :: directories => (directories.reverse, some name, rest.length != names.length)

/-- What a keyed write makes of the content of a file, if there is one. -/
def editDocument (content : Option Text) (key value : Text) : Except FileError Text :=
  match (content.map document).getD (.ok (.mapping [])) with
  | .error e => .error e
  | .ok v =>
    match v.set? (Yaml.pathOf key) (Yaml.ofText value) with
    | some v => .ok v.write
    | none => .error .tagged

/-- Puts a text in the place of what a file holds, or under a key of it. -/
def writeAt (tree : FileTree) (path : Text) (place : FilePath) (key : Option Text) (value : Text) :
    Except FileError FileTree := do
  let asError (r : Except FileFault FileTree) : Except FileError FileTree :=
    match r with
    | .ok tree => .ok tree
    | .error f => .error (.fault path f)
  match key with
  | none => asError (tree.writeText place value)
  | some key =>
    match tree.get? place with
    | none => asError (tree.writeText place (← editDocument none key value))
    | some _ =>
      match tree.readText place with
      | .error f => .error (.fault path f)
      | .ok content => asError (tree.writeText place (← editDocument (some content) key value))

/-- The place of a file in a directory, by its name and whether the path goes on behind it. -/
def filePlace (tree : FileTree) (directory : FilePath) (name : Option Text) (goesOn : Bool) :
    Except FileFault FilePath :=
  match name with
  | none => .error .isADirectory
  | some name =>
    if name = ".." then .error .isADirectory
    else
      match tree.step directory name with
      | .error f => .error f
      | .ok place =>
        if !goesOn then .ok place
        else if tree.get? place = some .directory then .error .isADirectory
        else .error .notADirectory

/-- Writes a file, after making the directories on the way to it. -/
def write (files : FileAccess) (path : Text) (key : Option Text) (value : Text) :
    FileAccess × Except FileError Unit :=
  let target := joinPath files.dataDir path
  if '\x00' ∈ (splitFileName (pathNames target)).1.flatten then (files, .error (.fault target .invalidName))
  else
    let (directories, name, goesOn) := splitFileName (pathNames target)
    let start := if isAbsolutePath target then [] else files.working
    match files.tree.makeDirectories start directories with
    | (tree, .error f) => ({ files with tree }, .error (.fault target f))
    | (tree, .ok directory) =>
      let files := { files with tree }
      if '\x00' ∈ target then (files, .error (.fault target .invalidName))
      else
        match filePlace tree directory name goesOn with
        | .error f => (files, .error (.fault target f))
        | .ok place =>
          match writeAt tree target place key value with
          | .error e => (files, .error e)
          | .ok tree => ({ files with tree }, .ok ())

end FileAccess
end DirectiveEngine
