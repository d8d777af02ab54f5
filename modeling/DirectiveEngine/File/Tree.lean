import DirectiveEngine.Text.Utf8

/-!
# File trees

Files and directories under absolute paths, and what a written path leads to.  A written path is followed name
by name, so each name before the last must be a directory.  The lookup law is `get?_put`: writing one entry
leaves all others alone.
-/

namespace DirectiveEngine

inductive FileContent where
  | text (t : Text)
  /-- Bytes that are no text. -/
  | bytes (bs : Bytes)
  /-- A device that takes everything and holds nothing. -/
  | sink
  deriving DecidableEq

namespace FileContent

def ofBytes (bs : Bytes) : FileContent :=
  match Text.ofUtf8? bs with
  | some t => text t
  | none => bytes bs

def toBytes : FileContent → Bytes
  | text t => Text.toUtf8 t
  | bytes bs => bs
  | sink => []

end FileContent

inductive FileEntry where
  | directory
  | file (content : FileContent)
  deriving DecidableEq

/-- Why a path cannot be used. -/
inductive FileFault where
  | notFound
  | notADirectory
  | isADirectory
  | nameTooLong
  | invalidName
  | notText
  deriving DecidableEq

def FileFault.message : FileFault → Text
  | notFound => "No such file or directory (os error 2)"
  | notADirectory => "Not a directory (os error 20)"
  | isADirectory => "Is a directory (os error 21)"
  | nameTooLong => "File name too long (os error 36)"
  | invalidName => "file name contained an unexpected NUL byte"
  | notText => "stream did not contain valid UTF-8"

/-- The names on the way from the root. -/
abbrev FilePath := List Text

abbrev FileTree := List (FilePath × FileEntry)

namespace FileTree

/-- A tree with the null device and a directory for temporary files. -/
def initial : FileTree :=
  [(["dev"], .directory), (["dev", "null"], .file .sink), (["tmp"], .directory)]

/-- The root is always there. -/
def get? (tree : FileTree) (path : FilePath) : Option FileEntry :=
  if path.isEmpty then some .directory else List.lookup path tree

def put (path : FilePath) (entry : FileEntry) : FileTree → FileTree
  | [] => [(path, entry)]
  | (p, e) :: tree => if path = p then (path, entry) :: tree else (p, e) :: put path entry tree

theorem lookup_put (path p : FilePath) (entry : FileEntry) (tree : FileTree) :
    List.lookup p (put path entry tree) = if p = path then some entry else List.lookup p tree := by
  have lookup_cons (q : FilePath) (e : FileEntry) (rest : FileTree) :
      List.lookup p ((q, e) :: rest) = if p = q then some e else List.lookup p rest := by
    rw [List.lookup_cons]
    by_cases h : p = q
    · simp [h]
    · simp [h, beq_false_of_ne h]
  induction tree with
  | nil => simp only [put, lookup_cons]
  | cons head tree ih =>
    obtain ⟨q, e⟩ := head
    unfold put
    split
    · simp only [lookup_cons]
      grind
    · simp only [lookup_cons, ih]
      grind

theorem get?_put (path p : FilePath) (entry : FileEntry) (tree : FileTree) (h : path ≠ []) :
    get? (put path entry tree) p = if p = path then some entry else get? tree p := by
  unfold get?
  rw [lookup_put]
  cases p with
  | nil => simp [Ne.symm h]
  | cons a p => simp

/-! ### Following paths -/

def maxNameBytes : Nat := 255

/-- One name further.  Empty names and single points lead nowhere else, and two points lead back. -/
def step (tree : FileTree) (place : FilePath) (name : Text) : Except FileFault FilePath :=
  if tree.get? place ≠ some .directory then .error .notADirectory
  else if name = "" ∨ name = "." then .ok place
  else if name = ".." then .ok place.dropLast
  else if maxNameBytes < Text.utf8Size name then .error .nameTooLong
  else .ok (place ++ [name])

/-- Follows names, all of which must exist. -/
def locate (tree : FileTree) (place : FilePath) (names : List Text) : Except FileFault FilePath :=
  names.foldlM (fun place name => do
    let next ← tree.step place name
    if (tree.get? next).isSome then return next else .error .notFound) place

/-- Follows names and makes a directory of each that is missing.  The directories that were made before a
fault stay. -/
def makeDirectories (tree : FileTree) (place : FilePath) : List Text → FileTree × Except FileFault FilePath
  | [] => (tree, if tree.get? place = some .directory then .ok place else .error .notADirectory)
  | name :: names =>
    match tree.step place name with
    | .error fault => (tree, .error fault)
    | .ok next =>
      if (tree.get? next).isSome then makeDirectories tree next names
      else makeDirectories (tree.put next .directory) next names

/-! ### Contents -/

def readText (tree : FileTree) (path : FilePath) : Except FileFault Text :=
  match tree.get? path with
  | none => .error .notFound
  | some .directory => .error .isADirectory
  | some (.file (.text t)) => .ok t
  | some (.file (.bytes _)) => .error .notText
  | some (.file .sink) => .ok []

/-- Replaces the content of a file, or makes it. -/
def writeText (tree : FileTree) (path : FilePath) (t : Text) : Except FileFault FileTree :=
  match tree.get? path with
  | some .directory => .error .isADirectory
  | some (.file .sink) => .ok tree
  | _ => .ok (tree.put path (.file (.text t)))

/-- What stands below a directory, by names from there. -/
def below (tree : FileTree) (directory : FilePath) : List (FilePath × FileEntry) :=
  tree.filterMap fun e => (directory.isPrefixOf? e.1).bind fun p => if p.isEmpty then none else some (p, e.2)

end FileTree

/-! ### Written paths -/

/-- The names of a written path. -/
def pathNames (t : Text) : List Text :=
  t.splitOn '/'

def isAbsolutePath (t : Text) : Bool :=
  t.head? == some '/'

/-- A path inside a directory; an absolute path stays as it is. -/
def joinPath (directory t : Text) : Text :=
  if isAbsolutePath t || directory.isEmpty then t
  else if directory.getLast? = some '/' then directory ++ t
  else directory ++ '/' :: t

namespace FileTree

/-- What a written path leads to from the working directory. -/
def locateText (tree : FileTree) (working : FilePath) (t : Text) : Except FileFault FilePath :=
  if '\x00' ∈ t then .error .invalidName
  else if t.isEmpty then .error .notFound
  else tree.locate (if isAbsolutePath t then [] else working) (pathNames t)

end FileTree
end DirectiveEngine
