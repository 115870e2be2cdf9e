import SynapseMem.Error

/-!
# Files

`Files` is a snapshot of the files and directories that a run can see. Paths are split at slashes
and followed component by component, so a path through a missing directory or through a plain file
fails as it does on disk. `Files.create` makes an empty file or empties an existing one, and
`Files.write` sets the content of a file.
-/

namespace SynapseMem

/-- A path as its components, with every `.` and `..` followed. -/
abbrev Path := List String

/-- The path as it is written. -/
def Path.text : Path → String
  | "/" :: rest => "/" ++ Text.joined "/" rest
  | parts => Text.joined "/" parts

/-- What a path leads to. -/
inductive Node where
  | file (content : ByteArray)
  | directory

/-- Why a path cannot be opened or created. -/
inductive FileError where
  | notFound
  | notDirectory
  | isDirectory
  | nameTooLong
  deriving DecidableEq, Repr

/-- The wording of a file error. -/
def FileError.message : FileError → String
  | .notFound => "No such file or directory (os error 2)"
  | .notDirectory => "Not a directory (os error 20)"
  | .isDirectory => "Is a directory (os error 21)"
  | .nameTooLong => "File name too long (os error 36)"

/-- The files and directories below the working directory. -/
structure Files where
  nodes : List (Path × Node)

namespace Files

/-- No files. -/
def empty : Files := ⟨[]⟩

/-- What a followed path leads to. The working directory, those above it and every directory on the
way to a known node exist. -/
def node? (files : Files) (path : Path) : Option Node :=
  match files.nodes.find? (fun entry => entry.1 == path) with
  | some entry => some entry.2
  | none =>
    if path.all (· == "..") || path == ["/"] ||
        files.nodes.any (fun entry => path.isPrefixOf entry.1) then
      some .directory
    else none

/-- The components of a written path; a slash at the end stands for the directory itself. -/
def components (text : String) : List String :=
  match text.splitOn "/" with
  | "" :: rest => "/" :: clean rest
  | parts => clean parts
where
  /-- Drop empty components, the last one apart. -/
  clean : List String → List String
    | [] => []
    | [""] => ["."]
    | "" :: parts => clean parts
    | part :: parts => part :: clean parts

/-- One component further along a path. -/
def enter (path : Path) (component : String) : Path :=
  if component == "." then path
  else if component == ".." then
    match path.getLast? with
    | none => [".."]
    | some ".." => path ++ [".."]
    | some "/" => path
    | some _ => path.dropLast
  else path ++ [component]

/-- The most bytes a component may have. -/
def componentLimit : Nat := 255

/-- The most bytes a written path may have. -/
def pathLimit : Nat := 4095

/-- Follow components, each from a directory. -/
def follow (files : Files) (path : Path) : List String → Except FileError Path
  | [] => .ok path
  | component :: rest =>
    match files.node? path with
    | some .directory =>
      if componentLimit < component.utf8ByteSize then .error .nameTooLong
      else follow files (enter path component) rest
    | some (.file _) => .error .notDirectory
    | none => .error .notFound

/-- The path that a written path leads to. -/
def locate (files : Files) (text : String) : Except FileError Path :=
  if pathLimit < text.utf8ByteSize then .error .nameTooLong
  else
    match components text with
    | "/" :: rest => files.follow ["/"] rest
    | parts => files.follow [] parts

/-- Open a path for reading. -/
def openNode (files : Files) (text : String) : Except FileError Node :=
  match files.locate text with
  | .error e => .error e
  | .ok path =>
    match files.node? path with
    | some node => .ok node
    | none => .error .notFound

/-- The content of a file. -/
def read (files : Files) (text : String) : Except FileError ByteArray :=
  match files.openNode text with
  | .error e => .error e
  | .ok .directory => .error .isDirectory
  | .ok (.file content) => .ok content

/-- The files with a path set to a node. A known path keeps its place. -/
def put (files : Files) (path : Path) (node : Node) : Files :=
  if files.nodes.any (fun entry => entry.1 == path) then
    ⟨files.nodes.map fun entry => if entry.1 == path then (path, node) else entry⟩
  else ⟨files.nodes ++ [(path, node)]⟩

/-- The files that are new or have other content than before, with their content. -/
def changes (before after : Files) : List (Path × ByteArray) :=
  after.nodes.filterMap fun
    | (path, .file content) =>
      match before.node? path with
      | some (.file old) => if old == content then none else some (path, content)
      | _ => some (path, content)
    | (_, .directory) => none

/-- Make an empty file, or empty an existing one, and give its path. -/
def create (text : String) : Step Files Path := do
  let files ← get
  match files.locate text with
  | .error e => throw (.error (.io e.message))
  | .ok path =>
    match files.node? path with
    | some .directory => throw (.error (.io FileError.isDirectory.message))
    | _ =>
      set (files.put path (.file ByteArray.empty))
      return path

/-- Write a text to the file at a path. -/
def write (path : Path) (text : String) : Step Files Unit :=
  modify fun files => files.put path (.file text.toUTF8)

/-- Write what a computation puts out to a new file, also when the computation stops. -/
def writing {α : Type} (text : String) (body : Step String α) : Step Files α := do
  let path ← create text
  let (result, output) := body.run.run ""
  write path output
  match result with
  | .ok a => return a
  | .error fault => throw fault

end Files

end SynapseMem
