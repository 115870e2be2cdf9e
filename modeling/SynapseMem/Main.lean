import SynapseMem.Command.Run

/-!
# The program

Takes a snapshot of the files that a command line names, runs the command on it, and puts the
changes and the output in place.
-/

namespace SynapseMem

/-- What a path leads to on disk. -/
def diskNode? (path : Path) : IO (Option Node) := do
  try
    return some (.file (← IO.FS.readBinFile path.text))
  catch
    | .inappropriateType .. => return some .directory
    | _ => return none

/-- Add a path and the directories on the way to it to a snapshot. -/
def snapshot (files : Files) (path : Path) : List String → IO Files
  | [] => return files
  | component :: rest => do
    let next := if component == "/" then ["/"] else Files.enter path component
    if next.isEmpty then snapshot files next rest
    else
      match ← diskNode? next with
      | none => return files
      | some (.file content) => return files.put next (.file content)
      | some .directory => snapshot (files.put next .directory) next rest

/-- The snapshot that a command line needs. -/
def snapshotFor (args : List String) : IO Files :=
  match Command.parse args with
  | .error _ => return Files.empty
  | .ok line =>
    line.paths.foldlM (fun files text => snapshot files [] (Files.components text)) .empty

end SynapseMem

open SynapseMem in
/-- Run the command line. -/
def main (args : List String) : IO UInt32 := do
  let files ← snapshotFor args
  let result := Command.run files args
  for (path, content) in files.changes result.files do
    IO.FS.writeBinFile path.text content
  IO.print result.output
  IO.eprint result.complaint
  return result.exitCode.toUInt32
