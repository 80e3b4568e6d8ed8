import JavaStubs.CommandLine.Report

namespace JavaStubs.CommandLine

/-- Takes down what is at a place, without the content of files. -/
def recordNode (fs : FileSystem) (place : Place) : IO FileSystem := do
  let path := (← IO.currentDir) / Place.path place
  if ← path.isDir then return fs.put place .directory
  else if ← path.pathExists then return fs.put place (.file .empty)
  else return fs

/-- Takes down everything on the way to a path, and what is at its end. -/
def recordWay (fs : FileSystem) (path : Path) : IO FileSystem := do
  let step (state : FileSystem × Place) (piece : String) : IO (FileSystem × Place) := do
    let place := FileSystem.advance state.2 piece
    return (← recordNode state.1 place, place)
  return (← (Text.pieces '/' path).foldlM step (fs, fs.start path)).1

/-- Takes down a directory with all descriptors in it. -/
partial def recordTree (fs : FileSystem) (place : Place) : IO FileSystem := do
  let path := (← IO.currentDir) / Place.path place
  if ← path.isDir then
    let mut fs := fs.put place .directory
    for entry in ← path.readDir do
      fs ← recordTree fs (place ++ [entry.fileName])
    return fs
  else if Text.endsWith ".xml" (Place.path place) then
    return fs.put place (.file (← IO.FS.readBinFile path))
  else return fs

/-- The files that a request can touch: descriptors, and the targets of its names. -/
def record (request : Request) : IO FileSystem := do
  let workDir := (Text.pieces '/' (← IO.currentDir).toString).filter (!Path.isIdle ·)
  let mut fs : FileSystem := { workDir }
  fs ← recordWay fs (Place.path workDir)
  for name in request.names do
    let naming := request.generator.naming
    let generated := naming.generatedName ⟨Text.trim name⟩
    fs ← recordWay fs (naming.targetPath request.generator.output generated)
  match request.source with
  | none => return fs
  | some source =>
    fs ← recordWay fs source
    recordTree fs ((Text.pieces '/' source).foldl FileSystem.advance (fs.start source))

/-- Makes the changes between two records on disk. -/
def carryOut (before after : FileSystem) : IO Unit :=
  for (place, node) in after.nodes.reverse do
    if before.node? place != some node then
      match node with
      | .directory => IO.FS.createDirAll (Place.path place)
      | .file content =>
        let staged := Place.path place ++ ".tmp"
        IO.FS.writeBinFile staged content
        IO.FS.rename staged (Place.path place)

def performed (env : Environment) (words : List String) : IO Report := do
  match Request.ofWords env words with
  | .error halt => return halt.report
  | .ok request =>
    let before ← record request
    let (report, after) := request.run before
    carryOut before after
    return report

end JavaStubs.CommandLine

open JavaStubs.CommandLine in
def main (words : List String) : IO UInt32 := do
  let env : Environment :=
    { output := ← IO.getEnv "IMPLGEN_OUTPUT", source := ← IO.getEnv "IMPLGEN_SOURCE" }
  let report ← performed env words
  IO.print report.stdout
  IO.eprint report.stderr
  return report.exitCode.toUInt32
