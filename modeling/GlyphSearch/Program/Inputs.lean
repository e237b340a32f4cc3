import GlyphSearch.Program.Run

/-!
# What a program reads

The paths of all files that a program may read: the file with variables and
the configuration file when it starts, and the files of the dataset when this
is loaded. Whoever keeps a disk in step with real files needs no others.
-/

namespace GlyphSearch.Program

open Files Text

/-- The files of a dataset in a directory. -/
def directoryInputs (s : Config.DatasetSettings) (directory : Path) : List Path :=
  let layout := s.layout
  let index := directory.join layout.indexPath
  [directory, index.join Index.headerFile, index.join Index.vectorsFile,
    directory.join layout.labelsPath, directory.join layout.metadataPath]

/-- The files that loading reads. -/
def loadInputs (s : Config.DatasetSettings) : List Path :=
  match s.localPath, s.archivePath, s.bucket, s.object with
  | some path, _, _, _ => directoryInputs s (encode path)
  | _, some path, _, _ => [encode path]
  | _, _, some bucket, some object =>
    match s.backend, Storage.parseObject object with
    | .localFiles, .ok name => [encode bucket, Path.join (encode bucket) (encode name)]
    | _, _ => []
  | _, _, _, _ => []

/-- The files that may set variables, in the order in which they are looked
for. -/
def environmentInputs (workingDirectory : Route) : List Path :=
  (List.range (workingDirectory.length + 1)).map fun up =>
    (Route.absolutePath (workingDirectory.take (workingDirectory.length - up))).join
      Config.EnvironmentFile.fileName

/-- The configuration file. -/
def configInputs (env : Config.Environment) : List Path :=
  (env Config.fileVariable).toList.map encode

/-- Where a path leads to, if every name in it is that of a directory. -/
def destination (workingDirectory : Route) (p : Path) : Route :=
  p.segments.foldl
    (fun r name => if name = dot then r else if name = dotDot then r.dropLast else r ++ [name])
    (if p.isAbsolute then [] else workingDirectory)

end GlyphSearch.Program
