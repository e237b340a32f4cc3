import GlyphSearch.Service.State

/-!
# Descriptions

Loader and dataset as they are described in logs: the fields by their names,
texts and paths quoted.
-/

namespace GlyphSearch.Service

open Dataset Files Loading Text

/-- A path between quotes. -/
def quotedPath (p : Path) : String := quoted (decodeLossy p)

/-- A name with fields in braces. -/
def fieldsText (name : String) (fields : List (String × String)) : String :=
  let shown := fields.map fun (field, value) => field ++ ": " ++ value
  name ++ " \x7b " ++ String.intercalate ", " shown ++ " \x7d"

def stageText : Stage → String
  | .uninitialized => "Uninitialized"
  | .loading => "Loading"
  | .ready => "Ready"
  | .failed => "Failed"

def layoutText (l : Layout) : String :=
  fieldsText "DatasetLayout" [("index_subpath", quotedPath l.indexPath),
    ("labels_file", quotedPath l.labelsPath), ("metadata_file", quotedPath l.metadataPath)]

/-- The loader with its source and stage. -/
def loaderText (s : Service) : String :=
  fieldsText "DatasetLoader" [("source", quoted s.source.name), ("layout", layoutText s.layout),
    ("state", stageText s.stage)]

def directoryText : Option Directory → String
  | none => "None"
  | some (.kept path) => "Some(Local(" ++ quotedPath path ++ "))"
  | some (.temporary path) =>
    "Some(Temp(" ++ fieldsText "TempDir" [("path", quotedPath path)] ++ "))"

/-- The dataset, if it has been loaded. -/
def datasetText (s : Service) : String :=
  match s.dataset? with
  | none => "None"
  | some d =>
    "Some(" ++ fieldsText "Dataset" [("vectors", toString d.engine.count),
      ("dimension", toString d.engine.dimension), ("labels", toString d.labels.length),
      ("version", quoted d.version), ("dir", directoryText d.directory),
      ("loaded_at", s.now)] ++ ")"

end GlyphSearch.Service
