import GlyphSearch.Dataset.Basic
import GlyphSearch.Storage.Backend

/-!
# Configuration

What the service can be told: where it listens, where its dataset comes from
and how that is laid out, and how it logs. `validate` refuses settings that
contradict each other, and paths that could lead out of the dataset's
directory.
-/

namespace GlyphSearch.Config

open Files Storage Text

structure ServerSettings where
  host : String
  port : Nat
  /-- Seconds that a request may take. -/
  requestTimeout : Nat
  /-- Bytes that a request's body may have. -/
  bodyLimit : Nat
  deriving DecidableEq, Repr

structure DatasetSettings where
  /-- The dataset's directory. It comes before every other source. -/
  localPath : Option String
  /-- An archive of the dataset. -/
  archivePath : Option String
  /-- The bucket that holds the archive, and the archive's name in it. -/
  bucket : Option String
  object : Option String
  backend : Backend
  indexPath : String
  labelsPath : String
  metadataPath : String
  /-- Seconds that loading may take. -/
  loadTimeout : Nat
  /-- Whether loading begins as soon as the program starts. -/
  warmup : Bool
  deriving DecidableEq, Repr

structure LogSettings where
  level : String
  format : String
  deriving DecidableEq, Repr

structure Settings where
  server : ServerSettings
  dataset : DatasetSettings
  logging : LogSettings
  deriving DecidableEq, Repr

def ServerSettings.default : ServerSettings := ⟨"0.0.0.0", 8080, 30, 64 * 1024⟩

def DatasetSettings.default : DatasetSettings where
  localPath := none
  archivePath := none
  bucket := none
  object := none
  backend := .gcs
  indexPath := "anng"
  labelsPath := "names.txt"
  metadataPath := "metadata.json"
  loadTimeout := 300
  warmup := true

def LogSettings.default : LogSettings := ⟨"info", "text"⟩

def Settings.default : Settings := ⟨.default, .default, .default⟩

/-- The layout of the dataset's directory. -/
def DatasetSettings.layout (s : DatasetSettings) : Dataset.Layout :=
  ⟨encode s.indexPath, encode s.labelsPath, encode s.metadataPath⟩

/-- Whether a path is sure to stay in the directory that it is seen from. -/
def isInside (p : Path) : Bool := !p.isAbsolute && !(p.segments.contains dotDot)

/-- Refuses a path that is blank or may lead out of the dataset's
directory. -/
def checkInside (setting value : String) : Except ConfigFault Unit :=
  if isAllBlank value then .error (.emptyPath setting)
  else if isInside (encode value) then .ok ()
  else .error (.escapingPath setting value)

/-- Bucket and object go together. -/
def checkObject (s : DatasetSettings) : Except ConfigFault Unit :=
  match s.bucket, s.object with
  | some _, none => .error .objectMissing
  | none, some _ => .error .bucketMissing
  | _, _ => .ok ()

/-- Refuses settings of the dataset that cannot be used. -/
def DatasetSettings.check (s : DatasetSettings) : Except ConfigFault Unit := do
  checkObject s
  if s.loadTimeout = 0 then .error .zeroLoadTimeout
  checkInside "index_subpath" s.indexPath
  checkInside "labels_file" s.labelsPath
  checkInside "metadata_file" s.metadataPath

/-- Refuses settings that cannot be used. -/
def validate (s : Settings) : Except Error Unit := s.dataset.check.mapError .config

end GlyphSearch.Config
