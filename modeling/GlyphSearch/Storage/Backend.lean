import GlyphSearch.Error
import GlyphSearch.Text.Blank

/-!
# Storage backends

The kinds of bucket that an archive may be kept in.
-/

namespace GlyphSearch.Storage

open Text

inductive Backend where
  | gcs
  | s3
  | azure
  /-- A directory takes the place of the bucket. -/
  | localFiles
  deriving DecidableEq, Repr

/-- The name of a backend in configuration files. -/
def Backend.name : Backend → String
  | gcs => "gcs"
  | s3 => "s3"
  | azure => "azure"
  | localFiles => "local"

def Backend.ofName? : String → Option Backend
  | "gcs" => some .gcs
  | "s3" => some .s3
  | "azure" => some .azure
  | "local" => some .localFiles
  | _ => none

/-- Reads a backend as people write it: in any case, with blanks around it,
and by its other name. -/
def Backend.parse (s : String) : Except Error Backend :=
  let name := lowerAscii (String.ofList (trim s.toList))
  match name with
  | "gcp" => .ok .gcs
  | "aws" => .ok .s3
  | "file" => .ok .localFiles
  | _ =>
    match Backend.ofName? name with
    | some b => .ok b
    | none => .error (.config (.unknownBackend name))

end GlyphSearch.Storage
