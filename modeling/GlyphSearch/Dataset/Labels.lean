import GlyphSearch.Error
import GlyphSearch.Text.Blank
import GlyphSearch.Text.Ascii

/-!
# Labels

Line `n` of the labels file names the glyph of vector `n`. Blanks at the end
of a line, a carriage return among them, are not part of the label; an empty
line is an empty label. Only the empty part behind the last line end is no
line.
-/

namespace GlyphSearch.Dataset

open Text

/-- Drops the empty part behind a last line end. -/
def dropEmptyLast (lines : List Bytes) : List Bytes :=
  if lines.getLast? = some [] then lines.dropLast else lines

/-- The label that a line holds. -/
def labelOfLine? (line : Bytes) : Option String :=
  (decode? line).map fun s => String.ofList (trimEnd s.toList)

/-- The labels in the content of a file. -/
def parseLabels (content : Bytes) : Except FileFault (List String) :=
  match (dropEmptyLast (content.splitOnP (· = byte '\n'))).mapM labelOfLine? with
  | some labels => .ok labels
  | none => .error .invalidData

/-- The label of a vector. A vector without label means that index and labels
do not belong together. -/
def resolveLabel (labels : List String) (id : Nat) : Except Error String :=
  match labels[id]? with
  | some label => .ok label
  | none => .error (.consistency (.idOutOfRange id labels.length))

end GlyphSearch.Dataset
