import GlyphSearch.Text.Ascii
import GlyphSearch.Text.Blank

/-!
# Paths

A path is a row of bytes, cut into names by `/`. A *route* is what a path
comes down to: the names from the root of the tree to a file or directory,
with no `.` or `..` among them.
-/

namespace GlyphSearch.Files

open Text

/-- The name of a file or directory in the directory that holds it. -/
abbrev Name := Bytes

/-- The names from the root of the tree down to a file or directory. -/
abbrev Route := List Name

/-- A path as it is written. -/
abbrev Path := Bytes

def slash : UInt8 := byte '/'

/-- The name of the directory itself. -/
def dot : Name := [byte '.']

/-- The name of the directory above. -/
def dotDot : Name := [byte '.', byte '.']

/-- The longest name. -/
def nameLimit : Nat := 255

/-- Paths are shorter than this. -/
def pathLimit : Nat := 4096

namespace Path

def isAbsolute (p : Path) : Bool := p.head? = some slash

/-- Whether a path ends as only a directory's path may. -/
def endsInSlash (p : Path) : Bool := p.getLast? = some slash

/-- The parts of a path that are not empty. -/
def segments (p : Path) : List Name := (p.splitOnP (· = slash)).filter (· ≠ [])

/-- The names that a path leads along. The path of a directory may end in a
slash, which is one more step on the spot. -/
def steps (p : Path) : List Name := p.segments ++ if p.endsInSlash then [dot] else []

/-- The parts of a path that name something: neither empty nor `.`. -/
def components (p : Path) : List Name := p.segments.filter (· ≠ dot)

/-- The path of `p` seen from the directory `base`. An absolute path is seen
alike from everywhere. -/
def join (base p : Path) : Path :=
  if p.isAbsolute ∨ base = [] then p
  else if base.endsInSlash then base ++ p
  else base ++ slash :: p

end Path

/-- Names with slashes between them. -/
def Route.relativePath (r : Route) : Path := (r.intersperse [slash]).flatten

/-- The path from the root. -/
def Route.absolutePath (r : Route) : Path := if r = [] then [slash] else r.flatMap (slash :: ·)

end GlyphSearch.Files
