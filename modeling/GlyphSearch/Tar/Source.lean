import GlyphSearch.Error
import GlyphSearch.Text.Utf8

/-!
# Sources of archive bytes

The bytes that can be read from an archive, and what a reader meets behind the
last of them: the end, or a fault.
-/

namespace GlyphSearch.Tar

/-- What comes behind the last byte. -/
inductive Ending where
  | clean
  | broken (fault : FileFault)
  deriving DecidableEq, Repr

structure Source where
  content : Bytes
  ending : Ending

namespace Source

/-- A source of bytes that are all there. -/
def ofBytes (content : Bytes) : Source := ⟨content, .clean⟩

/-- The source behind the first `n` bytes. -/
def drop (s : Source) (n : Nat) : Source := { s with content := s.content.drop n }

end Source

end GlyphSearch.Tar
