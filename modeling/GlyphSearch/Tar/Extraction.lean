import GlyphSearch.Files.Tree
import GlyphSearch.Gzip.Member
import GlyphSearch.Tar.MemberPath
import GlyphSearch.Tar.Reader

/-!
# Extraction

Members are extracted one after the other below a destination. The first one
that must not be extracted ends the extraction: one with an unsafe path, one
that is neither a file nor a directory, or a file without a name. What has
been extracted before stays.

Every step gives the state that it leaves, also when it fails.
-/

namespace GlyphSearch.Tar

open Files Text

/-- What an extraction has written so far. -/
structure Progress where
  tree : Tree
  files : Nat
  directories : Nat
  bytes : Nat
  /-- Members that were extracted. -/
  members : Nat

abbrev Step := Progress × Except Error Unit

/-- Goes on, unless a step has failed. -/
def Step.andThen : Step → (Progress → Step) → Step
  | (p, .ok ()), next => next p
  | failed, _ => failed

/-- Changes the tree. -/
def Progress.changeTree (p : Progress) (change : Tree → Tree × Done) : Step :=
  let (tree, done) := change p.tree
  ({ p with tree }, done.mapError .file)

/-- Refuses a path that no file can have. -/
def Progress.checkTarget (p : Progress) (target : Route) : Step :=
  (p, (Tree.checkPath (Route.absolutePath target)).mapError .file)

/-- Makes the directories of a route below the destination, which is there
itself. -/
def Progress.makeDirectories (p : Progress) (destination route : Route) : Step :=
  if route = [] then (p, .ok ())
  else (p.checkTarget (destination ++ route)).andThen fun p =>
    p.changeTree fun t => t.makeDirectories destination route

/-- Makes the directory of a member. -/
def extractDirectory (p : Progress) (destination route : Route) : Step :=
  if route = [] then (p, .ok ())
  else (p.makeDirectories destination route).andThen fun p =>
    ({ p with directories := p.directories + 1, members := p.members + 1 }, .ok ())

/-- The fault that a reader meets when the data of a member ends early. -/
def Member.shortFault (m : Member) : Except Error Unit :=
  if m.size ≤ m.reader.source.content.length then .ok ()
  else
    match m.reader.source.ending with
    | .clean => .ok ()
    | .broken fault => .error (.file fault)

/-- Writes the file of a member, making the directories above it. Data that
ends early without a fault makes a short file; the archive is then found
malformed when its next member is read. -/
def extractFile (p : Progress) (destination route : Route) (m : Member) : Step :=
  if route = [] then (p, .error (.archive (.emptyPath (decodeLossy m.path))))
  else
    let data := m.reader.source.content.take m.size
    (p.makeDirectories destination route.dropLast).andThen fun p =>
    (p.checkTarget (destination ++ route)).andThen fun p =>
    (p.changeTree fun t => t.writeFile destination route data).andThen fun p =>
    Step.andThen (p, m.shortFault) fun p =>
    ({ p with
        files := p.files + 1
        bytes := p.bytes + data.length
        members := p.members + 1 }, .ok ())

/-- Extracts one member. -/
def extractMember (p : Progress) (destination : Route) (m : Member) : Step :=
  if m.kind.isMetadata then (p, .ok ())
  else
    match memberRoute m.path with
    | .error e => (p, .error e)
    | .ok route =>
      match m.kind with
      | .directory => extractDirectory p destination route
      | .regular => extractFile p destination route m
      | kind => (p, .error (.unsupportedMember (decodeLossy m.path) kind.name))

/-- Extracts members up to the end of the archive. Each takes at least one
block. -/
def extractFrom (destination : Route) : Nat → Progress → Reader → Step
  | 0, p, _ => (p, .error malformed)
  | fuel + 1, p, r =>
    match r.nextMember with
    | .error e => (p, .error e)
    | .ok none => (p, .ok ())
    | .ok (some m) =>
      (extractMember p destination m).andThen fun p => extractFrom destination fuel p m.reader

/-- Extracts what can be read from a source below a directory that is there. -/
def extractSource (t : Tree) (destination : Route) (source : Source) : Step :=
  extractFrom destination (source.content.length + 2) ⟨t, 0, 0, 0, 0⟩ (.ofSource source)

/-- Extracts an archive that is not compressed. -/
def extractPlain (t : Tree) (destination : Route) (content : Bytes) : Step :=
  extractSource t destination (.ofBytes content)

/-- Extracts an archive, compressed or not. -/
def extract (t : Tree) (destination : Route) (content : Bytes) : Step :=
  if Gzip.isCompressed content then extractSource t destination (Gzip.source content)
  else extractPlain t destination content

end GlyphSearch.Tar
