import GlyphSearch.Error
import GlyphSearch.Files.Path

/-!
# The tree of files

A tree lists what is at each route: a directory, a file with its content, a
link to some path, or a device. The root is always a directory. Everything
else is there only below a directory, and the operations keep it so. No file
has two routes.

Paths are followed as they are written: `..` leads to the directory above the
one that has been reached, and a link leads to where its own path does. So a
name may lead anywhere, and only a look at the tree can tell where.

An operation that fails may have done part of its work, so it gives the tree
that it leaves along with the fault.
-/

namespace GlyphSearch.Files

open Text

/-- What a listing of a directory shows. -/
inductive Entry where
  | directory
  | file (content : Bytes)
  deriving DecidableEq

/-- What is at a route. -/
inductive Node where
  | directory
  | file (content : Bytes)
  /-- A link to a path, which is seen from the directory that holds the
  link. -/
  | link (target : Path)
  /-- A device, a pipe or a socket, with what can be read from it. -/
  | device (content : Bytes)
  deriving DecidableEq

/-- What a listing shows of a node. Links and devices are passed over. -/
def Node.entry? : Node → Option Entry
  | directory => some .directory
  | file content => some (.file content)
  | link _ | device _ => none

/-- The files and directories below the root. -/
structure Tree where
  nodes : List (Route × Node)

/-- A fault, or nothing. -/
abbrev Done := Except FileFault Unit

/-- The fault of a path that runs through too many links. -/
def tooManyLinks : FileFault := .told "Too many levels of symbolic links (os error 40)"

namespace Tree

/-- The tree that has only its root. -/
def empty : Tree := ⟨[]⟩

/-- What is at a route. -/
def get? (t : Tree) (r : Route) : Option Node :=
  if r = [] then some .directory else t.nodes.lookup r

/-- Puts a node at a route, in place of what was there. -/
def set (t : Tree) (r : Route) (n : Node) : Tree :=
  ⟨(r, n) :: t.nodes.filter (·.1 ≠ r)⟩

@[simp] theorem get?_nil (t : Tree) : t.get? [] = some .directory := if_pos rfl

theorem get?_set_of_ne (t : Tree) {r s : Route} (n : Node) (h : s ≠ r) :
    (t.set r n).get? s = t.get? s := by
  have kept : ∀ nodes : List (Route × Node),
      (nodes.filter (·.1 ≠ r)).lookup s = nodes.lookup s := by
    intro nodes
    induction nodes with
    | nil => rfl
    | cons node rest ih =>
      obtain ⟨route, n⟩ := node
      by_cases same : route = r
      · have other : (s == route) = false := by simpa [same] using h
        rw [List.filter_cons_of_neg (by simpa using same), List.lookup_cons, other]
        exact ih
      · rw [List.filter_cons_of_pos (by simpa using same), List.lookup_cons, List.lookup_cons, ih]
  have other : (s == r) = false := by simpa using h
  unfold get? set
  rw [List.lookup_cons, other, kept]

theorem get?_set_self (t : Tree) {r : Route} (n : Node) (h : r ≠ []) :
    (t.set r n).get? r = some n := by
  unfold get? set
  rw [if_neg h, List.lookup_cons, beq_self_eq_true]

/-- Removes what is at a route, with everything below it. -/
def erase (t : Tree) (r : Route) : Tree :=
  ⟨t.nodes.filter fun (route, _) => !r.isPrefixOf route⟩

/-- Removes everything below a route. -/
def clear (t : Tree) (r : Route) : Tree :=
  ⟨t.nodes.filter fun (route, _) => route = r || !r.isPrefixOf route⟩

def isDirectory (t : Tree) (r : Route) : Bool := t.get? r = some .directory

/-- What a directory holds, at any depth, by the path from that directory in
the order of its bytes. -/
def below (t : Tree) (r : Route) : List (Path × Entry) :=
  let inside := t.nodes.filterMap fun (route, node) =>
    if r.isPrefixOf route ∧ route ≠ r then
      node.entry?.map (Route.relativePath (route.drop r.length), ·)
    else none
  inside.mergeSort fun a b => a.1 ≤ b.1

/-- How many entries a directory has. -/
def countIn (t : Tree) (r : Route) : Nat :=
  (t.nodes.filter fun (route, _) => r.isPrefixOf route && route.length = r.length + 1).length

/-! ## Following paths -/

/-- As many links may be followed on the way to one file. -/
def linkLimit : Nat := 40

/-- Follows names from a directory, given how to go on behind a link. Every
name but the last has to be that of a directory; what the last one names need
not exist. -/
def walkWith (t : Tree) (goOn : Route → List Name → Except FileFault Route) (start : Route) :
    List Name → Except FileFault Route
  | [] => .ok start
  | name :: rest =>
    match t.get? start with
    | none => .error .notFound
    | some .directory =>
      if name = dot then t.walkWith goOn start rest
      else if name = dotDot then t.walkWith goOn start.dropLast rest
      else if nameLimit < name.length then .error .invalidName
      else
        match t.get? (start ++ [name]) with
        | some (.link target) =>
          goOn (if target.isAbsolute then [] else start) (target.steps ++ rest)
        | _ => t.walkWith goOn (start ++ [name]) rest
    | some _ => .error .notADirectory

/-- Follows names from a directory, through so many links at most. -/
def walk (t : Tree) : Nat → Route → List Name → Except FileFault Route
  | 0 => t.walkWith fun _ _ => .error tooManyLinks
  | links + 1 => t.walkWith (t.walk links)

/-- The route that names lead to from a directory, and what is there. -/
def follow (t : Tree) (start : Route) (names : List Name) : Except FileFault (Route × Node) := do
  let r ← t.walk linkLimit start names
  match t.get? r with
  | none => .error .notFound
  | some node => .ok (r, node)

/-- Refuses paths that no file has, whatever the tree. -/
def checkPath (p : Path) : Done :=
  if p.contains 0 then .error .invalidInput
  else if p = [] then .error .notFound
  else if pathLimit ≤ p.length then .error .invalidName
  else .ok ()

/-- What a path leads to, seen from a working directory, and its route. -/
def find (t : Tree) (workingDirectory : Route) (p : Path) : Except FileFault (Route × Node) := do
  checkPath p
  t.follow (if p.isAbsolute then [] else workingDirectory) p.steps

/-- Whether a path leads to anything. -/
def pathExists (t : Tree) (workingDirectory : Route) (p : Path) : Bool :=
  (t.find workingDirectory p).toBool

/-- The content of the file at a path. -/
def read (t : Tree) (workingDirectory : Route) (p : Path) : Except FileFault Bytes := do
  match ← t.find workingDirectory p with
  | (_, .file content) | (_, .device content) => .ok content
  | (_, .directory) => .error .isADirectory
  | (_, .link _) => .error tooManyLinks

/-! ## Making directories and files -/

/-- Makes directories one below the other, starting in a directory; those
that are there already are left as they are. -/
def makeDirectories (t : Tree) (start : Route) : List Name → Tree × Done
  | [] => (t, .ok ())
  | name :: rest =>
    if name = dot then t.makeDirectories start rest
    else if name = dotDot then t.makeDirectories start.dropLast rest
    else
      let here := start ++ [name]
      match t.get? here with
      | none =>
        if nameLimit < name.length then (t, .error .invalidName)
        else (t.set here .directory).makeDirectories here rest
      | some .directory => t.makeDirectories here rest
      | some (.link target) =>
        match t.follow (if target.isAbsolute then [] else start) target.steps with
        | .ok (r, .directory) => t.makeDirectories r rest
        | .ok _ => (t, .error (if rest = [] then .alreadyExists else .notADirectory))
        | .error fault =>
          (t, .error (if rest = [] ∨ fault = .notFound then .alreadyExists else fault))
      | some _ => (t, .error (if rest = [] then .alreadyExists else .notADirectory))

/-- Writes a file, in place of one that is there. Every name but the last has
to lead to a directory. A device takes what is written to it. -/
def writeFile (t : Tree) (start : Route) (names : List Name) (content : Bytes) : Tree × Done :=
  match t.walk linkLimit start names with
  | .error fault => (t, .error fault)
  | .ok r =>
    match t.get? r with
    | none | some (.file _) => (t.set r (.file content), .ok ())
    | some .directory => (t, .error .isADirectory)
    | some (.link _) => (t, .error tooManyLinks)
    | some (.device _) => (t, .ok ())

end Tree

end GlyphSearch.Files
