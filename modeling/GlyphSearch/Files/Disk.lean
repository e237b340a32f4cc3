import GlyphSearch.Files.Tree

/-!
# Disks

A disk is the tree of files with what a process sees of it: its working
directory, and where it makes temporary directories. Their names are never
used twice.
-/

namespace GlyphSearch.Files

open Text

structure Disk where
  tree : Tree
  workingDirectory : Route
  /-- Temporary directories are made in here. -/
  scratch : Path
  /-- How many of them have been made. -/
  made : Nat

namespace Disk

/-- How the names of temporary directories begin. -/
def temporaryStem : Name := bytes "hwrsearch-"

/-- Looks up a path. -/
def find (d : Disk) (p : Path) : Except FileFault (Route × Node) :=
  d.tree.find d.workingDirectory p

/-- The content of a file. -/
def read (d : Disk) (p : Path) : Except FileFault Bytes := d.tree.read d.workingDirectory p

/-- The name of a temporary directory. -/
def temporaryName (n : Nat) : Name := temporaryStem ++ bytes (toString n)

/-- Makes a temporary directory, under the first name from the next one on that
nobody has. -/
def makeTemporary (d : Disk) : Disk × Except FileFault Path :=
  match d.find d.scratch with
  | .error fault => (d, .error fault)
  | .ok (r, .directory) =>
    let numbers := (List.range (d.tree.nodes.length + 1)).map (d.made + ·)
    match numbers.find? fun n => (d.tree.get? (r ++ [temporaryName n])).isNone with
    | none => (d, .error .alreadyExists)
    | some n =>
      let name := temporaryName n
      let path := d.scratch.join name
      if nameLimit < name.length ∨ pathLimit ≤ path.length then (d, .error .invalidName)
      else ({ d with tree := d.tree.set (r ++ [name]) .directory, made := n + 1 }, .ok path)
  | .ok _ => (d, .error .notADirectory)

/-- Removes a directory with everything in it. -/
def removeDirectory (d : Disk) (p : Path) : Disk × Done :=
  match d.find p with
  | .error fault => (d, .error fault)
  | .ok (r, _) => ({ d with tree := d.tree.erase r }, .ok ())

/-- Removes a directory, if it is there. -/
def discard (d : Disk) (p : Path) : Disk := (d.removeDirectory p).1

end Disk

end GlyphSearch.Files
