import GlyphSearch.Dataset.Labels
import GlyphSearch.Dataset.Metadata
import GlyphSearch.Index.Flat

/-!
# Datasets

A dataset is an opened index with one label for each vector, and its metadata.
`make` and `withMetadata` refuse parts that do not belong together, and
`openAt` reads all parts from a directory: first the index, then the labels,
then the metadata, and only then compares them.
-/

namespace GlyphSearch

open Files Index

namespace Dataset

/-- The directory that a dataset was read from. -/
inductive Directory where
  /-- A directory that belongs to somebody else and is left alone. -/
  | kept (path : Path)
  /-- A directory made for this dataset alone. -/
  | temporary (path : Path)
  deriving DecidableEq

def Directory.path : Directory → Path
  | kept path => path
  | temporary path => path

def Directory.isTemporary : Directory → Bool
  | kept _ => false
  | temporary _ => true

/-- Where the parts of a dataset are in its directory. -/
structure Layout where
  indexPath : Path
  labelsPath : Path
  metadataPath : Path
  deriving DecidableEq

end Dataset

/-- An index with its labels. -/
structure Dataset where
  engine : Index.Engine
  labels : List String
  metadata : Dataset.Metadata
  directory : Option Dataset.Directory

namespace Dataset

/-- Joins an index to its labels. -/
def make (engine : Engine) (labels : List String) : Except Error Dataset :=
  if engine.count = labels.length then .ok ⟨engine, labels, Metadata.default, none⟩
  else .error (.consistency (.labelCount engine.count labels.length))

/-- Adds metadata. -/
def withMetadata (d : Dataset) (m : Metadata) : Except Error Dataset := do
  m.check d.engine.count d.engine.dimension
  return { d with metadata := m }

/-- The version that clients have to name. -/
def version (d : Dataset) : String := d.metadata.version

/-- Reads the metadata, if there is such a file. -/
def readMetadata (t : Tree) (workingDirectory : Route) (p : Path) : Except Error Metadata :=
  if t.pathExists workingDirectory p then do
    Metadata.parse (← (t.read workingDirectory p).mapError .file)
  else .ok Metadata.default

/-- Opens the index in a directory. -/
def openIndex (t : Tree) (workingDirectory : Route) (directory : Directory) (layout : Layout) :
    Except Error Flat :=
  Flat.openWith fun name =>
    t.read workingDirectory ((directory.path.join layout.indexPath).join name)

/-- Opens the dataset whose index has been opened. -/
def openAround (index : Flat) (t : Tree) (workingDirectory : Route) (directory : Directory)
    (layout : Layout) : Except Error Dataset := do
  let inside := fun (p : Path) => directory.path.join p
  let labelBytes ← (t.read workingDirectory (inside layout.labelsPath)).mapError .file
  let labels ← (parseLabels labelBytes).mapError .file
  let metadata ← readMetadata t workingDirectory (inside layout.metadataPath)
  let d ← make index.toEngine labels
  let d ← d.withMetadata metadata
  return { d with directory := some directory }

/-- Opens the dataset in a directory. -/
def openAt (t : Tree) (workingDirectory : Route) (directory : Directory) (layout : Layout) :
    Except Error Dataset := do
  let index ← openIndex t workingDirectory directory layout
  openAround index t workingDirectory directory layout

end Dataset

end GlyphSearch
