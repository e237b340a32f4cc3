import GlyphSearch.Log.Entry
import GlyphSearch.Storage.Bucket
import GlyphSearch.Tar.Extraction

/-!
# Sources

Where the directory of a dataset comes from. A directory on disk is used as it
is; an archive, on disk or in a bucket, is unpacked into a temporary directory.
If that fails, the directory is removed again.
-/

namespace GlyphSearch.Dataset

open Files Storage Text

/-- What came of fetching a directory. -/
structure Fetched where
  disk : Disk
  /-- Archive members that were unpacked. -/
  members : Nat
  result : Except Error Directory
  log : List Log.Entry

/-- An entry of the log about loading. -/
def entry (level : Log.Level) (message : String) : Log.Entry :=
  ⟨level, "hwr_search::dataset", message, []⟩

/-- A directory that could not be fetched, for a reason that is no news to the
log. -/
def Fetched.failed (d : Disk) (e : Error) : Fetched := ⟨d, 0, .error e, []⟩

/-- A source, with its name in messages. -/
structure Source where
  name : String
  fetch : Disk → Fetched

/-- The directory of a dataset that is there already. -/
def useDirectory (path : String) (d : Disk) : Fetched :=
  match d.find (encode path) with
  | .error fault => .failed d (.file fault)
  | .ok (_, .directory) => ⟨d, 0, .ok (.kept (encode path)), []⟩
  | .ok _ => .failed d (.config (.notADirectory path))

/-- What is logged of unpacking an archive. -/
def unpackLog (content : Bytes) (p : Tar.Progress) (isDone : Bool) : List Log.Entry :=
  (if Gzip.isCompressed content then [entry .debug "compressed archive detected"] else [])
    ++ List.replicate p.files (entry .debug "extracted member")
    ++ (if isDone then [entry .info "archive extracted"] else [])

/-- Unpacks an archive into a directory that is there. -/
def unpackInto (d : Disk) (path : Path) (content : Bytes) : Fetched :=
  match d.find path with
  | .error fault => .failed d (.file fault)
  | .ok (route, _) =>
    match Tar.extract d.tree route content with
    | (p, .ok ()) =>
      ⟨{ d with tree := p.tree }, p.members, .ok (.temporary path), unpackLog content p true⟩
    | (p, .error e) =>
      ⟨{ d with tree := p.tree }.discard path, p.members, .error e, unpackLog content p false⟩

/-- Unpacks an archive into a temporary directory. The content is asked for
when the directory has been made. -/
def unpack (read : Disk → Except Error Bytes) (d : Disk) : Fetched :=
  match d.makeTemporary with
  | (d, .error fault) => .failed d (.file fault)
  | (d, .ok path) =>
    match read d with
    | .error e => .failed (d.discard path) e
    | .ok content => unpackInto d path content

/-- Unpacks the archive in a file. -/
def unpackFile (path : String) (d : Disk) : Fetched :=
  unpack (fun d => (d.read (encode path)).mapError .file) d

/-- Unpacks the archive in a bucket. -/
def unpackObject (bucket : Bucket) (object : String) (d : Disk) : Fetched :=
  match bucket.get object d with
  | .error e => .failed d e
  | .ok content => unpack (fun _ => .ok content) d

namespace Source

def directory (path : String) : Source := ⟨"local directory " ++ path, useDirectory path⟩

def archive (path : String) : Source := ⟨"local archive " ++ path, unpackFile path⟩

def object (bucket : Bucket) (bucketName name : String) : Source :=
  ⟨"object " ++ bucketName ++ "/" ++ name, unpackObject bucket name⟩

/-- The source of a dataset that has not been read from anywhere. -/
def absent : Source := ⟨"none", fun d => .failed d .noDatasetSource⟩

/-- The source that settings select: a directory before an archive, and both
before an object in a bucket. -/
def ofSettings (s : Config.DatasetSettings) (env : Config.Environment) (d : Disk) :
    Except Error Source :=
  match s.localPath, s.archivePath, s.bucket, s.object with
  | some path, _, _, _ => .ok (directory path)
  | _, some path, _, _ => .ok (archive path)
  | _, _, some bucketName, some name => do
    let bucket ← openBucket s.backend bucketName env d
    return object bucket bucketName (← parseObject name)
  | _, _, _, _ => .error .noDatasetSource

end Source

/-- What came of loading a dataset. -/
structure Loaded where
  disk : Disk
  members : Nat
  result : Except Error Dataset
  log : List Log.Entry

/-- Removes a directory that was made for a dataset alone. -/
def Directory.discard (d : Directory) (disk : Disk) : Disk :=
  match d with
  | .kept _ => disk
  | .temporary path => disk.discard path

/-- Fetches a directory and opens the dataset in it: first its index, then the
rest. A temporary directory is removed if the dataset cannot be opened. -/
def load (source : Source) (layout : Layout) (disk : Disk) : Loaded :=
  let fetched := source.fetch disk
  match fetched.result with
  | .error e => ⟨fetched.disk, fetched.members, .error e, fetched.log⟩
  | .ok directory =>
    let d := fetched.disk
    match openIndex d.tree d.workingDirectory directory layout with
    | .error e => ⟨directory.discard d, fetched.members, .error e, fetched.log⟩
    | .ok index =>
      let log := fetched.log ++ [entry .debug "index opened"]
      match openAround index d.tree d.workingDirectory directory layout with
      | .ok dataset => ⟨d, fetched.members, .ok dataset, log⟩
      | .error e => ⟨directory.discard d, fetched.members, .error e, log⟩

end GlyphSearch.Dataset
