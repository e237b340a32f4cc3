import GlyphSearch.Config.Overrides
import GlyphSearch.Files.Disk
import GlyphSearch.Storage.Object

/-!
# Buckets

A bucket of one of the services on the network can be named but, from here,
not reached. A directory in place of a bucket has to be there when the bucket
is opened.
-/

namespace GlyphSearch.Storage

open Files Text

/-- An opened bucket. -/
inductive Bucket where
  | remote
  | directory (route : Route)
  deriving DecidableEq

/-- Whether the environment names the account that a bucket of the service
belongs to. The local emulator of the service needs none. -/
def hasAccount (env : Config.Environment) : Bool :=
  (env "AZURE_STORAGE_ACCOUNT_NAME").isSome
    || (env "AZURE_STORAGE_USE_EMULATOR").any fun v =>
      ["1", "true", "on", "yes", "y"].contains (lowerAscii v)

/-- Opens a bucket. -/
def openBucket (backend : Backend) (name : String) (env : Config.Environment) (d : Disk) :
    Except Error Bucket :=
  match backend with
  | .gcs | .s3 => .ok .remote
  | .azure => if hasAccount env then .ok .remote else .error .storage
  | .localFiles =>
    match d.find (encode name) with
    | .ok (route, _) => .ok (.directory route)
    | .error _ => .error .storage

/-- The content of an object. -/
def Bucket.get (bucket : Bucket) (object : String) (d : Disk) : Except Error Bytes :=
  match bucket with
  | .remote => .error .storage
  | .directory route =>
    if ¬ isStorable object then .error .storage
    else (d.read ((Route.absolutePath route).join (encode object))).mapError fun _ => .storage

end GlyphSearch.Storage
