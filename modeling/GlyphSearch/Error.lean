import GlyphSearch.Text.Quoted

/-!
# What can go wrong

Errors are causes. `Error.message` gives the wording of each, `Error.status`
the status of the response that reports it, and `Error.isFatal` tells errors
that end the trust in the dataset from those of a single request.

Each family of causes has a case `told` for a fault that is known only by its
description.
-/

namespace GlyphSearch

open Text

/-- Why an operation on files failed. -/
inductive FileFault where
  | notFound
  | alreadyExists
  | notADirectory
  | isADirectory
  /-- Content that is not text where text is expected. -/
  | invalidData
  /-- A name that no file can have, or compressed data that is corrupt. -/
  | invalidInput
  /-- A name that is too long. -/
  | invalidName
  | unexpectedEnd
  | connectionRefused
  | told (text : String)
  deriving DecidableEq, Repr

def FileFault.message : FileFault → String
  | notFound => "No such file or directory (os error 2)"
  | alreadyExists => "File exists (os error 17)"
  | notADirectory => "Not a directory (os error 20)"
  | isADirectory => "Is a directory (os error 21)"
  | invalidData => "stream did not contain valid UTF-8"
  | invalidInput => "invalid input"
  | invalidName => "File name too long (os error 36)"
  | unexpectedEnd => "unexpected end of file"
  | connectionRefused => "connection refused"
  | told text => text

/-- Why a query cannot be answered. -/
inductive QueryFault where
  | empty
  | notANumber (token : String)
  | notFinite (token : String)
  | outOfRange (token : String)
  | distancesOverflow
  | missing
  | repeatedUrlField (field : String)
  | repeatedFormField (field : String)
  | formTooLong
  | told (text : String)
  deriving DecidableEq, Repr

def QueryFault.message : QueryFault → String
  | empty => "query is empty"
  | notANumber token => "not a number: " ++ quoted token
  | notFinite token => "not a finite number: " ++ quoted token
  | outOfRange token => "value out of range: " ++ quoted token
  | distancesOverflow => "query values out of range: distances overflow"
  | missing => "parameter 'query' is missing"
  | repeatedUrlField field =>
    "invalid query string: Failed to deserialize query string: duplicate field \x60"
      ++ field ++ "\x60"
  | repeatedFormField field =>
    "invalid form body: Failed to deserialize form body: duplicate field \x60"
      ++ field ++ "\x60"
  | formTooLong =>
    "invalid form body: Failed to buffer the request body: length limit exceeded"
  | told text => text

/-- Why an index cannot be written or opened. -/
inductive IndexFault where
  | noDimensions
  | zeroDimension
  | tooLarge (count dimension : Nat)
  | wrongLength (held expected count dimension : Nat)
  | told (text : String)
  deriving DecidableEq, Repr

def IndexFault.message : IndexFault → String
  | noDimensions => "cannot write an index without dimensions"
  | zeroDimension => "index dimension must be > 0"
  | tooLarge count dimension =>
    "index too large: " ++ toString count ++ " x " ++ toString dimension
  | wrongLength held expected count dimension =>
    "vector data holds " ++ toString held ++ " values, expected " ++ toString expected
      ++ " (" ++ toString count ++ " x " ++ toString dimension ++ ")"
  | told text => text

/-- How the parts of a dataset disagree. -/
inductive ConsistencyFault where
  | idOutOfRange (id labels : Nat)
  | labelCount (vectors labels : Nat)
  | itemCount (listed held : Nat)
  | dimension (listed held : Nat)
  | told (text : String)
  deriving DecidableEq, Repr

def ConsistencyFault.message : ConsistencyFault → String
  | idOutOfRange id labels =>
    "internal id " ++ toString id ++ " out of range for " ++ toString labels ++ " labels"
  | labelCount vectors labels =>
    "index holds " ++ toString vectors ++ " vectors but " ++ toString labels
      ++ " labels were loaded"
  | itemCount listed held =>
    "metadata lists " ++ toString listed ++ " items but index holds " ++ toString held
  | dimension listed held =>
    "metadata dimension " ++ toString listed ++ " does not match index dimension "
      ++ toString held
  | told text => text

/-- What is wrong with a configuration. -/
inductive ConfigFault where
  | unreadable
  | unknownBackend (name : String)
  | notADirectory (path : String)
  | objectMissing
  | bucketMissing
  | zeroLoadTimeout
  | emptyPath (setting : String)
  | escapingPath (setting value : String)
  | invalidVariable (name value : String)
  | told (text : String)
  deriving DecidableEq, Repr

def ConfigFault.message : ConfigFault → String
  | unreadable => "the configuration file cannot be read"
  | unknownBackend name => "unknown storage backend: " ++ name
  | notADirectory path => "dataset path is not a directory: " ++ path
  | objectMissing => "bucket is set but object is missing"
  | bucketMissing => "object is set but bucket is missing"
  | zeroLoadTimeout => "load_timeout_secs must be > 0"
  | emptyPath setting => setting ++ " must not be empty"
  | escapingPath setting value =>
    setting ++ " must be a relative path inside the dataset: " ++ value
  | invalidVariable name value => "invalid value for " ++ name ++ ": " ++ quoted value
  | told text => text

/-- Why an archive cannot be read. -/
inductive ArchiveFault where
  | malformed
  | emptyPath (path : String)
  | told (text : String)
  deriving DecidableEq, Repr

def ArchiveFault.message : ArchiveFault → String
  | malformed => "malformed archive"
  | emptyPath path => "file member with empty path: " ++ path
  | told text => text

/-- Everything that can go wrong, from configuring a dataset to answering a
query. -/
inductive Error where
  | storage
  | storagePath
  | json
  | vectorData (text : String)
  | unsafeMember (path : String)
  | unsupportedMember (path kind : String)
  | archive (fault : ArchiveFault)
  | noDatasetSource
  | loadTimeout (seconds : Nat)
  | loadFailed (cause : Error)
  | consistency (fault : ConsistencyFault)
  | index (fault : IndexFault)
  | invalidQuery (fault : QueryFault)
  | dimensionMismatch (expected actual : Nat)
  | versionMismatch (expected actual : String)
  | config (fault : ConfigFault)
  | file (fault : FileFault)
  | internal (text : String)
  deriving DecidableEq, Repr, Inhabited

namespace Error

/-- The wording of an error. -/
def message : Error → String
  | storage => "storage error: "
  | storagePath => "storage path error: "
  | json => "json serialization error: "
  | vectorData text => "bincode serialization error: " ++ text
  | unsafeMember path => "unsafe archive member path: " ++ path
  | unsupportedMember path kind =>
    "unsupported archive member type " ++ kind ++ " for " ++ path
  | archive fault => "archive error: " ++ fault.message
  | noDatasetSource => "no dataset source configured"
  | loadTimeout seconds => "dataset load timed out after " ++ toString seconds ++ "s"
  | loadFailed cause => "dataset load failed: " ++ cause.message
  | consistency fault => "dataset consistency error: " ++ fault.message
  | index fault => "index error: " ++ fault.message
  | invalidQuery fault => "invalid query: " ++ fault.message
  | dimensionMismatch expected actual =>
    "dimension mismatch: expected " ++ toString expected ++ ", got " ++ toString actual
  | versionMismatch expected actual =>
    "invalid parameter 'v': dataset version is " ++ expected ++ ", got " ++ actual
  | config fault => "config error: " ++ fault.message
  | file fault => "io error: " ++ fault.message
  | internal text => "internal error: " ++ text

/-- The status of a response that reports the error. -/
def status : Error → Nat
  | invalidQuery _ | dimensionMismatch _ _ => 400
  | versionMismatch _ _ => 404
  | noDatasetSource | loadTimeout _ | loadFailed _ => 503
  | _ => 500

/-- Whether the dataset cannot be trusted any more, whatever is asked. -/
def isFatal : Error → Bool
  | loadFailed _ | loadTimeout _ | noDatasetSource | consistency _
  | unsafeMember _ | unsupportedMember _ _ => true
  | _ => false

end Error

/-! ## Results -/

theorem bind_eq_ok {ε α β : Type} {x : Except ε α} {f : α → Except ε β} {b : β} :
    (x >>= f) = .ok b ↔ ∃ a, x = .ok a ∧ f a = .ok b := by
  cases x with
  | error e => simp [bind, Except.bind]
  | ok a => simp [bind, Except.bind]

theorem bind_eq_error {ε α β : Type} {x : Except ε α} {f : α → Except ε β} {e : ε} :
    (x >>= f) = .error e ↔ x = .error e ∨ ∃ a, x = .ok a ∧ f a = .error e := by
  cases x with
  | error e => simp [bind, Except.bind]
  | ok a => simp [bind, Except.bind]

theorem bind_congr_of_ok {ε α β : Type} {x : Except ε α} {f g : α → Except ε β}
    (h : ∀ a, x = .ok a → f a = g a) : (x >>= f) = (x >>= g) := by
  cases x with
  | error e => rfl
  | ok a => exact h a rfl

theorem map_eq_ok {ε α β : Type} {x : Except ε α} {f : α → β} {b : β} :
    x.map f = .ok b ↔ ∃ a, x = .ok a ∧ b = f a := by
  cases x with
  | error e => simp [Except.map]
  | ok a => simp [Except.map, eq_comm]

theorem map_eq_error {ε α β : Type} {x : Except ε α} {f : α → β} {e : ε} :
    x.map f = .error e ↔ x = .error e := by
  cases x with
  | error e' => simp [Except.map]
  | ok a => simp [Except.map]

theorem mapError_eq_ok {ε ε' α : Type} {x : Except ε α} {f : ε → ε'} {a : α} :
    x.mapError f = .ok a ↔ x = .ok a := by
  cases x with
  | error e => exact ⟨nofun, nofun⟩
  | ok b => exact ⟨fun h => congrArg Except.ok (Except.ok.inj h),
      fun h => congrArg Except.ok (Except.ok.inj h)⟩

end GlyphSearch
