import GlyphSearch.Config.File

/-!
# Overrides

Variables of the environment take the place of single settings. A variable
that is blank counts as not set. The variables are looked at in a fixed order;
the first one whose value cannot be read ends the process, and the settings
keep what the ones before it have changed.
-/

namespace GlyphSearch.Config

open Storage Text

/-- What the environment sets variables to. -/
abbrev Environment := String → Option String

/-- A variable with what it changes: nothing, if its value cannot be read. -/
structure Override where
  name : String
  update? : String → Settings → Option Settings

/-- Reads a natural number below a limit, with blanks around it and an optional
plus sign. -/
def parseNat? (limit : Nat) (value : String) : Option Nat :=
  let digits := match trim value.toList with
    | '+' :: rest => rest
    | cs => cs
  if digits = [] ∨ ¬ digits.all Decimal.isDigit then none
  else
    let n := Decimal.ofDigits digits
    if n < limit then some n else none

/-- Reads a word for yes or no, in any case. -/
def parseBool? (value : String) : Option Bool :=
  let word := lowerAscii (String.ofList (trim value.toList))
  if ["1", "true", "yes", "on"].contains word then some true
  else if ["0", "false", "no", "off"].contains word then some false
  else none

/-- An override of a setting of the dataset. -/
def ofDataset (name : String)
    (update? : String → DatasetSettings → Option DatasetSettings) : Override :=
  ⟨name, fun v s => (update? v s.dataset).map fun dataset => { s with dataset }⟩

/-- An override of a setting of the server. -/
def ofServer (name : String)
    (update? : String → ServerSettings → Option ServerSettings) : Override :=
  ⟨name, fun v s => (update? v s.server).map fun server => { s with server }⟩

/-- An override of a setting of the log. -/
def ofLogging (name : String)
    (update? : String → LogSettings → Option LogSettings) : Override :=
  ⟨name, fun v s => (update? v s.logging).map fun logging => { s with logging }⟩

/-- All variables, in the order in which they are looked at. -/
def overrides : List Override := [
  ofDataset "HWR_INDEX_PATH" fun v s => some { s with localPath := some v },
  ofDataset "HWR_INDEX_TARGZ_PATH" fun v s => some { s with archivePath := some v },
  ofDataset "INDEX_BUCKET_NAME" fun v s => some { s with bucket := some v },
  ofDataset "INDEX_BLOB_NAME" fun v s => some { s with object := some v },
  ofDataset "INDEX_STORAGE_BACKEND" fun v s =>
    (Backend.parse v).toOption.map fun backend => { s with backend },
  ofDataset "HWR_LOAD_TIMEOUT_SECS" fun v s =>
    (parseNat? numberLimit v).map fun loadTimeout => { s with loadTimeout },
  ofDataset "HWR_WARMUP_ON_START" fun v s =>
    (parseBool? v).map fun warmup => { s with warmup },
  ofServer "HWR_HOST" fun v s => some { s with host := v },
  ofServer "PORT" fun v s => (parseNat? portLimit v).map fun port => { s with port },
  ofLogging "HWR_LOG_LEVEL" fun v s => some { s with level := v },
  ofLogging "HWR_LOG_FORMAT" fun v s => some { s with format := v }]

/-- The value of a variable, unless it is blank. -/
def lookup (env : Environment) (name : String) : Option String :=
  (env name).filter fun v => !isAllBlank v

/-- Applies overrides in their order. -/
def applyEach (env : Environment) : List Override → Settings → Settings × Except Error Unit
  | [], s => (s, .ok ())
  | o :: rest, s =>
    match lookup env o.name with
    | none => applyEach env rest s
    | some value =>
      match o.update? value s with
      | some s => applyEach env rest s
      | none => (s, .error (.config (.invalidVariable o.name value)))

/-- Applies all overrides. -/
def applyOverrides (env : Environment) (s : Settings) : Settings × Except Error Unit :=
  applyEach env overrides s

/-- The variable that names the configuration file. -/
def fileVariable : String := "HWR_CONFIG"

/-- The settings in the file at a path, given how to read files. -/
def ofFile (read : String → Except FileFault Bytes) (path : String) : Except Error Settings :=
  match read path with
  | .ok content => ofContent content
  | .error _ => .error (.config .unreadable)

/-- The configuration: from the file that is given, or else the one that the
environment names, or else the defaults; then overridden, and validated. -/
def load (read : String → Except FileFault Bytes) (given : Option String)
    (env : Environment) : Except Error Settings := do
  let start ← match given.or (env fileVariable) with
    | some path => ofFile read path
    | none => .ok .default
  let (s, applied) := applyOverrides env start
  applied
  validate s
  return s

end GlyphSearch.Config
