import GlyphSearch.Dataset.Source
import GlyphSearch.Proofs.Encoding

/-!
# Settings that can be used

Settings come from a file and from the environment over it, and are checked
when both have been applied. It does not matter which of them a value comes
from, and bucket and object may come from one each.

`DatasetSettings.IsUsable` says what is checked, of the texts as they are set.
The paths of a dataset's files are bytes, but those of a text: they begin with
a slash and lead up exactly where the text does. So a path that passes the
check names something in every directory that it is seen from.
-/

namespace GlyphSearch.Config

open Files Storage Text

/-! ## Paths in the dataset's directory -/

/-- A path, as it is set, that stays in the directory that it is seen from. -/
structure StaysInside (value : String) : Prop where
  not_blank : ∃ c ∈ value.toList, isBlank c = false
  relative : value.toList.head? ≠ some '/'
  down : ∃ parts, HasParts (· = '/') value.toList parts ∧ ['.', '.'] ∉ parts

theorem lossy_encode (value : String) : lossy (encode value) = value.toList := by
  rw [← toList_decodeLossy, decodeLossy_encode]

theorem isAbsolute_encode_iff {value : String} :
    Path.isAbsolute (encode value) = true ↔ value.toList.head? = some '/' := by
  rw [← lossy_encode, head?_lossy_iff (by decide), Path.isAbsolute, decide_eq_true_eq]
  rfl

theorem dotDot_mem_segments_encode_iff {value : String} :
    dotDot ∈ Path.segments (encode value) ↔ ['.', '.'] ∈ value.toList.splitOnP (· = '/') := by
  have hslash : (fun b => decide (char b = '/')) = fun b => decide (b = slash) :=
    funext fun b => decide_eq_decide.mpr
      ⟨eq_byte_of_char_eq (by decide), fun hb => hb ▸ char_byte (by decide)⟩
  have hascii : ∀ c, decide (c = '/') = true → IsAscii c := by
    intro c hc
    obtain rfl := of_decide_eq_true hc
    decide
  rw [← lossy_encode, dots_mem_splitOnP_lossy hascii, hslash, Path.segments, List.mem_filter,
    and_iff_left (by decide)]

theorem isInside_encode_iff {value : String} : isInside (encode value) = true ↔
    value.toList.head? ≠ some '/' ∧ ['.', '.'] ∉ value.toList.splitOnP (· = '/') := by
  rw [isInside, Bool.and_eq_true, Bool.not_eq_true', Bool.not_eq_true', ← Bool.not_eq_true,
    ← Bool.not_eq_true, isAbsolute_encode_iff, List.contains_iff_mem,
    dotDot_mem_segments_encode_iff]

theorem checkInside_eq_ok_iff {setting value : String} :
    checkInside setting value = .ok () ↔ StaysInside value := by
  have hblank : isAllBlank value = false ↔ ∃ c ∈ value.toList, isBlank c = false := by
    simp [isAllBlank]
  constructor
  · intro h
    rw [checkInside] at h
    split at h
    · cases h
    · next hvalue =>
        split at h
        · next hinside =>
            obtain ⟨hrelative, hdown⟩ := isInside_encode_iff.mp hinside
            exact ⟨hblank.mp (Bool.eq_false_iff.mpr hvalue), hrelative, _, hasParts_splitOnP _ _, hdown⟩
        · cases h
  · rintro ⟨hvalue, hrelative, parts, hparts, hdown⟩
    rw [← hparts.splitOnP_eq] at hdown
    rw [checkInside, hblank.mpr hvalue, if_neg Bool.false_ne_true,
      if_pos (isInside_encode_iff.mpr ⟨hrelative, hdown⟩)]

theorem StaysInside.isAbsolute_encode {value : String} (h : StaysInside value) :
    Path.isAbsolute (encode value) = false :=
  Bool.eq_false_iff.mpr fun habsolute => h.relative (isAbsolute_encode_iff.mp habsolute)

theorem StaysInside.dotDot_not_mem_segments {value : String} (h : StaysInside value) :
    dotDot ∉ Path.segments (encode value) := by
  obtain ⟨-, -, parts, hparts, hdown⟩ := h
  rwa [dotDot_mem_segments_encode_iff, hparts.splitOnP_eq]

theorem StaysInside.isWithin_join {value : String} (h : StaysInside value) (root : Path) :
    (root.join (encode value)).IsWithin root :=
  Path.isWithin_join h.isAbsolute_encode h.dotDot_not_mem_segments root

/-! ## Checking -/

/-- Settings that a dataset can be loaded with. -/
structure DatasetSettings.IsUsable (s : DatasetSettings) : Prop where
  loadTimeout_pos : 0 < s.loadTimeout
  bucket_iff_object : s.bucket.isSome ↔ s.object.isSome
  index : StaysInside s.indexPath
  labels : StaysInside s.labelsPath
  metadata : StaysInside s.metadataPath

theorem checkObject_eq_ok_iff {s : DatasetSettings} :
    checkObject s = .ok () ↔ (s.bucket.isSome ↔ s.object.isSome) := by
  rw [checkObject]
  cases s.bucket <;> cases s.object <;> simp

theorem check_eq_ok_iff {s : DatasetSettings} : s.check = .ok () ↔ s.IsUsable := by
  constructor
  · intro h
    obtain ⟨_, hobject, hrest⟩ := bind_eq_ok.mp h
    split at hrest
    · cases hrest
    · next htimeout =>
        obtain ⟨_, hindex, hrest⟩ := bind_eq_ok.mp hrest
        obtain ⟨_, hlabels, hmetadata⟩ := bind_eq_ok.mp hrest
        exact ⟨Nat.pos_of_ne_zero htimeout, checkObject_eq_ok_iff.mp hobject,
          checkInside_eq_ok_iff.mp hindex, checkInside_eq_ok_iff.mp hlabels,
          checkInside_eq_ok_iff.mp hmetadata⟩
  · rintro ⟨htimeout, hobject, hindex, hlabels, hmetadata⟩
    refine bind_eq_ok.mpr ⟨(), checkObject_eq_ok_iff.mpr hobject, ?_⟩
    rw [if_neg (Nat.ne_of_gt htimeout)]
    exact bind_eq_ok.mpr ⟨(), checkInside_eq_ok_iff.mpr hindex, bind_eq_ok.mpr
      ⟨(), checkInside_eq_ok_iff.mpr hlabels, checkInside_eq_ok_iff.mpr hmetadata⟩⟩

theorem validate_eq_ok_iff {s : Settings} : validate s = .ok () ↔ s.dataset.IsUsable :=
  mapError_eq_ok.trans check_eq_ok_iff

/-- The defaults can be used, as far as they go. -/
theorem default_isUsable : DatasetSettings.default.IsUsable := by
  refine ⟨by decide, .rfl, ?_, ?_, ?_⟩
  · exact ⟨⟨'a', by decide⟩, by decide, _, hasParts_splitOnP _ _, by decide⟩
  · exact ⟨⟨'n', by decide⟩, by decide, _, hasParts_splitOnP _ _, by decide⟩
  · exact ⟨⟨'m', by decide⟩, by decide, _, hasParts_splitOnP _ _, by decide⟩

theorem exists_validate_eq_error {s : Settings} (h : ¬ s.dataset.IsUsable) :
    ∃ fault, validate s = .error (.config fault) := by
  cases hcheck : s.dataset.check with
  | ok => exact absurd (check_eq_ok_iff.mp hcheck) h
  | error fault => exact ⟨fault, by rw [validate, hcheck]; rfl⟩

/-! ## Loading -/

section

variable {read : String → Except FileFault Bytes} {given : Option String} {env : Environment}
  {s : Settings}

/-- The settings before the environment has its say: those of the file, or the
defaults. -/
def firstSettings (read : String → Except FileFault Bytes) (given : Option String)
    (env : Environment) : Except Error Settings :=
  match given.or (env fileVariable) with
  | some path => ofFile read path
  | none => .ok .default

theorem load_eq (read : String → Except FileFault Bytes) (given : Option String)
    (env : Environment) : load read given env = do
      let first ← firstSettings read given env
      (applyOverrides env first).2
      validate (applyOverrides env first).1
      return (applyOverrides env first).1 := by
  rw [load, firstSettings]
  cases given.or (env fileVariable) <;> rfl

theorem load_eq_ok_iff : load read given env = .ok s ↔
    ∃ first, firstSettings read given env = .ok first ∧ applyOverrides env first = (s, .ok ()) ∧
      s.dataset.IsUsable := by
  rw [load_eq]
  constructor
  · intro h
    obtain ⟨first, hfirst, h⟩ := bind_eq_ok.mp h
    obtain ⟨_, happlied, h⟩ := bind_eq_ok.mp h
    obtain ⟨_, hvalid, h⟩ := bind_eq_ok.mp h
    obtain rfl := Except.ok.inj h
    exact ⟨first, hfirst, Prod.ext rfl happlied, validate_eq_ok_iff.mp hvalid⟩
  · rintro ⟨first, hfirst, happlied, husable⟩
    refine bind_eq_ok.mpr ⟨first, hfirst, ?_⟩
    rw [happlied]
    exact bind_eq_ok.mpr ⟨(), rfl, bind_eq_ok.mpr ⟨(), validate_eq_ok_iff.mpr husable, rfl⟩⟩

theorem exists_load_eq_error {first : Settings} (hfirst : firstSettings read given env = .ok first)
    (happlied : applyOverrides env first = (s, .ok ())) (h : ¬ s.dataset.IsUsable) :
    ∃ fault, load read given env = .error (.config fault) := by
  obtain ⟨fault, hfault⟩ := exists_validate_eq_error h
  refine ⟨fault, ?_⟩
  rw [load_eq]
  refine bind_eq_error.mpr (.inr ⟨first, hfirst, ?_⟩)
  rw [happlied]
  exact bind_eq_error.mpr (.inr ⟨(), rfl, bind_eq_error.mpr (.inl hfault)⟩)

end

/-! ## The source of the dataset -/

/-- A bucket that cannot be opened is not the same as none. -/
theorem openBucket_ne_noDatasetSource (backend : Backend) (name : String) (env : Environment)
    (d : Disk) : openBucket backend name env d ≠ .error .noDatasetSource := by
  cases backend with
  | gcs | s3 => exact nofun
  | azure =>
      rw [openBucket]
      split <;> exact nofun
  | localFiles =>
      rw [openBucket]
      split <;> exact nofun

theorem parseObject_ne_noDatasetSource (name : String) :
    parseObject name ≠ .error .noDatasetSource := by
  rw [parseObject]
  dsimp only
  split
  · exact nofun
  · split <;> exact nofun

theorem ofSettings_eq_noDatasetSource_iff {s : DatasetSettings}
    (h : s.bucket.isSome ↔ s.object.isSome) (env : Environment) (d : Disk) :
    Dataset.Source.ofSettings s env d = .error .noDatasetSource ↔
      s.localPath = none ∧ s.archivePath = none ∧ s.bucket = none ∧ s.object = none := by
  rw [Dataset.Source.ofSettings]
  cases hlocal : s.localPath with
  | some path => simp
  | none =>
      cases harchive : s.archivePath with
      | some path => simp
      | none =>
          cases hbucket : s.bucket with
          | none =>
              cases hobject : s.object with
              | none => simp
              | some name => simp [hbucket, hobject] at h
          | some bucketName =>
              cases hobject : s.object with
              | none => simp [hbucket, hobject] at h
              | some name =>
                  refine ⟨fun herror => ?_, nofun⟩
                  obtain hopen | ⟨bucket, -, hrest⟩ := bind_eq_error.mp herror
                  · exact absurd hopen (openBucket_ne_noDatasetSource _ _ _ _)
                  · obtain hparse | ⟨_, -, hok⟩ := bind_eq_error.mp hrest
                    · exact absurd hparse (parseObject_ne_noDatasetSource _)
                    · cases hok

/-! ## What is loaded can be used -/

/-- The configuration is loaded exactly if it can be used, wherever its values
come from. Then there is no source for the dataset only if none is set, and
the paths of its files stay in every directory that they are seen from. A
configuration that cannot be used is refused as such. -/
theorem loaded_settings_are_usable (read : String → Except FileFault Bytes)
    (given : Option String) (env : Environment) :
    (∀ s, load read given env = .ok s → s.dataset.IsUsable ∧
      (∀ env' d, Dataset.Source.ofSettings s.dataset env' d = .error .noDatasetSource ↔
        s.dataset.localPath = none ∧ s.dataset.archivePath = none ∧ s.dataset.bucket = none ∧
          s.dataset.object = none) ∧
      ∀ root : Path, (root.join s.dataset.layout.indexPath).IsWithin root ∧
        (root.join s.dataset.layout.labelsPath).IsWithin root ∧
        (root.join s.dataset.layout.metadataPath).IsWithin root) ∧
    (∀ s, (s.dataset.IsUsable → validate s = .ok ()) ∧
      (¬ s.dataset.IsUsable → ∃ fault, validate s = .error (.config fault))) ∧
    ∀ first s, firstSettings read given env = .ok first → applyOverrides env first = (s, .ok ()) →
      (s.dataset.IsUsable → load read given env = .ok s) ∧
      (¬ s.dataset.IsUsable → ∃ fault, load read given env = .error (.config fault)) := by
  refine ⟨fun s hs => ?_, fun s => ⟨validate_eq_ok_iff.mpr, exists_validate_eq_error⟩,
    fun first s hfirst happlied => ⟨fun husable => ?_, exists_load_eq_error hfirst happlied⟩⟩
  · obtain ⟨-, -, -, husable⟩ := load_eq_ok_iff.mp hs
    refine ⟨husable, ofSettings_eq_noDatasetSource_iff husable.bucket_iff_object, fun root => ?_⟩
    exact ⟨husable.index.isWithin_join root, husable.labels.isWithin_join root,
      husable.metadata.isWithin_join root⟩
  · exact load_eq_ok_iff.mpr ⟨first, hfirst, happlied, husable⟩

/-- The bucket is set in the file and the object in the environment, which also
mends the load timeout. -/
theorem loaded_settings_are_usable_of_file_and_environment :
    let read : String → Except FileFault Bytes := fun _ =>
      .ok (encode "[dataset]\nbucket = \"b\"\nload_timeout_secs = 0\n")
    let env : Environment := fun name =>
      if name = "INDEX_BLOB_NAME" then some "a.tar"
      else if name = "HWR_LOAD_TIMEOUT_SECS" then some " 9 " else none
    let first : Settings := { Settings.default with
      dataset := { DatasetSettings.default with bucket := some "b", loadTimeout := 0 } }
    let s : Settings := { Settings.default with
      dataset := { DatasetSettings.default with
        bucket := some "b", object := some "a.tar", loadTimeout := 9 } }
    firstSettings read (some "c") env = .ok first ∧ applyOverrides env first = (s, .ok ()) ∧
    ¬ first.dataset.IsUsable ∧ load read (some "c") env = .ok s ∧
    ∀ root : Path, (root.join (encode "anng")).IsWithin root := by
  intro read env first s
  have hmembers : (Toml.parse? "[dataset]\nbucket = \"b\"\nload_timeout_secs = 0\n" >>=
      ofMembers?) = some first := by decide +kernel
  have hfirst : firstSettings read (some "c") env = .ok first := by
    rw [firstSettings, Option.some_or]
    dsimp only [ofFile, read]
    rw [ofContent, decode?_encode]
    dsimp only
    rw [ofText, hmembers]
  have happlied : applyOverrides env first = (s, .ok ()) := by
    have hsettings : (applyOverrides env first).1 = s := by decide +kernel
    have hok : (applyOverrides env first).2.toOption = some () := by decide +kernel
    refine Prod.ext hsettings ?_
    cases hresult : (applyOverrides env first).2 with
    | ok => rfl
    | error e =>
        rw [hresult] at hok
        cases hok
  have husable : s.dataset.IsUsable :=
    ⟨by decide, by simp [s], default_isUsable.index, default_isUsable.labels,
      default_isUsable.metadata⟩
  have hmain := loaded_settings_are_usable read (some "c") env
  have hload := (hmain.2.2 first s hfirst happlied).1 husable
  exact ⟨hfirst, happlied, fun h => absurd h.loadTimeout_pos (by decide), hload,
    fun root => ((hmain.1 s hload).2.2 root).1⟩

end GlyphSearch.Config
