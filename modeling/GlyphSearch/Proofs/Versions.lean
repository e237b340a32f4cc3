import GlyphSearch.Proofs.Alike
import GlyphSearch.Proofs.MetadataFormat
import GlyphSearch.Proofs.TrailingZeros

/-!
# A version may be a number or a text

A whole number that fits 64 bits is read back from its decimal text, with a
sign or without, and the version that it means is that text again. So metadata
with the number and metadata with the text in quotes are the same metadata,
and datasets that differ in this alone cannot be told apart by any request.

Different numbers have different texts. So a client gets through by naming the
number of the dataset, and is refused for naming another.
-/

namespace GlyphSearch.Json

open Decimal Text

theorem toList_toString (n : Int) :
    (toString n).toList = (if n < 0 then ['-'] else []) ++ Nat.toDigits 10 n.natAbs := by
  cases n with
  | ofNat n =>
      have htext : toString (Int.ofNat n) = toString n := rfl
      have hsign : ¬ Int.ofNat n < 0 := Int.not_lt.mpr (Int.natCast_nonneg n)
      rw [htext, Nat.toString_eq_ofList_toDigits, String.toList_ofList, if_neg hsign]
      rfl
  | negSucc n =>
      have htext : toString (Int.negSucc n) = "-" ++ toString (n + 1) := rfl
      rw [htext, Nat.toString_eq_ofList_toDigits, String.toList_append, String.toList_ofList,
        String.toList_ofList, if_pos (Int.negSucc_lt_zero n)]
      rfl

theorem forall_mem_toString {p : Char → Prop} (hsign : p '-')
    (hdigit : ∀ d, d < 10 → p (Nat.digitChar d)) (n : Int) : ∀ c ∈ (toString n).toList, p c := by
  rw [toList_toString]
  refine List.forall_mem_append.mpr ⟨?_, forall_mem_toDigits hdigit _⟩
  split
  · exact List.forall_mem_singleton.mpr hsign
  · exact fun c hc => absurd hc List.not_mem_nil

theorem splitSign_toString (n : Int) :
    splitSign (toString n).toList = (decide (n < 0), Nat.toDigits 10 n.natAbs) := by
  rw [toList_toString]
  by_cases hn : n < 0
  · rw [if_pos hn, decide_eq_true hn]
    rfl
  · rw [if_neg hn, decide_eq_false hn, List.nil_append, splitSign_toDigits]

theorem toString_inj {n k : Int} : toString n = toString k ↔ n = k := by
  refine ⟨fun h => ?_, congrArg toString⟩
  have hsplit := congrArg (fun s : String => splitSign s.toList) h
  simp only [splitSign_toString, Prod.mk.injEq, decide_eq_decide] at hsplit
  obtain ⟨hsign, hdigits⟩ := hsplit
  have habs : n.natAbs = k.natAbs := by
    have hvalue := congrArg (Nat.ofDigitChars 10 · 0) hdigits
    simpa only [Nat.ofDigitChars_ten_toDigits] using hvalue
  omega

/-- A whole number that fits 64 bits, with a sign or without, is read back from
its text. -/
theorem ofLiteral?_toString {n : Int} (hlow : -(2 ^ 63) ≤ n) (hhigh : n < 2 ^ 64) :
    Number.ofLiteral? (toString n).toList = some (.whole n) := by
  have hvalue : ofDigits (Nat.toDigits 10 n.natAbs) = n.natAbs := Nat.ofDigitChars_ten_toDigits
  have hlimit : wholeLimit = 2 ^ 64 := rfl
  rw [Number.ofLiteral?, splitSign_toString]
  dsimp only
  rw [splitDigits_toDigits]
  dsimp only
  rw [hvalue, hlimit]
  by_cases hn : n < 0
  · rw [if_neg (by simp [hn]), if_pos ⟨rfl, by simpa using hn, by omega, by omega⟩]
    congr
    omega
  · rw [if_pos ⟨rfl, by simpa using hn, by omega⟩]
    congr
    omega

theorem isNumber_toString (n : Int) : IsNumber (bytes (toString n)) := by
  have hbytes : bytes (toString n) =
      (if n < 0 then [byte '-'] else []) ++ digitBytes n.natAbs ++ [] ++ [] := by
    rw [bytes, toList_toString, List.map_append, List.append_nil, List.append_nil]
    split <;> rfl
  refine ⟨_, _, _, _, hbytes, ?_, isWhole_digitBytes _, .inl rfl, .inl rfl⟩
  split
  · exact .inr rfl
  · exact .inl rfl

theorem denotes_toString (n : Int) :
    Denotes (bytes (toString n)) (.number (toString n).toList) := by
  have hsame : ∀ c ∈ (toString n).toList, (char ∘ byte) c = c :=
    forall_mem_toString (by decide) (by decide) n
  have hchars : (bytes (toString n)).map char = (toString n).toList := by
    rw [bytes, List.map_map, List.map_congr_left hsame, List.map_id']
  rw [← hchars]
  exact .number (isNumber_toString n)

theorem plain_toString (n : Int) : (bytes (toString n)).all isPlain := by
  refine List.all_eq_true.mpr (List.forall_mem_map.mpr ?_)
  exact forall_mem_toString (by decide) (by decide) n

theorem unescape?_toString (n : Int) : unescape? (bytes (toString n)) = some (toString n) := by
  refine unescape?_bytes (plain_toString n) (List.all_eq_true.mpr ?_)
  exact forall_mem_toString (by decide) (by decide) n

end GlyphSearch.Json

namespace GlyphSearch.Dataset

open Files Json Text

/-! ## The same metadata -/

/-- Whether a content is an object with one version. -/
structure HasVersion (content : Bytes) (members : List (Bytes × Value)) (v : Value) : Prop where
  item : Item content (.object members)
  keys : ∀ member ∈ members, (unescape? member.1).isSome
  version : valuesOf "v" members = [v]

namespace Metadata

theorem describesRest_congr {members members' : List (Bytes × Value)}
    (h : ∀ field ∈ fields, field ≠ "v" → valuesOf field members' = valuesOf field members)
    {m : Metadata} : DescribesRest members' m ↔ DescribesRest members m := by
  have htime := h "dumpTime" (by decide) (by decide)
  have hitems := h "numItems" (by decide) (by decide)
  have hdimension := h "dimen" (by decide) (by decide)
  constructor
  · rintro ⟨ht, hi, hd⟩
    exact ⟨htime ▸ ht, hitems ▸ hi, hdimension ▸ hd⟩
  · rintro ⟨ht, hi, hd⟩
    exact ⟨htime ▸ ht, hitems ▸ hi, hdimension ▸ hd⟩

theorem parse_of_hasVersion {content : Bytes} {members : List (Bytes × Value)} {v : Value}
    (h : HasVersion content members v) {m : Metadata} :
    parse content = .ok m ↔ SaysVersion v m.version ∧ DescribesRest members m := by
  rw [parse_eq_ok_iff h.item]
  constructor
  · intro hm
    have hversion := hm.version
    rw [h.version, tells_singleton_iff] at hversion
    exact ⟨hversion, hm.toDescribesRest⟩
  · rintro ⟨hversion, hrest⟩
    refine ⟨hrest, h.keys, ?_⟩
    rw [h.version, tells_singleton_iff]
    exact hversion

end Metadata

theorem saysVersion_number_iff {n : Int} (hlow : -(2 ^ 63) ≤ n) (hhigh : n < 2 ^ 64)
    {version : String} :
    SaysVersion (.number (toString n).toList) version ↔ version = toString n := by
  rw [← Metadata.readVersion_eq_some_iff, Metadata.readVersion, ofLiteral?_toString hlow hhigh]
  exact Option.some_inj.trans eq_comm

theorem saysVersion_string_iff {literal : Bytes} {version version' : String}
    (h : unescape? literal = some version) :
    SaysVersion (.string literal) version' ↔ version' = version := by
  rw [← Metadata.readVersion_eq_some_iff]
  show unescape? literal = some version' ↔ _
  rw [h]
  exact Option.some_inj.trans eq_comm

/-! ## Metadata that tells a version alone -/

/-- An object with a number for its version. -/
def numbered (n : Int) : Bytes :=
  byte '{' :: (quotedLiteral (bytes "v") ++ byte ':' :: bytes (toString n) ++ [byte '}'])

/-- An object with a text for its version, behind a member that is passed
over. -/
def quoted (n : Int) : Bytes :=
  byte '{' :: (quotedLiteral (bytes "note") ++ byte ':' :: bytes "null" ++ byte ',' ::
    (quotedLiteral (bytes "v") ++ byte ':' :: quotedLiteral (bytes (toString n))) ++ [byte '}'])

theorem member_of_denotes {key text : Bytes} {v : Value} (hkey : key.all isPlain)
    (h : Denotes text v) : Member (quotedLiteral key ++ byte ':' :: text) (key, v) := by
  have hnone : IsSpaces [] := rfl
  exact Member.intro hnone (isLiteral_of_plain hkey) hnone h.toItem

theorem unescape?_v : unescape? (bytes "v") = some "v" := unescape?_bytes (by decide) (by decide)

theorem unescape?_note : unescape? (bytes "note") = some "note" :=
  unescape?_bytes (by decide) (by decide)

theorem hasVersion_numbered (n : Int) :
    HasVersion (numbered n) [(bytes "v", .number (toString n).toList)]
      (.number (toString n).toList) where
  item := (Denotes.object (.last (member_of_denotes (by decide) (denotes_toString n)))).toItem
  keys := List.forall_mem_singleton.mpr (by rw [unescape?_v]; rfl)
  version := by simp [valuesOf, unescape?_v]

theorem hasVersion_quoted (n : Int) :
    HasVersion (quoted n) [(bytes "note", .null), (bytes "v", .string (bytes (toString n)))]
      (.string (bytes (toString n))) where
  item := by
    have hversion : Member _ (bytes "v", .string (bytes (toString n))) :=
      member_of_denotes (by decide) (.string (isLiteral_of_plain (plain_toString n)))
    have hnote : Member _ (bytes "note", .null) := member_of_denotes (by decide) .null
    exact (Denotes.object (.more hnote (.last hversion))).toItem
  keys := List.forall_mem_cons.mpr ⟨by rw [unescape?_note]; rfl,
    List.forall_mem_singleton.mpr (by rw [unescape?_v]; rfl)⟩
  version := by simp [valuesOf, unescape?_v, unescape?_note]

end GlyphSearch.Dataset

namespace GlyphSearch.Service

open Dataset Files Json Loading Query Text

/-! ## The same dataset -/

/-- The parts of a dataset besides its metadata, as they are read. -/
structure Parts where
  header : Except FileFault Bytes
  vectors : Except FileFault Bytes
  labels : Except FileFault Bytes

/-- Nobody has asked a service for its dataset. In the directory that it is
going to fetch there are these parts and this metadata. -/
structure Finds (s : Service) (directory : Directory) (members : Nat) (parts : Parts)
    (metadata : Bytes) : Prop where
  loader_eq : s.loader = .start
  notHeldBack : s.heldBack = false
  members_eq : (s.source.fetch s.disk).members = members
  result_eq : (s.source.fetch s.disk).result = .ok directory
  header_eq : (s.source.fetch s.disk).disk.read
    ((directory.path.join s.layout.indexPath).join Index.headerFile) = parts.header
  vectors_eq : (s.source.fetch s.disk).disk.read
    ((directory.path.join s.layout.indexPath).join Index.vectorsFile) = parts.vectors
  labels_eq : (s.source.fetch s.disk).disk.read
    (directory.path.join s.layout.labelsPath) = parts.labels
  metadata_eq : (s.source.fetch s.disk).disk.read
    (directory.path.join s.layout.metadataPath) = .ok metadata

theorem load_members (source : Source) (layout : Layout) (d : Disk) :
    (load source layout d).members = (source.fetch d).members := by
  rw [load]
  dsimp only
  split
  · rfl
  split
  · rfl
  split <;> rfl

theorem readMetadata_of_read {t : Tree} {workingDirectory : Route} {p : Path} {content : Bytes}
    (h : t.read workingDirectory p = .ok content) :
    readMetadata t workingDirectory p = Metadata.parse content := by
  obtain ⟨found, hfind, -⟩ := bind_eq_ok.mp h
  rw [readMetadata, if_pos (by rw [Tree.pathExists, hfind]; rfl), h]
  rfl

variable {s t u v : Service} {directory directory' : Directory} {members : Nat} {parts : Parts}
  {content content' : Bytes}

namespace Finds

theorem readMetadata_eq (h : s.Finds directory members parts content) :
    readMetadata (s.source.fetch s.disk).disk.tree (s.source.fetch s.disk).disk.workingDirectory
      (directory.path.join s.layout.metadataPath) = Metadata.parse content :=
  readMetadata_of_read h.metadata_eq

theorem load_eq (hs : s.Finds directory members parts content)
    (ht : t.Finds directory' members parts content')
    (hparse : Metadata.parse content' = Metadata.parse content) :
    (load t.source t.layout t.disk).result =
      placed directory' (load s.source s.layout s.disk).result := by
  rw [load_of_fetched hs.result_eq, load_of_fetched ht.result_eq]
  refine openAt_congr (ht.labels_eq.trans hs.labels_eq.symm) ?_ ?_
  · rw [ht.readMetadata_eq, hs.readMetadata_eq, hparse]
  · exact openWith_congr (ht.header_eq.trans hs.header_eq.symm)
      (ht.vectors_eq.trans hs.vectors_eq.symm)

theorem unasked (hs : s.Finds directory members parts content)
    (ht : t.Finds directory' members parts content')
    (hparse : Metadata.parse content' = Metadata.parse content) :
    Unasked (load s.source s.layout s.disk).result members t :=
  ⟨ht.loader_eq, ht.notHeldBack, (load_members _ _ _).trans ht.members_eq, directory',
    hs.load_eq ht hparse⟩

theorem published (h : s.Finds directory members parts content) (hu : Reaches s.get.1 u) :
    u.loader.published = some (load s.source s.layout s.disk).result :=
  (Reaches.later hu).published _ (published_of_get h.loader_eq h.notHeldBack)

theorem exists_dataset (h : s.Finds directory members parts content)
    (hready : (load s.source s.layout s.disk).result.toBool = true) :
    ∃ d, s.get.1.dataset? = some d := by
  have hpublished := h.published .refl
  cases hloaded : (load s.source s.layout s.disk).result with
  | error e =>
      rw [hloaded] at hready
      cases hready
  | ok d => exact ⟨d, dataset?_eq_some.mpr (hpublished.trans (congrArg some hloaded))⟩

/-- The metadata of a dataset that is served is that of its directory. -/
theorem parse_of_dataset (h : s.Finds directory members parts content) (hu : Reaches s.get.1 u)
    {d : Dataset} (hd : u.dataset? = some d) : Metadata.parse content = .ok d.metadata := by
  rw [dataset?_eq_some, h.published hu, Option.some_inj, load_of_fetched h.result_eq] at hd
  obtain ⟨-, -, -, -, hmetadata⟩ := of_openAt hd
  rw [← hmetadata, h.readMetadata_eq]

end Finds

/-- A client that names a version gets the answer of the search if it is that of
the dataset, and else is told both. -/
theorem handle_of_version {d : Dataset} (hd : u.dataset? = some d) (text version : String) :
    (u.handle text (some version)).2 = (parse text >>= fun query =>
      if version = d.version then search d query resultCount
      else .error (.versionMismatch d.version version)) := by
  cases hparse : parse text with
  | error e =>
      rw [handle, hparse]
      rfl
  | ok query =>
      rw [handle_of_ready hd hparse, answer]
      show _ = if version = d.version then search d query resultCount
        else .error (.versionMismatch d.version version)
      split_ifs with hversion
      · have hnamed : (some version).getD "1" = d.version := hversion
        rw [prepare_of_version hnamed, search]
        cases fitDimension query d.engine.dimension <;> rfl
      · have hnamed : (some version).getD "1" ≠ d.version := hversion
        rw [prepare_of_otherVersion hnamed]
        rfl

/-- Metadata that tells a whole number as its version, and metadata that tells
the text of the number, are the same if they agree on the other fields, whatever
other members there are and in whatever order. Services with one or the other
give the same responses to all requests from the beginning, and the same
answers to all queries however else they are used. A client that names the
number is answered as the search is, and one that names another number is
refused for it. -/
theorem number_and_text_are_same_version {n : Int} (hlow : -(2 ^ 63) ≤ n) (hhigh : n < 2 ^ 64)
    {number text : Bytes} {members members' : List (Bytes × Value)} {literal : Bytes}
    (hnumber : HasVersion number members (.number (toString n).toList))
    (htext : HasVersion text members' (.string literal))
    (hliteral : unescape? literal = some (toString n))
    (hothers : ∀ field ∈ Metadata.fields, field ≠ "v" →
      valuesOf field members' = valuesOf field members)
    {unpacked : Nat} (hs : s.Finds directory unpacked parts number)
    (ht : t.Finds directory' unpacked parts text) (hlimit : t.bodyLimit = s.bodyLimit)
    (hnow : t.now = s.now) (hcounters : t.counters = s.counters) :
    (∀ m, Metadata.parse number = .ok m ↔
      m.version = toString n ∧ Metadata.DescribesRest members m) ∧
    Metadata.parse text = Metadata.parse number ∧
    (∀ requests, Http.responses t requests = Http.responses s requests) ∧
    (∀ u v, Reaches s.get.1 u → Reaches t.get.1 v → ∀ query version,
      (v.handle query version).2 = (u.handle query version).2) ∧
    ∀ u d, Reaches s.get.1 u ∨ Reaches t.get.1 u → u.dataset? = some d →
      d.version = toString n ∧ ∀ k : Int,
        checkVersion d (toString k) =
          (if k = n then .ok () else .error (.versionMismatch (toString n) (toString k))) ∧
        ∀ query, (u.handle query (some (toString k))).2 = (parse query >>= fun values =>
          if k = n then search d values resultCount
          else .error (.versionMismatch (toString n) (toString k))) := by
  have hread : ∀ m, Metadata.parse number = .ok m ↔
      m.version = toString n ∧ Metadata.DescribesRest members m := fun m => by
    rw [Metadata.parse_of_hasVersion hnumber, saysVersion_number_iff hlow hhigh]
  have hparse : Metadata.parse text = Metadata.parse number := by
    refine Metadata.parse_eq_parse fun m => ?_
    rw [hread, Metadata.parse_of_hasVersion htext, saysVersion_string_iff hliteral,
      Metadata.describesRest_congr hothers]
  have hloaded := hs.load_eq hs rfl
  have hloaded' := hs.load_eq ht hparse
  refine ⟨hread, hparse, fun requests => ?_, fun u v hu hv query version => ?_, ?_⟩
  · exact Http.responses_eq
      ⟨hlimit, hnow, hcounters, .inl ⟨hs.unasked hs rfl, hs.unasked ht hparse⟩⟩ requests
  · exact Holds.handle_eq ⟨directory, (hs.published hu).trans (congrArg some hloaded)⟩
      ⟨directory', (ht.published hv).trans (congrArg some hloaded')⟩ query version
  · intro u d hreach hd
    have hmetadata : Metadata.parse number = .ok d.metadata := by
      rcases hreach with hu | hu
      · exact hs.parse_of_dataset hu hd
      · exact hparse ▸ ht.parse_of_dataset hu hd
    have hversion : d.version = toString n := ((hread _).mp hmetadata).1
    refine ⟨hversion, fun k => ⟨?_, fun query => ?_⟩⟩
    · rw [checkVersion, hversion]
      simp only [toString_inj]
    · rw [handle_of_version hd, hversion]
      simp only [toString_inj]

/-! ## A small dataset with a version -/

/-- A service over the small dataset, with metadata in its directory. -/
def versioned (metadata : Bytes) : Service :=
  let disk := shelf []
  let file := ([bytes "data", bytes "metadata.json"], Node.file metadata)
  ofSource { disk with tree := ⟨file :: disk.tree.nodes⟩ } (.directory "/data")
    Config.Settings.default.dataset.layout 30 1024 ""

theorem versioned_congr (metadata metadata' : Bytes) :
    (versioned metadata').bodyLimit = (versioned metadata).bodyLimit ∧
    (versioned metadata').now = (versioned metadata).now ∧
    (versioned metadata').counters = (versioned metadata).counters :=
  ⟨rfl, rfl, rfl⟩

/-- What the small dataset has besides metadata. -/
def smallParts : Parts where
  header := .ok (bytes "\x7b\"dimension\": 1, \"count\": 1\x7d")
  vectors := .ok (Index.encodeComponents [Single.zero])
  labels := .ok (bytes "a\n")

def smallest : Int := -9223372036854775808

theorem finds_versioned : ∀ metadata ∈ [numbered smallest, quoted smallest],
    (versioned metadata).Finds (.kept (encode "/data")) 0 smallParts metadata := by
  have hread : ∀ metadata ∈ [numbered smallest, quoted smallest],
      let s := versioned metadata
      let inside := Path.join (encode "/data")
      s.disk.find (encode "/data") = .ok ([bytes "data"], .directory) ∧
      s.disk.read ((inside s.layout.indexPath).join Index.headerFile) = smallParts.header ∧
      s.disk.read ((inside s.layout.indexPath).join Index.vectorsFile) = smallParts.vectors ∧
      s.disk.read (inside s.layout.labelsPath) = smallParts.labels ∧
      s.disk.read (inside s.layout.metadataPath) = .ok metadata := by
    decide +kernel
  intro metadata hmem
  obtain ⟨hbase, hheader, hvectors, hlabels, hmetadata⟩ := hread metadata hmem
  have hfetch : (versioned metadata).source.fetch (versioned metadata).disk = _ :=
    fetch_directory hbase
  exact {
    loader_eq := rfl
    notHeldBack := rfl
    members_eq := by rw [hfetch]
    result_eq := by rw [hfetch]
    header_eq := by rw [hfetch]; exact hheader
    vectors_eq := by rw [hfetch]; exact hvectors
    labels_eq := by rw [hfetch]; exact hlabels
    metadata_eq := by rw [hfetch]; exact hmetadata }

/-- The smallest number that is read as it is comes to the same service as its
text. It is let through, and the number after it is refused. -/
theorem number_and_text_are_same_version_of_smallest :
    let s := versioned (numbered smallest)
    let t := versioned (quoted smallest)
    Metadata.parse (quoted smallest) = Metadata.parse (numbered smallest) ∧
    (∀ requests, Http.responses t requests = Http.responses s requests) ∧
    ∃ d, s.get.1.dataset? = some d ∧ d.version = toString smallest ∧
      checkVersion d (toString smallest) = .ok () ∧
      checkVersion d (toString (smallest + 1)) =
        .error (.versionMismatch (toString smallest) (toString (smallest + 1))) := by
  have hothers : ∀ field ∈ Metadata.fields, field ≠ "v" →
      valuesOf field [(bytes "note", .null), (bytes "v", .string (bytes (toString smallest)))] =
        valuesOf field [(bytes "v", .number (toString smallest).toList)] := by
    simp [Metadata.fields, valuesOf, unescape?_v, unescape?_note]
  have hs := finds_versioned (numbered smallest) List.mem_cons_self
  have ht := finds_versioned (quoted smallest) (List.mem_cons_of_mem _ List.mem_cons_self)
  obtain ⟨hlimit, hnow, hcounters⟩ := versioned_congr (numbered smallest) (quoted smallest)
  obtain ⟨-, hparse, hresponses, -, hversion⟩ := number_and_text_are_same_version
    (by decide) (by decide) (hasVersion_numbered smallest) (hasVersion_quoted smallest)
    (unescape?_toString smallest) hothers hs ht hlimit hnow hcounters
  obtain ⟨d, hdataset⟩ := hs.exists_dataset (by decide +kernel)
  obtain ⟨hnamed, hanswers⟩ := hversion _ d (.inl .refl) hdataset
  have hnext : smallest + 1 ≠ smallest := by decide
  exact ⟨hparse, hresponses, d, hdataset, hnamed,
    (hanswers smallest).1.trans (if_pos rfl), (hanswers _).1.trans (if_neg hnext)⟩

end GlyphSearch.Service
