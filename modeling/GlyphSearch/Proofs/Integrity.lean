import GlyphSearch.Proofs.Archiver
import GlyphSearch.Proofs.Inflating
import Mathlib.Control.Monad.Basic

/-!
# Damaged archives

A compressed archive is checked by the reader that goes on behind its last
decompressed byte: there it meets the end only if a checksum and a length
follow that agree with all bytes before. An archive without an end marker is
read that far, so if it is extracted with success, nothing is missing and
nothing of the checksum and the length has been changed.

An end marker, however, ends reading before. What follows it in the compressed
file is not looked at, be it the rest of the compressed data, the checksum or
the length, and so an archive that lacks them, or has other ones, is extracted
as if it were whole.
-/

namespace GlyphSearch.Gzip

open Tar

/-! ## Headers with more bytes behind them -/

section

variable {bs rest : Bytes} (more : Bytes)

theorem dropExactly_append {n : Nat} (h : dropExactly n bs = some rest) :
    dropExactly n (bs ++ more) = some (rest ++ more) := by
  rw [dropExactly] at h ⊢
  split at h
  · cases h
  · next hlong =>
      cases h
      rw [if_neg (by rw [List.length_append]; omega),
        List.drop_append_of_le_length (Nat.le_of_not_lt hlong)]

theorem le_length_of_dropExactly {n : Nat} (h : dropExactly n bs = some rest) :
    n ≤ bs.length := by
  rw [dropExactly] at h
  split at h
  · cases h
  · next hlong => exact Nat.le_of_not_lt hlong

theorem dropExtra_append (h : dropExtra bs = some rest) :
    dropExtra (bs ++ more) = some (rest ++ more) := by
  rw [dropExtra] at h ⊢
  obtain ⟨behind, hlength, h⟩ := Option.bind_eq_some_iff.mp h
  refine Option.bind_eq_some_iff.mpr ⟨_, dropExactly_append more hlength, ?_⟩
  rw [List.take_append_of_le_length (le_length_of_dropExactly hlength)]
  exact dropExactly_append more h

theorem dropText_append (h : dropText bs = some rest) :
    dropText (bs ++ more) = some (rest ++ more) := by
  rw [dropText] at h ⊢
  split at h
  · cases h
  · next hshort =>
      -- The zero byte that ends the text is among the first bytes.
      have hends := le_length_of_dropExactly h
      have hsame : (bs ++ more).takeWhile (· ≠ 0) = bs.takeWhile (· ≠ 0) := by
        rw [List.takeWhile_append, if_neg (by omega)]
      rw [hsame, if_neg hshort]
      exact dropExactly_append more h

theorem dropHeaderCheck_append {header : Bytes} (h : dropHeaderCheck header bs = some rest) :
    dropHeaderCheck header (bs ++ more) = some (rest ++ more) := by
  rw [dropHeaderCheck] at h ⊢
  obtain ⟨behind, hcheck, h⟩ := Option.bind_eq_some_iff.mp h
  refine Option.bind_eq_some_iff.mpr ⟨_, dropExactly_append more hcheck, ?_⟩
  rw [List.take_append_of_le_length (le_length_of_dropExactly hcheck)]
  split at h
  · next hagrees =>
      cases h
      exact if_pos hagrees
  · cases h

theorem whenFlag_append {flags flag : UInt8} {step step' : Bytes → Option Bytes}
    (hstep : ∀ rest, step bs = some rest → step' (bs ++ more) = some (rest ++ more))
    (h : whenFlag flags flag step bs = some rest) :
    whenFlag flags flag step' (bs ++ more) = some (rest ++ more) := by
  rw [whenFlag] at h ⊢
  split at h
  · next hunset =>
      cases h
      exact if_pos hunset
  · next hset =>
      rw [if_neg hset]
      exact hstep rest h

theorem dropHeader_append {content data : Bytes} (h : dropHeader content = some data) :
    dropHeader (content ++ more) = some (data ++ more) := by
  rw [dropHeader] at h ⊢
  obtain ⟨fixed, hfixed, h⟩ := Option.bind_eq_some_iff.mp h
  refine Option.bind_eq_some_iff.mpr ⟨_, dropExactly_append more hfixed, ?_⟩
  have hlong := le_length_of_dropExactly hfixed
  have hbyte : ∀ i < 10, (content ++ more).getD i 0 = content.getD i 0 := by
    intro i hi
    simp only [List.getD_eq_getElem?_getD, List.getElem?_append_left (Nat.lt_of_lt_of_le hi hlong)]
  rw [hbyte 3 (by decide), hbyte 2 (by decide)]
  dsimp only at h ⊢
  split at h
  · cases h
  · next hplain =>
      rw [if_neg hplain]
      obtain ⟨behindExtra, hextra, h⟩ := Option.bind_eq_some_iff.mp h
      obtain ⟨behindName, hname, h⟩ := Option.bind_eq_some_iff.mp h
      obtain ⟨behindComment, hcomment, h⟩ := Option.bind_eq_some_iff.mp h
      have hheader : (content ++ more).take
            ((content ++ more).length - (behindComment ++ more).length) =
          content.take (content.length - behindComment.length) := by
        rw [List.length_append, List.length_append, Nat.add_sub_add_right,
          List.take_append_of_le_length (Nat.sub_le ..)]
      refine Option.bind_eq_some_iff.mpr
        ⟨_, whenFlag_append more (fun _ => dropExtra_append more) hextra, ?_⟩
      refine Option.bind_eq_some_iff.mpr
        ⟨_, whenFlag_append more (fun _ => dropText_append more) hname, ?_⟩
      refine Option.bind_eq_some_iff.mpr
        ⟨_, whenFlag_append more (fun _ => dropText_append more) hcomment, ?_⟩
      rw [hheader]
      exact whenFlag_append more (fun _ => dropHeaderCheck_append more) h

end

/-! ## What can be read of a compressed file -/

/-- A checksum and a length that agree with some bytes. -/
def IsTrailer (output trailer : Bytes) : Prop :=
  8 ≤ trailer.length ∧ littleEndian (trailer.take 4) = (crc32 output).toNat ∧
    littleEndian ((trailer.drop 4).take 4) = output.length % Nat.pow 2 32

/-- The bytes begin with a complete compressed file, whose checksum and length
agree with what it decompresses to. -/
def IsWhole (content : Bytes) : Prop :=
  ∃ data out bits, dropHeader content = some data ∧ inflate data = (out, .ok bits) ∧
    IsTrailer out.toList bits.toBytes

/-- The header and the compressed data of a file, up to their last byte. -/
def IsBody (body output : Bytes) : Prop :=
  isCompressed body = true ∧ ∃ data bits, dropHeader body = some data ∧
    inflate data = (⟨output⟩, .ok bits) ∧ bits.rest = []

theorem endingOf_eq_clean {output trailer : Bytes} :
    endingOf output trailer = .clean ↔ IsTrailer output trailer := by
  rw [endingOf, IsTrailer]
  split
  · next hshort =>
      constructor
      · intro h
        cases h
      · rintro ⟨hlong, -⟩
        omega
  · next hlong =>
      split
      · next hagrees => exact ⟨fun _ => ⟨Nat.le_of_not_lt hlong, hagrees⟩, fun _ => rfl⟩
      · next hdiffers =>
          constructor
          · intro h
            cases h
          · rintro ⟨-, hagrees⟩
            exact absurd hagrees hdiffers

theorem source_of_ok {content data : Bytes} {out : Array UInt8} {bits : Bits}
    (hdata : dropHeader content = some data) (hout : inflate data = (out, .ok bits)) :
    source content = ⟨out.toList, endingOf out.toList bits.toBytes⟩ := by
  rw [source, hdata]
  dsimp only
  rw [hout]

theorem source_append_of_ok {content data : Bytes} {out : Array UInt8} {bits : Bits}
    (hdata : dropHeader content = some data) (hout : inflate data = (out, .ok bits))
    (more : Bytes) :
    source (content ++ more) = ⟨out.toList, endingOf out.toList (bits.toBytes ++ more)⟩ :=
  source_of_ok (dropHeader_append more hdata) ((goes_inflate data more).of_ok out bits hout)

/-- Behind the decompressed bytes a reader meets the end exactly if the file is
whole. -/
theorem isWhole_iff_clean {content : Bytes} :
    IsWhole content ↔ (source content).ending = .clean := by
  constructor
  · rintro ⟨data, out, bits, hdata, hout, htrailer⟩
    rw [source_of_ok hdata hout]
    exact endingOf_eq_clean.mpr htrailer
  · intro h
    rw [source] at h
    split at h
    · cases h
    · next data hdata =>
        split at h
        · next out bits hout => exact ⟨data, out, bits, hdata, hout, endingOf_eq_clean.mp h⟩
        · cases h
        · cases h

/-- What can be read of the beginning of a file is the beginning of what the
file decompresses to. -/
theorem prefix_source_content {content more data : Bytes} {out : Array UInt8} {bits : Bits}
    (hdata : dropHeader (content ++ more) = some data) (hout : inflate data = (out, .ok bits)) :
    (source content).content <+: out.toList := by
  rw [source]
  split
  · exact List.nil_prefix
  · next data' hdata' =>
      rw [dropHeader_append more hdata'] at hdata
      cases hdata
      have hprefix := (goes_inflate data' more).keeps
      rw [hout] at hprefix
      split
      · next heq =>
          rw [heq] at hprefix
          exact hprefix
      · next heq =>
          rw [heq] at hprefix
          exact hprefix
      · next heq =>
          rw [heq] at hprefix
          exact (List.take_prefix _ _).trans hprefix

theorem littleEndian_inj {bs bs' : Bytes} (hlength : bs.length = bs'.length)
    (h : littleEndian bs = littleEndian bs') : bs = bs' := by
  induction bs generalizing bs' with
  | nil => exact (List.eq_nil_of_length_eq_zero hlength.symm).symm
  | cons b rest ih =>
      cases bs' with
      | nil => cases hlength
      | cons b' rest' =>
          have hvalue : b.toNat + 256 * littleEndian rest = b'.toNat + 256 * littleEndian rest' := h
          have hb := b.toNat_lt
          have hb' := b'.toNat_lt
          have hfirst : b = b' := UInt8.toNat_inj.mp (by omega)
          rw [hfirst, ih (Nat.succ.inj hlength) (by omega)]

theorem eq_of_isTrailer {output trailer other : Bytes} (h : IsTrailer output trailer)
    (hlength : trailer.length = 8) (h' : IsTrailer output other) (hlength' : other.length = 8) :
    other = trailer := by
  have hfirst : other.take 4 = trailer.take 4 :=
    littleEndian_inj (by simp [hlength, hlength']) (h'.2.1.trans h.2.1.symm)
  have hsecond : (other.drop 4).take 4 = (trailer.drop 4).take 4 :=
    littleEndian_inj (by simp [hlength, hlength']) (h'.2.2.trans h.2.2.symm)
  have hall : ∀ bs : Bytes, bs.length = 8 → (bs.drop 4).take 4 = bs.drop 4 := fun bs hbs =>
    List.take_of_length_le (by rw [List.length_drop]; omega)
  rw [hall other hlength', hall trailer hlength] at hsecond
  rw [← List.take_append_drop 4 other, hfirst, hsecond, List.take_append_drop]

/-! ## Stored bytes

A compressed file may store its bytes as they are. -/

/-- A byte with all bits changed. -/
def flipped (b : UInt8) : UInt8 := b ^^^ 255

/-- The header of a compressed file and one stored block. -/
def storedBody (out : Bytes) : Bytes :=
  let low := UInt8.ofNat out.length
  let high := UInt8.ofNat (out.length / 256)
  magic ++ [8, 0, 0, 0, 0, 0, 0, 0, 1, low, high, flipped low, flipped high] ++ out

theorem xor_flipped (b : UInt8) : b ^^^ flipped b = 255 := by
  rw [flipped, ← UInt8.xor_assoc, UInt8.xor_self, UInt8.zero_xor]

theorem inflate_stored {out : Bytes} (h : out.length < 65536) :
    let low := UInt8.ofNat out.length
    let high := UInt8.ofNat (out.length / 256)
    inflate (1 :: low :: high :: flipped low :: flipped high :: out) = (⟨out⟩, .ok ⟨0, 0, []⟩) := by
  intro low high
  have hlength : low.toNat + 256 * high.toNat = out.length := by
    rw [UInt8.toNat_ofNat', UInt8.toNat_ofNat']
    omega
  have hstored : ∀ held count, inflateStored
      ⟨held, count, low :: high :: flipped low :: flipped high :: out⟩ #[] =
        (⟨out⟩, .ok ⟨0, 0, []⟩) := by
    intro held count
    rw [inflateStored]
    simp only [Bits.toBytes, xor_flipped, hlength, List.take_length, List.drop_length]
    have hcopied : out.foldl Array.push #[] = ⟨out⟩ :=
      Array.toList_inj.mp (toList_foldl_push out #[])
    rw [if_neg (by decide), if_neg (Nat.lt_irrefl _), hcopied]
    rfl
  have hblock : ∀ fuel, inflateBlock fuel
      ⟨0, 7, low :: high :: flipped low :: flipped high :: out⟩ #[] =
        (⟨out⟩, .ok ⟨0, 0, []⟩) := by
    intro fuel
    have htype : Bits.takeNumber 2 ⟨0, 7, low :: high :: flipped low :: flipped high :: out⟩ =
        .ok (0, ⟨0, 5, low :: high :: flipped low :: flipped high :: out⟩) := by
      simp [Bits.takeNumber, Bits.takeBit, bind, Except.bind, pure, Except.pure]
    rw [inflateBlock, htype]
    exact hstored 0 5
  rw [inflate, inflateBlocks]
  have hbit : (Bits.ofBytes (1 :: low :: high :: flipped low :: flipped high :: out)).takeBit =
      .ok (true, ⟨0, 7, low :: high :: flipped low :: flipped high :: out⟩) := rfl
  rw [hbit]
  dsimp only
  rw [hblock]
  rfl

theorem isBody_storedBody {out : Bytes} (h : out.length < 65536) :
    IsBody (storedBody out) out := by
  refine ⟨rfl, (storedBody out).drop 10, ⟨0, 0, []⟩, ?_, inflate_stored h, rfl⟩
  have hfixed : dropExactly 10 (storedBody out) = some ((storedBody out).drop 10) :=
    if_neg (by simp [storedBody, magic])
  have hflags : (storedBody out).getD 3 0 = 0 := rfl
  have hmethod : (storedBody out).getD 2 0 = 8 := rfl
  simp only [dropHeader, hfixed, hflags, hmethod, Option.bind_eq_bind, Option.bind_some]
  rfl

/-- The last four bytes of a number, the least first. -/
def fourBytes (n : Nat) : Bytes :=
  [UInt8.ofNat n, UInt8.ofNat (n / 256), UInt8.ofNat (n / 256 / 256),
    UInt8.ofNat (n / 256 / 256 / 256)]

theorem littleEndian_fourBytes (n : Nat) : littleEndian (fourBytes n) = n % Nat.pow 2 32 := by
  have hpow : Nat.pow 2 32 = 4294967296 := rfl
  simp only [littleEndian, fourBytes, List.foldr, UInt8.toNat_ofNat', hpow]
  omega

/-- The trailer of a file that is made from some bytes. -/
def trailerOf (out : Bytes) : Bytes := fourBytes (crc32 out).toNat ++ fourBytes out.length

theorem isTrailer_trailerOf (out : Bytes) : IsTrailer out (trailerOf out) := by
  refine ⟨Nat.le_refl 8, ?_, littleEndian_fourBytes out.length⟩
  exact (littleEndian_fourBytes _).trans (Nat.mod_eq_of_lt (crc32 out).toNat_lt)

end GlyphSearch.Gzip

namespace GlyphSearch.Tar

open Files Gzip Text

theorem isCompressed_append {content : Bytes} (h : isCompressed content = true) (more : Bytes) :
    isCompressed (content ++ more) = true := by
  rw [isCompressed, List.isPrefixOf_iff_prefix] at h ⊢
  exact h.trans (List.prefix_append content more)

theorem isCompressed_take {content : Bytes} (h : isCompressed content = true) {n : Nat}
    (hn : 2 ≤ n) : isCompressed (content.take n) = true := by
  rw [isCompressed, List.isPrefixOf_iff_prefix] at h ⊢
  exact List.prefix_take_iff.mpr ⟨h, hn⟩

theorem extract_of_isCompressed {content : Bytes} (h : isCompressed content = true) (t : Tree)
    (destination : Route) :
    extract t destination content = extractSource t destination (source content) := if_pos h

theorem isWhole_of_extract {t : Tree} {destination : Route} {content : Bytes} {p : Progress}
    (hcompressed : isCompressed content = true)
    (hok : extract t destination content = (p, .ok ())) (hend : ¬ (source content).HasEndMarker) :
    IsWhole content := by
  rw [extract_of_isCompressed hcompressed] at hok
  obtain hmarker | hclean := hasEndMarker_or_clean_of_ok hok
  · exact absurd hmarker hend
  · exact isWhole_iff_clean.mpr hclean

section

variable {body out : Bytes}

theorem source_of_isBody (h : IsBody body out) (trailer : Bytes) :
    source (body ++ trailer) = ⟨out, endingOf out trailer⟩ := by
  obtain ⟨-, data, bits, hdata, hout, hrest⟩ := h
  rw [source_append_of_ok hdata hout, Bits.toBytes, hrest, List.nil_append]

/-- A file that has been cut can be read as the beginning of the whole file. -/
theorem exists_followedBy_of_take (h : IsBody body out) (trailer : Bytes) (n : Nat) :
    ∃ next, (source ((body ++ trailer).take n)).followedBy next = source (body ++ trailer) := by
  obtain ⟨rest, hrest⟩ : (source ((body ++ trailer).take n)).content <+: out := by
    obtain ⟨-, data, bits, hdata, hout, -⟩ := h
    have hall : (body ++ trailer).take n ++ (body ++ trailer).drop n = body ++ trailer :=
      List.take_append_drop n _
    exact prefix_source_content (hall ▸ dropHeader_append trailer hdata)
      ((goes_inflate data trailer).of_ok _ bits hout)
  refine ⟨⟨rest, endingOf out trailer⟩, ?_⟩
  rw [source_of_isBody h, Source.followedBy, hrest]

/-- A file that is whole lacks nothing at its end. -/
theorem length_le_of_isWhole_take (h : IsBody body out) {trailer : Bytes}
    (hlength : trailer.length = 8) {n : Nat} (hwhole : IsWhole ((body ++ trailer).take n)) :
    (body ++ trailer).length ≤ n := by
  obtain ⟨-, data, bits, hdata, hout, hrest⟩ := h
  obtain ⟨data', out', bits', hdata', hout', htrailer⟩ := hwhole
  -- Both read the same compressed data up to the same place.
  have hsame := dropHeader_append ((body ++ trailer).drop n) hdata'
  rw [List.take_append_drop, dropHeader_append trailer hdata] at hsame
  have hend := (goes_inflate data' ((body ++ trailer).drop n)).of_ok out' bits' hout'
  rw [← Option.some.inj hsame, (goes_inflate data trailer).of_ok _ bits hout] at hend
  have hlengths := congrArg (·.rest.length) (Except.ok.inj (Prod.mk.inj hend).2)
  have hlong : 8 ≤ bits'.rest.length := htrailer.1
  simp only [Bits.followedBy, hrest, List.nil_append, List.length_append, List.length_drop]
    at hlengths
  rw [List.length_append]
  omega

end

/-- Of compressed archives without an end marker, those that are not whole are
refused; in particular every beginning of one, and every one with another
checksum or length. Of an archive with an end marker it is enough that the end
marker can be read: then a beginning of it, and the archive with anything else
behind the compressed data, are extracted as the whole archive is. -/
theorem damage_found_unless_end_marker (t : Tree) (destination : Route) :
    (∀ content p, isCompressed content = true → extract t destination content = (p, .ok ()) →
      ¬ (source content).HasEndMarker → IsWhole content) ∧
    ∀ body out trailer, IsBody body out → IsTrailer out trailer → trailer.length = 8 →
      (¬ (Source.ofBytes out).HasEndMarker →
        (∀ n, 2 ≤ n → n < (body ++ trailer).length →
          (extract t destination ((body ++ trailer).take n)).2 ≠ .ok ()) ∧
        ∀ other, other.length = 8 → other ≠ trailer →
          (extract t destination (body ++ other)).2 ≠ .ok ()) ∧
      (∀ n, 2 ≤ n → (source ((body ++ trailer).take n)).HasEndMarker →
        extract t destination ((body ++ trailer).take n) =
          extract t destination (body ++ trailer)) ∧
      ((Source.ofBytes out).HasEndMarker → ∀ other,
        extract t destination (body ++ other) = extract t destination (body ++ trailer)) := by
  refine ⟨fun content p hcompressed hok hend => isWhole_of_extract hcompressed hok hend, ?_⟩
  intro body out trailer hbody htrailer hlength
  have hcompressed : ∀ other, isCompressed (body ++ other) = true :=
    isCompressed_append hbody.1
  have hmarker : ∀ other, (source (body ++ other)).HasEndMarker ↔
      (Source.ofBytes out).HasEndMarker := by
    intro other
    refine hasEndMarker_congr ?_
    rw [source_of_isBody hbody]
    rfl
  refine ⟨fun hend => ⟨?_, ?_⟩, ?_, ?_⟩
  · intro n hn hcut hok
    obtain ⟨next, hnext⟩ := exists_followedBy_of_take hbody trailer n
    have hcutEnd : ¬ (source ((body ++ trailer).take n)).HasEndMarker := fun h =>
      hend ((hmarker trailer).mp (hnext ▸ h.followedBy next))
    have hwhole := isWhole_of_extract (isCompressed_take (hcompressed trailer) hn)
      (Prod.ext rfl hok) hcutEnd
    exact absurd (length_le_of_isWhole_take hbody hlength hwhole) (Nat.not_le.mpr hcut)
  · intro other hother hne hok
    have hwhole := isWhole_of_extract (hcompressed other) (Prod.ext rfl hok)
      (fun h => hend ((hmarker other).mp h))
    have hother' : IsTrailer out other := by
      rw [isWhole_iff_clean, source_of_isBody hbody] at hwhole
      exact endingOf_eq_clean.mp hwhole
    exact hne (eq_of_isTrailer htrailer hlength hother' hother)
  · intro n hn hend
    obtain ⟨next, hnext⟩ := exists_followedBy_of_take hbody trailer n
    rw [extract_of_isCompressed (hcompressed trailer),
      extract_of_isCompressed (isCompressed_take (hcompressed trailer) hn), ← hnext]
    exact (extractSource_followedBy hend t destination next).symm
  · intro hend other
    rw [extract_of_isCompressed (hcompressed trailer), extract_of_isCompressed (hcompressed other)]
    refine extractSource_congr ?_ ((hmarker trailer).mpr hend) t destination
    rw [source_of_isBody hbody, source_of_isBody hbody]

/-- A file and no end marker. The whole archive is extracted. Without its last
byte, or with another length at its end, it is not. -/
theorem damage_found_unless_end_marker_of_file :
    let destination : Route := [bytes "out"]
    let t : Tree := ⟨[(destination, .directory)]⟩
    let out := (Item.file [bytes "a"] (bytes "hi")).write
    let body := storedBody out
    let trailer := trailerOf out
    let whole := extract t destination (body ++ trailer)
    IsBody body out ∧ IsTrailer out trailer ∧ ¬ (Source.ofBytes out).HasEndMarker ∧
    whole.2 = .ok () ∧
    whole.1.tree.get? [bytes "out", bytes "a"] = some (.file (bytes "hi")) ∧
    (extract t destination ((body ++ trailer).take 1046)).2 ≠ .ok () ∧
    (extract t destination (body ++ (fourBytes (crc32 out).toNat ++ fourBytes 0))).2 ≠ .ok () := by
  intro destination t out body trailer whole
  have hbody : IsBody body out := isBody_storedBody (by decide +kernel)
  have htrailer : IsTrailer out trailer := isTrailer_trailerOf out
  have hend : ¬ (Source.ofBytes out).HasEndMarker := fun h => by
    -- A second file behind an end marker would be left out.
    have hsame := extractSource_followedBy h t destination
      (.ofBytes (Item.file [bytes "b"] []).write)
    exact absurd (congrArg (·.1.files) hsame) (by decide +kernel)
  have hfound := ((damage_found_unless_end_marker t destination).2 body out trailer
    hbody htrailer rfl).1 hend
  have hwhole : whole = extractPlain t destination out := by
    refine (extract_of_isCompressed (isCompressed_append hbody.1 _) t destination).trans ?_
    rw [source_of_isBody hbody, endingOf_eq_clean.mpr htrailer]
    rfl
  rw [hwhole]
  refine ⟨hbody, htrailer, hend, by decide +kernel, by decide +kernel,
    hfound.1 1046 (by decide) (by decide +kernel), hfound.2 _ rfl fun hsame => ?_⟩
  have hlength : fourBytes 0 ≠ fourBytes out.length := by decide +kernel
  exact hlength (List.append_cancel_left hsame)

/-- A file and an end marker. The archive is extracted although the checksum and
the length are missing. -/
theorem cut_archive_with_end_marker_extracted :
    let destination : Route := [bytes "out"]
    let t : Tree := ⟨[(destination, .directory)]⟩
    let out := pack [.file [bytes "a"] (bytes "hi")]
    let content := storedBody out
    isCompressed content = true ∧ (extract t destination content).2 = .ok () ∧
    (extract t destination content).1.tree.get? [bytes "out", bytes "a"] =
      some (.file (bytes "hi")) ∧
    ¬ IsWhole content := by
  intro destination t out content
  have hbody : IsBody content out := isBody_storedBody (by decide +kernel)
  have hsource : source content = ⟨out, .broken .unexpectedEnd⟩ := by
    have h := source_of_isBody hbody []
    rw [List.append_nil] at h
    exact h
  rw [extract_of_isCompressed hbody.1, isWhole_iff_clean, hsource]
  exact ⟨hbody.1, by decide +kernel, by decide +kernel, by decide⟩

end GlyphSearch.Tar
