import GlyphSearch.Proofs.Integrity
import GlyphSearch.Proofs.Refusal
import GlyphSearch.Proofs.Unpacking

/-!
# Archives compressed in pieces

A compressed file may consist of pieces that have been compressed one by one,
and decompresses to all of them. The reader of an archive stops at the checksum
and the length of the first piece: what it reads is that piece, and that it
ends without a fault.

So it matters where the first piece ends. Behind an end marker nothing is read
anyway. Inside a member or an end marker the archive is found malformed. But
between two members the first piece is an archive of its own: it is extracted
with success, and the members behind it are left out.
-/

namespace GlyphSearch.Gzip

open Tar

/-- One compressed piece. -/
def IsPiece (content out : Bytes) : Prop :=
  ∃ body trailer, IsBody body out ∧ IsTrailer out trailer ∧ trailer.length = 8 ∧
    content = body ++ trailer

/-- A compressed file and the pieces that it decompresses to. -/
inductive IsFile : Bytes → List Bytes → Prop
  | last {content out : Bytes} (h : IsPiece content out) : IsFile content [out]
  | more {first out rest : Bytes} {outs : List Bytes} (h : IsPiece first out)
      (hrest : IsFile rest outs) : IsFile (first ++ rest) (out :: outs)

theorem isPiece_stored {out : Bytes} (h : out.length < 65536) :
    IsPiece (storedBody out ++ trailerOf out) out :=
  ⟨_, _, isBody_storedBody h, isTrailer_trailerOf out, rfl, rfl⟩

theorem IsTrailer.append {output trailer : Bytes} (h : IsTrailer output trailer) (more : Bytes) :
    IsTrailer output (trailer ++ more) := by
  obtain ⟨hlong, hcheck, hlength⟩ := h
  refine ⟨Nat.le_trans hlong (by simp), ?_, ?_⟩
  · rwa [List.take_append_of_le_length (by omega)]
  · rwa [List.drop_append_of_le_length (by omega),
      List.take_append_of_le_length (by rw [List.length_drop]; omega)]

theorem IsPiece.source_append {content out : Bytes} (h : IsPiece content out) (more : Bytes) :
    isCompressed (content ++ more) = true ∧ source (content ++ more) = .ofBytes out := by
  obtain ⟨body, trailer, hbody, htrailer, -, rfl⟩ := h
  rw [List.append_assoc]
  refine ⟨isCompressed_append hbody.1 _, ?_⟩
  rw [source_of_isBody hbody, endingOf_eq_clean.mpr (htrailer.append more)]
  rfl

/-- Nothing behind the first piece is read. -/
theorem IsFile.source_eq {content out : Bytes} {outs : List Bytes}
    (h : IsFile content (out :: outs)) :
    isCompressed content = true ∧ source content = .ofBytes out := by
  cases h with
  | last h =>
      have hread := h.source_append []
      rwa [List.append_nil] at hread
  | more h _ => exact h.source_append _

end GlyphSearch.Gzip

namespace GlyphSearch.Tar

open Files Gzip Text

/-- Both succeed with the same result, or neither does. -/
def Step.Agrees (s s' : Step) : Prop := ∀ p, s = (p, .ok ()) ↔ s' = (p, .ok ())

theorem Step.agrees_andThen_iff {s : Step} {next : Progress → Step} :
    s.Agrees (s.andThen next) ↔ ∀ p, s = (p, .ok ()) → next p = (p, .ok ()) := by
  obtain ⟨p, e | ⟨⟨⟩⟩⟩ := s
  · simp [Agrees, andThen]
  · simp only [Agrees, andThen, Prod.mk.injEq, and_true]
    constructor
    · rintro h _ rfl
      exact (h p).mp rfl
    · intro h q
      have hsame := h p rfl
      rw [hsame, Prod.mk.injEq, and_iff_left rfl]

/-! ## Archives of whole members -/

section

variable {t : Tree} {destination : Route} {p : Progress} {good content : Bytes}

/-- An archive that is extracted with success either has an end marker or
consists of whole members. -/
theorem hasEndMarker_or_isMembers_of_ok (h : extractPlain t destination content = (p, .ok ())) :
    (Source.ofBytes content).HasEndMarker ∨ IsMembers content := by
  rw [extractPlain, extractSource_eq] at h
  obtain ⟨r, hpasses, hend⟩ := exists_passes_of_ok h
  obtain ⟨r', hskip, ⟨hnil, -⟩ | ⟨header, hblock, hzero⟩⟩ := Reader.nextMember_eq_none hend
  · obtain ⟨hle, rfl⟩ := Reader.skip_eq_ok.mp hskip
    exact .inr ⟨r, hpasses, Nat.le_antisymm hle (List.drop_eq_nil_iff.mp hnil)⟩
  · exact .inl ⟨r, r', header, hpasses, hskip, hblock, hzero⟩

/-- Extraction of an archive and of its beginning, where that consists of whole
members. -/
theorem extractPlain_append_eq (hgood : IsMembers good) (more : Bytes) :
    extractPlain t destination (good ++ more) =
      (extractPlain t destination good).andThen fun p =>
        extractRest destination p (.ofBytesAt good.length more) := by
  obtain ⟨p, hp⟩ | ⟨p, e, hp⟩ := extractPlain_of_isMembers hgood t destination
  · have halone := hp []
    rw [List.append_nil, extractRest_of_none rfl] at halone
    rw [hp, halone]
    rfl
  · have halone := hp []
    rw [List.append_nil] at halone
    rw [hp, halone]
    rfl

end

/-! ## The result -/

section

variable {content out : Bytes} {outs : List Bytes}

theorem extract_of_isFile (h : IsFile content (out :: outs)) (t : Tree) (destination : Route) :
    extract t destination content = extractPlain t destination out := by
  rw [extract_of_isCompressed h.source_eq.1, h.source_eq.2]
  rfl

/-- A compressed file is extracted as its first piece. With an end marker in it,
or nothing behind it, that comes to the same as the whole archive. Where the
first piece consists of whole members, what is behind them is left out. Any
other first piece is refused.

So the compressed file and the whole archive agree exactly if the first piece
has an end marker, if it consists of whole members and there is nothing to
extract behind those, or if neither can be extracted. -/
theorem compressed_file_extracted_as_first_piece (h : IsFile content (out :: outs)) (t : Tree)
    (destination : Route) :
    extract t destination content = extractPlain t destination out ∧
    (outs.flatten = [] ∨ (Source.ofBytes out).HasEndMarker →
      extract t destination content = extractPlain t destination (out :: outs).flatten) ∧
    (IsMembers out → extractPlain t destination (out :: outs).flatten =
      (extract t destination content).andThen fun p =>
        extractRest destination p (.ofBytesAt out.length outs.flatten)) ∧
    (¬ (Source.ofBytes out).HasEndMarker → ¬ IsMembers out →
      ∃ p e, extract t destination content = (p, .error e)) ∧
    ((extract t destination content).Agrees (extractPlain t destination (out :: outs).flatten) ↔
      (Source.ofBytes out).HasEndMarker ∨
      (IsMembers out ∧ ∀ p, extractPlain t destination out = (p, .ok ()) →
        extractRest destination p (.ofBytesAt out.length outs.flatten) = (p, .ok ())) ∨
      (¬ IsMembers out ∧
        ∀ p, extractPlain t destination (out :: outs).flatten ≠ (p, .ok ()))) := by
  rw [extract_of_isFile h, List.flatten_cons]
  have hmarked (hend : (Source.ofBytes out).HasEndMarker) :
      extractPlain t destination out = extractPlain t destination (out ++ outs.flatten) :=
    (extractSource_followedBy hend t destination (.ofBytes outs.flatten)).symm
  have hrefused (hend : ¬ (Source.ofBytes out).HasEndMarker) (hmembers : ¬ IsMembers out) (p) :
      extractPlain t destination out ≠ (p, .ok ()) := fun hok =>
    (hasEndMarker_or_isMembers_of_ok hok).elim hend hmembers
  refine ⟨rfl, ?_, fun hmembers => extractPlain_append_eq hmembers _, ?_, ?_⟩
  · rintro (hnil | hend)
    · rw [hnil, List.append_nil]
    · exact hmarked hend
  · intro hend hmembers
    obtain ⟨⟨p, e | ⟨⟨⟩⟩⟩, hstep⟩ : ∃ step, extractPlain t destination out = step := ⟨_, rfl⟩
    · exact ⟨p, e, hstep⟩
    · exact absurd hstep (hrefused hend hmembers p)
  · by_cases hend : (Source.ofBytes out).HasEndMarker
    · rw [← hmarked hend]
      exact iff_of_true (fun _ => Iff.rfl) (.inl hend)
    by_cases hmembers : IsMembers out
    · rw [extractPlain_append_eq hmembers]
      simp only [hend, hmembers, not_true_eq_false, false_and, or_false, false_or, true_and]
      exact Step.agrees_andThen_iff
    · simp only [hend, hmembers, not_false_eq_true, false_and, false_or, true_and]
      exact forall_congr' fun p => by simp [hrefused hend hmembers p]

end

/-- A file and an end marker in the first piece, and another file in the
second. -/
theorem compressed_file_extracted_as_first_piece_of_end_marker :
    let destination : Route := [bytes "out"]
    let t : Tree := ⟨[(destination, .directory)]⟩
    let first := pack [.file [bytes "a"] (bytes "hi")]
    let second := pack [.file [bytes "b"] []]
    let content := storedBody first ++ trailerOf first ++ (storedBody second ++ trailerOf second)
    let outcome := extract t destination content
    IsFile content [first, second] ∧
    outcome = extractPlain t destination [first, second].flatten ∧ outcome.2 = .ok () ∧
    outcome.1.tree.get? [bytes "out", bytes "a"] = some (.file (bytes "hi")) ∧
    outcome.1.tree.get? [bytes "out", bytes "b"] = none := by
  intro destination t first second content outcome
  have hfile : IsFile content [first, second] :=
    .more (isPiece_stored (by decide +kernel)) (.last (isPiece_stored (by decide +kernel)))
  have hok : (extractPlain t destination first).2 = .ok () := by decide +kernel
  have hend : (Source.ofBytes first).HasEndMarker := by
    refine (hasEndMarker_or_isMembers_of_ok (Prod.ext rfl hok)).resolve_right fun hmembers => ?_
    -- The second file would be extracted too.
    have hboth : extractPlain t destination (first ++ second) = _ :=
      extractPlain_append_eq hmembers second
    exact absurd (congrArg (·.1.files) hboth) (by decide +kernel)
  obtain ⟨hfirst, hsame, -⟩ := compressed_file_extracted_as_first_piece hfile t destination
  have houtcome : outcome = extractPlain t destination first := hfirst
  refine ⟨hfile, hsame (.inr hend), ?_⟩
  rw [houtcome]
  exact ⟨hok, by decide +kernel, by decide +kernel⟩

/-- Two files, and a cut between them. The second one is left out, with
success. -/
theorem piece_behind_first_file_left_out :
    let destination : Route := [bytes "out"]
    let t : Tree := ⟨[(destination, .directory)]⟩
    let a : Item := .file [bytes "a"] []
    let b : Item := .file [bytes "b"] []
    let content := storedBody a.write ++ trailerOf a.write ++
      (storedBody (pack [b]) ++ trailerOf (pack [b]))
    IsFile content [a.write, pack [b]] ∧ isCompressed [a.write, pack [b]].flatten = false ∧
    (∃ p, extract t destination content = (p, .ok ()) ∧ p.files = 1) ∧
    (∃ q, extractPlain t destination [a.write, pack [b]].flatten = (q, .ok ()) ∧ q.files = 2) ∧
    ¬ (extract t destination content).Agrees
      (extractPlain t destination [a.write, pack [b]].flatten) := by
  intro destination t a b content
  let plan : Tree := ⟨[([bytes "a"], .file []), ([bytes "b"], .file [])]⟩
  have hfile : IsFile content [a.write, pack [b]] :=
    .more (isPiece_stored (by decide +kernel)) (.last (isPiece_stored (by decide +kernel)))
  have hplan : plan.IsPlan := Tree.isPlan_of_nodes (by decide +kernel)
  have hfits : FitsBelow plan destination := fitsBelow_of_nodes (by decide +kernel)
  have hempty : IsEmptyDirectory t destination := by
    refine ⟨rfl, ?_⟩
    rintro _ ⟨rest, rfl⟩ hne
    cases rest with
    | nil => exact absurd rfl hne
    | cons name more => rfl
  have hpackable : a.IsPackable := by decide +kernel
  have hrun : ∀ items archive, Packed items archive → (∀ item ∈ items, item.IsIn plan) →
      archive.length < sizeLimit → ∃ p, extractPlain t destination archive = (p, .ok ()) ∧
        p.files = items.countP Item.isFile := by
    intro items archive hpacked hitems hsize
    rw [← Nat.zero_add archive.length] at hsize
    obtain ⟨p, hp, hall⟩ := extractRest_of_packed (p := ⟨t, 0, 0, 0, 0⟩) hplan hfits hpacked hitems
      hsize (shows_of_isEmptyDirectory hempty)
    exact ⟨p, (extractSource_eq ..).trans hp, hall.files.trans (Nat.zero_add _)⟩
  have hwhole : Packed [a, b] [a.write, pack [b]].flatten := by
    rw [List.flatten_cons, List.flatten_cons, List.flatten_nil, List.append_nil]
    exact .file hpackable.isEntry hpackable.spells (packed_pack (by decide +kernel))
  obtain ⟨p, hp, hfirst⟩ := hrun [a] (a.write ++ [])
    (.file hpackable.isEntry hpackable.spells .ended) (by decide +kernel) (by decide +kernel)
  obtain ⟨q, hq, hboth⟩ := hrun _ _ hwhole (by decide +kernel) (by decide +kernel)
  rw [List.append_nil, ← extract_of_isFile hfile] at hp
  refine ⟨hfile, by decide +kernel, ⟨p, hp, hfirst⟩, ⟨q, hq, hboth⟩, fun hagrees => ?_⟩
  have hsame := (hagrees p).mp hp
  rw [hq] at hsame
  cases hsame
  cases hfirst.symm.trans hboth

end GlyphSearch.Tar
