import GlyphSearch.Proofs.Confinement
import GlyphSearch.Proofs.Encoding

/-!
# Which paths of members are accepted

The path of a member is checked as a text, with replacement characters, and its
route is taken from its bytes. `IsSafePath` says of the bytes alone which paths
are accepted: those that begin with no slash of either kind and lead up
nowhere between slashes of either kind.

The route is what is left of the path without empty parts and steps on the
spot. Its path is accepted in turn, with the same route, unless it begins with
a backslash. It may do so though the path did not: `./\x` comes down to `\x`.
-/

namespace GlyphSearch.Tar

open Files Text

/-! ## Safe paths -/

/-- Whether a byte separates the parts of a path on some system. -/
def isSeparatorByte (b : UInt8) : Bool := b = slash || b = byte '\\'

/-- A path that stays below the directory that it is seen from, on any
system. -/
def IsSafePath (raw : Path) : Prop :=
  (∀ b, raw.head? = some b → isSeparatorByte b = false) ∧
  ∃ parts, HasParts isSeparatorByte raw parts ∧ dotDot ∉ parts

theorem isSeparatorByte_iff {b : UInt8} :
    isSeparatorByte b = true ↔ b = slash ∨ b = byte '\\' := by
  rw [isSeparatorByte, Bool.or_eq_true, decide_eq_true_eq, decide_eq_true_eq]

theorem isSeparator_char_eq (b : UInt8) : isSeparator (char b) = isSeparatorByte b := by
  by_cases hb : b = byte '\\'
  · subst hb
    rfl
  · rw [isSeparator_char hb, isSeparatorByte, decide_eq_false hb, Bool.or_false]

theorem isSafePath_iff {raw : Path} : IsSafePath raw ↔
    (∀ b, raw.head? = some b → isSeparatorByte b = false) ∧
      dotDot ∉ raw.splitOnP isSeparatorByte := by
  simp only [IsSafePath, hasParts_iff, exists_eq_left']

theorem isSafePath_of_head {raw : Path} {b : UInt8} (hb : raw.head? = some b)
    (hseparator : isSeparatorByte b = false) (hdown : dotDot ∉ raw.splitOnP isSeparatorByte) :
    IsSafePath raw := by
  refine isSafePath_iff.mpr ⟨fun c hc => ?_, hdown⟩
  obtain rfl := Option.some.inj (hb.symm.trans hc)
  exact hseparator

/-- The text of a path is safe exactly if its bytes are. -/
theorem isSafe_lossy_iff {raw : Path} : isSafe (lossy raw) = true ↔ IsSafePath raw := by
  have hcut : (fun b => isSeparator (char b)) = isSeparatorByte := funext isSeparator_char_eq
  rw [isSafe, Bool.and_eq_true, Bool.not_eq_true', Bool.not_eq_true', isSafePath_iff, ← hcut,
    ← dots_mem_splitOnP_lossy fun _ => isAscii_of_isSeparator, ← Bool.not_eq_true,
    ← Bool.not_eq_true, List.contains_iff_mem, Option.any_eq_true]
  refine and_congr_left' ⟨fun h b hb => Bool.eq_false_iff.mpr fun hseparator => ?_, ?_⟩
  · have hascii := isAscii_of_isSeparator hseparator
    refine h ⟨char b, (head?_lossy_iff hascii).mpr ?_, hseparator⟩
    rw [hb, byte_char]
  · rintro h ⟨c, hc, hseparator⟩
    have hascii := isAscii_of_isSeparator hseparator
    have hbyte := h (byte c) ((head?_lossy_iff hascii).mp hc)
    dsimp only at hbyte
    rw [char_byte hascii.2, hseparator] at hbyte
    cases hbyte

/-- The parts between slashes are cut further at backslashes. -/
theorem mem_splitOnP_isSeparatorByte {path : Path} {part : Name} :
    part ∈ path.splitOnP isSeparatorByte ↔
      ∃ name ∈ path.splitOnP (· = slash), part ∈ name.splitOnP isSeparatorByte := by
  have hslash : ∀ b, decide (b = slash) = true → isSeparatorByte b = true :=
    fun b hb => isSeparatorByte_iff.mpr (.inl (of_decide_eq_true hb))
  rw [(hasParts_splitOnP (· = slash) path).splitOnP_eq_flatMap hslash, List.mem_flatMap]

theorem mem_components {raw : Path} {name : Name} :
    name ∈ raw.components ↔ name ∈ raw.splitOnP (· = slash) ∧ name ≠ [] ∧ name ≠ dot := by
  rw [Path.components, Path.segments, List.mem_filter, List.mem_filter, decide_eq_true_eq,
    decide_eq_true_eq, and_assoc]

theorem slash_not_mem_of_mem_components {raw : Path} {name : Name} (h : name ∈ raw.components) :
    slash ∉ name := fun hslash =>
  of_decide_eq_false
    ((hasParts_splitOnP _ raw).not_separator name (mem_components.mp h).1 slash hslash) rfl

theorem not_isUnsafe_iff {raw : Path} : ¬ IsUnsafe raw ↔ IsSafePath raw := by
  rw [IsUnsafe, toList_decodeLossy, not_or, Bool.not_eq_false, isSafe_lossy_iff]
  refine and_iff_left_of_imp fun hsafe => not_or.mpr ⟨fun habsolute => ?_, fun hup => ?_⟩
  · cases hsafe.1 slash (of_decide_eq_true habsolute)
  · exact (isSafePath_iff.mp hsafe).2
      (mem_splitOnP_isSeparatorByte.mpr ⟨dotDot, (mem_components.mp hup).1, by decide⟩)

theorem memberRoute_of_isSafePath {raw : Path} (h : IsSafePath raw) :
    memberRoute raw = .ok raw.components := memberRoute_of_not_isUnsafe (not_isUnsafe_iff.mpr h)

theorem memberRoute_of_not_isSafePath {raw : Path} (h : ¬ IsSafePath raw) :
    memberRoute raw = .error (.unsafeMember (decodeLossy raw)) :=
  memberRoute_of_isUnsafe (Classical.not_not.mp fun hsafe => h (not_isUnsafe_iff.mp hsafe))

/-! ## The path of a route -/

/-- What a path comes down to: its parts between slashes, without the empty
ones and the steps on the spot. -/
def ComesDownTo (raw : Path) (route : Route) : Prop :=
  ∃ parts, HasParts (· = slash) raw parts ∧
    route = parts.filter fun part => part ≠ [] ∧ part ≠ dot

theorem comesDownTo_components (raw : Path) : ComesDownTo raw raw.components := by
  refine ⟨_, hasParts_splitOnP _ raw, ?_⟩
  rw [Path.components, Path.segments, List.filter_filter]
  exact List.filter_congr fun part _ => by rw [Bool.decide_and, Bool.and_comm]

section

variable {raw : Path}

theorem segments_relativePath_components (raw : Path) :
    Path.segments (Route.relativePath raw.components) = raw.components :=
  segments_relativePath (fun _ h => (mem_components.mp h).2.1)
    fun _ h => slash_not_mem_of_mem_components h

theorem components_relativePath_components (raw : Path) :
    Path.components (Route.relativePath raw.components) = raw.components := by
  rw [Path.components, segments_relativePath_components]
  exact List.filter_eq_self.mpr fun _ h => decide_eq_true (mem_components.mp h).2.2

/-- What a safe path comes down to leads up nowhere, either. -/
theorem dotDot_not_mem_splitOnP_relativePath (h : IsSafePath raw) :
    dotDot ∉ (Route.relativePath raw.components).splitOnP isSeparatorByte := by
  intro hup
  obtain ⟨name, hname, hdots⟩ := mem_splitOnP_isSeparatorByte.mp hup
  -- An empty part has no dots in it, so the part is one of the path itself.
  have hne : name ≠ [] := by
    rintro rfl
    exact absurd hdots (by decide)
  have hmem : name ∈ Path.segments (Route.relativePath raw.components) :=
    List.mem_filter.mpr ⟨hname, decide_eq_true hne⟩
  rw [segments_relativePath_components] at hmem
  exact (isSafePath_iff.mp h).2
    (mem_splitOnP_isSeparatorByte.mpr ⟨name, (mem_components.mp hmem).1, hdots⟩)

theorem isAbsolute_relativePath_components (raw : Path) :
    Path.isAbsolute (Route.relativePath raw.components) = false :=
  isAbsolute_relativePath (fun _ h => (mem_components.mp h).2.1)
    fun _ h => slash_not_mem_of_mem_components h

theorem isSafePath_relativePath_iff (h : IsSafePath raw) :
    IsSafePath (Route.relativePath raw.components) ↔
      (Route.relativePath raw.components).head? ≠ some (byte '\\') := by
  rw [isSafePath_iff, and_iff_left (dotDot_not_mem_splitOnP_relativePath h)]
  refine ⟨fun hfirst hhead => ?_, fun hhead b hb => Bool.eq_false_iff.mpr fun hseparator => ?_⟩
  · cases hfirst _ hhead
  · obtain rfl | rfl := isSeparatorByte_iff.mp hseparator
    · exact of_decide_eq_false (isAbsolute_relativePath_components raw) hb
    · exact hhead hb

/-- A safe path comes down to one that begins with a backslash only by a step
on the spot that stands before it. -/
theorem exists_of_head?_relativePath (h : IsSafePath raw)
    (hhead : (Route.relativePath raw.components).head? = some (byte '\\')) :
    ∃ rest, raw = dot ++ slash :: rest := by
  obtain ⟨parts, hparts, hroute⟩ := comesDownTo_components raw
  have hstart : ∀ b, raw.head? = some b → b ≠ slash ∧ b ≠ byte '\\' := fun b hb =>
    not_or.mp fun hseparator => absurd (isSeparatorByte_iff.mpr hseparator) (by simp [h.1 b hb])
  -- A first part that counts is where the path itself begins.
  have hcounts : ∀ first more : Name, first ≠ [] → raw = first ++ more →
      ∀ names, raw.components ≠ first :: names := by
    intro first more hne hraw names hnames
    rw [hnames, head?_relativePath_cons first names hne] at hhead
    refine (hstart _ ?_).2 rfl
    rw [hraw, List.head?_append, hhead]
    rfl
  cases hparts with
  | last =>
      by_cases hpart : raw ≠ [] ∧ raw ≠ dot
      · rw [List.filter_cons, if_pos (decide_eq_true hpart)] at hroute
        exact absurd hroute (hcounts raw [] hpart.1 (List.append_nil raw).symm _)
      · rw [List.filter_cons, if_neg (ne_true_of_eq_false (decide_eq_false hpart))] at hroute
        rw [hroute] at hhead
        cases hhead
  | @part first rest separator parts _ hseparator =>
      obtain rfl := of_decide_eq_true hseparator
      by_cases hdot : first = dot
      · exact ⟨rest, by rw [hdot]⟩
      · by_cases hempty : first = []
        · subst hempty
          exact absurd rfl (hstart slash rfl).1
        · rw [List.filter_cons, if_pos (decide_eq_true ⟨hempty, hdot⟩)] at hroute
          exact absurd hroute (hcounts first _ hempty rfl _)

end

/-! ## Which paths are accepted, and as what -/

/-- A path is accepted exactly if it is safe, and comes down to its names in
their order. That path stays in every directory that it is seen from, and is
accepted as it is unless it begins with a backslash. A path that is not
accepted is told as the text that it is, with replacement characters where it
is none. -/
theorem safe_paths_accepted_as_their_names (raw : Path) :
    ((∃ route, memberRoute raw = .ok route) ↔ IsSafePath raw) ∧
    (∀ route, memberRoute raw = .ok route →
      ComesDownTo raw route ∧
      Path.isAbsolute route.relativePath = false ∧
      Path.segments route.relativePath = route ∧ dot ∉ route ∧ dotDot ∉ route ∧
      (∀ directory : Path, (directory.join route.relativePath).IsWithin directory) ∧
      (List.head? route.relativePath ≠ some (byte '\\') →
        memberRoute route.relativePath = .ok route) ∧
      (List.head? route.relativePath = some (byte '\\') →
        (∃ rest, raw = dot ++ slash :: rest) ∧ memberRoute route.relativePath =
          .error (.unsafeMember (decodeLossy route.relativePath)))) ∧
    ∀ e, memberRoute raw = .error e →
      e = .unsafeMember (decodeLossy raw) ∧ ∀ text, encode text = raw → e = .unsafeMember text := by
  by_cases h : IsSafePath raw
  · have hroute := memberRoute_of_isSafePath h
    refine ⟨⟨fun _ => h, fun _ => ⟨_, hroute⟩⟩, fun route hok => ?_, fun e he => ?_⟩
    · obtain rfl := Except.ok.inj (hroute.symm.trans hok)
      have hdot : dot ∉ raw.components := fun hmem => (mem_components.mp hmem).2.2 rfl
      have hdown : dotDot ∉ raw.components := dotDot_not_mem_memberRoute hok
      have hrelative := isAbsolute_relativePath_components raw
      have hsegments := segments_relativePath_components raw
      refine ⟨comesDownTo_components raw, hrelative, hsegments, hdot, hdown,
        Path.isWithin_join hrelative (hsegments.symm ▸ hdown), fun hhead => ?_, fun hhead => ?_⟩
      · rw [memberRoute_of_isSafePath ((isSafePath_relativePath_iff h).mpr hhead),
          components_relativePath_components]
      · exact ⟨exists_of_head?_relativePath h hhead, memberRoute_of_not_isSafePath
          fun hsafe => (isSafePath_relativePath_iff h).mp hsafe hhead⟩
    · cases hroute.symm.trans he
  · have herror := memberRoute_of_not_isSafePath h
    refine ⟨⟨fun ⟨_, hok⟩ => ?_, fun hsafe => absurd hsafe h⟩, fun _ hok => ?_, fun e he => ?_⟩
    · cases herror.symm.trans hok
    · cases herror.symm.trans hok
    · obtain rfl := Except.error.inj (herror.symm.trans he)
      refine ⟨rfl, fun text htext => ?_⟩
      rw [← htext, decodeLossy_encode]

/-- A step on the spot, an empty part and bytes that are no text. -/
theorem safe_paths_accepted_as_their_names_of_no_text :
    let raw := bytes "./a//" ++ [0xff] ++ bytes "b\\c"
    let name : Name := [0xff] ++ bytes "b\\c"
    memberRoute raw = .ok [bytes "a", name] ∧
    Path.segments (Route.relativePath [bytes "a", name]) = [bytes "a", name] ∧
    memberRoute (bytes "a/" ++ name) = .ok [bytes "a", name] := by
  intro raw name
  have hsafe : IsSafePath raw := isSafePath_of_head rfl (by decide) (by decide)
  have hmain := safe_paths_accepted_as_their_names raw
  obtain ⟨route, hroute⟩ := hmain.1.mpr hsafe
  have hcomponents : route = [bytes "a", name] :=
    Except.ok.inj (hroute.symm.trans (memberRoute_of_isSafePath hsafe))
  subst hcomponents
  obtain ⟨-, -, hsegments, -, -, -, hagain, -⟩ := hmain.2.1 _ hroute
  exact ⟨hroute, hsegments, hagain (by decide)⟩

/-- The path that a path comes down to need not be accepted. -/
theorem accepted_path_comes_down_to_unsafe_path :
    memberRoute (bytes "./\\x") = .ok [bytes "\\x"] ∧
    Route.relativePath [bytes "\\x"] = bytes "\\x" ∧
    memberRoute (bytes "\\x") = .error (.unsafeMember "\\x") := by
  have hsafe : IsSafePath (bytes "./\\x") := isSafePath_of_head rfl (by decide) (by decide)
  have hunsafe : ¬ IsSafePath (bytes "\\x") := fun h => absurd (h.1 (byte '\\') rfl) (by decide)
  have htext : decodeLossy (bytes "\\x") = "\\x" := by
    rw [decodeLossy_of_ascii (ascii_of_all (by decide))]
    decide
  refine ⟨memberRoute_of_isSafePath hsafe, rfl, ?_⟩
  rw [memberRoute_of_not_isSafePath hunsafe, htext]

end GlyphSearch.Tar
