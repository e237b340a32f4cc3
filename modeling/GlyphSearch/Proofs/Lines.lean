import GlyphSearch.Dataset.Labels
import GlyphSearch.Proofs.Escaping
import GlyphSearch.Proofs.Words
import Mathlib.Data.List.Forall2

/-!
# Labels and the lines of their file

The file is cut into lines as bytes, and each line is decoded by itself. That
comes to the same as decoding the file and cutting the text: a line end is one
byte, and no other character has that byte in it. So the labels can be read
exactly if the file as a whole is a text, and there is one label for each of
its lines, a blank line and a line without a line end included.

A label is its line without the blanks at the end. A label that ends in no
blank is therefore read back, whether its line ends with or without a carriage
return, and the labels that are read are of that kind.
-/

namespace GlyphSearch.Text

/-! ## Lines -/

/-- Each line has a line end behind it. Only the last one may lack it, if it is
not empty. -/
inductive HasLines {α : Type} (lineEnd : α) : List α → List (List α) → Prop
  | empty : HasLines lineEnd [] []
  | last {line : List α} (hne : line ≠ []) (h : lineEnd ∉ line) : HasLines lineEnd line [line]
  | line {line rest : List α} {lines : List (List α)} (h : lineEnd ∉ line)
      (hrest : HasLines lineEnd rest lines) :
      HasLines lineEnd (line ++ lineEnd :: rest) (line :: lines)

section

variable {α : Type} {lineEnd : α} {xs : List α} {lines : List (List α)}

theorem exists_hasLines [DecidableEq α] (lineEnd : α) (xs : List α) :
    ∃ lines, HasLines lineEnd xs lines := by
  induction xs with
  | nil => exact ⟨[], .empty⟩
  | cons x xs ih =>
      obtain ⟨lines, h⟩ := ih
      by_cases hx : x = lineEnd
      · subst hx
        exact ⟨[] :: lines, .line List.not_mem_nil h⟩
      · have hfirst : ∀ line, lineEnd ∉ line → lineEnd ∉ x :: line := fun line hline hmem =>
          (List.mem_cons.mp hmem).elim (fun heq => hx heq.symm) hline
        cases h with
        | empty => exact ⟨_, .last (List.cons_ne_nil x []) (hfirst [] List.not_mem_nil)⟩
        | last _ hline => exact ⟨_, .last (List.cons_ne_nil x xs) (hfirst xs hline)⟩
        | line hline hrest => exact ⟨_, .line (hfirst _ hline) hrest⟩

theorem HasLines.not_mem (h : HasLines lineEnd xs lines) : ∀ line ∈ lines, lineEnd ∉ line := by
  induction h with
  | empty => simp
  | last _ h => exact List.forall_mem_singleton.mpr h
  | line h _ ih => exact List.forall_mem_cons.mpr ⟨h, ih⟩

end

theorem utf8EncodeChar_lineEnd : String.utf8EncodeChar '\n' = [byte '\n'] :=
  utf8EncodeChar_of_ascii (by decide)

theorem lineEnd_not_mem_flatMap {line : List Char} (h : '\n' ∉ line) :
    byte '\n' ∉ line.flatMap String.utf8EncodeChar := by
  intro hmem
  obtain ⟨c, hc, hb⟩ := List.mem_flatMap.mp hmem
  rcases Nat.lt_or_ge c.toNat 0x80 with hascii | hlarge
  · rw [utf8EncodeChar_of_ascii hascii, List.mem_singleton] at hb
    exact h (eq_of_byte_eq (by decide) hascii hb ▸ hc)
  · exact absurd (le_of_mem_utf8EncodeChar hlarge _ hb) (by decide)

/-- The lines of the bytes are the bytes of the lines. -/
theorem HasLines.flatMap_utf8EncodeChar {cs : List Char} {lines : List (List Char)}
    (h : HasLines '\n' cs lines) :
    HasLines (byte '\n') (cs.flatMap String.utf8EncodeChar)
      (lines.map (·.flatMap String.utf8EncodeChar)) := by
  induction h with
  | empty => exact .empty
  | @last line hne h =>
      refine .last (fun hnil => ?_) (lineEnd_not_mem_flatMap h)
      obtain ⟨c, rest, rfl⟩ := List.exists_cons_of_ne_nil hne
      obtain ⟨b, bs, hbytes, -⟩ := next_utf8EncodeChar c
      rw [List.flatMap_cons, hbytes] at hnil
      cases hnil
  | @line line rest lines h _ ih =>
      rw [List.flatMap_append, List.flatMap_cons, utf8EncodeChar_lineEnd]
      exact .line (lineEnd_not_mem_flatMap h) ih

theorem encode_ofList (cs : List Char) :
    encode (String.ofList cs) = cs.flatMap String.utf8EncodeChar := by
  rw [encode_eq_flatMap, String.toList_ofList]

/-- Where each line is that of a text, all the bytes are. -/
theorem HasLines.exists_text {content : Bytes} {lines : List Bytes}
    (h : HasLines (byte '\n') content lines) (hlines : ∀ line ∈ lines, ∃ s, encode s = line) :
    ∃ text, encode text = content := by
  induction h with
  | empty => exact ⟨"", by rw [encode_eq_flatMap]; rfl⟩
  | last _ _ => exact hlines _ (List.mem_singleton.mpr rfl)
  | line _ _ ih =>
      obtain ⟨s, rfl⟩ := hlines _ List.mem_cons_self
      obtain ⟨text, rfl⟩ := ih fun line hline => hlines line (List.mem_cons_of_mem _ hline)
      refine ⟨s ++ "\n" ++ text, ?_⟩
      simp [encode_eq_flatMap, utf8EncodeChar_lineEnd]

/-! ## Blanks at the end -/

/-- A text that does not end in a blank. -/
def EndsTight (cs : List Char) : Prop := ∀ c, cs.getLast? = some c → isBlank c = false

theorem trimEnd_append {cs blanks : List Char} (h : IsBlanks blanks) (hcs : EndsTight cs) :
    trimEnd (cs ++ blanks) = cs := by
  have hkept : cs.reverse.dropWhile isBlank = cs.reverse := by
    rw [EndsTight, ← List.head?_reverse] at hcs
    cases hrev : cs.reverse with
    | nil => rfl
    | cons c rest =>
        rw [hrev] at hcs
        exact List.dropWhile_cons_of_neg (by simp [hcs c rfl])
  rw [trimEnd, List.reverse_append,
    List.dropWhile_append_of_pos fun c hc => h c (List.mem_reverse.mp hc), hkept,
    List.reverse_reverse]

theorem endsTight_trimEnd (cs : List Char) : EndsTight (trimEnd cs) := by
  intro c hc
  rw [trimEnd, List.getLast?_reverse] at hc
  have hhead := List.head?_dropWhile_not isBlank cs.reverse
  rw [hc] at hhead
  simpa using hhead

theorem exists_trimEnd_append (cs : List Char) :
    ∃ blanks, IsBlanks blanks ∧ cs = trimEnd cs ++ blanks := by
  refine ⟨(cs.reverse.takeWhile isBlank).reverse, fun c hc => ?_, ?_⟩
  · exact List.mem_takeWhile_imp (List.mem_reverse.mp hc)
  · rw [trimEnd, ← List.reverse_append, List.takeWhile_append_dropWhile, List.reverse_reverse]

end GlyphSearch.Text

namespace GlyphSearch.Dataset

open Text

/-! ## Labels -/

/-- A label is its line without the blanks at the end. -/
def IsLabelOf (line : List Char) (label : String) : Prop :=
  EndsTight label.toList ∧ ∃ blanks, IsBlanks blanks ∧ line = label.toList ++ blanks

theorem isLabelOf_iff {line : List Char} {label : String} :
    IsLabelOf line label ↔ String.ofList (trimEnd line) = label := by
  constructor
  · rintro ⟨htight, blanks, hblanks, rfl⟩
    rw [trimEnd_append hblanks htight, String.ofList_toList]
  · rintro rfl
    rw [IsLabelOf, String.toList_ofList]
    exact ⟨endsTight_trimEnd line, exists_trimEnd_append line⟩

theorem dropEmptyLast_cons (line : Bytes) {lines : List Bytes} (hne : lines ≠ []) :
    dropEmptyLast (line :: lines) = line :: dropEmptyLast lines := by
  rw [dropEmptyLast, dropEmptyLast, List.getLast?_cons_of_ne_nil hne]
  split
  · exact List.dropLast_cons_of_ne_nil hne
  · rfl

theorem dropEmptyLast_of_hasLines {content : Bytes} {lines : List Bytes}
    (h : HasLines (byte '\n') content lines) :
    dropEmptyLast (content.splitOnP (· = byte '\n')) = lines := by
  have hcut : ∀ {line : Bytes}, byte '\n' ∉ line → ∀ b ∈ line, decide (b = byte '\n') = false :=
    fun hline b hb => decide_eq_false fun heq => hline (heq ▸ hb)
  induction h with
  | empty => rfl
  | @last line hne h =>
      rw [List.splitOnP_eq_singleton (hcut h)]
      exact if_neg (by simpa using hne)
  | @line line rest lines h _ ih =>
      have hend : decide (byte '\n' = byte '\n') = true := rfl
      have hne : rest.splitOnP (· = byte '\n') ≠ [] := List.splitOnP_ne_nil _ _
      rw [List.splitOnP_append_cons (p := (· = byte '\n')) _ _ hend,
        List.splitOnP_eq_singleton (hcut h), List.singleton_append,
        dropEmptyLast_cons _ hne, ih]

theorem mapM_eq_some_iff {α β : Type} {f : α → Option β} {xs : List α} {ys : List β} :
    xs.mapM f = some ys ↔ List.Forall₂ (fun x y => f x = some y) xs ys := by
  induction xs generalizing ys with
  | nil => simp [eq_comm]
  | cons x xs ih =>
      simp only [List.mapM_cons, Option.bind_eq_bind, Option.pure_def, Option.bind_eq_some_iff,
        Option.some.injEq, ih, List.forall₂_cons_left_iff]
      constructor
      · rintro ⟨y, hy, rest, hrest, rfl⟩
        exact ⟨y, rest, hy, hrest, rfl⟩
      · rintro ⟨y, rest, hy, hrest, rfl⟩
        exact ⟨y, hy, rest, hrest, rfl⟩

theorem parseLabels_eq_ok {content : Bytes} {lines : List Bytes} {labels : List String}
    (h : HasLines (byte '\n') content lines) : parseLabels content = .ok labels ↔
      List.Forall₂ (fun line label => labelOfLine? line = some label) lines labels := by
  rw [parseLabels, dropEmptyLast_of_hasLines h, ← mapM_eq_some_iff]
  cases lines.mapM labelOfLine? <;> simp

theorem labelOfLine?_flatMap {line : List Char} {label : String} :
    labelOfLine? (line.flatMap String.utf8EncodeChar) = some label ↔ IsLabelOf line label := by
  rw [labelOfLine?, ← encode_ofList, decode?_encode, isLabelOf_iff, Option.map_some,
    String.toList_ofList, Option.some.injEq]

section

variable {text : String} {lines : List (List Char)} {labels : List String}

theorem parseLabels_encode (h : HasLines '\n' text.toList lines) :
    parseLabels (encode text) = .ok labels ↔ List.Forall₂ IsLabelOf lines labels := by
  rw [encode_eq_flatMap, parseLabels_eq_ok h.flatMap_utf8EncodeChar, List.forall₂_map_left_iff]
  simp only [labelOfLine?_flatMap]

theorem exists_parseLabels_encode (h : HasLines '\n' text.toList lines) :
    ∃ labels, parseLabels (encode text) = .ok labels := by
  refine ⟨lines.map fun line => String.ofList (trimEnd line), (parseLabels_encode h).mpr ?_⟩
  exact List.forall₂_map_right_iff.mpr (List.forall₂_same.mpr fun line _ => isLabelOf_iff.mpr rfl)

theorem resolveLabel_eq_ok_iff {n : Nat} {label : String} :
    resolveLabel labels n = .ok label ↔ labels[n]? = some label := by
  rw [resolveLabel]
  cases labels[n]? <;> simp

theorem exists_resolveLabel (h : List.Forall₂ IsLabelOf lines labels) {n : Nat}
    {line : List Char} (hline : lines[n]? = some line) :
    ∃ label, resolveLabel labels n = .ok label ∧ IsLabelOf line label := by
  simp only [resolveLabel_eq_ok_iff]
  induction h generalizing n with
  | nil => cases hline
  | @cons first label _ _ hfirst _ ih =>
      cases n with
      | zero =>
          obtain rfl : first = line := Option.some.inj hline
          exact ⟨label, rfl, hfirst⟩
      | succ n => exact ih hline

/-- Where labels can be read the whole file is a text. -/
theorem exists_text_of_parseLabels {content : Bytes} (h : parseLabels content = .ok labels) :
    ∃ text, encode text = content := by
  obtain ⟨lines, hlines⟩ := exists_hasLines (byte '\n') content
  have hlabels := (parseLabels_eq_ok hlines).mp h
  refine hlines.exists_text fun line hline => ?_
  obtain ⟨label, hlabel⟩ : ∃ label, labelOfLine? line = some label := by
    clear hlines h
    induction hlabels with
    | nil => cases hline
    | cons hfirst _ ih =>
        rcases List.mem_cons.mp hline with rfl | hline
        · exact ⟨_, hfirst⟩
        · exact ih hline
  obtain ⟨s, hs, -⟩ := Option.map_eq_some_iff.mp hlabel
  exact ⟨s, decode?_eq_some_iff.mp hs⟩

end

/-! ## Labels that are written -/

inductive IsLineEnd : String → Prop
  | newline : IsLineEnd "\n"
  | carriageReturn : IsLineEnd "\r\n"

/-- The text of labels, each with what ends its line. -/
def writeLabels : List (String × String) → String
  | [] => ""
  | (label, lineEnd) :: rest => label ++ lineEnd ++ writeLabels rest

/-- A label that is read back as it was written. -/
def IsWritable (label : String) : Prop := '\n' ∉ label.toList ∧ EndsTight label.toList

theorem hasLines_of_isLineEnd {label lineEnd : String} {rest : List Char}
    {lines : List (List Char)} (hlabel : IsWritable label) (hend : IsLineEnd lineEnd)
    (hrest : HasLines '\n' rest lines) :
    ∃ line, IsLabelOf line label ∧
      HasLines '\n' (label.toList ++ lineEnd.toList ++ rest) (line :: lines) := by
  obtain ⟨hline, htight⟩ := hlabel
  cases hend with
  | newline =>
      refine ⟨label.toList, ⟨htight, [], List.forall_mem_nil _, (List.append_nil _).symm⟩, ?_⟩
      simpa using HasLines.line hline hrest
  | carriageReturn =>
      -- The carriage return is a blank at the end of the line.
      have hblank : IsBlanks ['\r'] := List.forall_mem_singleton.mpr (by decide)
      have hreturn : '\n' ∉ label.toList ++ ['\r'] := by simp [hline]
      refine ⟨label.toList ++ ['\r'], ⟨htight, ['\r'], hblank, rfl⟩, ?_⟩
      simpa using HasLines.line hreturn hrest

theorem parseLabels_writeLabels {written : List (String × String)}
    (h : ∀ w ∈ written, IsWritable w.1 ∧ IsLineEnd w.2) :
    parseLabels (encode (writeLabels written)) = .ok (written.map Prod.fst) := by
  obtain ⟨lines, hlines, hlabels⟩ : ∃ lines, HasLines '\n' (writeLabels written).toList lines ∧
      List.Forall₂ IsLabelOf lines (written.map Prod.fst) := by
    induction written with
    | nil => exact ⟨[], .empty, .nil⟩
    | cons w written ih =>
        obtain ⟨label, lineEnd⟩ := w
        obtain ⟨hlabel, hend⟩ := h _ List.mem_cons_self
        obtain ⟨lines, hlines, hlabels⟩ := ih fun w hw => h w (List.mem_cons_of_mem _ hw)
        obtain ⟨line, hline, hfirst⟩ := hasLines_of_isLineEnd hlabel hend hlines
        exact ⟨line :: lines, by simpa [writeLabels] using hfirst, .cons hline hlabels⟩
  exact (parseLabels_encode hlines).mpr hlabels

theorem isWritable_of_parseLabels {content : Bytes} {labels : List String}
    (h : parseLabels content = .ok labels) : ∀ label ∈ labels, IsWritable label := by
  obtain ⟨text, rfl⟩ := exists_text_of_parseLabels h
  obtain ⟨lines, hlines⟩ := exists_hasLines '\n' text.toList
  have hlabels := (parseLabels_encode hlines).mp h
  have hmem := hlines.not_mem
  clear hlines h
  induction hlabels with
  | nil => exact List.forall_mem_nil _
  | cons hfirst _ ih =>
      obtain ⟨hline, hrest⟩ := List.forall_mem_cons.mp hmem
      obtain ⟨htight, blanks, -, rfl⟩ := hfirst
      have hlabel := fun h => hline (List.mem_append_left blanks h)
      exact List.forall_mem_cons.mpr ⟨⟨hlabel, htight⟩, ih hrest⟩

/-! ## The result -/

/-- Labels can be read exactly where the file is a text, and then label `n` is
line `n` without the blanks at its end. Labels without line end that end in no
blank are read back as they were written, whatever ends each line. Labels that
were read are of that kind. -/
theorem labels_follow_lines_of_their_file :
    (∀ content, (∃ labels, parseLabels content = .ok labels) ↔ ∃ text, encode text = content) ∧
    (∀ text : String, (∃ lines, HasLines '\n' text.toList lines) ∧
      ∀ lines, HasLines '\n' text.toList lines →
        ∃ labels, parseLabels (encode text) = .ok labels ∧ labels.length = lines.length ∧
          ∀ n line, lines[n]? = some line →
            ∃ label, resolveLabel labels n = .ok label ∧ IsLabelOf line label) ∧
    (∀ written : List (String × String), (∀ w ∈ written, IsWritable w.1 ∧ IsLineEnd w.2) →
      parseLabels (encode (writeLabels written)) = .ok (written.map Prod.fst)) ∧
    (∀ content labels, parseLabels content = .ok labels →
      ∀ written : List (String × String), written.map Prod.fst = labels →
        (∀ w ∈ written, IsLineEnd w.2) →
        parseLabels (encode (writeLabels written)) = .ok labels) := by
  refine ⟨fun content => ⟨?_, ?_⟩, fun text => ⟨exists_hasLines _ _, fun lines hlines => ?_⟩,
    fun written h => parseLabels_writeLabels h, ?_⟩
  · rintro ⟨labels, hlabels⟩
    exact exists_text_of_parseLabels hlabels
  · rintro ⟨text, rfl⟩
    obtain ⟨lines, hlines⟩ := exists_hasLines '\n' text.toList
    exact exists_parseLabels_encode hlines
  · obtain ⟨labels, hlabels⟩ := exists_parseLabels_encode hlines
    have hall := (parseLabels_encode hlines).mp hlabels
    exact ⟨labels, hlabels, hall.length_eq.symm, fun _ _ => exists_resolveLabel hall⟩
  · rintro content labels hlabels written rfl hends
    have hwritable := isWritable_of_parseLabels hlabels
    exact parseLabels_writeLabels fun w hw =>
      ⟨hwritable w.1 (List.mem_map_of_mem hw), hends w hw⟩

/-- The second line is blank and ends in a carriage return, and the last line
has no end. -/
theorem labels_follow_lines_of_their_file_of_blank_line :
    (∃ labels, parseLabels (encode "ä \n\t\r\n b") = .ok labels ∧ labels.length = 3 ∧
      ∃ label, resolveLabel labels 2 = .ok label ∧ IsLabelOf [' ', 'b'] label) ∧
    parseLabels (encode (writeLabels [("ä", "\r\n"), ("", "\n"), (" b", "\r\n")])) =
      .ok ["ä", "", " b"] := by
  obtain ⟨-, hread, hwritten, -⟩ := labels_follow_lines_of_their_file
  have hlast : HasLines '\n' [' ', 'b'] [[' ', 'b']] := .last (List.cons_ne_nil _ _) (by decide)
  have hblank : HasLines '\n' ['\t', '\r', '\n', ' ', 'b'] [['\t', '\r'], [' ', 'b']] :=
    .line (by decide : '\n' ∉ ['\t', '\r']) hlast
  have hlines : HasLines '\n' "ä \n\t\r\n b".toList [['ä', ' '], ['\t', '\r'], [' ', 'b']] :=
    .line (by decide : '\n' ∉ ['ä', ' ']) hblank
  constructor
  · obtain ⟨labels, hlabels, hlength, hall⟩ := (hread _).2 _ hlines
    exact ⟨labels, hlabels, hlength, hall 2 _ rfl⟩
  · refine hwritten _ (List.forall_mem_cons.mpr ⟨⟨⟨by decide, ?_⟩, .carriageReturn⟩,
      List.forall_mem_cons.mpr ⟨⟨⟨by decide, ?_⟩, .newline⟩,
        List.forall_mem_singleton.mpr ⟨⟨by decide, ?_⟩, .carriageReturn⟩⟩⟩)
    · rintro _ ⟨⟩; decide
    · rintro _ ⟨⟩
    · rintro _ ⟨⟩; decide

end GlyphSearch.Dataset
