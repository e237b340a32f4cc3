/-!
# Blank characters

White space as the Unicode property of that name has it: 25 characters, among
them the line and paragraph separators and the spaces of various widths, but
not the zero-width ones. `words` cuts a text at every run of blanks.
-/

namespace GlyphSearch.Text

/-- Whether a character is white space. -/
def isBlank (c : Char) : Bool :=
  let n := c.toNat
  (0x9 ≤ n && n ≤ 0xd) || n = 0x20 || n = 0x85 || n = 0xa0 || n = 0x1680
    || (0x2000 ≤ n && n ≤ 0x200a) || n = 0x2028 || n = 0x2029 || n = 0x202f
    || n = 0x205f || n = 0x3000

/-- The parts of a text between blanks. -/
def words (cs : List Char) : List (List Char) :=
  (cs.splitOnP isBlank).filter (· ≠ [])

/-- Drops the blanks at the end. -/
def trimEnd (cs : List Char) : List Char :=
  (cs.reverse.dropWhile isBlank).reverse

/-- Drops the blanks at both ends. -/
def trim (cs : List Char) : List Char := trimEnd (cs.dropWhile isBlank)

theorem dropWhile_of_forall {p : Char → Bool} {cs more : List Char} (hne : cs ≠ [])
    (h : ∀ c ∈ cs, p c = false) : (cs ++ more).dropWhile p = cs ++ more := by
  obtain ⟨c, rest, rfl⟩ := List.exists_cons_of_ne_nil hne
  exact List.dropWhile_cons_of_neg (by simp [h c List.mem_cons_self])

/-- Blanks around a word are dropped. -/
theorem trim_append {before word after : List Char} (hblank : ∀ c ∈ before ++ after, isBlank c = true)
    (hne : word ≠ []) (hword : ∀ c ∈ word, isBlank c = false) :
    trim (before ++ word ++ after) = word := by
  have hbefore : (before ++ word ++ after).dropWhile isBlank = word ++ after := by
    rw [List.append_assoc, List.dropWhile_append_of_pos fun c hc =>
      hblank c (List.mem_append_left _ hc)]
    exact dropWhile_of_forall hne hword
  have hafter : (after.reverse ++ word.reverse).dropWhile isBlank = word.reverse := by
    rw [List.dropWhile_append_of_pos fun c hc =>
      hblank c (List.mem_append_right _ (List.mem_reverse.mp hc)), ← List.append_nil word.reverse]
    exact dropWhile_of_forall (by simp [hne]) fun c hc => hword c (List.mem_reverse.mp hc)
  rw [trim, hbefore, trimEnd, List.reverse_append, hafter, List.reverse_reverse]

/-- Whether nothing but blanks occurs in a text. -/
def isAllBlank (s : String) : Bool := s.toList.all isBlank

/-- The lower case of `A` to `Z`; all else stays as it is. -/
def lowerAscii (s : String) : String :=
  String.ofList (s.toList.map fun c =>
    if 'A' ≤ c ∧ c ≤ 'Z' then Char.ofNat (c.toNat + 32) else c)

end GlyphSearch.Text
