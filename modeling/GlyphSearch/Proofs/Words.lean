import GlyphSearch.Text.Blank
import Mathlib.Data.List.TakeWhile

/-!
# Words between blanks

A text is its words with blanks between them, and perhaps around them. `words`
finds them, and no others: each is as long as it can be. Where two texts meet
at a blank, no word of one runs into a word of the other, so the words of the
whole are those of the first text and then those of the second.
-/

namespace GlyphSearch.Text

def IsBlanks (cs : List Char) : Prop := ∀ c ∈ cs, isBlank c = true

def IsWord (cs : List Char) : Prop := cs ≠ [] ∧ ∀ c ∈ cs, isBlank c = false

instance : DecidablePred IsBlanks := fun _ => decidable_of_iff _ List.all_eq_true

/-- A text has these words, in this order: each of them ends where the text
does or at a blank. -/
inductive HasWords : List Char → List (List Char) → Prop
  | none {cs : List Char} (h : IsBlanks cs) : HasWords cs []
  | word {before word rest : List Char} {ws : List (List Char)} (hbefore : IsBlanks before)
      (hword : IsWord word) (hends : ∀ c, rest.head? = some c → isBlank c = true)
      (hrest : HasWords rest ws) : HasWords (before ++ word ++ rest) (word :: ws)

section

variable {cs : List Char}

theorem words_append_cons {c : Char} (hc : isBlank c = true) (cs ds : List Char) :
    words (cs ++ c :: ds) = words cs ++ words ds := by
  rw [words, List.splitOnP_append_cons _ _ hc, List.filter_append]
  rfl

theorem words_cons_of_isBlank {c : Char} (hc : isBlank c = true) (cs : List Char) :
    words (c :: cs) = words cs := words_append_cons hc [] cs

theorem words_append_of_isBlanks {blanks : List Char} (h : IsBlanks blanks) (cs : List Char) :
    words (blanks ++ cs) = words cs := by
  induction blanks with
  | nil => rfl
  | cons c blanks ih =>
      rw [List.cons_append, words_cons_of_isBlank (h c List.mem_cons_self)]
      exact ih fun d hd => h d (List.mem_cons_of_mem c hd)

theorem words_of_isWord {word : List Char} (h : IsWord word) : words word = [word] := by
  rw [words, List.splitOnP_eq_singleton h.2]
  exact List.filter_cons_of_pos (decide_eq_true h.1)

/-- Blanks between two texts keep their words apart. -/
theorem words_append {separator : List Char} (hne : separator ≠ []) (h : IsBlanks separator)
    (cs ds : List Char) : words (cs ++ separator ++ ds) = words cs ++ words ds := by
  obtain ⟨c, blanks, rfl⟩ := List.exists_cons_of_ne_nil hne
  rw [List.append_assoc, List.cons_append, words_append_cons (h c List.mem_cons_self),
    words_append_of_isBlanks fun d hd => h d (List.mem_cons_of_mem c hd)]

theorem HasWords.words_eq {ws : List (List Char)} (h : HasWords cs ws) : words cs = ws := by
  induction h with
  | @none cs h =>
      have hwords := words_append_of_isBlanks h []
      rwa [List.append_nil] at hwords
  | @word before word rest ws hbefore hword hends _ ih =>
      rw [List.append_assoc, words_append_of_isBlanks hbefore]
      cases rest with
      | nil =>
          rw [List.append_nil, words_of_isWord hword, ← ih]
          rfl
      | cons c rest =>
          have hc := hends c rfl
          rw [words_append_cons hc, words_of_isWord hword, ← ih, words_cons_of_isBlank hc]
          rfl

theorem hasWords_words (cs : List Char) : HasWords cs (words cs) := by
  induction hlength : cs.length using Nat.strongRecOn generalizing cs with
  | ind length ih =>
      have hcs : cs.takeWhile isBlank ++ cs.dropWhile isBlank = cs := List.takeWhile_append_dropWhile
      have hbefore : IsBlanks (cs.takeWhile isBlank) := fun c hc => List.mem_takeWhile_imp hc
      cases hrest : cs.dropWhile isBlank with
      | nil =>
          rw [hrest, List.append_nil] at hcs
          have hnone := HasWords.none (hcs ▸ hbefore)
          rwa [hnone.words_eq]
      | cons c rest =>
          -- The first word goes from the first character that is no blank to the next blank.
          have hc : isBlank c = false := by
            have hhead := List.head?_dropWhile_not isBlank cs
            rw [hrest] at hhead
            simpa using hhead
          let word := (c :: rest).takeWhile (!isBlank ·)
          let behind := (c :: rest).dropWhile (!isBlank ·)
          have hsplit : word ++ behind = c :: rest := List.takeWhile_append_dropWhile
          have hword : IsWord word := by
            refine ⟨?_, fun d hd => by simpa using List.mem_takeWhile_imp hd⟩
            simp [word, hc]
          have hends : ∀ d, behind.head? = some d → isBlank d = true := by
            intro d hd
            have hhead := List.head?_dropWhile_not (!isBlank ·) (c :: rest)
            rw [show ((c :: rest).dropWhile (!isBlank ·)).head? = some d from hd] at hhead
            simpa using hhead
          have hshort : behind.length < length := by
            have hpos := List.length_pos_iff.mpr hword.1
            have hall := congrArg List.length hcs
            have hparts := congrArg List.length hsplit
            rw [hrest] at hall
            simp only [List.length_append] at hall hparts
            omega
          have hall := HasWords.word hbefore hword hends (ih _ hshort behind rfl)
          rw [List.append_assoc, hsplit, ← hrest, hcs] at hall
          rwa [hall.words_eq]

theorem words_eq_iff {ws : List (List Char)} : words cs = ws ↔ HasWords cs ws :=
  ⟨fun h => h ▸ hasWords_words cs, HasWords.words_eq⟩

theorem words_eq_nil_iff : words cs = [] ↔ IsBlanks cs := by
  rw [words_eq_iff]
  constructor
  · rintro (h | _)
    exact h
  · exact .none

end

end GlyphSearch.Text
