import GlyphSearch.Proofs.Encoding
import GlyphSearch.Proofs.Grammar

/-!
# Documents that can be written

`Writable` says which documents can be written: their strings are literals and
texts, and their numbers are those of the grammar. What is written for such a
document denotes it (`denotes_compact`), and is a text (`isText_compact`).
-/

namespace GlyphSearch.Json

open Text

/-- Whether a document can be written and read back. -/
inductive Writable : Value → Prop
  | null : Writable .null
  | bool (b : Bool) : Writable (.bool b)
  | number {literal : List Char} (h : IsNumber (literal.map byte))
      (hascii : ∀ c ∈ literal, c.toNat < 0x80) : Writable (.number literal)
  | string {s : String} (h : IsLiteral (encode s)) : Writable (.string (encode s))
  | array {items : List Value} (h : ∀ v ∈ items, Writable v) : Writable (.array items)
  | object {members : List (Bytes × Value)}
      (hkeys : ∀ m ∈ members, ∃ s, m.1 = encode s ∧ IsLiteral (encode s))
      (h : ∀ m ∈ members, Writable m.2) : Writable (.object members)

theorem commaSeparated_cons_cons (x y : Bytes) (rest : List Bytes) :
    commaSeparated (x :: y :: rest) = x ++ byte ',' :: commaSeparated (y :: rest) := by
  rw [commaSeparated, List.intersperse_cons_cons, List.flatten_cons, List.flatten_cons]
  rfl

theorem commaSeparated_singleton (x : Bytes) : commaSeparated [x] = x := by
  simp [commaSeparated]

theorem items_compact {items : List Value} (hne : items ≠ [])
    (h : ∀ v ∈ items, Denotes v.compact v) : Items (commaSeparated (compactItems items)) items := by
  induction items with
  | nil => exact absurd rfl hne
  | cons v items ih =>
      have hv := (h v List.mem_cons_self).toItem
      rw [compactItems]
      cases items with
      | nil =>
          rw [compactItems, commaSeparated_singleton]
          exact .last hv
      | cons w items =>
          rw [compactItems, commaSeparated_cons_cons]
          exact .more hv (ih (List.cons_ne_nil _ _) fun u hu => h u (List.mem_cons_of_mem _ hu))

theorem members_compact {members : List (Bytes × Value)} (hne : members ≠ [])
    (h : ∀ m ∈ members, IsLiteral m.1 ∧ Denotes m.2.compact m.2) :
    Members (commaSeparated (compactMembers members)) members := by
  have hspaces : IsSpaces [] := rfl
  induction members with
  | nil => exact absurd rfl hne
  | cons m members ih =>
      obtain ⟨hkey, hvalue⟩ := h m List.mem_cons_self
      have hm : Member (quotedLiteral m.1 ++ byte ':' :: m.2.compact) m :=
        Member.intro hspaces hkey hspaces hvalue.toItem
      rw [compactMembers]
      cases members with
      | nil =>
          rw [compactMembers, commaSeparated_singleton]
          exact .last hm
      | cons m' members =>
          rw [compactMembers, commaSeparated_cons_cons]
          exact .more hm (ih (List.cons_ne_nil _ _) fun u hu => h u (List.mem_cons_of_mem _ hu))

/-- The text of a document that can be written denotes it. -/
theorem denotes_compact {v : Value} (h : Writable v) : Denotes v.compact v := by
  induction h with
  | null => rw [Value.compact]; exact .null
  | bool b => rw [Value.compact]; cases b <;> constructor
  | @number literal hnumber hascii =>
      have hsame : (literal.map byte).map char = literal := by
        have hchar : ∀ c ∈ literal, (char ∘ byte) c = c := fun c hc => char_byte (hascii c hc)
        rw [List.map_map, List.map_congr_left hchar, List.map_id']
      rw [Value.compact]
      have hdenotes := Denotes.number hnumber
      rwa [hsame] at hdenotes
  | string h => rw [Value.compact]; exact .string h
  | @array items _ ih =>
      have hspaces : IsSpaces [] := rfl
      rw [Value.compact]
      cases items with
      | nil => exact .noItems hspaces
      | cons v items => exact .array (items_compact (List.cons_ne_nil _ _) ih)
  | @object members hkeys _ ih =>
      have hspaces : IsSpaces [] := rfl
      rw [Value.compact]
      cases members with
      | nil => exact .noMembers hspaces
      | cons m members =>
          refine .object (members_compact (List.cons_ne_nil _ _) fun m hm => ⟨?_, ih m hm⟩)
          obtain ⟨s, hs, hliteral⟩ := hkeys m hm
          rw [hs]
          exact hliteral

/-! ## Texts -/

/-- Whether bytes are those of a text. -/
def IsText (bs : Bytes) : Prop := ∃ s, bs = encode s

theorem isText_append {a b : Bytes} (ha : IsText a) (hb : IsText b) : IsText (a ++ b) := by
  obtain ⟨s, rfl⟩ := ha
  obtain ⟨t, rfl⟩ := hb
  refine ⟨s ++ t, ?_⟩
  rw [encode_eq_flatMap, encode_eq_flatMap, encode_eq_flatMap, String.toList_append,
    List.flatMap_append]

theorem isText_map_byte {cs : List Char} (h : ∀ c ∈ cs, c.toNat < 0x80) : IsText (cs.map byte) :=
  ⟨String.ofList cs, by
    rw [encode_of_ascii (by rwa [String.toList_ofList]), bytes, String.toList_ofList]⟩

theorem isText_word {cs : List Char} (h : cs.all fun c => c.toNat < 0x80) :
    IsText (cs.map byte) :=
  isText_map_byte fun c hc => of_decide_eq_true (List.all_eq_true.mp h c hc)

theorem isText_byte {c : Char} (hc : c.toNat < 0x80) : IsText [byte c] :=
  isText_map_byte (List.forall_mem_singleton.mpr hc)

theorem isText_byte_cons {c : Char} (hc : c.toNat < 0x80) {bs : Bytes} (h : IsText bs) :
    IsText (byte c :: bs) :=
  isText_append (isText_byte hc) h

theorem isText_quotedLiteral {s : String} : IsText (quotedLiteral (encode s)) :=
  isText_byte_cons (by decide) (isText_append ⟨s, rfl⟩ (isText_byte (by decide)))

theorem isText_commaSeparated {parts : List Bytes} (h : ∀ part ∈ parts, IsText part) :
    IsText (commaSeparated parts) := by
  induction parts with
  | nil => exact isText_map_byte (List.forall_mem_nil _)
  | cons x parts ih =>
      obtain ⟨hx, hparts⟩ := List.forall_mem_cons.mp h
      cases parts with
      | nil => rwa [commaSeparated_singleton]
      | cons y parts =>
          rw [commaSeparated_cons_cons]
          exact isText_append hx (isText_byte_cons (by decide) (ih hparts))

theorem compactItems_eq (items : List Value) : compactItems items = items.map Value.compact := by
  induction items with
  | nil => rfl
  | cons v items ih => rw [compactItems, ih, List.map_cons]

theorem compactMembers_eq (members : List (Bytes × Value)) : compactMembers members =
    members.map fun m => quotedLiteral m.1 ++ byte ':' :: m.2.compact := by
  induction members with
  | nil => rfl
  | cons m members ih => rw [compactMembers, ih, List.map_cons]

/-- A document that can be written is written as a text. -/
theorem isText_compact {v : Value} (h : Writable v) : IsText v.compact := by
  have hclosed : ∀ {c d : Char} {parts : List Bytes}, c.toNat < 0x80 → d.toNat < 0x80 →
      (∀ part ∈ parts, IsText part) →
      IsText (byte c :: (commaSeparated parts ++ [byte d])) := by
    intro c d parts hc hd hparts
    exact isText_byte_cons hc (isText_append (isText_commaSeparated hparts) (isText_byte hd))
  induction h with
  | null => rw [Value.compact]; exact isText_word (by decide)
  | bool b =>
      rw [Value.compact]
      cases b with
      | true => exact isText_word (by decide)
      | false => exact isText_word (by decide)
  | number _ hascii => rw [Value.compact]; exact isText_map_byte hascii
  | string => rw [Value.compact]; exact isText_quotedLiteral
  | array _ ih =>
      rw [Value.compact, compactItems_eq]
      exact hclosed (by decide) (by decide) (List.forall_mem_map.mpr ih)
  | object hkeys _ ih =>
      rw [Value.compact, compactMembers_eq]
      refine hclosed (by decide) (by decide) (List.forall_mem_map.mpr fun m hm => ?_)
      obtain ⟨s, hs, -⟩ := hkeys m hm
      rw [hs]
      exact isText_append isText_quotedLiteral (isText_byte_cons (by decide) (ih m hm))

theorem encode_compactText {v : Value} (h : Writable v) : encode v.compactText = v.compact := by
  obtain ⟨s, hs⟩ := isText_compact h
  rw [Value.compactText, hs, decodeLossy_encode]

end GlyphSearch.Json
