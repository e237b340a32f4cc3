import GlyphSearch.Dataset.Metadata
import GlyphSearch.Proofs.IndexFormat

/-!
# Which objects are metadata

`Metadata.Describes` says which objects stand for which metadata. It looks at
the values given for each field and at nothing else, so members may be in any
order and among any others, as long as no key is ill-formed.

Whether a value tells the version, a time or a size is up to the field; that a
field may be missing and may not be there twice is the same for all of them.
-/

namespace GlyphSearch.Dataset

open Json

/-! ## Fields -/

/-- What the values given for a field tell, if it may be absent. -/
inductive Tells {α : Type} (absent : α) (Says : Value → α → Prop) : List Value → α → Prop
  | absent : Tells absent Says [] absent
  | given {v : Value} {a : α} (h : Says v a) : Tells absent Says [v] a

/-- A value that may be `null`. -/
inductive OrNull {α : Type} (Says : Value → α → Prop) : Value → Option α → Prop
  | null : OrNull Says .null none
  | given {v : Value} {a : α} (h : Says v a) : OrNull Says v (some a)

/-- A time is any number. -/
inductive SaysTime : Value → Double → Prop
  | number {literal : List Char} {x : Number} (h : Number.ofLiteral? literal = some x) :
      SaysTime (.number literal) x.toDouble

/-- A version is a text, or a number that is written as one. -/
inductive SaysVersion : Value → String → Prop
  | text {literal : Bytes} {version : String} (h : unescape? literal = some version) :
      SaysVersion (.string literal) version
  | number {literal : List Char} {x : Number} (h : Number.ofLiteral? literal = some x) :
      SaysVersion (.number literal) (Metadata.numberText x)

section

variable {α : Type} {absent : α} {Says : Value → α → Prop} {values : List Value} {a : α}

theorem Tells.length_le (h : Tells absent Says values a) : values.length ≤ 1 := by
  cases h with
  | absent => exact Nat.zero_le 1
  | given => exact Nat.le_refl 1

theorem tells_singleton_iff {v : Value} : Tells absent Says [v] a ↔ Says v a :=
  ⟨fun | .given h => h, .given⟩

/-- A field in a record in which it is there once at most. -/
theorem optional_eq_some_iff {record : Record} {field : String} {read : Value → Option α}
    (hlookup : record.lookup field = values.head?) (hone : values.length ≤ 1)
    (hread : ∀ v ∈ values, ∀ a, read v = some a ↔ Says v a) :
    record.optional field absent read = some a ↔ Tells absent Says values a := by
  rw [Record.optional, hlookup]
  cases values with
  | nil =>
      constructor
      · rintro ⟨⟩
        exact .absent
      · rintro ⟨⟩
        rfl
  | cons v more =>
      obtain rfl := List.eq_nil_of_length_eq_zero (Nat.le_zero.mp (Nat.le_of_succ_le_succ hone))
      exact (hread v List.mem_cons_self a).trans tells_singleton_iff.symm

theorem nullable_eq_some_iff {read : Value → Option α} {v : Value}
    (hread : ∀ a, read v = some a ↔ Says v a) (hnull : read .null = none) {o : Option α} :
    v.nullable read = some o ↔ OrNull Says v o := by
  rw [Value.nullable.eq_def]
  split
  · constructor
    · rintro ⟨⟩
      exact .null
    · rintro (_ | h)
      · rfl
      · rw [← hread, hnull] at h
        cases h
  · next hv =>
      rw [Option.map_eq_some_iff]
      constructor
      · rintro ⟨a, ha, rfl⟩
        exact .given ((hread a).mp ha)
      · rintro (_ | h)
        · exact absurd rfl hv
        · exact ⟨_, (hread _).mpr h, rfl⟩

end

namespace Metadata

theorem readTime_eq_some_iff {v : Value} {x : Double} : readTime v = some x ↔ SaysTime v x := by
  rw [readTime, Option.map_eq_some_iff]
  constructor
  · rintro ⟨n, hn, rfl⟩
    cases v with
    | number => exact .number hn
    | _ => cases hn
  · rintro ⟨h⟩
    exact ⟨_, h, rfl⟩

theorem readVersion_eq_some_iff {v : Value} {version : String} :
    readVersion v = some version ↔ SaysVersion v version := by
  constructor
  · intro h
    cases v with
    | number =>
        obtain ⟨n, hn, rfl⟩ := Option.map_eq_some_iff.mp h
        exact .number hn
    | string => exact .text h
    | _ => cases h
  · rintro (h | h)
    · exact h
    · exact Option.map_eq_some_iff.mpr ⟨_, h, rfl⟩

/-- What an object tells besides the version. -/
structure DescribesRest (members : List (Bytes × Value)) (m : Metadata) : Prop where
  dumpTime : Tells none (OrNull SaysTime) (valuesOf "dumpTime" members) m.dumpTime
  itemCount : Tells none (OrNull IsNatural) (valuesOf "numItems" members) m.itemCount
  dimension : Tells none (OrNull IsNatural) (valuesOf "dimen" members) m.dimension

/-- Which objects stand for which metadata. -/
structure Describes (members : List (Bytes × Value)) (m : Metadata) : Prop
    extends DescribesRest members m where
  keys : ∀ member ∈ members, (unescape? member.1).isSome
  version : Tells defaultVersion SaysVersion (valuesOf "v" members) m.version

theorem ofValue?_eq_some_iff {v : Value} {m : Metadata} :
    ofValue? v = some m ↔ ∃ record, v.record? fields = some record ∧
      record.optional "dumpTime" none (Value.nullable readTime) = some m.dumpTime ∧
      record.optional "numItems" none (Value.nullable Value.natural?) = some m.itemCount ∧
      record.optional "v" defaultVersion readVersion = some m.version ∧
      record.optional "dimen" none (Value.nullable Value.natural?) = some m.dimension := by
  constructor
  · intro h
    obtain ⟨record, hrecord, h⟩ := Option.bind_eq_some_iff.mp h
    obtain ⟨t, ht, h⟩ := Option.bind_eq_some_iff.mp h
    obtain ⟨c, hc, h⟩ := Option.bind_eq_some_iff.mp h
    obtain ⟨v, hv, h⟩ := Option.bind_eq_some_iff.mp h
    obtain ⟨d, hd, h⟩ := Option.bind_eq_some_iff.mp h
    cases h
    exact ⟨record, hrecord, ht, hc, hv, hd⟩
  · rintro ⟨record, hrecord, ht, hc, hv, hd⟩
    rw [ofValue?, hrecord]
    simp only [Option.bind_eq_bind, Option.bind_some]
    rw [ht, hc, hv, hd]
    rfl

/-- The four fields in a record, by the values that are given for them. -/
theorem fields_iff {text : Bytes} {members : List (Bytes × Value)} {record : Record}
    (hv : Denotes text (.object members))
    (hrecord : (Value.object members).record? fields = some record) {m : Metadata} :
    (record.optional "dumpTime" none (Value.nullable readTime) = some m.dumpTime ∧
      record.optional "numItems" none (Value.nullable Value.natural?) = some m.itemCount ∧
      record.optional "v" defaultVersion readVersion = some m.version ∧
      record.optional "dimen" none (Value.nullable Value.natural?) = some m.dimension) ↔
    Describes members m := by
  obtain ⟨hkeys, hone, hlookup⟩ := record?_object hrecord
  have hnatural : ∀ field, ∀ v ∈ valuesOf field members, ∀ o,
      v.nullable Value.natural? = some o ↔ OrNull IsNatural v o := by
    intro field v hmem o
    obtain ⟨member, hmember, rfl⟩ := List.mem_map.mp hmem
    obtain ⟨_, hdenotes⟩ := hv.member member (List.mem_of_mem_filter hmember)
    exact nullable_eq_some_iff (fun _ => isNatural_iff hdenotes) rfl
  have htime : ∀ v ∈ valuesOf "dumpTime" members, ∀ o,
      v.nullable readTime = some o ↔ OrNull SaysTime v o :=
    fun v _ o => nullable_eq_some_iff (fun _ => readTime_eq_some_iff) rfl
  rw [optional_eq_some_iff (hlookup _) (hone _ (by decide)) htime,
    optional_eq_some_iff (hlookup _) (hone _ (by decide)) (hnatural _),
    optional_eq_some_iff (hlookup _) (hone _ (by decide)) fun _ _ _ => readVersion_eq_some_iff,
    optional_eq_some_iff (hlookup _) (hone _ (by decide)) (hnatural _)]
  exact ⟨fun ⟨ht, hc, hv, hd⟩ => ⟨⟨ht, hc, hd⟩, hkeys, hv⟩,
    fun h => ⟨h.dumpTime, h.itemCount, h.version, h.dimension⟩⟩

theorem Describes.length_le {members : List (Bytes × Value)} {m : Metadata}
    (h : Describes members m) : ∀ field ∈ fields, (valuesOf field members).length ≤ 1 := by
  refine List.forall_mem_cons.mpr ⟨h.dumpTime.length_le, ?_⟩
  refine List.forall_mem_cons.mpr ⟨h.itemCount.length_le, ?_⟩
  exact List.forall_mem_cons.mpr ⟨h.version.length_le,
    List.forall_mem_singleton.mpr h.dimension.length_le⟩

/-- An object is read as the metadata that it describes. -/
theorem parse_eq_ok_iff {content : Bytes} {members : List (Bytes × Value)}
    (hcontent : Item content (.object members)) {m : Metadata} :
    parse content = .ok m ↔ Describes members m := by
  have hparse : parse content = .ok m ↔ ofValue? (.object members) = some m := by
    rw [parse, ofBytes?_eq_some_iff.mpr hcontent, Option.bind_eq_bind, Option.bind_some]
    cases ofValue? (.object members) <;> simp
  obtain @⟨_, _, _, _, -, hv, -⟩ := hcontent
  rw [hparse, ofValue?_eq_some_iff]
  constructor
  · rintro ⟨record, hrecord, hfields⟩
    exact (fields_iff hv hrecord).mp hfields
  · intro h
    obtain ⟨record, hrecord⟩ := record?_object_isSome h.keys h.length_le
    exact ⟨record, hrecord, (fields_iff hv hrecord).mpr h⟩

/-- Nothing but the metadata is told of a content that can be read. -/
theorem parse_eq_parse {content content' : Bytes}
    (h : ∀ m, parse content = .ok m ↔ parse content' = .ok m) :
    parse content = parse content' := by
  have herror : ∀ {c : Bytes} {e : Error}, parse c = .error e → e = .json := by
    intro c e he
    rw [parse] at he
    split at he <;> cases he
    rfl
  cases hleft : parse content with
  | ok m => rw [(h m).mp hleft]
  | error e =>
      cases hright : parse content' with
      | ok m =>
          rw [(h m).mpr hright] at hleft
          cases hleft
      | error e' => rw [herror hleft, herror hright]

end Metadata

end GlyphSearch.Dataset
