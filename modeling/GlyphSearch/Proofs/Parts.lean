import GlyphSearch.Proofs.Walking

/-!
# The parts of a path

A row is cut at separators into parts that have none in them. To cut at more
separators is to cut the parts that there are further, so what is a part
between slashes and has no other separator in it stays one.

The path of a route is cut into the names of the route again. Seen from a
directory, it names something in it: the names of the directory come first.
-/

namespace GlyphSearch.Text

/-! ## Cutting -/

/-- A row has these parts, in this order, with one separator between each two
of them. -/
inductive HasParts {α : Type} (p : α → Bool) : List α → List (List α) → Prop
  | last {part : List α} (h : ∀ x ∈ part, p x = false) : HasParts p part [part]
  | part {part rest : List α} {separator : α} {parts : List (List α)}
      (h : ∀ x ∈ part, p x = false) (hseparator : p separator = true)
      (hrest : HasParts p rest parts) : HasParts p (part ++ separator :: rest) (part :: parts)

section Cutting

variable {α : Type} {p q : α → Bool} {xs : List α} {parts : List (List α)}

theorem HasParts.not_separator (h : HasParts p xs parts) :
    ∀ part ∈ parts, ∀ x ∈ part, p x = false := by
  induction h with
  | last h => exact List.forall_mem_singleton.mpr h
  | part h _ _ ih => exact List.forall_mem_cons.mpr ⟨h, ih⟩

/-- Cutting at more separators cuts the parts further. -/
theorem HasParts.splitOnP_eq_flatMap (h : HasParts p xs parts)
    (hpq : ∀ x, p x = true → q x = true) : xs.splitOnP q = parts.flatMap (List.splitOnP q) := by
  induction h with
  | last => rw [List.flatMap_singleton]
  | part _ hseparator _ ih => rw [List.splitOnP_append_cons _ _ (hpq _ hseparator), ih, List.flatMap_cons]

theorem HasParts.splitOnP_eq (h : HasParts p xs parts) : xs.splitOnP p = parts := by
  induction h with
  | last h => exact List.splitOnP_eq_singleton h
  | part h hseparator _ ih =>
      rw [List.splitOnP_append_cons _ _ hseparator, List.splitOnP_eq_singleton h, ih]
      rfl

theorem exists_hasParts (p : α → Bool) (xs : List α) : ∃ parts, HasParts p xs parts := by
  induction xs with
  | nil => exact ⟨_, .last nofun⟩
  | cons x xs ih =>
      obtain ⟨parts, h⟩ := ih
      cases hx : p x with
      | true =>
          have hnil : ∀ y ∈ ([] : List α), p y = false := nofun
          exact ⟨_, .part hnil hx h⟩
      | false =>
          have hfirst : ∀ part : List α, (∀ y ∈ part, p y = false) → ∀ y ∈ x :: part, p y = false :=
            fun part hpart => List.forall_mem_cons.mpr ⟨hx, hpart⟩
          cases h with
          | last h => exact ⟨_, .last (hfirst _ h)⟩
          | part h hseparator hrest => exact ⟨_, .part (hfirst _ h) hseparator hrest⟩

theorem hasParts_splitOnP (p : α → Bool) (xs : List α) : HasParts p xs (xs.splitOnP p) := by
  obtain ⟨parts, h⟩ := exists_hasParts p xs
  rwa [h.splitOnP_eq]

theorem hasParts_iff : HasParts p xs parts ↔ xs.splitOnP p = parts :=
  ⟨HasParts.splitOnP_eq, fun h => h ▸ hasParts_splitOnP p xs⟩

end Cutting

end GlyphSearch.Text

namespace GlyphSearch.Files

open Text

/-! ## Names with slashes between them -/

section RelativePath

variable {route : Route}

theorem hasParts_relativePath (hne : route ≠ []) (h : ∀ name ∈ route, slash ∉ name) :
    HasParts (· = slash) route.relativePath route := by
  have hname : ∀ name ∈ route, ∀ b ∈ name, decide (b = slash) = false :=
    fun name hmem b hb => decide_eq_false fun heq => h name hmem (heq ▸ hb)
  induction route with
  | nil => exact absurd rfl hne
  | cons name rest ih =>
      obtain ⟨hfirst, hmore⟩ := List.forall_mem_cons.mp hname
      cases rest with
      | nil =>
          have hpath : Route.relativePath [name] = name := List.append_nil name
          rw [hpath]
          exact .last hfirst
      | cons next more =>
          exact .part hfirst (decide_eq_true rfl) (ih (List.cons_ne_nil _ _)
            (fun name hmem => h name (List.mem_cons_of_mem _ hmem)) hmore)

theorem segments_relativePath (hne : ∀ name ∈ route, name ≠ []) (h : ∀ name ∈ route, slash ∉ name) :
    Path.segments route.relativePath = route := by
  by_cases hroute : route = []
  · rw [hroute]
    rfl
  · rw [Path.segments, (hasParts_relativePath hroute h).splitOnP_eq]
    exact List.filter_eq_self.mpr fun name hmem => decide_eq_true (hne name hmem)

/-- The path of a route begins as its first name. -/
theorem head?_relativePath_cons (name : Name) (rest : Route) (hne : name ≠ []) :
    (Route.relativePath (name :: rest)).head? = name.head? := by
  obtain ⟨b, name', rfl⟩ := List.exists_cons_of_ne_nil hne
  cases rest <;> rfl

theorem isAbsolute_relativePath (hne : ∀ name ∈ route, name ≠ [])
    (h : ∀ name ∈ route, slash ∉ name) : Path.isAbsolute route.relativePath = false := by
  cases route with
  | nil => rfl
  | cons name rest =>
      rw [Path.isAbsolute, head?_relativePath_cons name rest (hne name List.mem_cons_self)]
      exact decide_eq_false fun hhead => h name List.mem_cons_self (List.mem_of_head? hhead)

end RelativePath

/-! ## What is in a directory by its path alone -/

namespace Path

/-- A path that names a directory or something below it, whatever there is on
disk. -/
structure IsWithin (p base : Path) : Prop where
  isAbsolute_eq : p.isAbsolute = base.isAbsolute
  components_eq : ∃ names, dotDot ∉ names ∧ p.components = base.components ++ names

theorem isWithin_join {q : Path} (hrelative : q.isAbsolute = false) (hdown : dotDot ∉ q.segments)
    (base : Path) : (base.join q).IsWithin base where
  isAbsolute_eq := isAbsolute_join hrelative base
  components_eq := by
    refine ⟨q.components, fun hmem => hdown ((List.mem_filter.mp hmem).1), ?_⟩
    rw [components, segments_join hrelative, List.filter_append]
    rfl

end Path

end GlyphSearch.Files
