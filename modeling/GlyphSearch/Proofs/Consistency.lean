import GlyphSearch.Query.Answer
import GlyphSearch.Proofs.Nearest

/-!
# An opened dataset answers every query

Opening a dataset compares its parts: the header of the index with its
components, the index with the labels, and both with what the metadata
records. `Consistent` is what all of these checks come to. It leaves nothing
that could go wrong with the dataset when a query is searched for: every row
that is measured is there in full, the ids that the index names are below the
number of labels, and so each of them has its label.

What is left are the two faults of a query itself. It may have more components
than the index has dimensions, and one of the nearest distances may be too
large for its format.
-/

namespace GlyphSearch

namespace Index.Flat

/-- What is checked of an index when it is opened. -/
structure WellFormed (index : Flat) : Prop where
  dimension_pos : 0 < index.dimension
  length_components : index.components.length = index.count * index.dimension
  noWrap : index.count * index.dimension < Nat.pow 2 64

theorem wellFormed_of_assemble {h : Header} {components : List Single} {index : Flat}
    (hdim : h.dimension ≠ 0) (hok : assemble h components = .ok index) : index.WellFormed := by
  rw [assemble] at hok
  split at hok
  · cases hok
  · next hsmall =>
      split at hok
      · cases hok
      · next hlen =>
          cases hok
          exact ⟨Nat.pos_of_ne_zero hdim, Decidable.not_not.mp hlen, Nat.lt_of_not_le hsmall⟩

theorem wellFormed_of_openWith {read : Files.Name → Except FileFault Bytes} {index : Flat}
    (hok : openWith read = .ok index) : index.WellFormed := by
  rw [openWith] at hok
  obtain ⟨headerBytes, _, hok⟩ := bind_eq_ok.mp hok
  split at hok
  · next h _ =>
      split at hok
      · cases hok
      · next hdim =>
          obtain ⟨vectorBytes, _, hok⟩ := bind_eq_ok.mp hok
          split at hok
          · exact wellFormed_of_assemble hdim hok
          · cases hok
  · cases hok

/-- The components of a row are all there. -/
theorem WellFormed.row_le {index : Flat} (h : index.WellFormed) {id : Nat}
    (hid : id < index.count) :
    id * index.dimension + index.dimension ≤ index.components.length := by
  rw [h.length_components, ← Nat.succ_mul]
  exact Nat.mul_le_mul_right index.dimension hid

end Index.Flat

/-! ## Opening a dataset -/

namespace Dataset

open Files Index

/-- The parts of a dataset belong together. -/
structure Consistent (d : Dataset) (index : Flat) : Prop where
  engine_eq : d.engine = index.toEngine
  wellFormed : index.WellFormed
  length_labels : d.labels.length = index.count
  itemCount : ∀ n, d.metadata.itemCount = some n → n = index.count
  dimension : ∀ n, d.metadata.dimension = some n → n = index.dimension

theorem Consistent.engine_dimension {d : Dataset} {index : Flat} (h : d.Consistent index) :
    d.engine.dimension = index.dimension := by
  rw [h.engine_eq]
  rfl

theorem Metadata.of_check {m : Metadata} {count dimension : Nat}
    (h : m.check count dimension = .ok ()) :
    (∀ n, m.itemCount = some n → n = count) ∧ ∀ n, m.dimension = some n → n = dimension := by
  rw [check] at h
  split at h
  · cases h
  · next hitems =>
      split at h
      · cases h
      · next hdim =>
          refine ⟨fun n hn => ?_, fun n hn => ?_⟩
          · simpa [hn] using hitems
          · simpa [hn] using hdim

theorem of_make {engine : Engine} {labels : List String} {d : Dataset}
    (h : make engine labels = .ok d) :
    engine.count = labels.length ∧ d = ⟨engine, labels, Metadata.default, none⟩ := by
  rw [make] at h
  split at h
  · next hcount =>
      cases h
      exact ⟨hcount, rfl⟩
  · cases h

theorem of_withMetadata {d d' : Dataset} {m : Metadata} (h : d.withMetadata m = .ok d') :
    m.check d.engine.count d.engine.dimension = .ok () ∧ d' = { d with metadata := m } := by
  rw [withMetadata] at h
  obtain ⟨_, hcheck, h⟩ := bind_eq_ok.mp h
  cases h
  exact ⟨hcheck, rfl⟩

variable {t : Tree} {workingDirectory : Route} {directory : Directory} {layout : Layout}
  {d : Dataset}

/-- The parts of an opened dataset are those of its directory, and they belong
together. -/
theorem of_openAt (h : openAt t workingDirectory directory layout = .ok d) :
    ∃ index : Flat,
      openIndex t workingDirectory directory layout = .ok index ∧ Consistent d index ∧
      (∃ content, t.read workingDirectory (directory.path.join layout.labelsPath) = .ok content ∧
        parseLabels content = .ok d.labels) ∧
      readMetadata t workingDirectory (directory.path.join layout.metadataPath) =
        .ok d.metadata := by
  rw [openAt] at h
  obtain ⟨index, hindex, h⟩ := bind_eq_ok.mp h
  rw [openAround] at h
  obtain ⟨content, hread, h⟩ := bind_eq_ok.mp h
  obtain ⟨labels, hlabels, h⟩ := bind_eq_ok.mp h
  obtain ⟨metadata, hmetadata, h⟩ := bind_eq_ok.mp h
  obtain ⟨made, hmake, h⟩ := bind_eq_ok.mp h
  obtain ⟨joined, hjoin, h⟩ := bind_eq_ok.mp h
  obtain ⟨hcount, rfl⟩ := of_make hmake
  obtain ⟨hcheck, rfl⟩ := of_withMetadata hjoin
  obtain ⟨hitems, hdim⟩ := Metadata.of_check hcheck
  cases h
  exact ⟨index, hindex,
    ⟨rfl, Flat.wellFormed_of_openWith hindex, hcount.symm, hitems, hdim⟩,
    ⟨content, mapError_eq_ok.mp hread, mapError_eq_ok.mp hlabels⟩, hmetadata⟩

end Dataset

/-! ## Searching it -/

namespace Query

open Index Dataset Text

/-- A query filled with zeros up to a dimension. -/
def padded (query : List Single) (dimension : Nat) : List Single :=
  query ++ List.replicate (dimension - query.length) Single.zero

theorem length_padded {query : List Single} {dimension : Nat} (h : query.length ≤ dimension) :
    (padded query dimension).length = dimension := by
  rw [padded, List.length_append, List.length_replicate]
  omega

theorem fitDimension_of_long {query : List Single} {dimension : Nat}
    (h : dimension < query.length) :
    fitDimension query dimension = .error (.dimensionMismatch dimension query.length) := by
  rw [fitDimension, if_pos h]

theorem fitDimension_of_fits {query : List Single} {dimension : Nat}
    (h : query.length ≤ dimension) :
    fitDimension query dimension = .ok (padded query dimension) := by
  rw [fitDimension, if_neg (Nat.not_lt.mpr h), padded]

/-- The neighbours that a search for a query has to name. -/
def nearest (index : Flat) (query : List Single) (k : Nat) : List Neighbor :=
  (ranked (index.measured (padded query index.dimension))).take (min k index.count)

theorem length_nearest (index : Flat) (query : List Single) (k : Nat) :
    (nearest index query k).length = min k index.count := by
  rw [nearest, List.length_take, Flat.length_ranked_measured]
  omega

theorem id_lt_of_mem_nearest {index : Flat} {query : List Single} {k : Nat} {n : Neighbor}
    (h : n ∈ nearest index query k) : n.id < index.count := by
  have hmem := (ranked_perm _).mem_iff.mp (List.mem_of_mem_take h)
  have hid := List.mem_map_of_mem (f := (·.id)) hmem
  rw [Flat.map_id_measured] at hid
  exact List.mem_range.mp hid

/-- A hit is that of a neighbour. -/
def Shows (labels : List String) (n : Neighbor) (hit : Hit) : Prop :=
  labels[n.id]? = some hit.label ∧ hit.distance = n.distance

/-- Neighbours that all have a label get theirs, in the same order. -/
theorem resolveLabels_of_lt {labels : List String} {ns : List Neighbor}
    (h : ∀ n ∈ ns, n.id < labels.length) :
    ∃ hits, resolveLabels labels ns = .ok hits ∧ List.Forall₂ (Shows labels) ns hits := by
  induction ns with
  | nil => exact ⟨[], rfl, List.Forall₂.nil⟩
  | cons n rest ih =>
      obtain ⟨hits, hrest, hshow⟩ := ih fun m hm => h m (List.mem_cons_of_mem _ hm)
      have hlt : n.id < labels.length := h n List.mem_cons_self
      have hget : labels[n.id]? = some labels[n.id] := List.getElem?_eq_getElem hlt
      refine ⟨⟨labels[n.id], n.distance⟩ :: hits, ?_, List.Forall₂.cons ⟨hget, rfl⟩ hshow⟩
      rw [resolveLabels] at hrest ⊢
      rw [List.mapM_cons, resolveLabel, hget, hrest]
      rfl

variable {d : Dataset} {index : Flat}

theorem search_of_long (hd : d.Consistent index) {query : List Single}
    (hlong : index.dimension < query.length) (k : Nat) :
    search d query k = .error (.dimensionMismatch index.dimension query.length) := by
  rw [search, hd.engine_dimension, fitDimension_of_long hlong]
  rfl

theorem search_of_fits (hd : d.Consistent index) {query : List Single}
    (hfits : query.length ≤ index.dimension) (k : Nat) :
    search d query k =
      if (nearest index query k).any (!·.distance.isFinite) then
        .error (.invalidQuery .distancesOverflow)
      else resolveLabels d.labels (nearest index query k) := by
  have hnear : d.engine.search (padded query index.dimension) k =
      .ok (nearest index query k) := by
    rw [hd.engine_eq, nearest, ← Flat.length_ranked_measured, ← List.take_eq_take_min]
    exact Flat.search_eq (length_padded hfits) k
  rw [search, hd.engine_dimension, fitDimension_of_fits hfits]
  show searchFitted d (padded query index.dimension) k = _
  rw [searchFitted, hnear]
  rfl

theorem search_of_overflow (hd : d.Consistent index) {query : List Single}
    (hfits : query.length ≤ index.dimension) {k : Nat}
    (hbad : ∃ n ∈ nearest index query k, n.distance.isFinite = false) :
    search d query k = .error (.invalidQuery .distancesOverflow) := by
  rw [search_of_fits hd hfits, if_pos (by simpa using hbad)]

theorem search_of_finite (hd : d.Consistent index) {query : List Single}
    (hfits : query.length ≤ index.dimension) {k : Nat}
    (hfinite : ∀ n ∈ nearest index query k, n.distance.isFinite = true) :
    ∃ hits, search d query k = .ok hits ∧
      List.Forall₂ (Shows d.labels) (nearest index query k) hits := by
  rw [search_of_fits hd hfits, if_neg (by simpa using hfinite)]
  refine resolveLabels_of_lt fun n hn => ?_
  rw [hd.length_labels]
  exact id_lt_of_mem_nearest hn

/-- The hits of neighbours with finite distances are as many, and theirs are
the same. -/
theorem isFinite_of_shows {labels : List String} {ns : List Neighbor} {hits : List Hit}
    (h : List.Forall₂ (Shows labels) ns hits)
    (hfinite : ∀ n ∈ ns, n.distance.isFinite = true) :
    ∀ hit ∈ hits, hit.distance.isFinite = true := by
  induction h with
  | nil =>
      intro hit hmem
      cases hmem
  | cons hshow _ ih =>
      intro hit hmem
      rcases List.mem_cons.mp hmem with rfl | hmem
      · rw [hshow.2]
        exact hfinite _ List.mem_cons_self
      · exact ih (fun n hn => hfinite n (List.mem_cons_of_mem _ hn)) hit hmem

/-- What a search for a query comes to, by what is the matter with it. -/
theorem search_cases (hd : d.Consistent index) (query : List Single) (k : Nat) :
    (index.dimension < query.length ∧
      search d query k = .error (.dimensionMismatch index.dimension query.length)) ∨
    ((query.length ≤ index.dimension ∧
        ∃ n ∈ nearest index query k, n.distance.isFinite = false) ∧
      search d query k = .error (.invalidQuery .distancesOverflow)) ∨
    ((query.length ≤ index.dimension ∧
        ∀ n ∈ nearest index query k, n.distance.isFinite = true) ∧
      ∃ hits, search d query k = .ok hits ∧
        List.Forall₂ (Shows d.labels) (nearest index query k) hits) := by
  rcases Nat.lt_or_ge index.dimension query.length with hlong | hfits
  · exact Or.inl ⟨hlong, search_of_long hd hlong k⟩
  · by_cases hbad : ∃ n ∈ nearest index query k, n.distance.isFinite = false
    · exact Or.inr (Or.inl ⟨⟨hfits, hbad⟩, search_of_overflow hd hfits hbad⟩)
    · have hfinite : ∀ n ∈ nearest index query k, n.distance.isFinite = true := by
        simpa using hbad
      exact Or.inr (Or.inr ⟨⟨hfits, hfinite⟩, search_of_finite hd hfits hfinite⟩)

/-- A dataset that could be opened answers every query. Its parts belong
together, so no row and no label is ever asked for that is not there; a query
is refused only for being too long or for a distance that is not finite, which
is the client's fault and not fatal; and every other one is answered with the
labels of its nearest vectors. -/
theorem opened_dataset_answers_every_query {t : Files.Tree} {workingDirectory : Files.Route}
    {directory : Directory} {layout : Layout} {d : Dataset}
    (hopen : openAt t workingDirectory directory layout = .ok d) :
    ∃ index : Flat,
      openIndex t workingDirectory directory layout = .ok index ∧
      d.Consistent index ∧
      (∃ content, t.read workingDirectory (directory.path.join layout.labelsPath) = .ok content ∧
        parseLabels content = .ok d.labels) ∧
      readMetadata t workingDirectory (directory.path.join layout.metadataPath) =
        .ok d.metadata ∧
      (∀ id < index.count,
        id * index.dimension + index.dimension ≤ index.components.length) ∧
      ∀ query k,
        let near := nearest index query k
        (∀ n ∈ near, n.id < d.labels.length) ∧
        (search d query k = .error (.dimensionMismatch index.dimension query.length) ↔
          index.dimension < query.length) ∧
        (search d query k = .error (.invalidQuery .distancesOverflow) ↔
          query.length ≤ index.dimension ∧ ∃ n ∈ near, n.distance.isFinite = false) ∧
        (∀ hits, search d query k = .ok hits →
          hits.length = min k index.count ∧ (∀ hit ∈ hits, hit.distance.isFinite = true) ∧
            List.Forall₂ (Shows d.labels) near hits) ∧
        ∀ e, search d query k = .error e →
          (e = .dimensionMismatch index.dimension query.length ∨
            e = .invalidQuery .distancesOverflow) ∧
          e.status = 400 ∧ e.isFatal = false := by
  obtain ⟨index, hindex, hd, hlabels, hmetadata⟩ := of_openAt hopen
  refine ⟨index, hindex, hd, hlabels, hmetadata, fun id hid => hd.wellFormed.row_le hid, ?_⟩
  intro query k near
  refine ⟨?_, ?_⟩
  · intro n hn
    rw [hd.length_labels]
    exact id_lt_of_mem_nearest hn
  · rcases search_cases hd query k with ⟨hlong, hsearch⟩ | ⟨⟨hfits, hbad⟩, hsearch⟩ |
      ⟨⟨hfits, hfinite⟩, hits, hsearch, hshow⟩
    · rw [hsearch]
      refine ⟨?_, ?_, ?_, ?_⟩
      · exact iff_of_true rfl hlong
      · exact iff_of_false (by simp) (by omega)
      · intro hits h
        cases h
      · intro e h
        cases h
        exact ⟨Or.inl rfl, rfl, rfl⟩
    · rw [hsearch]
      refine ⟨?_, ?_, ?_, ?_⟩
      · exact iff_of_false (by simp) (by omega)
      · exact iff_of_true rfl ⟨hfits, hbad⟩
      · intro hits h
        cases h
      · intro e h
        cases h
        exact ⟨Or.inr rfl, rfl, rfl⟩
    · rw [hsearch]
      refine ⟨?_, ?_, ?_, ?_⟩
      · exact iff_of_false (by simp) (by omega)
      · refine iff_of_false (by simp) ?_
        rintro ⟨_, n, hn, hbad⟩
        rw [hfinite n hn] at hbad
        cases hbad
      · intro found h
        cases h
        refine ⟨?_, isFinite_of_shows hshow hfinite, hshow⟩
        rw [← hshow.length_eq, length_nearest]
      · intro e h
        cases h

/-- A directory with two rows of one component, one of them a NaN. -/
theorem opened_dataset_answers_every_query_about_two_rows :
    let t : Files.Tree := ⟨[
      ([bytes "d"], .directory), ([bytes "d", bytes "i"], .directory),
      ([bytes "d", bytes "i", headerFile],
        .file (bytes "\x7b\"dimension\": 1, \"count\": 2\x7d")),
      ([bytes "d", bytes "i", vectorsFile],
        .file (encodeComponents [Single.zero, ⟨0x7fc00000⟩])),
      ([bytes "d", bytes "labels"], .file (bytes "a\nb\n"))]⟩
    ∃ d, openAt t [] (.kept (bytes "/d")) ⟨bytes "i", bytes "labels", bytes "none"⟩ = .ok d ∧
      ∀ query k e, search d query k = .error e → e.status = 400 ∧ e.isFatal = false := by
  intro t
  have hopens :
      (openAt t [] (.kept (bytes "/d")) ⟨bytes "i", bytes "labels", bytes "none"⟩).toBool =
        true := by decide +kernel
  cases hopen : openAt t [] (.kept (bytes "/d")) ⟨bytes "i", bytes "labels", bytes "none"⟩ with
  | error e =>
      rw [hopen] at hopens
      cases hopens
  | ok d =>
      obtain ⟨_, _, _, _, _, _, hsearch⟩ := opened_dataset_answers_every_query hopen
      refine ⟨d, rfl, fun query k e he => ?_⟩
      obtain ⟨_, _, _, _, herror⟩ := hsearch query k
      exact (herror e he).2

end Query
end GlyphSearch
