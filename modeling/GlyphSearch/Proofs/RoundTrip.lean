import GlyphSearch.Proofs.IndexFiles
import GlyphSearch.Proofs.Nearest
import GlyphSearch.Proofs.Walking

/-!
# An index that has been written

Writing looks at the shape of all rows before it touches the tree: rows that
do not have one length, which is not zero, are refused, and nothing has been
made or changed then. Rows of one length end up in two files. Each file is
read back by the decoder that stands beside its encoder, the rows come back as
they were put in, and so a search of the opened index is the same ranking as
one of the rows themselves.
-/

namespace GlyphSearch.Index

open Files Json Text

/-- Rows that make an index: there is one at least, and all have the same
length, which is not zero. -/
def IsTable (dimension : Nat) (rows : List (List Single)) : Prop :=
  0 < dimension ∧ rows ≠ [] ∧ ∀ row ∈ rows, row.length = dimension

/-- Measures all rows and names the first `k` of their ranking. -/
def bruteForce (metric : Metric) (dimension : Nat) (rows : List (List Single))
    (query : List Single) (k : Nat) : Except Error (List Neighbor) :=
  if query.length ≠ dimension then .error (.dimensionMismatch dimension query.length)
  else .ok ((ranked (rows.mapIdx fun id row => ⟨id, distance metric query row⟩)).take k)

namespace Flat

variable {metric : Metric} {dimension : Nat} {rows : List (List Single)}

theorem headerOf_of_isTable (h : IsTable dimension rows) :
    headerOf metric rows = .ok ⟨dimension, rows.length, metric⟩ := by
  obtain ⟨hpos, hne, hlength⟩ := h
  cases rows with
  | nil => exact absurd rfl hne
  | cons row rest =>
      have hrow : row.length = dimension := hlength row List.mem_cons_self
      have hnone : (row :: rest).find? (·.length ≠ dimension) = none := by
        refine List.find?_eq_none.mpr fun other hmem => ?_
        simp [hlength other hmem]
      have hzero : dimension ≠ 0 := Nat.ne_of_gt hpos
      rw [headerOf]
      simp only [List.head?_cons, Option.map_some, Option.getD_some, hrow, if_neg hzero, hnone]

theorem headerOf_of_not_isTable (metric : Metric) (h : ∀ dimension, ¬ IsTable dimension rows) :
    ∃ e, headerOf metric rows = .error e := by
  rw [headerOf]
  by_cases hzero : (rows.head?.map List.length).getD 0 = 0
  · exact ⟨_, if_pos hzero⟩
  · rw [if_neg hzero]
    split
    · exact ⟨_, rfl⟩
    · next hnone =>
        refine absurd ⟨Nat.pos_of_ne_zero hzero, ?_, ?_⟩ (h _)
        · rintro rfl
          exact hzero rfl
        · intro row hrow
          simpa using List.find?_eq_none.mp hnone row hrow

/-- The index that opening finds after these rows have been written. -/
def ofRows (metric : Metric) (dimension : Nat) (rows : List (List Single)) : Flat :=
  ⟨dimension, rows.length, metric, rows.flatten⟩

theorem rows_ofRows (h : ∀ row ∈ rows, row.length = dimension) :
    (ofRows metric dimension rows).rows = rows := rowsOf_flatten h

theorem searchBy_ofRows (h : ∀ row ∈ rows, row.length = dimension)
    {arrange : Arrangement Neighbor} (harrange : IsSelection Neighbor.before arrange)
    (query : List Single) (k : Nat) :
    (ofRows metric dimension rows).searchBy arrange query k =
      bruteForce metric dimension rows query k := by
  by_cases hquery : query.length = dimension
  · rw [searchBy_eq harrange hquery, bruteForce, if_neg (not_not_intro hquery), measured,
      rows_ofRows h]
    rfl
  · rw [searchBy, bruteForce, if_pos hquery]
    exact if_pos hquery

/-- What the encoders wrote is opened. -/
theorem openWith_encoded (h : IsTable dimension rows)
    (hfits : rows.length * dimension < wholeLimit) {read : Name → Except FileFault Bytes}
    (hheader : read headerFile = .ok (Header.encode ⟨dimension, rows.length, metric⟩))
    (hvectors : read vectorsFile = .ok (encodeComponents rows.flatten)) :
    openWith read = .ok (ofRows metric dimension rows) := by
  obtain ⟨hpos, hne, hlength⟩ := h
  have hsize := length_flatten_of_rows hlength
  have hdimension : dimension < wholeLimit :=
    Nat.lt_of_le_of_lt (Nat.le_mul_of_pos_left _ (List.length_pos_iff.mpr hne)) hfits
  have hcount : rows.length < wholeLimit :=
    Nat.lt_of_le_of_lt (Nat.le_mul_of_pos_right _ hpos) hfits
  have hdecoded := Header.decode?_encode (h := ⟨dimension, rows.length, metric⟩) hdimension hcount
  have hcomponents : decodeComponents? (encodeComponents rows.flatten) = some rows.flatten :=
    decodeComponents?_encode (hsize ▸ hfits)
  have hassemble : assemble ⟨dimension, rows.length, metric⟩ rows.flatten =
      .ok (ofRows metric dimension rows) := by
    rw [assemble]
    dsimp only
    rw [if_neg (Nat.not_le_of_lt hfits), if_neg (not_not_intro hsize)]
    rfl
  rw [openWith, mapError_eq_ok.mpr hheader, mapError_eq_ok.mpr hvectors]
  simp only [bind, Except.bind, hdecoded]
  rw [if_neg (Nat.ne_of_gt hpos)]
  simp only [hcomponents, hassemble]

theorem isFileName_headerFile : IsFileName headerFile := by decide

theorem isFileName_vectorsFile : IsFileName vectorsFile := by decide

theorem write_of_isTable (h : IsTable dimension rows) {t t₁ : Tree} {parent r : Route}
    {directory : List Name} (hmade : t.makeDirectories parent directory = (t₁, .ok ()))
    (hthere : t₁.follow parent directory = .ok (r, .directory))
    (hheader : t₁.IsFree (r ++ [headerFile])) (hvectors : t₁.IsFree (r ++ [vectorsFile])) :
    ∃ t', write t parent directory metric rows = (t', .ok ⟨dimension, rows.length, metric⟩) ∧
      t'.follow parent directory = .ok (r, .directory) ∧
      t'.get? (r ++ [headerFile]) =
        some (.file (Header.encode ⟨dimension, rows.length, metric⟩)) ∧
      t'.get? (r ++ [vectorsFile]) = some (.file (encodeComponents rows.flatten)) := by
  have hne : r ++ [vectorsFile] ≠ r ++ [headerFile] := fun heq =>
    absurd (List.append_cancel_left heq) (by decide)
  let headerContent := Header.encode ⟨dimension, rows.length, metric⟩
  let t₂ := t₁.set (r ++ [headerFile]) (.file headerContent)
  have hfirst : t₁.writeFile parent (directory ++ [headerFile]) headerContent = (t₂, .ok ()) :=
    Tree.writeFile_of_follow isFileName_headerFile hthere hheader _
  have hthere₂ : t₂.follow parent directory = .ok (r, .directory) :=
    Tree.follow_set_file hheader hthere _
  have hvectors₂ : t₂.IsFree (r ++ [vectorsFile]) := by
    rw [Tree.IsFree, Tree.get?_set_of_ne t₁ _ hne]
    exact hvectors
  have hsecond := Tree.writeFile_of_follow isFileName_vectorsFile hthere₂ hvectors₂
    (encodeComponents rows.flatten)
  refine ⟨t₂.set (r ++ [vectorsFile]) (.file (encodeComponents rows.flatten)), ?_,
    Tree.follow_set_file hvectors₂ hthere₂ _, ?_, Tree.get?_set_self _ _ (by simp)⟩
  · rw [write, headerOf_of_isTable h]
    dsimp only
    rw [hmade]
    dsimp only
    rw [hfirst]
    dsimp only
    rw [hsecond]
    rfl
  · rw [Tree.get?_set_of_ne t₂ _ hne.symm]
    exact Tree.get?_set_self t₁ _ (by simp)

end Flat

/-- Rows of one length that is not zero are written, opened and searched like
the rows themselves, whatever files of an index were there before. All other
rows are refused, and the tree is as it was.

The directory is there or can be made, and the names of the two files are free
or those of files. The number of components in all has to fit 64 bits, as every
number of things in memory does. -/
theorem written_index_reads_back (metric : Metric) (rows : List (List Single)) (t : Tree)
    (workingDirectory : Route) (p : Path) :
    let start := if p.isAbsolute then [] else workingDirectory
    (∀ dimension, IsTable dimension rows → rows.length * dimension < wholeLimit →
      ∀ t₁ r, t.makeDirectories start p.steps = (t₁, .ok ()) →
        t₁.follow start p.steps = .ok (r, .directory) →
        (∀ name ∈ [headerFile, vectorsFile],
          Tree.checkPath (p.join name) = .ok () ∧ t₁.IsFree (r ++ [name])) →
        ∃ t' index, Flat.write t start p.steps metric rows =
            (t', .ok ⟨dimension, rows.length, metric⟩) ∧
          Flat.openWith (fun name => t'.read workingDirectory (p.join name)) = .ok index ∧
          index.dimension = dimension ∧ index.count = rows.length ∧ index.metric = metric ∧
          index.rows = rows ∧
          ∀ query k, index.search query k = bruteForce metric dimension rows query k ∧
            ∀ arrange, IsSelection Neighbor.before arrange →
              index.searchBy arrange query k = bruteForce metric dimension rows query k) ∧
    ((∀ dimension, ¬ IsTable dimension rows) →
      ∃ e, Flat.write t start p.steps metric rows = (t, .error e)) := by
  intro start
  constructor
  · intro dimension htable hfits t₁ r hmade hthere hfiles
    obtain ⟨hheaderPath, hheaderFree⟩ := hfiles headerFile (by simp)
    obtain ⟨hvectorsPath, hvectorsFree⟩ := hfiles vectorsFile (by simp)
    obtain ⟨t', hwrite, hthere', hheader, hvectors⟩ :=
      Flat.write_of_isTable htable hmade hthere hheaderFree hvectorsFree
    have hopen : Flat.openWith (fun name => t'.read workingDirectory (p.join name)) =
        .ok (Flat.ofRows metric dimension rows) := Flat.openWith_encoded htable hfits
      (Tree.read_join Flat.isFileName_headerFile hheaderPath hthere' hheader)
      (Tree.read_join Flat.isFileName_vectorsFile hvectorsPath hthere' hvectors)
    have hsearch : ∀ arrange, IsSelection Neighbor.before arrange → ∀ query k,
        (Flat.ofRows metric dimension rows).searchBy arrange query k =
          bruteForce metric dimension rows query k :=
      fun _ harrange => Flat.searchBy_ofRows htable.2.2 harrange
    have hselect := isSelection_select Neighbor.before_trans Neighbor.before_total
    exact ⟨t', _, hwrite, hopen, rfl, rfl, rfl, Flat.rows_ofRows htable.2.2, fun query k =>
      ⟨hsearch _ hselect query k, fun arrange harrange => hsearch arrange harrange query k⟩⟩
  · intro hbad
    obtain ⟨e, he⟩ := Flat.headerOf_of_not_isTable metric hbad
    exact ⟨e, by rw [Flat.write, he]⟩

/-- A NaN with a payload, both zeros and an infinity, written over a header
that cannot be read; and rows of two lengths. -/
theorem written_index_reads_back_over_broken_header :
    let directory : Route := [bytes "index"]
    let p : Path := bytes "index/"
    let t : Tree := ⟨[(directory, .directory), (directory ++ [headerFile], .file [0x78])]⟩
    let rows : List (List Single) := [[⟨0x7fc00001⟩, ⟨0x80000000⟩], [⟨0⟩, ⟨0xff800000⟩]]
    IsTable 2 rows ∧
    (∃ t' index, Flat.write t [] p.steps .cosine rows = (t', .ok ⟨2, 2, .cosine⟩) ∧
      Flat.openWith (fun name => t'.read [] (p.join name)) = .ok index ∧ index.rows = rows) ∧
    ∃ e, Flat.write t [] p.steps .cosine [[⟨0⟩], []] = (t, .error e) := by
  intro directory p t rows
  have htable : IsTable 2 rows := ⟨by decide, by decide, by decide⟩
  have hragged : ∀ dimension, ¬ IsTable dimension [[⟨0⟩], []] := by
    rintro dimension ⟨hpos, _, hlength⟩
    exact absurd (hlength [] (by simp)) (Nat.ne_of_lt hpos)
  have hmade : t.makeDirectories [] p.steps = (t, .ok ()) := by rfl
  have hthere : t.follow [] p.steps = .ok (directory, .directory) := by rfl
  have hfiles : ∀ name ∈ [headerFile, vectorsFile],
      Tree.checkPath (p.join name) = .ok () ∧ t.IsFree (directory ++ [name]) := by
    intro name hname
    rcases List.mem_cons.mp hname with rfl | hname
    · exact ⟨rfl, Or.inr ⟨[0x78], rfl⟩⟩
    · rw [List.mem_singleton.mp hname]
      exact ⟨rfl, Or.inl rfl⟩
  obtain ⟨t', index, hwrite, hopen, _, _, _, hrows, _⟩ :=
    (written_index_reads_back .cosine rows t [] p).1 2 htable (by decide) t directory hmade hthere
      hfiles
  exact ⟨htable, ⟨t', index, hwrite, hopen, hrows⟩,
    (written_index_reads_back .cosine [[⟨0⟩], []] t [] p).2 hragged⟩

end GlyphSearch.Index
