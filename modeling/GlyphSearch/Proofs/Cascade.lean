import GlyphSearch.Proofs.Consistency
import GlyphSearch.Proofs.Settling

/-!
# The first failing stage decides a query

A query passes through one stage after the other: its text is read, the dataset
is asked for, the client's version is compared, the query is fitted to the
dimension, the index is searched, and what it has found is looked through. Each
stage has its own fault, and where several faults are there, the earliest one
is the answer. What belongs to later stages is not touched: an unreadable text
starts no load, and the index is searched only for a query that fits.

`Cascade` tells this for any index, also for one that names vectors without
label or distances that are not finite. Its cases exclude each other, and there
is one for whatever may come, so it says what the answer is and not only what it
may be.
-/

namespace GlyphSearch.Query

open Dataset Index Text

/-! ## Looking through what was found -/

/-- Labels are attached up to the first neighbour that has none. -/
theorem resolveLabels_of_unknown {labels : List String} {before after : List Neighbor}
    {n : Neighbor} (hbefore : ∀ m ∈ before, m.id < labels.length) (hn : labels.length ≤ n.id) :
    resolveLabels labels (before ++ n :: after) =
      .error (.consistency (.idOutOfRange n.id labels.length)) := by
  induction before with
  | nil =>
      rw [List.nil_append, resolveLabels, List.mapM_cons, resolveLabel,
        List.getElem?_eq_none hn]
      rfl
  | cons m before ih =>
      have hm : m.id < labels.length := hbefore m List.mem_cons_self
      have hrest := ih fun m hm => hbefore m (List.mem_cons_of_mem _ hm)
      rw [resolveLabels] at hrest ⊢
      rw [List.cons_append, List.mapM_cons, resolveLabel, List.getElem?_eq_getElem hm, hrest]
      rfl

theorem resolveLabels_of_shows {labels : List String} {ns : List Neighbor} {hits : List Hit}
    (h : List.Forall₂ (Shows labels) ns hits) : resolveLabels labels ns = .ok hits := by
  induction h with
  | nil => rfl
  | @cons n hit ns hits hshow _ ih =>
      obtain ⟨hlabel, hdistance⟩ := hshow
      rw [resolveLabels] at ih ⊢
      rw [List.mapM_cons, resolveLabel, hlabel, ih, ← hdistance]
      rfl

/-- Either all neighbours have a label, or one of them is the first without. -/
theorem shows_or_unknown (labels : List String) (ns : List Neighbor) :
    (∃ hits, List.Forall₂ (Shows labels) ns hits) ∨
      ∃ before n after, ns = before ++ n :: after ∧ (∀ m ∈ before, m.id < labels.length) ∧
        labels.length ≤ n.id := by
  induction ns with
  | nil => exact .inl ⟨[], .nil⟩
  | cons n ns ih =>
      rcases Nat.lt_or_ge n.id labels.length with hlt | hge
      · rcases ih with ⟨hits, hshow⟩ | ⟨before, m, after, rfl, hbefore, hm⟩
        · exact .inl ⟨⟨labels[n.id], n.distance⟩ :: hits,
            .cons ⟨List.getElem?_eq_getElem hlt, rfl⟩ hshow⟩
        · refine .inr ⟨n :: before, m, after, rfl, ?_, hm⟩
          simpa [hlt] using hbefore
      · exact .inr ⟨[], n, ns, rfl, by simp, hge⟩

/-- What a search comes to, by what the index has found. -/
inductive Searched (labels : List String) :
    Except Error (List Neighbor) → Except Error (List Hit) → Prop
  | engineFails (e : Error) : Searched labels (.error e) (.error e)
  | overflows {ns : List Neighbor} (hbad : ∃ n ∈ ns, n.distance.isFinite = false) :
      Searched labels (.ok ns) (.error (.invalidQuery .distancesOverflow))
  | unknown {before after : List Neighbor} {n : Neighbor}
      (hfinite : ∀ m ∈ before ++ n :: after, m.distance.isFinite = true)
      (hbefore : ∀ m ∈ before, m.id < labels.length) (hn : labels.length ≤ n.id) :
      Searched labels (.ok (before ++ n :: after))
        (.error (.consistency (.idOutOfRange n.id labels.length)))
  | found {ns : List Neighbor} {hits : List Hit}
      (hfinite : ∀ n ∈ ns, n.distance.isFinite = true)
      (hshow : List.Forall₂ (Shows labels) ns hits) : Searched labels (.ok ns) (.ok hits)

theorem exists_searched (labels : List String) (found : Except Error (List Neighbor)) :
    ∃ r, Searched labels found r := by
  cases found with
  | error e => exact ⟨_, .engineFails e⟩
  | ok ns =>
      by_cases hbad : ∃ n ∈ ns, n.distance.isFinite = false
      · exact ⟨_, .overflows hbad⟩
      · have hfinite : ∀ n ∈ ns, n.distance.isFinite = true := by simpa using hbad
        rcases shows_or_unknown labels ns with ⟨hits, hshow⟩ |
          ⟨before, n, after, rfl, hbefore, hn⟩
        · exact ⟨_, .found hfinite hshow⟩
        · exact ⟨_, .unknown hfinite hbefore hn⟩

theorem searchFitted_of_finite {d : Dataset} {query : List Single} {k : Nat}
    {ns : List Neighbor} (hsearch : d.engine.search query k = .ok ns)
    (hfinite : ∀ n ∈ ns, n.distance.isFinite = true) :
    searchFitted d query k = resolveLabels d.labels ns := by
  rw [searchFitted, hsearch]
  exact if_neg (by simpa using hfinite)

theorem searchFitted_of_searched {d : Dataset} {query : List Single} {k : Nat}
    {r : Except Error (List Hit)} (h : Searched d.labels (d.engine.search query k) r) :
    searchFitted d query k = r := by
  generalize hsearch : d.engine.search query k = found at h
  cases h with
  | engineFails e =>
      rw [searchFitted, hsearch]
      rfl
  | overflows hbad =>
      rw [searchFitted, hsearch]
      exact if_pos (by simpa using hbad)
  | unknown hfinite hbefore hn =>
      rw [searchFitted_of_finite hsearch hfinite, resolveLabels_of_unknown hbefore hn]
  | found hfinite hshow =>
      rw [searchFitted_of_finite hsearch hfinite, resolveLabels_of_shows hshow]

theorem length_of_mapM {α β ε : Type} {f : α → Except ε β} {xs : List α} {ys : List β}
    (h : xs.mapM f = .ok ys) : ys.length = xs.length := by
  induction xs generalizing ys with
  | nil =>
      cases h
      rfl
  | cons x xs ih =>
      rw [List.mapM_cons] at h
      obtain ⟨y, -, h⟩ := bind_eq_ok.mp h
      obtain ⟨rest, hrest, h⟩ := bind_eq_ok.mp h
      cases h
      rw [List.length_cons, List.length_cons, ih hrest]

/-- A text that can be read has one value for each of its words. -/
theorem length_of_parse {text : String} {query : List Single} (h : parse text = .ok query) :
    query.length = (words text.toList).length := by
  rw [parse] at h
  split at h
  · cases h
  · cases h
  · next values _ hvalues =>
      cases h
      exact length_of_mapM hvalues

end GlyphSearch.Query

namespace GlyphSearch.Service

open Dataset Index Loading Query Text

/-- What becomes of a query that could be read, if the load has come to `o`:
how often the index is searched, and the answer. -/
inductive Cascade (o : Outcome) (query : List Single) (version : Option String) :
    Nat → Except Error (List Hit) → Prop
  | loadFailed {cause : Error} (ho : o = .error cause) :
      Cascade o query version 0 (.error (.loadFailed cause))
  | otherVersion {d : Dataset} (ho : o = .ok d) (hversion : version.getD "1" ≠ d.version) :
      Cascade o query version 0 (.error (.versionMismatch d.version (version.getD "1")))
  | tooLong {d : Dataset} (ho : o = .ok d) (hversion : version.getD "1" = d.version)
      (hlong : d.engine.dimension < query.length) :
      Cascade o query version 0 (.error (.dimensionMismatch d.engine.dimension query.length))
  | searched {d : Dataset} {r : Except Error (List Hit)} (ho : o = .ok d)
      (hversion : version.getD "1" = d.version) (hfits : query.length ≤ d.engine.dimension)
      (hr : Searched d.labels (d.engine.search (padded query d.engine.dimension) 20) r) :
      Cascade o query version 1 r

variable {s t : Service} {o : Outcome} {query : List Single} {version : Option String}

theorem exists_cascade (o : Outcome) (query : List Single) (version : Option String) :
    ∃ n r, Cascade o query version n r := by
  cases o with
  | error cause => exact ⟨_, _, .loadFailed rfl⟩
  | ok d =>
      by_cases hversion : version.getD "1" = d.version
      · rcases Nat.lt_or_ge d.engine.dimension query.length with hlong | hfits
        · exact ⟨_, _, .tooLong rfl hversion hlong⟩
        · obtain ⟨r, hr⟩ :=
            exists_searched d.labels (d.engine.search (padded query d.engine.dimension) 20)
          exact ⟨_, r, .searched rfl hversion hfits hr⟩
      · exact ⟨_, _, .otherVersion rfl hversion⟩

/-! ## The checks before the search -/

theorem answer_of_refused {d : Dataset} {e : Error} (h : prepare d query version = .error e) :
    s.answer d query version = (s, .error e) := by
  rw [answer, h]

theorem prepare_of_otherVersion {d : Dataset} (h : version.getD "1" ≠ d.version) :
    prepare d query version = .error (.versionMismatch d.version (version.getD "1")) := by
  have hcheck : checkVersion d (version.getD defaultVersion) =
      .error (.versionMismatch d.version (version.getD "1")) := if_neg h
  rw [prepare, hcheck]
  rfl

theorem prepare_of_version {d : Dataset} (h : version.getD "1" = d.version) :
    prepare d query version = fitDimension query d.engine.dimension := by
  have hcheck : checkVersion d (version.getD defaultVersion) = .ok () := if_pos h
  rw [prepare, hcheck]
  rfl

theorem respond_of_cascade {n : Nat} {r : Except Error (List Hit)}
    (h : Cascade o query version n r) (s : Service) :
    s.respond (unwrap o) query version = ({ s with searches := s.searches + n }, r) := by
  cases h with
  | loadFailed ho =>
      rw [ho]
      rfl
  | otherVersion ho hversion =>
      rw [ho]
      exact answer_of_refused (prepare_of_otherVersion hversion)
  | tooLong ho hversion hlong =>
      rw [ho]
      refine answer_of_refused ?_
      rw [prepare_of_version hversion, fitDimension_of_long hlong]
  | @searched d r ho hversion hfits hr =>
      rw [ho]
      show s.answer d query version = _
      rw [answer, prepare_of_version hversion, fitDimension_of_fits hfits]
      exact congrArg _ (searchFitted_of_searched hr)

/-- The cascade leaves no choice. -/
theorem cascade_iff {n : Nat} {r : Except Error (List Hit)} (s : Service) :
    Cascade o query version n r ↔
      s.respond (unwrap o) query version = ({ s with searches := s.searches + n }, r) := by
  refine ⟨fun h => respond_of_cascade h s, fun heq => ?_⟩
  obtain ⟨n', r', h⟩ := exists_cascade o query version
  have hpair := (respond_of_cascade h s).symm.trans heq
  have hsearches : s.searches + n' = s.searches + n := congrArg (·.1.searches) hpair
  have hn : n' = n := by omega
  have hr : r' = r := congrArg Prod.snd hpair
  rw [← hn, ← hr]
  exact h

theorem handle_congr {d d' : Dataset} (h : s.loader.published = some (.ok d))
    (h' : t.loader.published = some (.ok d')) {directory : Option Directory}
    (hsame : d' = { d with directory }) (text : String) (version : Option String) :
    (s.handle text version).2 = (t.handle text version).2 := by
  rw [handle, handle]
  cases parse text with
  | error e => rfl
  | ok query =>
      dsimp only
      rw [(settled_of_published h).get_eq, (settled_of_published h').get_eq, hsame]
      -- Neither the checks of a query nor the search look at the directory.
      show (Service.answer _ d query version).2 = (Service.answer _ _ query version).2
      have hprepare : prepare { d with directory } query version = prepare d query version := rfl
      rw [answer, answer, hprepare]
      cases prepare d query version <;> rfl

/-- Whatever has happened to a service, a text that cannot be read leaves it as
it is, and any other one is answered as the cascade says, from the one outcome
of the load: at once where all callers are at rest, and else by whatever caller
comes back for it. -/
theorem first_failing_stage_decides_query (hfresh : s.loader.Fresh) (ht : Reaches s t)
    (text : String) (version : Option String) :
    (∀ e, parse text = .error e → t.handle text version = (t, .error e)) ∧
    ∀ query, parse text = .ok query →
      query.length = (words text.toList).length ∧
      (t.loader.AtRest → ∃ o, Reaches t t.get.1 ∧ t.get.1.searches = t.searches ∧
        t.get.1.loader.published = some o ∧ (∃ n r, Cascade o query version n r) ∧
        ∀ n r, Cascade o query version n r ↔
          t.handle text version = ({ t.get.1 with searches := t.searches + n }, r)) ∧
      ∀ i o u, Reaches t u → u.loader.outcomeOf? i = some o →
        (∀ v, Reaches u v → v.loader.published = some o) ∧
        (∃ n r, Cascade o query version n r) ∧
        ∀ n r, Cascade o query version n r ↔
          u.respond (unwrap o) query version = ({ u with searches := u.searches + n }, r) := by
  refine ⟨fun e he => ?_, fun query hquery => ⟨length_of_parse hquery, fun hrest => ?_, ?_⟩⟩
  · rw [handle, he]
  · obtain ⟨o, hgot, hpublished, -, hsearches⟩ := get_spec hfresh ht hrest
    have hhandle : t.handle text version = t.get.1.respond (unwrap o) query version := by
      rw [handle, hquery, ← hgot]
    refine ⟨o, reaches_get t, hsearches, hpublished, exists_cascade o query version, ?_⟩
    intro n r
    rw [hhandle, ← hsearches]
    exact cascade_iff t.get.1
  · intro i o u hu hi
    have hone := (Reaches.loadedOnce hfresh (ht.trans hu)).loader
    have hpublished := hone.fits _ (List.mem_of_getElem? (Shared.outcomeOf?_eq_some.mp hi))
    refine ⟨fun v hv => (Reaches.later hv).published o hpublished,
      exists_cascade o query version, fun n r => cascade_iff u⟩

/-- An index that names a vector without label is searched once, and then the
query fails for that vector. -/
theorem first_failing_stage_decides_query_of_unknown_id :
    let engine : Engine := ⟨2, 1, .euclidean, fun _ _ => .ok [⟨0, .zero⟩, ⟨5, .zero⟩]⟩
    let d : Dataset := ⟨engine, ["a"], .default, none⟩
    let s := ofDataset ⟨.empty, [], [], 0⟩ d 1024 ""
    s.loader.Fresh ∧ Reaches s s ∧ s.loader.AtRest ∧
      s.handle "1" none = ({ s.get.1 with searches := 1 },
        .error (.consistency (.idOutOfRange 5 1))) := by
  intro engine d s
  have hfresh : s.loader.Fresh := .inr ⟨_, rfl⟩
  have hrest : s.loader.AtRest := by
    intro c hc
    cases hc
  have hquery : ∃ query, parse "1" = .ok query ∧ query.length = 1 := by
    refine ⟨[⟨0x3f800000⟩], ?_, rfl⟩
    decide +kernel
  obtain ⟨query, hparse, hlength⟩ := hquery
  obtain ⟨-, hread⟩ := first_failing_stage_decides_query hfresh .refl "1" none
  obtain ⟨-, hget, -⟩ := hread query hparse
  obtain ⟨o, -, -, ho, -, hcascade⟩ := hget hrest
  have hloaded : o = .ok d := by
    have hpublished : s.get.1.loader.published = some (.ok d) := by
      rw [(settled_of_published rfl).get_eq]
      rfl
    exact Option.some.inj (ho.symm.trans hpublished)
  have hfinite : ∀ m ∈ [⟨0, .zero⟩] ++ (⟨5, .zero⟩ : Neighbor) :: [],
      m.distance.isFinite = true := by decide
  have hsearched : Searched d.labels (d.engine.search (padded query d.engine.dimension) 20)
      (.error (.consistency (.idOutOfRange 5 1))) := .unknown hfinite (by decide) (by decide)
  have hfits : query.length ≤ d.engine.dimension := by
    rw [hlength]
    decide
  exact ⟨hfresh, .refl, hrest, (hcascade 1 _).mp (.searched hloaded rfl hfits hsearched)⟩

end GlyphSearch.Service
