import GlyphSearch.Proofs.Cascade
import GlyphSearch.Proofs.Copies
import GlyphSearch.Proofs.Integrity
import GlyphSearch.Proofs.Ownership
import GlyphSearch.Proofs.Unpacking
import GlyphSearch.Proofs.Visibility

/-!
# All sources serve the same dataset

A dataset in a directory, and an archive of that directory: the archive is
unpacked to a copy, a copy is opened to the same dataset, and what a service
answers is up to the dataset alone. So it does not matter which source a service
has, nor whether the archive is compressed or where it is kept.

An archive that is not compressed may begin with the two bytes of compressed
files, if the path of its first member does. It is then not taken for what it
is, and nothing can be loaded from it.
-/

namespace GlyphSearch.Dataset

open Files Tar

/-- Bytes from which an archive is extracted: its own, unless these begin like a
compressed file, or those of a compressed file of it. -/
inductive Carries : Bytes → Bytes → Prop
  | plain {tar : Bytes} (hplain : Gzip.isCompressed tar = false) : Carries tar tar
  | compressed {tar body trailer : Bytes} (hbody : Gzip.IsBody body tar)
      (htrailer : Gzip.IsTrailer tar trailer) : Carries (body ++ trailer) tar

/-- The content of the archive that a source unpacks. -/
inductive Source.Delivers (d : Disk) (content : Bytes) : Source → Prop
  | file {path : String} (hread : d.read (Text.encode path) = .ok content) :
      Delivers d content (.archive path)
  | object {bucket : Storage.Bucket} {bucketName object : String}
      (hget : bucket.get object d = .ok content) :
      Delivers d content (.object bucket bucketName object)

theorem Carries.extract_eq {content tar : Bytes} (h : Carries content tar) (t : Tree)
    (destination : Route) : extract t destination content = extractPlain t destination tar := by
  cases h with
  | plain hplain => rw [extract, if_neg (by simp [hplain])]
  | compressed hbody htrailer =>
      rw [extract, if_pos (isCompressed_append hbody.1 _), source_of_isBody hbody,
        Gzip.endingOf_eq_clean.mpr htrailer]
      rfl

theorem read_of_holds {d made : Disk} {r : Route} (hholds : d.tree.Holds r made.tree)
    (hwhere : made.workingDirectory = d.workingDirectory) {p : Path} {content : Bytes}
    (hread : d.read p = .ok content) : made.read p = .ok content := by
  obtain ⟨⟨s, n⟩, hfind, hcontent⟩ := bind_eq_ok.mp hread
  obtain ⟨_, hchecked, hfollow⟩ := bind_eq_ok.mp hfind
  obtain ⟨hleads, hget⟩ := Tree.follow_eq_ok.mp hfollow
  have hfind' : made.find p = .ok (s, n) := by
    rw [Disk.find, hwhere]
    exact bind_eq_ok.mpr ⟨_, hchecked,
      Tree.follow_eq_ok.mpr ⟨hholds.leads hleads, hholds.outside_of_some hget⟩⟩
  exact bind_eq_ok.mpr ⟨_, hfind', hcontent⟩

section Unpacking

variable {plan : Tree} {items : List Item} {content tar : Bytes} {d made : Disk} {tmp : Path}
  {r : Route}

/-- An archive of a plan is unpacked to a copy of the plan. -/
theorem unpack_of_carries (hplan : plan.IsPlan) (hlists : Lists plan items)
    (hpacked : Packed items tar) (hsize : tar.length < sizeLimit) (hcarries : Carries content tar)
    (hrooted : d.tree.IsRooted) (hmade : d.makeTemporary = (made, .ok tmp))
    (hthere : made.find tmp = .ok (r, .directory)) (hfits : FitsBelow plan r)
    {read : Disk → Except Error Bytes} (hread : read made = .ok content) :
    let f := unpack read d
    f.result = .ok (.temporary tmp) ∧ f.disk.find tmp = .ok (r, .directory) ∧
      f.disk.tree.IsCopy r plan := by
  obtain ⟨r', hpath, hholds, hnothing, -, hwhere⟩ := Disk.makeTemporary_spec hrooted hmade
  have hthere' : made.find tmp = .ok (r', .directory) := by
    rw [Disk.find, hwhere]
    exact hpath.find_eq hholds
  obtain rfl : r' = r := by
    rw [hthere'] at hthere
    cases hthere
    rfl
  obtain ⟨p, hrun, hp⟩ := extractPlain_of_packed hplan hlists hfits
    ⟨hholds.isDirectory, hnothing⟩ hpacked hsize
  have hextract : extract made.tree r' content = (p, .ok ()) :=
    (hcarries.extract_eq made.tree r').trans hrun
  have hconfined := extract_confined hholds.isDirectory hholds.linkFree content
  rw [hextract] at hconfined
  have hunpack : unpack read d = ⟨{ made with tree := p.tree }, p.members, .ok (.temporary tmp),
      unpackLog content p true⟩ := by
    rw [unpack, hmade]
    dsimp only
    rw [hread]
    dsimp only
    rw [unpackInto, hthere']
    dsimp only
    rw [hextract]
  rw [hunpack]
  refine ⟨rfl, ?_, hp.inside, hplan.linkFree⟩
  rw [Disk.find]
  dsimp only
  rw [hwhere]
  exact hpath.find_eq (hholds.confined hconfined)

theorem Source.Delivers.fetch_spec {source : Source} (hplan : plan.IsPlan)
    (hlists : Lists plan items) (hpacked : Packed items tar) (hsize : tar.length < sizeLimit)
    (hcarries : Carries content tar) (hdelivers : source.Delivers d content)
    (hrooted : d.tree.IsRooted) (hmade : d.makeTemporary = (made, .ok tmp))
    (hthere : made.find tmp = .ok (r, .directory)) (hfits : FitsBelow plan r) :
    let f := source.fetch d
    f.result = .ok (.temporary tmp) ∧ f.disk.find tmp = .ok (r, .directory) ∧
      f.disk.tree.IsCopy r plan := by
  have hunpack := fun (read : Disk → Except Error Bytes) (hread : read made = .ok content) =>
    unpack_of_carries hplan hlists hpacked hsize hcarries hrooted hmade hthere hfits hread
  cases hdelivers with
  | file hread =>
      obtain ⟨_, -, hholds, -, -, hwhere⟩ := Disk.makeTemporary_spec hrooted hmade
      exact hunpack _ (mapError_eq_ok.mpr (read_of_holds hholds hwhere hread))
  | @object bucket bucketName object hget =>
      have hfetch : (Source.object bucket bucketName object).fetch d =
          unpack (fun _ => .ok content) d := by
        show unpackObject bucket object d = _
        rw [unpackObject, hget]
      rw [hfetch]
      exact hunpack _ rfl

end Unpacking

/-! ## Loading -/

section Loading

variable {source : Source} {layout : Layout} {d : Disk} {directory : Directory}

theorem load_of_fetched (hresult : (source.fetch d).result = .ok directory) :
    (load source layout d).result =
      openAt (source.fetch d).disk.tree (source.fetch d).disk.workingDirectory directory layout := by
  rw [load]
  dsimp only
  rw [hresult, openAt]
  dsimp only
  cases openIndex (source.fetch d).disk.tree (source.fetch d).disk.workingDirectory directory layout with
  | error e => rfl
  | ok index =>
      dsimp only [bind, Except.bind]
      cases openAround index (source.fetch d).disk.tree (source.fetch d).disk.workingDirectory
        directory layout <;> rfl

/-- Where a source gives a copy of a plan, the dataset of the plan is loaded. -/
theorem load_of_isCopy {plan : Tree} {r : Route}
    (hresult : (source.fetch d).result = .ok directory)
    (hthere : (source.fetch d).disk.find directory.path = .ok (r, .directory))
    (hcopy : (source.fetch d).disk.tree.IsCopy r plan) (hinside : layout.IsInside)
    (hroom : layout.FitsBehind directory.path) :
    (load source layout d).result =
      (openAt plan [] (.kept []) layout).map fun d => { d with directory := some directory } :=
  (load_of_fetched hresult).trans (openAt_of_isCopy hcopy hthere hinside hroom)

theorem fetch_directory {path : String} {base : Route}
    (hbase : d.find (Text.encode path) = .ok (base, .directory)) :
    (Source.directory path).fetch d = ⟨d, 0, .ok (.kept (Text.encode path)), []⟩ := by
  show useDirectory path d = _
  rw [useDirectory, hbase]

/-- A directory in place is itself a copy of what is in it. -/
theorem load_directory_of_isCopy {plan : Tree} {path : String} {base : Route}
    (hbase : d.find (Text.encode path) = .ok (base, .directory)) (hcopy : d.tree.IsCopy base plan)
    (hinside : layout.IsInside) (hroom : layout.FitsBehind (Text.encode path)) :
    (load (.directory path) layout d).result =
      (openAt plan [] (.kept []) layout).map fun d =>
        { d with directory := some (.kept (Text.encode path)) } := by
  have hfetch := fetch_directory hbase
  have hdisk : ((Source.directory path).fetch d).disk = d := congrArg Fetched.disk hfetch
  refine load_of_isCopy (r := base) (congrArg Fetched.result hfetch) ?_ ?_ hinside hroom
  · rw [hdisk]
    exact hbase
  · rw [hdisk]
    exact hcopy

end Loading

end GlyphSearch.Dataset

namespace GlyphSearch.Service

open Dataset Files Loading Query Text

variable {s t : Service}

/-- The first caller of a service that has just been started waits for the load
of its source. The load is counted, and what it comes to is published. -/
theorem get_of_start (hstart : s.loader = .start) (hheld : s.heldBack = false) :
    let loaded := load s.source s.layout s.disk
    ∃ disk log loader, s.get =
        ({ s with
          disk
          log
          counters := s.counters.load (isReady loaded.result) loaded.members
          loader }, unwrap loaded.result) ∧
      loader.published = some loaded.result := by
  intro loaded
  have hcalled : (Shared.start.apply isReady .call).settleCaller 0 =
      (⟨none, some 0, [none], [.waiting 0], []⟩ : Shared Outcome) := by cbv
  let w : Service := { s with loader := ⟨none, some 0, [none], [.waiting 0], []⟩ }
  have hcall : s.callLoader.1 = w := by
    rw [callLoader, hstart]
    exact congrArg (fun loader => { s with loader }) hcalled
  have hback : ∀ o : Outcome,
      Shared.settle ⟨none, some 0, [some o], [.waiting 0], []⟩ =
        ⟨some o, none, [some o], [.returned o], []⟩ := by
    intro o
    cbv
  have hnone : s.callLoader.1.loader.outcomeOf? s.loader.callers.length = none := by
    rw [hcall, hstart]
    rfl
  have hwork : w.work = w.conclude loaded := rfl
  have hawait : w.await = w.endLoads work := if_neg (by simp [w, hheld])
  obtain ⟨disk, counters, log, hend⟩ := endLoad_eq loaded w 0
  have hcounters := endLoad_counters loaded w 0
  rw [hend] at hcounters
  have hfirst : s.loader.callers.length = 0 := by
    rw [hstart]
    rfl
  rw [get_of_waiting hnone, hcall, hawait, endLoads_of_loads rfl hwork, hend, hfirst]
  dsimp only [w] at hcounters ⊢
  rw [hback, hcounters]
  exact ⟨disk, log, _, rfl, rfl⟩

theorem published_of_get (hstart : s.loader = .start) (hheld : s.heldBack = false) :
    s.get.1.loader.published = some (load s.source s.layout s.disk).result := by
  obtain ⟨disk, log, loader, hget, hpublished⟩ := get_of_start hstart hheld
  rw [hget]
  exact hpublished

theorem stage_of_get (hstart : s.loader = .start) (hheld : s.heldBack = false) :
    s.get.1.stage = Shared.stageOf isReady (load s.source s.layout s.disk).result :=
  Shared.stage_of_published _ (published_of_get hstart hheld)

/-- A directory with a dataset and an archive of the directory, compressed or
not, in a file or in a bucket, come to the same dataset, and services with one
or the other answer alike from then on. Only the archive's dataset lies in a
temporary directory.

An archive that is not compressed must not begin like a compressed one; a
temporary directory can be made, and its path leaves room for those of the
plan. -/
theorem all_sources_serve_same_dataset {settings : Config.Settings}
    (hsettings : Config.validate settings = .ok ()) {plan : Tree} (hplan : plan.IsPlan)
    (hstart : s.loader = .start) (hheld : s.heldBack = false)
    (hlayout : s.layout = settings.dataset.layout) {path : String}
    (hsource : s.source = .directory path) {base : Route}
    (hbase : s.disk.find (encode path) = .ok (base, .directory))
    (hcopy : ∀ q, s.disk.tree.get? (base ++ q) = plan.get? q)
    (hroom : s.layout.FitsBehind (encode path)) {dataset : Dataset}
    (hready : s.get.1.dataset? = some dataset)
    {items : List Tar.Item} (hlists : Tar.Lists plan items) {tar content : Bytes}
    (hpacked : Tar.Packed items tar) (hsize : tar.length < Tar.sizeLimit)
    (hcarries : Carries content tar)
    (hstart' : t.loader = .start) (hheld' : t.heldBack = false) (hlayout' : t.layout = s.layout)
    (hdelivers : t.source.Delivers t.disk content) (hrooted : t.disk.tree.IsRooted)
    {made : Disk} {tmp : Path} (hmade : t.disk.makeTemporary = (made, .ok tmp)) {r : Route}
    (hthere : made.find tmp = .ok (r, .directory)) (hfits : Tar.FitsBelow plan r)
    (hroom' : s.layout.FitsBehind tmp) :
    let unpacked := (t.source.fetch t.disk).disk
    s.get.1.stage = .ready ∧ t.get.1.stage = .ready ∧
    dataset.directory = some (.kept (encode path)) ∧
    t.get.1.dataset? = some { dataset with directory := some (.temporary tmp) } ∧
    (∃ index, dataset.engine = index.toEngine ∧
      openIndex s.disk.tree s.disk.workingDirectory (.kept (encode path)) s.layout =
        .ok index ∧
      openIndex unpacked.tree unpacked.workingDirectory (.temporary tmp) s.layout = .ok index) ∧
    ∀ u v, Reaches s.get.1 u → Reaches t.get.1 v → ∀ text version,
      (u.handle text version).2 = (v.handle text version).2 := by
  intro unpacked
  -- Both are copies of the plan, so both come to the dataset of the plan.
  have hinside : s.layout.IsInside := hlayout ▸ Config.isInside_of_validate hsettings
  have hhere : s.disk.tree.IsCopy base plan := ⟨hcopy, hplan.linkFree⟩
  have hload := load_directory_of_isCopy hbase hhere hinside hroom
  rw [← hsource] at hload
  obtain ⟨hunpacked, hthere', hcopy'⟩ :=
    hdelivers.fetch_spec hplan hlists hpacked hsize hcarries hrooted hmade hthere hfits
  have hload' : (load t.source t.layout t.disk).result =
      (openAt plan [] (.kept []) s.layout).map fun d =>
        { d with directory := some (.temporary tmp) } := by
    rw [hlayout']
    exact load_of_isCopy hunpacked hthere' hcopy' hinside hroom'
  have hpublished := published_of_get hstart hheld
  have hpublished' := published_of_get hstart' hheld'
  obtain ⟨planned, hopen, rfl⟩ := map_eq_ok.mp
    (hload.symm.trans (((settled_of_published hpublished).dataset_iff dataset).mp hready))
  rw [hload, hopen] at hpublished
  rw [hload', hopen] at hpublished'
  obtain ⟨index, hindex, hconsistent, -⟩ := of_openAt hopen
  refine ⟨Shared.stage_of_published _ hpublished, Shared.stage_of_published _ hpublished', rfl,
    ((settled_of_published hpublished').dataset_iff _).mpr rfl,
    ⟨index, hconsistent.engine_eq, ?_, ?_⟩, ?_⟩
  · rw [← hindex]
    exact openIndex_of_isCopy hhere hbase hinside hroom
  · rw [← hindex]
    exact openIndex_of_isCopy hcopy' hthere' hinside hroom'
  · intro u v hu hv text version
    exact handle_congr ((Reaches.later hu).published _ hpublished)
      ((Reaches.later hv).published _ hpublished') rfl text version

/-! ## A small dataset -/

theorem isPlan_smallPlan : smallPlan.IsPlan := Tree.isPlan_of_nodes (by decide +kernel)

/-- An archive that begins with that file. -/
def smallArchive : Bytes := Tar.pack (Tar.itemsOf smallPlan)

theorem packed_smallArchive : Tar.Packed (Tar.itemsOf smallPlan) smallArchive :=
  Tar.packed_pack (by decide +kernel)

/-- The dataset in its directory and in a compressed archive in a bucket. -/
theorem all_sources_serve_same_dataset_of_compressed_object :
    let content := Gzip.storedBody smallArchive ++ Gzip.trailerOf smallArchive
    let s := onShelf content (.directory "/data")
    let t := onShelf content (.object (.directory []) "bucket" "a")
    let tmp := bytes "/tmp/hwrsearch-0"
    ∃ dataset, s.get.1.dataset? = some dataset ∧
      t.get.1.dataset? = some { dataset with directory := some (.temporary tmp) } ∧
      ∀ text version, (s.get.1.handle text version).2 = (t.get.1.handle text version).2 := by
  intro content s t tmp
  have hready : (load s.source s.layout s.disk).result.toBool = true := by decide +kernel
  cases hloaded : (load s.source s.layout s.disk).result with
  | error e =>
      rw [hloaded] at hready
      cases hready
  | ok dataset =>
      have hpublished := published_of_get (s := s) rfl rfl
      rw [hloaded] at hpublished
      have hdataset := ((settled_of_published hpublished).dataset_iff dataset).mpr rfl
      have hsettings : Config.validate .default = .ok () := by decide +kernel
      have hsource : s.source = .directory "/data" := rfl
      have hbase : s.disk.find (encode "/data") = .ok ([bytes "data"], .directory) := by
        decide +kernel
      have hcarries : Carries content smallArchive :=
        .compressed (Gzip.isBody_storedBody (by decide +kernel)) (Gzip.isTrailer_trailerOf _)
      have hdelivers : t.source.Delivers t.disk content := by
        have hpath : (Route.absolutePath []).join (encode "a") = bytes "/a" := by decide +kernel
        refine .object ?_
        rw [Storage.Bucket.get, if_neg (by decide +kernel), hpath]
        rfl
      have hrooted : t.disk.tree.IsRooted := (Tree.isPlan_of_nodes (by decide +kernel)).isRooted
      have hmade : t.disk.makeTemporary = (t.disk.makeTemporary.1, .ok tmp) :=
        Prod.ext rfl (by decide +kernel)
      have hthere : t.disk.makeTemporary.1.find tmp =
          .ok ([bytes "tmp", bytes "hwrsearch-0"], .directory) := by decide +kernel
      have hfits : Tar.FitsBelow smallPlan [bytes "tmp", bytes "hwrsearch-0"] :=
        Tar.fitsBelow_of_nodes (by decide +kernel)
      obtain ⟨-, -, -, hsame, -, hanswers⟩ := all_sources_serve_same_dataset (s := s) (t := t)
        hsettings isPlan_smallPlan rfl rfl rfl hsource hbase (get?_shelf content)
        (by decide +kernel) hdataset (Tar.lists_itemsOf smallPlan) packed_smallArchive
        (by decide +kernel) hcarries rfl rfl rfl hdelivers hrooted hmade hthere hfits
        (by decide +kernel)
      exact ⟨dataset, hdataset, hsame, hanswers _ _ .refl .refl⟩

/-- The archive as it is is taken for a compressed one, and nothing comes of it,
while its directory is served. -/
theorem archive_not_served_of_compressed_look :
    let items := Tar.itemsOf smallPlan
    let s := onShelf smallArchive (.directory "/data")
    let t := onShelf smallArchive (.archive "/a")
    Config.validate .default = .ok () ∧ s.layout = Config.Settings.default.dataset.layout ∧
    t.layout = s.layout ∧ smallPlan.IsPlan ∧
    s.disk.find (encode "/data") = .ok ([bytes "data"], .directory) ∧
    (∀ q, s.disk.tree.get? ([bytes "data"] ++ q) = smallPlan.get? q) ∧
    Tar.Lists smallPlan items ∧ Tar.Packed items smallArchive ∧
    t.disk.read (encode "/a") = .ok smallArchive ∧
    s.get.1.stage = .ready ∧ t.get.1.stage = .failed := by
  intro items s t
  have hpath : encode "/a" = bytes "/a" := by decide +kernel
  refine ⟨by decide +kernel, rfl, rfl, isPlan_smallPlan, by decide +kernel, get?_shelf _,
    Tar.lists_itemsOf _, packed_smallArchive, hpath ▸ read_shelf _, ?_, ?_⟩
  · rw [stage_of_get rfl rfl]
    decide +kernel
  · rw [stage_of_get rfl rfl]
    decide +kernel

end GlyphSearch.Service
