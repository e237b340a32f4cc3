import GlyphSearch.Proofs.Values
import Mathlib.Logic.Function.Basic

/-!
# Overrides act setting by setting

Each variable of the environment has one setting, and each of the settings that
can be overridden has one variable (`Overridable`). So what overriding comes to
can be said of each setting by itself (`Overridden`): it is what its variable
says, if that is set to anything but blanks, and otherwise what it was.

The variables are applied one after the other. `Puts` says what each of them
does, and `Overridden.append` puts two stretches of them together. The first
variable whose value cannot be read ends the process. The settings are then as
if only the variables before it had been set.
-/

namespace GlyphSearch.Config

open Storage Text

/-! ## One variable -/

variable {env : Environment} {s t r : Settings} {os : List Override}

/-- A variable is set to a value that is not blank. -/
def Sets (env : Environment) (name value : String) : Prop :=
  env name = some value ∧ ∃ c ∈ value.toList, isBlank c = false

theorem Sets.unique {name value value' : String} (h : Sets env name value)
    (h' : Sets env name value') : value = value' :=
  Option.some.inj (h.1.symm.trans h'.1)

theorem lookup_eq_some_iff {name value : String} :
    lookup env name = some value ↔ Sets env name value := by
  rw [lookup, Option.filter_eq_some_iff, Sets, isAllBlank, Bool.not_eq_true', List.all_eq_false]
  simp

theorem lookup_eq_none_iff {name : String} :
    lookup env name = none ↔ ∀ value, ¬ Sets env name value := by
  simp only [Option.eq_none_iff_forall_not_mem, Option.mem_def, lookup_eq_some_iff]

theorem eq_none_iff {α : Type} {x : Option α} {P : α → Prop} (h : ∀ a, x = some a ↔ P a) :
    x = none ↔ ∀ a, ¬ P a := by
  simp only [Option.eq_none_iff_forall_ne_some, ne_eq, h]

theorem eq_of_eq_some_iff {α : Type} {x : Option α} {P : α → Prop} (h : ∀ a, x = some a ↔ P a)
    {a b : α} (ha : P a) (hb : P b) : a = b :=
  Option.some.inj (((h a).mpr ha).symm.trans ((h b).mpr hb))

variable {α : Type} {name : String} {Reads : String → α → Prop} {get : Settings → α}

/-- A setting behind the overrides: what its variable says, or else what it was
before them. -/
structure Follows {α : Type} (env : Environment) (name : String) (Reads : String → α → Prop)
    (before after : α) : Prop where
  of_sets : ∀ value, Sets env name value → Reads value after
  of_not_sets : (∀ value, ¬ Sets env name value) → after = before

theorem Follows.again {before after : α}
    (h : Follows env name Reads before after) : Follows env name Reads after after :=
  ⟨h.of_sets, fun _ => rfl⟩

theorem Follows.congr {env' : Environment} {before after : α} (h : Follows env name Reads before after)
    (hsame : ∀ value, Sets env' name value ↔ Sets env name value) :
    Follows env' name Reads before after :=
  ⟨fun value hset => h.of_sets value ((hsame value).mp hset),
    fun hnot => h.of_not_sets fun value hset => hnot value ((hsame value).mpr hset)⟩

theorem Follows.unique {before x y : α}
    (hx : Follows env name Reads before x) (hy : Follows env name Reads before y)
    (hreads : ∀ value, Reads value x → Reads value y → x = y) : x = y := by
  by_cases hset : ∃ value, Sets env name value
  · obtain ⟨value, hvalue⟩ := hset
    exact hreads value (hx.of_sets value hvalue) (hy.of_sets value hvalue)
  · rw [hx.of_not_sets (not_exists.mp hset), hy.of_not_sets (not_exists.mp hset)]

/-- The environment with some variables alone. -/
def keepOnly (names : List String) (env : Environment) : Environment := fun name =>
  if name ∈ names then env name else none

theorem sets_keepOnly_iff {names : List String} {name value : String} :
    Sets (keepOnly names env) name value ↔ name ∈ names ∧ Sets env name value := by
  by_cases hmem : name ∈ names <;> simp [Sets, keepOnly, hmem]

theorem Follows.put {value : String} {x y : α}
    (hset : Sets env name value) (hread : Reads value y) :
    Follows (keepOnly [name] env) name Reads x y where
  of_sets value' hset' := by
    obtain ⟨-, hset'⟩ := sets_keepOnly_iff.mp hset'
    obtain rfl := hset.unique hset'
    exact hread
  of_not_sets hnot := absurd (sets_keepOnly_iff.mpr ⟨List.mem_singleton.mpr rfl, hset⟩) (hnot value)

theorem Follows.kept {names : List String} {x : α} (h : name ∉ names) :
    Follows (keepOnly names env) name Reads x x :=
  ⟨fun _ hset => absurd (sets_keepOnly_iff.mp hset).1 h, fun _ => rfl⟩

theorem Follows.append {names names' : List String} {x y z : α} (h : Follows (keepOnly names env) name Reads x y)
    (h' : Follows (keepOnly names' env) name Reads y z) :
    Follows (keepOnly (names ++ names') env) name Reads x z where
  of_sets value hset := by
    rw [sets_keepOnly_iff, List.mem_append] at hset
    by_cases hmem : name ∈ names'
    · exact h'.of_sets value (sets_keepOnly_iff.mpr ⟨hmem, hset.2⟩)
    · rw [h'.of_not_sets fun _ hset' => hmem (sets_keepOnly_iff.mp hset').1]
      exact h.of_sets value (sets_keepOnly_iff.mpr ⟨hset.1.resolve_right hmem, hset.2⟩)
  of_not_sets hnot := by
    have hleft : ∀ value, ¬ Sets (keepOnly names env) name value := fun value hset =>
      hnot value (sets_keepOnly_iff.mpr
        ⟨List.mem_append_left names' (sets_keepOnly_iff.mp hset).1, (sets_keepOnly_iff.mp hset).2⟩)
    have hright : ∀ value, ¬ Sets (keepOnly names' env) name value := fun value hset =>
      hnot value (sets_keepOnly_iff.mpr
        ⟨List.mem_append_right names (sets_keepOnly_iff.mp hset).1, (sets_keepOnly_iff.mp hset).2⟩)
    rw [h'.of_not_sets hright, h.of_not_sets hleft]

/-! ## All variables -/

/-- The variables, in the order in which they are looked at. -/
def variableNames : List String := [
  "HWR_INDEX_PATH", "HWR_INDEX_TARGZ_PATH", "INDEX_BUCKET_NAME", "INDEX_BLOB_NAME",
  "INDEX_STORAGE_BACKEND", "HWR_LOAD_TIMEOUT_SECS", "HWR_WARMUP_ON_START", "HWR_HOST", "PORT",
  "HWR_LOG_LEVEL", "HWR_LOG_FORMAT"]

theorem overrides_map_name : overrides.map (·.name) = variableNames := rfl

/-- The settings that can be overridden, each with its variable and with what the
values of that say. -/
inductive Overridable : (α : Type) → String → (String → α → Prop) → (Settings → α) → Prop
  | localPath : Overridable (Option String) "HWR_INDEX_PATH" (fun value x => x = some value)
      (·.dataset.localPath)
  | archivePath : Overridable (Option String) "HWR_INDEX_TARGZ_PATH"
      (fun value x => x = some value) (·.dataset.archivePath)
  | bucket : Overridable (Option String) "INDEX_BUCKET_NAME" (fun value x => x = some value)
      (·.dataset.bucket)
  | object : Overridable (Option String) "INDEX_BLOB_NAME" (fun value x => x = some value)
      (·.dataset.object)
  | backend : Overridable Backend "INDEX_STORAGE_BACKEND"
      (fun value b => SpellsOneOf (backendWords b) value) (·.dataset.backend)
  | loadTimeout : Overridable Nat "HWR_LOAD_TIMEOUT_SECS" (SpellsNat numberLimit)
      (·.dataset.loadTimeout)
  | warmup : Overridable Bool "HWR_WARMUP_ON_START"
      (fun value b => SpellsOneOf (boolWords b) value) (·.dataset.warmup)
  | host : Overridable String "HWR_HOST" (fun value x => x = value) (·.server.host)
  | port : Overridable Nat "PORT" (SpellsNat portLimit) (·.server.port)
  | level : Overridable String "HWR_LOG_LEVEL" (fun value x => x = value) (·.logging.level)
  | format : Overridable String "HWR_LOG_FORMAT" (fun value x => x = value) (·.logging.format)

/-- The settings that no variable changes. -/
structure SameOtherwise (s t : Settings) : Prop where
  indexPath : t.dataset.indexPath = s.dataset.indexPath
  labelsPath : t.dataset.labelsPath = s.dataset.labelsPath
  metadataPath : t.dataset.metadataPath = s.dataset.metadataPath
  requestTimeout : t.server.requestTimeout = s.server.requestTimeout
  bodyLimit : t.server.bodyLimit = s.server.bodyLimit

theorem SameOtherwise.refl : SameOtherwise s s := ⟨rfl, rfl, rfl, rfl, rfl⟩

theorem SameOtherwise.trans (h : SameOtherwise s r) (h' : SameOtherwise r t) : SameOtherwise s t :=
  ⟨h'.1.trans h.1, h'.2.trans h.2, h'.3.trans h.3, h'.4.trans h.4, h'.5.trans h.5⟩

/-- The settings behind the overrides, each by itself. -/
structure Overridden (env : Environment) (s t : Settings) : Prop where
  follows : ∀ {α name Reads get}, Overridable α name Reads get →
    Follows env name Reads (get s) (get t)
  otherwise : SameOtherwise s t

theorem Overridden.again (h : Overridden env s t) : Overridden env t t :=
  ⟨fun hover => (h.follows hover).again, .refl⟩

theorem Overridden.kept : Overridden (keepOnly [] env) s s :=
  ⟨fun _ => .kept List.not_mem_nil, .refl⟩

theorem Overridden.append {names names' : List String} (h : Overridden (keepOnly names env) s r)
    (h' : Overridden (keepOnly names' env) r t) : Overridden (keepOnly (names ++ names') env) s t :=
  ⟨fun hover => (h.follows hover).append (h'.follows hover), h.otherwise.trans h'.otherwise⟩

theorem Overridable.mem_variableNames (h : Overridable α name Reads get) : name ∈ variableNames := by
  cases h <;> decide

theorem Overridden.congr {env' : Environment} (h : Overridden env s t)
    (hsame : ∀ name ∈ variableNames, ∀ value, Sets env' name value ↔ Sets env name value) :
    Overridden env' s t :=
  ⟨fun hover => (h.follows hover).congr (hsame _ hover.mem_variableNames), h.otherwise⟩

/-- What a value says is one thing. -/
theorem Overridable.reads_unique (h : Overridable α name Reads get) {value : String} {x y : α}
    (hx : Reads value x) (hy : Reads value y) : x = y := by
  cases h with
  | backend => exact eq_of_eq_some_iff (fun _ => parse_eq_some_iff) hx hy
  | warmup => exact eq_of_eq_some_iff (fun _ => parseBool?_eq_some_iff) hx hy
  | loadTimeout | port => exact eq_of_eq_some_iff (fun _ => parseNat?_eq_some_iff) hx hy
  | _ => exact hx.trans hy.symm

theorem Overridden.unique {t' : Settings} (h : Overridden env s t) (h' : Overridden env s t') :
    t = t' := by
  have heq : ∀ {α name Reads get}, Overridable α name Reads get → get t = get t' := fun hover =>
    (h.follows hover).unique (h'.follows hover) fun _ => hover.reads_unique
  obtain ⟨⟨_, _, _, _⟩, ⟨_, _, _, _, _, _, _, _, _, _⟩, ⟨_, _⟩⟩ := t
  obtain ⟨⟨_, _, _, _⟩, ⟨_, _, _, _, _, _, _, _, _, _⟩, ⟨_, _⟩⟩ := t'
  simp only [Settings.mk.injEq, ServerSettings.mk.injEq, DatasetSettings.mk.injEq,
    LogSettings.mk.injEq]
  exact ⟨⟨heq .host, heq .port, h.2.4.trans h'.2.4.symm, h.2.5.trans h'.2.5.symm⟩,
    ⟨heq .localPath, heq .archivePath, heq .bucket, heq .object, heq .backend,
      h.2.1.trans h'.2.1.symm, h.2.2.trans h'.2.2.symm, h.2.3.trans h'.2.3.symm,
      heq .loadTimeout, heq .warmup⟩, heq .level, heq .format⟩

/-- What each variable does, given a value that can be read. -/
inductive Puts (value : String) (s : Settings) : String → Settings → Prop
  | localPath : Puts value s "HWR_INDEX_PATH" { s with dataset.localPath := some value }
  | archivePath : Puts value s "HWR_INDEX_TARGZ_PATH" { s with dataset.archivePath := some value }
  | bucket : Puts value s "INDEX_BUCKET_NAME" { s with dataset.bucket := some value }
  | object : Puts value s "INDEX_BLOB_NAME" { s with dataset.object := some value }
  | backend {b : Backend} (h : SpellsOneOf (backendWords b) value) :
      Puts value s "INDEX_STORAGE_BACKEND" { s with dataset.backend := b }
  | loadTimeout {n : Nat} (h : SpellsNat numberLimit value n) :
      Puts value s "HWR_LOAD_TIMEOUT_SECS" { s with dataset.loadTimeout := n }
  | warmup {b : Bool} (h : SpellsOneOf (boolWords b) value) :
      Puts value s "HWR_WARMUP_ON_START" { s with dataset.warmup := b }
  | host : Puts value s "HWR_HOST" { s with server.host := value }
  | port {n : Nat} (h : SpellsNat portLimit value n) :
      Puts value s "PORT" { s with server.port := n }
  | level : Puts value s "HWR_LOG_LEVEL" { s with logging.level := value }
  | format : Puts value s "HWR_LOG_FORMAT" { s with logging.format := value }

theorem puts_of_update? {o : Override} {value : String} (ho : o ∈ overrides)
    (hr : o.update? value s = some r) : Puts value s o.name r := by
  simp only [overrides, List.mem_cons, List.not_mem_nil, or_false] at ho
  rcases ho with rfl | rfl | rfl | rfl | rfl | rfl | rfl | rfl | rfl | rfl | rfl <;>
    simp only [ofDataset, ofServer, ofLogging, Option.map_map, Option.map_eq_some_iff,
      Option.map_some, Option.some.injEq, parse_eq_some_iff, parseNat?_eq_some_iff,
      parseBool?_eq_some_iff] at hr
  · exact hr ▸ .localPath
  · exact hr ▸ .archivePath
  · exact hr ▸ .bucket
  · exact hr ▸ .object
  · obtain ⟨_, hspells, rfl⟩ := hr
    exact .backend hspells
  · obtain ⟨_, hspells, rfl⟩ := hr
    exact .loadTimeout hspells
  · obtain ⟨_, hspells, rfl⟩ := hr
    exact .warmup hspells
  · exact hr ▸ .host
  · obtain ⟨_, hspells, rfl⟩ := hr
    exact .port hspells
  · exact hr ▸ .level
  · exact hr ▸ .format

theorem Puts.overridden {value : String} (h : Puts value s name r)
    (hset : Sets env name value) : Overridden (keepOnly [name] env) s r := by
  refine ⟨fun hover => ?_, by cases h <;> exact ⟨rfl, rfl, rfl, rfl, rfl⟩⟩
  -- Each setting against each: it is the variable's own, or has a variable of another name.
  cases h <;> cases hover <;>
    first
    | exact .kept (by decide)
    | exact .put hset rfl
    | exact .put hset ‹_›

/-- The values that cannot be read. -/
def IsRefused (name value : String) : Prop :=
  (name = "INDEX_STORAGE_BACKEND" ∧ ∀ backend, ¬ SpellsOneOf (backendWords backend) value) ∨
  (name = "HWR_LOAD_TIMEOUT_SECS" ∧ ∀ n, ¬ SpellsNat numberLimit value n) ∨
  (name = "HWR_WARMUP_ON_START" ∧ ∀ b, ¬ SpellsOneOf (boolWords b) value) ∨
  (name = "PORT" ∧ ∀ n, ¬ SpellsNat portLimit value n)

theorem update?_eq_none_iff {o : Override} (ho : o ∈ overrides) {value : String} :
    o.update? value s = none ↔ IsRefused o.name value := by
  simp only [overrides, List.mem_cons, List.not_mem_nil, or_false] at ho
  rcases ho with rfl | rfl | rfl | rfl | rfl | rfl | rfl | rfl | rfl | rfl | rfl <;>
    simp [ofDataset, ofServer, ofLogging, IsRefused, eq_none_iff fun _ => parse_eq_some_iff,
      eq_none_iff fun _ => parseNat?_eq_some_iff, eq_none_iff fun _ => parseBool?_eq_some_iff]

/-! ## One after the other -/

/-- Overrides are applied, and none has a value that cannot be read. -/
inductive Applies (env : Environment) : List Override → Settings → Settings → Prop
  | nil {s : Settings} : Applies env [] s s
  | skip {o : Override} {os : List Override} {s t : Settings}
      (h : ∀ value, ¬ Sets env o.name value) (rest : Applies env os s t) :
      Applies env (o :: os) s t
  | set {o : Override} {os : List Override} {value : String} {s r t : Settings}
      (h : Sets env o.name value) (hr : o.update? value s = some r) (rest : Applies env os r t) :
      Applies env (o :: os) s t

/-- Either all overrides are applied, or those before the first that has a value
that cannot be read. -/
theorem applyEach_cases (env : Environment) (os : List Override) (s : Settings) :
    (∃ t, applyEach env os s = (t, .ok ()) ∧ Applies env os s t) ∨
    ∃ before o after value t, os = before ++ o :: after ∧ Applies env before s t ∧
      Sets env o.name value ∧ o.update? value t = none ∧
      applyEach env os s = (t, .error (.config (.invalidVariable o.name value))) := by
  induction os generalizing s with
  | nil => exact .inl ⟨s, rfl, .nil⟩
  | cons o os ih =>
      rw [applyEach]
      cases hlook : lookup env o.name with
      | none =>
          have hset := lookup_eq_none_iff.mp hlook
          obtain ⟨t, heq, h⟩ | ⟨before, o', after, value, t, rfl, h, hrest⟩ := ih s
          · exact .inl ⟨t, heq, .skip hset h⟩
          · exact .inr ⟨o :: before, o', after, value, t, rfl, .skip hset h, hrest⟩
      | some value =>
          have hset := lookup_eq_some_iff.mp hlook
          cases hupdate : o.update? value s with
          | none => exact .inr ⟨[], o, os, value, s, rfl, .nil, hset, hupdate, by simp [hupdate]⟩
          | some r =>
              simp only [hupdate]
              obtain ⟨t, heq, h⟩ | ⟨before, o', after, value', t, rfl, h, hrest⟩ := ih r
              · exact .inl ⟨t, heq, .set hset hupdate h⟩
              · exact .inr ⟨o :: before, o', after, value', t, rfl, .set hset hupdate h, hrest⟩

theorem applyEach_congr {env' : Environment} (h : ∀ name, lookup env name = lookup env' name)
    (os : List Override) (s : Settings) : applyEach env os s = applyEach env' os s := by
  induction os generalizing s with
  | nil => rfl
  | cons o os ih => simp only [applyEach, h, ih]

theorem lookup_update_blank {name blank : String} (h : isAllBlank blank = true) (other : String) :
    lookup (Function.update env name (some blank)) other =
      lookup (Function.update env name none) other := by
  rw [lookup, lookup]
  by_cases heq : other = name
  · subst heq
    simp [h]
  · rw [Function.update_of_ne heq, Function.update_of_ne heq]

/-! ## All of them -/

theorem Applies.overridden (h : Applies env os s t) (hos : ∀ o ∈ os, o ∈ overrides) :
    Overridden (keepOnly (os.map (·.name)) env) s t := by
  induction h with
  | nil => exact .kept
  | skip hnot _ ih =>
      rw [List.forall_mem_cons] at hos
      refine (ih hos.2).congr fun name _ value => ?_
      rw [sets_keepOnly_iff, sets_keepOnly_iff, List.map_cons, List.mem_cons]
      exact ⟨fun ⟨hmem, hset⟩ => ⟨hmem.resolve_left fun heq => hnot value (heq ▸ hset), hset⟩,
        fun ⟨hmem, hset⟩ => ⟨.inr hmem, hset⟩⟩
  | set hset hr _ ih =>
      rw [List.forall_mem_cons] at hos
      exact ((puts_of_update? hos.1 hr).overridden hset).append (ih hos.2)

theorem Applies.not_isRefused (h : Applies env os s t) (hos : ∀ o ∈ os, o ∈ overrides) :
    ∀ name ∈ os.map (·.name), ∀ value, Sets env name value → ¬ IsRefused name value := by
  induction h with
  | nil => exact nofun
  | skip hnot _ ih =>
      rw [List.forall_mem_cons] at hos
      exact List.forall_mem_cons.mpr ⟨fun value hset => absurd hset (hnot value), ih hos.2⟩
  | @set o _ value _ _ _ hset hr _ ih =>
      rw [List.forall_mem_cons] at hos
      refine List.forall_mem_cons.mpr ⟨fun value' hset' hrefused => ?_, ih hos.2⟩
      obtain rfl := hset.unique hset'
      rw [(update?_eq_none_iff hos.1).mpr hrefused] at hr
      cases hr

theorem IsRefused.mem_variableNames {name value : String} (h : IsRefused name value) :
    name ∈ variableNames := by
  rcases h with ⟨rfl, -⟩ | ⟨rfl, -⟩ | ⟨rfl, -⟩ | ⟨rfl, -⟩ <;> decide

theorem applyOverrides_of_not_isRefused (s : Settings)
    (h : ∀ name value, Sets env name value → ¬ IsRefused name value) :
    ∃ t, applyOverrides env s = (t, .ok ()) ∧ Overridden env s t := by
  obtain ⟨t, heq, happlies⟩ | ⟨before, o, after, value, t, hsplit, -, hset, hnone, -⟩ :=
    applyEach_cases env overrides s
  · refine ⟨t, heq, (happlies.overridden fun _ ho => ho).congr fun name hname value => ?_⟩
    rw [sets_keepOnly_iff, overrides_map_name, and_iff_right hname]
  · have ho : o ∈ overrides := hsplit ▸ List.mem_append_right before List.mem_cons_self
    exact absurd ((update?_eq_none_iff ho).mp hnone) (h o.name value hset)

theorem applyOverrides_of_isRefused (s : Settings)
    (h : ∃ name value, Sets env name value ∧ IsRefused name value) :
    ∃ before name value after t, variableNames = before ++ name :: after ∧
      (∀ earlier ∈ before, ∀ value, Sets env earlier value → ¬ IsRefused earlier value) ∧
      Sets env name value ∧ IsRefused name value ∧
      applyOverrides env s = (t, .error (.config (.invalidVariable name value))) ∧
      Overridden (keepOnly before env) s t := by
  obtain ⟨t, -, happlies⟩ | ⟨before, o, after, value, t, hsplit, happlies, hset, hnone, heq⟩ :=
    applyEach_cases env overrides s
  · obtain ⟨name, value, hset, hrefused⟩ := h
    exact absurd hrefused
      (happlies.not_isRefused (fun _ ho => ho) name hrefused.mem_variableNames value hset)
  · have hbefore : ∀ o' ∈ before, o' ∈ overrides := fun o' ho' =>
      hsplit ▸ List.mem_append_left _ ho'
    have ho : o ∈ overrides := hsplit ▸ List.mem_append_right before List.mem_cons_self
    refine ⟨before.map (·.name), o.name, value, after.map (·.name), t, ?_,
      happlies.not_isRefused hbefore, hset, (update?_eq_none_iff ho).mp hnone, heq,
      happlies.overridden hbefore⟩
    rw [← overrides_map_name, hsplit, List.map_append, List.map_cons]

/-- **Overrides act setting by setting.** If every value that is set can be read,
each setting is what its variable says or what it was, and overriding again
changes nothing. Otherwise the first variable whose value cannot be read is
named, and the settings are as if only the ones before it were set. A variable
that is blank might as well be removed. -/
theorem overrides_act_setting_by_setting (env : Environment) (s : Settings) :
    ((∀ name value, Sets env name value → ¬ IsRefused name value) →
      ∃ t, applyOverrides env s = (t, .ok ()) ∧ Overridden env s t ∧
        applyOverrides env t = (t, .ok ())) ∧
    ((¬ ∀ name value, Sets env name value → ¬ IsRefused name value) →
      ∃ before name value after t, variableNames = before ++ name :: after ∧
        (∀ earlier ∈ before, ∀ value, Sets env earlier value → ¬ IsRefused earlier value) ∧
        Sets env name value ∧ IsRefused name value ∧
        applyOverrides env s = (t, .error (.config (.invalidVariable name value))) ∧
        (Error.config (.invalidVariable name value)).message =
          "config error: " ++ ("invalid value for " ++ name ++ ": " ++ quoted value) ∧
        Overridden (keepOnly before env) s t) ∧
    ∀ name blank, isAllBlank blank = true →
      applyOverrides (Function.update env name (some blank)) s =
        applyOverrides (Function.update env name none) s := by
  refine ⟨fun h => ?_, fun h => ?_, fun name blank hblank =>
    applyEach_congr (lookup_update_blank hblank) overrides s⟩
  · obtain ⟨t, heq, hover⟩ := applyOverrides_of_not_isRefused s h
    obtain ⟨t', heq', hover'⟩ := applyOverrides_of_not_isRefused t h
    obtain rfl := hover.again.unique hover'
    exact ⟨t, heq, hover, heq'⟩
  · push Not at h
    obtain ⟨before, name, value, after, t, hsplit, hearlier, hset, hrefused, heq, hover⟩ :=
      applyOverrides_of_isRefused s h
    exact ⟨before, name, value, after, t, hsplit, hearlier, hset, hrefused, heq, rfl, hover⟩

/-- Warmup is switched off, and only then the port is set, to no number. -/
theorem overrides_act_setting_by_setting_of_warmup_and_port :
    let env : Environment := fun name =>
      if name = "HWR_WARMUP_ON_START" then some " No " else none
    let many := Function.update env "PORT" (some "many")
    (∃ t, applyOverrides env .default = (t, .ok ()) ∧ t.dataset.warmup = false ∧
      applyOverrides env t = (t, .ok ())) ∧
    (∃ t, applyOverrides many .default =
      (t, .error (.config (.invalidVariable "PORT" "many")))) ∧
    applyOverrides (Function.update env "PORT" (some "\t")) .default =
      applyOverrides (Function.update env "PORT" none) .default := by
  intro env many
  have hno : SpellsOneOf (boolWords false) " No " := parseBool?_eq_some_iff.mp (by decide +kernel)
  have hwarmup : Sets env "HWR_WARMUP_ON_START" " No " := ⟨rfl, 'N', by decide, by decide⟩
  have hread : ∀ name value, Sets env name value → ¬ IsRefused name value := by
    rintro name value ⟨hset, -⟩ hrefused
    obtain ⟨rfl, hvalue⟩ := Option.ite_none_right_eq_some.mp hset
    obtain rfl := Option.some.inj hvalue
    obtain ⟨h, -⟩ | ⟨h, -⟩ | ⟨-, hnone⟩ | ⟨h, -⟩ := hrefused
    · exact absurd h (by decide)
    · exact absurd h (by decide)
    · exact hnone false hno
    · exact absurd h (by decide)
  have hmain := overrides_act_setting_by_setting env .default
  refine ⟨?_, ?_, hmain.2.2 "PORT" "\t" (by decide)⟩
  · obtain ⟨t, heq, hover, hagain⟩ := hmain.1 hread
    have hspells := (hover.follows .warmup).of_sets " No " hwarmup
    exact ⟨t, heq, Overridable.warmup.reads_unique hspells hno, hagain⟩
  · have hport : Sets many "PORT" "many" := ⟨by simp [many], 'm', by decide, by decide⟩
    have hmany : IsRefused "PORT" "many" := by
      refine .inr (.inr (.inr ⟨rfl, (eq_none_iff fun _ => parseNat?_eq_some_iff).mp ?_⟩))
      decide +kernel
    obtain ⟨-, name, value, -, t, -, -, hset, hrefused, heq, -⟩ :=
      (overrides_act_setting_by_setting many .default).2.1 fun h => h "PORT" "many" hport hmany
    by_cases hname : name = "PORT"
    · subst hname
      obtain rfl := hset.unique hport
      exact ⟨t, heq⟩
    · refine absurd hrefused (hread name value ⟨?_, hset.2⟩)
      exact (Function.update_of_ne hname _ env).symm.trans hset.1

end GlyphSearch.Config
