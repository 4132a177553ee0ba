import CodeAtlas.Proofs.EntryOrder
import CodeAtlas.Proofs.Validity

/-!
# Loading what was accepted

The checks on a document leave the sections of its entries open. `Configuration.Loadable` says what
the sections have to be so that they can be read: collections, of what can be asked or of maps. One
demand is made in so many words while an entry is read, namely that the only files to scan are a
list (`Configuration.ListsFiles`). An accepted document with such entries is loaded, and every entry
adds one analysis, unless that demand is not met: then loading ends with a message that says so
(`Run.applyDocument_of_isValid`).
-/

namespace CodeAtlas

open Effect

theorem Effect.exists_foldlM {ε α β : Type} {f : β → α → Except ε β} {I : β → Prop}
    {xs : List α} {b : β} (h : ∀ x ∈ xs, ∀ b, I b → ∃ c, f b x = .ok c ∧ I c) (hb : I b) :
    ∃ c, xs.foldlM f b = .ok c ∧ I c := by
  induction xs generalizing b with
  | nil => exact ⟨b, rfl, hb⟩
  | cons x xs ih =>
    obtain ⟨hx, hxs⟩ := List.forall_mem_cons.mp h
    obtain ⟨c, hc, hI⟩ := hx b hb
    rw [List.foldlM_cons, hc]
    exact ih hxs hI

namespace Value

def Askable (v : Value) : Prop := ∀ s, ∃ b, v.hasText s = .ok b

def Iterable (v : Value) : Prop := ∃ xs, v.members = .ok xs

def IsMap (v : Value) : Prop := ∃ es, v = .map es

theorem IsMap.exists_at? {v : Value} {name : String} (h : v.IsMap)
    (hhas : v.hasText name = .ok true) : ∃ w, v.at? name = .ok w := by
  obtain ⟨es, rfl⟩ := h
  rw [hasText_map, Except.ok.injEq, Option.isSome_iff_exists] at hhas
  obtain ⟨w, hw⟩ := hhas
  exact ⟨w, at?_map.mpr hw⟩

end Value

namespace Configuration

variable {entry item : Value} {name : String} {P : Value → Prop} {r : Resolution}

/-! ### Sections of entries -/

/-- What is filed under a name, if anything is, is a collection of what `P` says. -/
def Each (entry : Value) (name : String) (P : Value → Prop) : Prop :=
  ∀ v, entry.field? name = some v → ∃ xs, v.members = .ok xs ∧ ∀ x ∈ xs, P x

/-- A value is among the members of what is filed under a name. -/
def Holds (entry : Value) (name : String) (x : Value) : Prop :=
  ∃ v xs, entry.field? name = some v ∧ v.members = .ok xs ∧ x ∈ xs

theorem Each.imp {P Q : Value → Prop} (h : Each entry name P)
    (himp : ∀ x, Holds entry name x → P x → Q x) : Each entry name Q := by
  intro v hv
  obtain ⟨xs, hxs, hP⟩ := h v hv
  exact ⟨xs, hxs, fun x hx => himp x ⟨v, xs, hv, hxs, hx⟩ (hP x hx)⟩

def patternKeys : List String := ["ignore_dependencies_matching", "ignore_entities_matching"]

/-- The sections whose members are taken as they are, or are patterns. -/
def collectionKeys : List String :=
  ["ignore_directories_containing", "ignore_files_containing", "ignore_dependencies_containing",
    "ignore_entities_containing", "override_resolve_dependencies",
    "override_do_not_resolve_dependencies"] ++ patternKeys

/-- The patterns of an entry are well formed. -/
def WellFormedPatterns (entry : Value) : Prop :=
  ∀ name ∈ patternKeys, ∀ x, Holds entry name x → ∃ m, Matcher.ofValue x = .ok m

/-- An entry does not ask for metrics of a history. -/
def AsksNoHistory (entry : Value) : Prop :=
  ∀ x, Holds entry (scanKey .files) x → x.hasText "git" ≠ .ok true

/-- The sections of an entry can be read: each is a collection; exports, settings for the browser
and what is to be scanned for can be asked for names, and have values under those that need one;
aliases are maps. -/
structure Loadable (entry : Value) : Prop where
  collections : ∀ name ∈ collectionKeys, Each entry name fun _ => True
  exports : Each entry "export" fun v => v.Askable ∧ (v.hasText "directory" = .ok true → v.IsMap)
  browser : Each entry "appconfig" fun v => v.Askable ∧
    ∀ key ∈ Level.browser.keys, v.hasText key = .ok true → v.IsMap
  aliases : Each entry "import_aliases" Value.IsMap
  scans : ∀ scope, Each entry (scanKey scope) Value.Askable

def ListsFiles (entry : Value) : Prop :=
  ∀ v, entry.field? "only_permit_files_matching_absolute_path" = some v → ∃ files, v = .list files

theorem Each.exists_eachAt {α : Type} {I : α → Prop} {f : α → Value → Except Fault α} {a : α}
    (h : Each entry name P) (hstep : ∀ x, P x → ∀ b, I b → ∃ c, f b x = .ok c ∧ I c) (ha : I a) :
    ∃ c, eachAt entry name f a = .ok c ∧ I c := by
  rw [eachAt]
  cases hfield : entry.field? name with
  | none => exact ⟨a, rfl, ha⟩
  | some v =>
    obtain ⟨xs, hxs, hP⟩ := h v hfield
    dsimp only
    rw [hxs]
    exact exists_foldlM (fun x hx => hstep x (hP x hx)) ha

theorem Each.exists_eachAt_of_forall {α : Type} {f : α → Value → Except Fault α}
    (h : Each entry name P) (hstep : ∀ x, P x → ∀ b, ∃ c, f b x = .ok c) (a : α) :
    ∃ c, eachAt entry name f a = .ok c := by
  have hany : ∀ x, P x → ∀ b, True → ∃ c, f b x = .ok c ∧ True := fun x hx b _ => by
    obtain ⟨c, hc⟩ := hstep x hx b
    exact ⟨c, hc, trivial⟩
  obtain ⟨c, hc, -⟩ := h.exists_eachAt (a := a) hany trivial
  exact ⟨c, hc⟩

theorem Each.exists_appendAt {v : Value} (h : Each entry name fun _ => True) (hv : v.Iterable) :
    ∃ w, appendAt entry name v = .ok w := by
  obtain ⟨xs, hxs⟩ := hv
  obtain ⟨ys, hys⟩ :=
    h.exists_eachAt_of_forall (f := fun xs x => .ok (xs ++ [x])) (fun x _ ys => ⟨ys ++ [x], rfl⟩) xs
  exact ⟨.list ys, except_bind_eq_ok.mpr ⟨xs, hxs, except_bind_eq_ok.mpr ⟨ys, hys, rfl⟩⟩⟩

theorem Each.exists_patternsAt (h : Each entry name fun _ => True)
    (hpatterns : ∀ x, Holds entry name x → ∃ m, Matcher.ofValue x = .ok m) (ms : List Matcher) :
    ∃ ns, patternsAt entry name ms = .ok ns := by
  refine (h.imp fun x hx _ => hpatterns x hx).exists_eachAt_of_forall (fun x hx ns => ?_) ms
  obtain ⟨m, hm⟩ := hx
  exact ⟨ns ++ [m], by rw [hm]; rfl⟩

theorem exists_readExport (e : Exports) (hask : item.Askable)
    (hdir : item.hasText "directory" = .ok true → item.IsMap) :
    ∃ e', readExport e item = .ok e' := by
  have hswitches : ∀ e, ∃ e', exportSwitches.foldlM (switchExport item) e = .ok e' := by
    intro e
    have hswitch : ∀ switch ∈ exportSwitches, ∀ b, True →
        ∃ c, switchExport item b switch = .ok c ∧ True := by
      intro switch _ b _
      obtain ⟨on, hon⟩ := hask switch.1
      exact ⟨_, by rw [switchExport, hon]; rfl, trivial⟩
    obtain ⟨e', he', -⟩ := exists_foldlM hswitch trivial
    exact ⟨e', he'⟩
  obtain ⟨named, hnamed⟩ := hask "directory"
  rw [readExport, hnamed]
  cases named with
  | false => exact hswitches e
  | true =>
    obtain ⟨dir, hdir⟩ := (hdir hnamed).exists_at? hnamed
    obtain ⟨e', he'⟩ := hswitches { e with directory := dir }
    exact ⟨e', by simp [hdir, bind, Except.bind, pure, Except.pure, he']⟩

theorem exists_set_of_weights : ∀ e ∈ Setting.weights, ∀ v s, ∃ s', e.set v s = .ok s' ∧
    s'.filters = s.filters ∧ s'.resolution = s.resolution := by
  simp only [Setting.weights, List.forall_mem_cons, List.not_mem_nil, false_implies, implies_true,
    and_true]
  and_intros <;> exact fun v s => ⟨_, rfl, rfl, rfl⟩

theorem mem_weights_of_browser {e : Setting} (he : e ∈ Setting.all)
    (hname : e.name ∈ Level.browser.keys) : e ∈ Setting.weights := by
  have hothers : ∀ e ∈ Setting.general ++ Setting.exporting ++ Setting.filtering,
      e.name ∉ Level.browser.keys := by decide +kernel
  simp only [Setting.all, List.mem_append] at he hothers
  rcases he with ((he | he) | he) | he
  · exact absurd hname (hothers e (.inl (.inl he)))
  · exact absurd hname (hothers e (.inl (.inr he)))
  · exact he
  · exact absurd hname (hothers e (.inr he))

theorem exists_setNamed {key : String} (hkey : key ∈ Level.browser.keys) (v : Value)
    (s : Settings) :
    ∃ s', s.setNamed key v = .ok s' ∧ s'.filters = s.filters ∧ s'.resolution = s.resolution := by
  have hset : ∀ key ∈ Level.browser.keys, Setting.computed.contains key = false := by decide
  rw [Settings.setNamed, hset key hkey]
  cases hfind : Setting.all.find? fun e => e.name == key with
  | none => exact ⟨s, rfl, rfl, rfl⟩
  | some e =>
    have hname : e.name = key := by simpa using List.find?_some hfind
    exact exists_set_of_weights e
      (mem_weights_of_browser (List.mem_of_find?_eq_some hfind) (hname ▸ hkey)) v s

theorem exists_readBrowser (s : Settings) (hask : item.Askable)
    (hmap : ∀ key ∈ Level.browser.keys, item.hasText key = .ok true → item.IsMap) :
    ∃ s', readBrowser s item = .ok s' ∧ s'.filters = s.filters ∧ s'.resolution = s.resolution := by
  refine exists_foldlM (I := fun s' : Settings => s'.filters = s.filters ∧
    s'.resolution = s.resolution) ?_ ⟨rfl, rfl⟩
  intro key hkey s₁ hs₁
  obtain ⟨named, hnamed⟩ := hask key
  rw [hnamed]
  cases named with
  | false => exact ⟨s₁, rfl, hs₁⟩
  | true =>
    obtain ⟨v, hv⟩ := (hmap key hkey hnamed).exists_at? hnamed
    obtain ⟨s₂, hs₂, hfilters, hresolution⟩ := exists_setNamed hkey v s₁
    refine ⟨s₂, ?_, hfilters.trans hs₁.1, hresolution.trans hs₁.2⟩
    simp [hv, hs₂, bind, Except.bind]

theorem Loadable.exists_readIgnored {f : Filters} (h : Loadable entry)
    (hpatterns : WellFormedPatterns entry)
    (hlists : f.ignoredDirectories.Iterable ∧ f.ignoredFiles.Iterable ∧
      f.ignoredDependencies.Iterable ∧ f.ignoredEntities.Iterable) :
        ∃ f', readIgnored entry f = .ok f' := by
  have hcollection := h.collections
  have hpattern :=
    fun name hname hkey => (hcollection name hname).exists_patternsAt (hpatterns name hkey)
  obtain ⟨directories, h₁⟩ :=
    (hcollection "ignore_directories_containing" (by decide)).exists_appendAt hlists.1
  obtain ⟨files, h₂⟩ :=
    (hcollection "ignore_files_containing" (by decide)).exists_appendAt hlists.2.1
  obtain ⟨dependencies, h₃⟩ :=
    (hcollection "ignore_dependencies_containing" (by decide)).exists_appendAt hlists.2.2.1
  obtain ⟨dependencyPatterns, h₄⟩ :=
    hpattern "ignore_dependencies_matching" (by decide) (by decide) f.ignoredDependencyPatterns
  obtain ⟨entities, h₅⟩ :=
    (hcollection "ignore_entities_containing" (by decide)).exists_appendAt hlists.2.2.2
  obtain ⟨entityPatterns, h₆⟩ :=
    hpattern "ignore_entities_matching" (by decide) (by decide) f.ignoredEntityPatterns
  exact ⟨_, by rw [readIgnored, h₁, h₂, h₃, h₄, h₅, h₆]; rfl⟩

theorem exists_readAliases (haliases : Each entry "import_aliases" Value.IsMap) :
    ∃ r', eachAt entry "import_aliases" readAliases r = .ok r' ∧ r'.resolve = r.resolve ∧
      r'.keep = r.keep := by
  refine haliases.exists_eachAt (I := fun r' : Resolution => r'.resolve = r.resolve ∧
    r'.keep = r.keep) ?_ ⟨rfl, rfl⟩
  rintro _ ⟨es, rfl⟩ r' hr'
  exact ⟨_, rfl, hr'⟩

theorem Loadable.exists_readOverrides (h : Loadable entry)
    (hlists : r.resolve.Iterable ∧ r.keep.Iterable) : ∃ r', readOverrides entry r = .ok r' := by
  obtain ⟨resolve, h₁⟩ :=
    (h.collections "override_resolve_dependencies" (by decide)).exists_appendAt hlists.1
  obtain ⟨keep, h₂⟩ :=
    (h.collections "override_do_not_resolve_dependencies" (by decide)).exists_appendAt hlists.2
  exact ⟨_, by rw [readOverrides, h₁, h₂]; rfl⟩

theorem ListsFiles.exists_readOnlyFiles (h : ListsFiles entry) (f : Filters) :
    ∃ f', readOnlyFiles entry f = .ok f' := by
  rw [readOnlyFiles]
  cases hfield : entry.field? "only_permit_files_matching_absolute_path" with
  | none => exact ⟨f, rfl⟩
  | some v =>
    obtain ⟨files, rfl⟩ := h v hfield
    exact ⟨_, rfl⟩

theorem readOnlyFiles_of_not_listsFiles (h : ¬ ListsFiles entry) (f : Filters) :
    readOnlyFiles entry f = .error notAList := by
  rw [readOnlyFiles]
  cases hfield : entry.field? "only_permit_files_matching_absolute_path" with
  | none => exact absurd (fun v hv => by cases hfield.symm.trans hv) h
  | some v =>
    cases v with
    | list files => exact absurd (fun v hv => ⟨files, Option.some.inj (hv.symm.trans hfield)⟩) h
    | _ => rfl

def freshSettings (project : Value) (version : String) : Settings :=
  { project := project, version := .text version }

theorem Loadable.readSettings_eq (h : Loadable entry) (hpatterns : WellFormedPatterns entry)
    (project : Value) (version : String) :
    ∃ (s : Settings) (filters : Filters) (resolution : Resolution),
      resolution.resolve.Iterable ∧ resolution.keep.Iterable ∧
      readSettings entry (freshSettings project version) = do
        let filters ← readOnlyFiles entry filters
        let resolution ← readOverrides entry resolution
        return { s with filters := filters, resolution := resolution } := by
  let s₀ : Settings := { freshSettings project version with history := readHistory entry {} }
  obtain ⟨exports, hexports⟩ :=
    h.exports.exists_eachAt_of_forall (fun v hv e => exists_readExport e hv.1 hv.2) s₀.exports
  let s₁ : Settings := { s₀ with exports := exports }
  obtain ⟨s, hs, hfilters, hresolution⟩ := h.browser.exists_eachAt
    (I := fun s : Settings => s.filters = s₁.filters ∧ s.resolution = s₁.resolution)
    (a := s₁) (f := readBrowser) (fun v hv s hs => by
      obtain ⟨s', hs', hfilters, hresolution⟩ := exists_readBrowser s hv.1 hv.2
      exact ⟨s', hs', hfilters.trans hs.1, hresolution.trans hs.2⟩) ⟨rfl, rfl⟩
  obtain ⟨filters, hignored⟩ := h.exists_readIgnored (f := s.filters) hpatterns (by
    rw [hfilters]
    exact ⟨⟨_, rfl⟩, ⟨_, rfl⟩, ⟨_, rfl⟩, ⟨_, rfl⟩⟩)
  obtain ⟨resolution, haliases, hresolve, hkeep⟩ := exists_readAliases (r := s.resolution) h.aliases
  refine ⟨s, filters, resolution, ?_, ?_, ?_⟩
  · rw [hresolve, hresolution]
    exact ⟨_, rfl⟩
  · rw [hkeep, hresolution]
    exact ⟨_, rfl⟩
  · rw [readSettings]
    change (eachAt entry "export" readExport s₀.exports >>= _) = _
    rw [hexports]
    change (eachAt entry "appconfig" readBrowser s₁ >>= _) = _
    rw [hs]
    change (readIgnored entry s.filters >>= _) = _
    rw [hignored]
    change (eachAt entry "import_aliases" readAliases s.resolution >>= _) = _
    rw [haliases]
    rfl

/-! ### Entries -/

def TargetOf (entry : Value) (a : Analysis) : Prop :=
  entry.field? "analysis_name" = some a.settings.name ∧
    entry.field? "source_directory" = some a.settings.source

theorem readable_of_askable {scope : ScanScope} (s : Settings) (hask : item.Askable)
    (hgit : scope = .files → item.hasText "git" ≠ .ok true) : Readable scope s item := by
  have hholds : ∀ (m : Mentioned) key, ∃ b, m.holds item key = .ok b := by
    intro m key
    cases m with
    | exactly => exact ⟨_, rfl⟩
    | within => exact hask key
  have hhistory : ∀ metric ∈ metricKeys scope, metric.2.2 = .history → scope = .files ∧
      metric = ("git", .within, .history) := by
    cases scope <;> decide
  intro metric hmetric
  obtain ⟨b, hb⟩ := hholds metric.2.1 metric.1
  refine ⟨b, hb, fun htrue hkind => ?_⟩
  obtain ⟨hscope, rfl⟩ := hhistory metric hmetric hkind
  rw [htrue] at hb
  exact absurd hb (hgit hscope)

theorem Loadable.exists_readScans (h : Loadable entry) (hgit : AsksNoHistory entry)
    (scope : ScanScope) (a : Analysis) :
    ∃ b, eachAt entry (scanKey scope) (readScanItem scope) a = .ok b := by
  rw [eachAt]
  cases hfield : entry.field? (scanKey scope) with
  | none => exact ⟨a, rfl⟩
  | some v =>
    obtain ⟨xs, hxs, hask⟩ := h.scans scope v hfield
    dsimp only
    rw [hxs]
    refine exists_foldlM_readScanItem_iff.mpr fun item hitem =>
      readable_of_askable _ (hask item hitem) ?_
    rintro rfl
    exact hgit item ⟨v, xs, hfield, hxs, hitem⟩

theorem Describing.exists_readTarget (h : Describing entry) (s : Settings) :
    ∃ s', readTarget entry s = .ok s' ∧
    entry.field? "analysis_name" = some s'.name ∧
    entry.field? "source_directory" = some s'.source := by
  obtain ⟨⟨name, hname⟩, ⟨source, hsource⟩, -⟩ := h
  exact ⟨_, except_bind_eq_ok.mpr ⟨.text name, Value.at?_eq_ok_iff.mpr hname,
    except_bind_eq_ok.mpr ⟨.text source, Value.at?_eq_ok_iff.mpr hsource, rfl⟩⟩, hname, hsource⟩

theorem exists_readEntry (hdescribing : Describing entry) (hload : Loadable entry)
    (hpatterns : WellFormedPatterns entry) (hgit : AsksNoHistory entry) (hfiles : ListsFiles entry)
    (id : Nat) (project : Value) (version : String) :
    ∃ a, readEntry id project version entry = .ok a ∧ TargetOf entry a := by
  obtain ⟨s, filters, resolution, hresolve, hkeep, hs⟩ :=
    hload.readSettings_eq hpatterns project version
  obtain ⟨filters', hfilters⟩ := hfiles.exists_readOnlyFiles filters
  obtain ⟨resolution', hresolution⟩ := hload.exists_readOverrides ⟨hresolve, hkeep⟩
  rw [hfilters, hresolution] at hs
  obtain ⟨a₁, ha₁⟩ := hload.exists_readScans hgit .files
    { id := id, settings := { s with filters := filters', resolution := resolution' } }
  obtain ⟨a₂, ha₂⟩ := hload.exists_readScans hgit .entities a₁
  obtain ⟨t, ht, htarget⟩ := hdescribing.exists_readTarget a₂.settings
  refine ⟨{ a₂ with settings := t }, ?_, htarget⟩
  exact except_bind_eq_ok.mpr ⟨_, hs,
    except_bind_eq_ok.mpr ⟨a₁, ha₁,
      except_bind_eq_ok.mpr ⟨a₂, ha₂, except_bind_eq_ok.mpr ⟨t, ht, rfl⟩⟩⟩⟩

theorem readEntry_of_not_listsFiles (hload : Loadable entry) (hpatterns : WellFormedPatterns entry)
    (hfiles : ¬ ListsFiles entry) (id : Nat) (project : Value) (version : String) :
    readEntry id project version entry = .error notAList := by
  obtain ⟨s, filters, resolution, -, -, hs⟩ := hload.readSettings_eq hpatterns project version
  rw [readOnlyFiles_of_not_listsFiles hfiles] at hs
  change (readSettings entry (freshSettings project version) >>= _) = _
  rw [hs]
  rfl

end Configuration

/-! ### Documents -/

namespace Program

def adding (p : Program) (new : List Analysis) : Program :=
  { p with configuration := { p.configuration with analyses := p.configuration.analyses ++ new } }

theorem adding_nil (p : Program) : p.adding [] = p := by
  rw [adding, List.append_nil]

theorem adding_adding (p : Program) (new more : List Analysis) :
    (p.adding new).adding more = p.adding (new ++ more) := by
  simp only [adding, List.append_assoc]

end Program

namespace Run

open CodeAtlas.Configuration

variable {p : Program} {entry document : Value} {entries : List Value}

/-- One analysis is added for each entry that can be read, in their order. -/
theorem addEntries_of_readable (h : ∀ entry ∈ entries, ∀ id project version,
    ∃ a, readEntry id project version entry = .ok a ∧ TargetOf entry a) (p : Program) :
    ∃ new, addEntries entries p = .ok () (p.adding new) ∧ List.Forall₂ TargetOf entries new := by
  induction entries generalizing p with
  | nil => exact ⟨[], by rw [p.adding_nil]; rfl, .nil⟩
  | cons entry rest ih =>
    obtain ⟨hentry, hrest⟩ := List.forall_mem_cons.mp h
    obtain ⟨a, ha, htarget⟩ :=
      hentry p.configuration.analyses.length p.configuration.project p.configuration.version
    obtain ⟨new, hnew, hnews⟩ := ih hrest (p.adding [a])
    rw [p.adding_adding] at hnew
    refine ⟨a :: new, ?_, .cons htarget hnews⟩
    exact (bind_of_ok rfl).trans
      ((bind_of_ok (lift_eq_ok.mpr ⟨ha, rfl⟩)).trans ((bind_of_ok rfl).trans hnew))

theorem addEntries_of_error {e : Fault} (rest : List Value)
    (h : ∀ id project version, readEntry id project version entry = .error e) (p : Program) :
    addEntries (entry :: rest) p = .error e p := by
  refine (bind_of_ok rfl).trans (bind_of_error ?_)
  rw [h]
  rfl

theorem addEntries_append {q : Program} {before : List Value} (after : List Value)
    (h : addEntries before p = .ok () q) : addEntries (before ++ after) p = addEntries after q := by
  induction before generalizing p with
  | nil =>
    obtain ⟨-, rfl⟩ := EStateM.Result.ok.inj h
    rfl
  | cons entry rest ih =>
    obtain ⟨c, p₁, hc, h⟩ := bind_eq_ok.mp h
    obtain ⟨a, p₂, ha, h⟩ := bind_eq_ok.mp h
    obtain ⟨u, p₃, hu, h⟩ := bind_eq_ok.mp h
    exact (bind_of_ok hc).trans ((bind_of_ok ha).trans ((bind_of_ok hu).trans (ih h)))

theorem exists_forM_session {α : Type} {f : α → Run Unit}
    (hf : ∀ x p, ∃ s, f x p = .ok () { p with session := s }) (xs : List α) (p : Program) :
    ∃ s, xs.forM f p = .ok () { p with session := s } := by
  induction xs generalizing p with
  | nil => exact ⟨p.session, rfl⟩
  | cons x xs ih =>
    obtain ⟨s, hs⟩ := hf x p
    obtain ⟨t, ht⟩ := ih { p with session := s }
    exact ⟨t, (bind_of_ok hs).trans ht⟩

theorem exists_applyLevel
    (h : p.session.log.pinned = false → ∀ v, document.field? "loglevel" = some v → v.Askable) :
    ∃ s, applyLevel document p = .ok () { p with session := s } := by
  have hread : session p = .ok p.session p := rfl
  rw [applyLevel, bind_of_ok hread]
  cases hpinned : p.session.log.pinned with
  | true => exact ⟨p.session, rfl⟩
  | false =>
    cases hfield : document.field? "loglevel" with
    | none => exact ⟨p.session, rfl⟩
    | some v =>
      rw [if_neg Bool.false_ne_true]
      refine exists_forM_session (fun level p => ?_) namedLevels p
      obtain ⟨wanted, hwanted⟩ := h hpinned v hfield (String.ofList (Text.lower level.name.toList))
      rw [hwanted]
      cases wanted with
      | true => exact ⟨_, rfl⟩
      | false => exact ⟨p.session, rfl⟩

theorem exists_applyDocument_eq (hdocument : Configures p.configuration.documents.document entries)
    (hlevel : p.session.log.pinned = false →
      ∀ v, p.configuration.documents.document.field? "loglevel" = some v → v.Askable) :
    ∃ q, q.configuration.analyses = p.configuration.analyses ∧
      applyDocument p = addEntries entries q := by
  obtain ⟨project, hproject⟩ := Option.isSome_iff_exists.mp hdocument.project
  rw [applyDocument_eq]
  generalize hd : p.configuration.documents.document = document at *
  let p₁ : Program := { p with session := { p.session with
    log := p.session.log.write .config .debug "updating config attributes from yaml config..." } }
  have hpinned : p₁.session.log.pinned = p.session.log.pinned := by
    simp only [p₁, Log.write]
    split <;> rfl
  obtain ⟨s, hs⟩ := exists_applyLevel
    (p := { p₁ with configuration := { p₁.configuration with project := project } })
    (fun h => hlevel (hpinned.symm.trans h))
  refine ⟨{ p with session := s, configuration := { p.configuration with project := project } },
    rfl, ?_⟩
  refine (bind_of_ok (t := p₁) rfl).trans
    ((bind_of_ok (lift_eq_ok.mpr ⟨Value.at?_eq_ok_iff.mpr hproject, rfl⟩)).trans ?_)
  refine (bind_of_ok rfl).trans
    ((bind_of_ok (lift_eq_ok.mpr ⟨Value.at?_eq_ok_iff.mpr hdocument.analyses, rfl⟩)).trans ?_)
  exact (bind_of_ok hs).trans (bind_of_ok rfl)

/-- Checking ends with an answer for every document that is not out of shape, and accepts exactly
the documents that configure a project. From an accepted document whose patterns are well formed,
which asks for no history and whose sections can be read, every entry adds one analysis, if the only
files to scan are lists. Otherwise the first entry for which they are not ends the loading with a
message. -/
theorem applyDocument_of_isValid (document : Value) :
    (Shaped document → ∃ b, isValid document = .ok b) ∧
    (isValid document = .ok true ↔ ∃ entries, Configures document entries) ∧
      ∀ (p : Program) (entries : List Value), p.configuration.documents.document = document →
        isValid document = .ok true →
        document.field? "analyses" = some (.list entries) →
        (p.session.log.pinned = false → ∀ v, document.field? "loglevel" = some v → v.Askable) →
        (∀ entry ∈ entries, AsksNoHistory entry ∧ WellFormedPatterns entry ∧ Loadable entry) →
          ((∀ entry ∈ entries, ListsFiles entry) → ∃ q new, applyDocument p = .ok () q ∧
            q.configuration.analyses = p.configuration.analyses ++ new ∧
            List.Forall₂ TargetOf entries new) ∧
          ∀ before entry after, entries = before ++ entry :: after → (∀ e ∈ before, ListsFiles e) →
            ¬ ListsFiles entry →
            ∃ q new, applyDocument p = .error notAList q ∧
              q.configuration.analyses = p.configuration.analyses ++ new ∧
              List.Forall₂ TargetOf before new := by
  refine ⟨Shaped.exists_isValid, isValid_iff,
    fun p entries hdocument hvalid hentries hlevel heach => ?_⟩
  subst hdocument
  obtain ⟨entries', hconfigures⟩ := isValid_iff.mp hvalid
  obtain rfl : entries' = entries :=
    Value.list.inj (Option.some.inj (hconfigures.analyses.symm.trans hentries))
  obtain ⟨q, hq, happly⟩ := exists_applyDocument_eq hconfigures hlevel
  have hread : ∀ entry ∈ entries', ListsFiles entry → ∀ id project version,
      ∃ a, readEntry id project version entry = .ok a ∧ TargetOf entry a := by
    intro entry hentry hfiles
    obtain ⟨hgit, hpatterns, hload⟩ := heach entry hentry
    exact exists_readEntry (hconfigures.each entry hentry) hload hpatterns hgit hfiles
  rw [happly]
  refine ⟨fun hfiles => ?_, ?_⟩
  · obtain ⟨new, hnew, htargets⟩ :=
      addEntries_of_readable (fun entry hentry => hread entry hentry (hfiles entry hentry)) q
    exact ⟨q.adding new, new, hnew, congrArg (· ++ new) hq, htargets⟩
  · rintro before entry after rfl hfiles hentry
    obtain ⟨new, hnew, htargets⟩ :=
      addEntries_of_readable (fun e he => hread e (List.mem_append_left _ he) (hfiles e he)) q
    obtain ⟨-, hpatterns, hload⟩ := heach entry (List.mem_append_right _ List.mem_cons_self)
    refine ⟨q.adding new, new, ?_, congrArg (· ++ new) hq, htargets⟩
    rw [addEntries_append _ hnew]
    exact addEntries_of_error _ (readEntry_of_not_listsFiles hload hpatterns hentry) _

end Run

namespace Sample

open CodeAtlas.Configuration

def filesEntry (only : Value) : Value :=
  .map [(.text "analysis_name", .text "n"), (.text "source_directory", .text "/w/p"),
    (.text "file_scan", .ofStrings ["source_lines_of_code"]),
    (.text "ignore_dependencies_matching", .ofStrings ["^std"]),
    (.text "only_permit_files_matching_absolute_path", only)]

def filesDocument (only : List Value) : Value :=
  .map [(.text "project_name", .text "p"), (.text "loglevel", .ofStrings ["debug"]),
    (.text "analyses", .list (only.map filesEntry))]

def filesAsked (only : List Value) : Program where
  session := (including []).session
  configuration.documents.document := filesDocument only

def absentKeys : List String :=
  collectionKeys.erase "ignore_dependencies_matching" ++
    ["export", "appconfig", "import_aliases", "entity_scan"]

theorem filesEntry_absent (only : Value) :
    ∀ name ∈ absentKeys, (filesEntry only).field? name = none := by
  intro name hname
  have hothers : ∀ name ∈ absentKeys,
      name ∉ ["analysis_name", "source_directory", "file_scan", "ignore_dependencies_matching",
        "only_permit_files_matching_absolute_path"] := by decide
  have hne := hothers name hname
  simp only [List.mem_cons, List.not_mem_nil, or_false, not_or] at hne
  simp [filesEntry, Value.field?, Value.lookup, Value.beq_text, Ne.symm hne.1, Ne.symm hne.2.1,
    Ne.symm hne.2.2.1, Ne.symm hne.2.2.2.1, Ne.symm hne.2.2.2.2]

theorem filesEntry_patterns (only : Value) :
    (filesEntry only).field? "ignore_dependencies_matching" = some (.ofStrings ["^std"]) := by
  simp [filesEntry, Value.field?, Value.lookup, Value.beq_text]

theorem filesEntry_scan (only : Value) :
    (filesEntry only).field? "file_scan" = some (.ofStrings ["source_lines_of_code"]) := by
  simp [filesEntry, Value.field?, Value.lookup, Value.beq_text]

theorem filesEntry_only (only : Value) :
    (filesEntry only).field? "only_permit_files_matching_absolute_path" = some only := by
  simp [filesEntry, Value.field?, Value.lookup, Value.beq_text]

theorem configures_filesDocument {only : List Value} (h : only ≠ []) :
    Configures (filesDocument only) (only.map filesEntry) where
  keys := by
    refine ⟨_, rfl, ?_⟩
    simp only [List.forall_mem_cons, List.not_mem_nil, false_implies, implies_true, and_true]
    exact ⟨⟨"project_name", rfl, by decide +kernel⟩, ⟨"loglevel", rfl, by decide +kernel⟩,
      ⟨"analyses", rfl, by decide +kernel⟩⟩
  project := by simp [filesDocument, Value.field?, Value.lookup, Value.beq_text]
  analyses := by simp [filesDocument, Value.field?, Value.lookup, Value.beq_text]
  ne_nil := by simpa using h
  each := by
    refine List.forall_mem_map.mpr fun files _ => ⟨⟨"n", ?_⟩, ⟨"/w/p", ?_⟩, .files, ?_⟩
    · simp [filesEntry, Value.field?, Value.lookup, Value.beq_text]
    · simp [filesEntry, Value.field?, Value.lookup, Value.beq_text]
    · rw [scanKey, filesEntry_scan]
      rfl

theorem asksNoHistory_filesEntry (only : Value) : AsksNoHistory (filesEntry only) := by
  rintro x ⟨v, xs, hv, hxs, hx⟩
  obtain rfl := Option.some.inj ((filesEntry_scan only).symm.trans hv)
  obtain rfl := Except.ok.inj hxs
  obtain rfl := List.mem_singleton.mp hx
  have hno : Text.contains "source_lines_of_code" "git" = false := by decide +kernel
  exact fun h => Bool.false_ne_true (hno.symm.trans (Except.ok.inj h))

theorem wellFormedPatterns_filesEntry (only : Value) : WellFormedPatterns (filesEntry only) := by
  rintro name hname x ⟨v, xs, hv, hxs, hx⟩
  simp only [patternKeys, List.mem_cons, List.not_mem_nil, or_false] at hname
  rcases hname with rfl | rfl
  · obtain rfl := Option.some.inj ((filesEntry_patterns only).symm.trans hv)
    obtain rfl := Except.ok.inj hxs
    obtain rfl := List.mem_singleton.mp hx
    have hsome : (Matcher.ofValue (.text "^std")).toOption.isSome = true := by decide +kernel
    cases hm : Matcher.ofValue (.text "^std") with
    | ok m => exact ⟨m, rfl⟩
    | error e =>
      rw [hm] at hsome
      cases hsome
  · cases (filesEntry_absent only _ (by decide)).symm.trans hv

theorem loadable_filesEntry (only : Value) : Loadable (filesEntry only) := by
  have habsent : ∀ {name P}, (filesEntry only).field? name = none → Each (filesEntry only) name P :=
    fun hnone v hv => nomatch hnone.symm.trans hv
  have hnone := filesEntry_absent only
  refine ⟨?_, habsent (hnone _ (by decide)), habsent (hnone _ (by decide)),
    habsent (hnone _ (by decide)), ?_⟩
  · intro name hname
    by_cases hpatterns : name = "ignore_dependencies_matching"
    · subst hpatterns
      intro v hv
      obtain rfl := Option.some.inj ((filesEntry_patterns only).symm.trans hv)
      exact ⟨_, rfl, fun _ _ => trivial⟩
    · exact habsent
        (hnone name (List.mem_append_left _ ((List.mem_erase_of_ne hpatterns).mpr hname)))
  · intro scope
    cases scope with
    | files =>
      intro v hv
      obtain rfl := Option.some.inj ((filesEntry_scan only).symm.trans hv)
      refine ⟨_, rfl, fun x hx s => ?_⟩
      obtain rfl := List.mem_singleton.mp hx
      exact ⟨_, rfl⟩
    | entities => exact habsent (hnone _ (by decide))

theorem listsFiles_filesEntry {only : Value} :
    ListsFiles (filesEntry only) ↔ ∃ files, only = .list files := by
  rw [ListsFiles, filesEntry_only]
  exact ⟨fun h => h only rfl, fun ⟨files, h⟩ v hv => ⟨files, (Option.some.inj hv).symm.trans h⟩⟩

theorem askable_filesLevel (only : List Value) :
    ∀ v, (filesDocument only).field? "loglevel" = some v → v.Askable := by
  have hlevel : (filesDocument only).field? "loglevel" = some (.ofStrings ["debug"]) := by
    simp [filesDocument, Value.field?, Value.lookup, Value.beq_text]
  intro v hv s
  obtain rfl := Option.some.inj (hlevel.symm.trans hv)
  exact ⟨_, rfl⟩

/-- Two entries with lists of files add two analyses; a text in the place of the second list ends
the loading after the first. -/
theorem applyDocument_of_isValid_files :
    (∃ q, Run.applyDocument (filesAsked [.ofStrings ["/w/p/a.c"], .ofStrings []]) = .ok () q ∧
      q.configuration.analyses.length = 2) ∧
    ∃ q, Run.applyDocument (filesAsked [.ofStrings ["/w/p/a.c"], .text "/w/p/b.h"]) =
      .error notAList q ∧
      q.configuration.analyses.length = 1 := by
  have hsections : ∀ (only : List Value), ∀ entry ∈ only.map filesEntry,
      AsksNoHistory entry ∧ WellFormedPatterns entry ∧
        Loadable entry := fun only => List.forall_mem_map.mpr fun files _ =>
    ⟨asksNoHistory_filesEntry files, wellFormedPatterns_filesEntry files, loadable_filesEntry files⟩
  have hload := fun only (hne : only ≠ []) =>
    (Run.applyDocument_of_isValid (filesDocument only)).2.2 (filesAsked only) _ rfl
    (isValid_iff.mpr ⟨_, configures_filesDocument hne⟩) (configures_filesDocument hne).analyses
      (fun _ => askable_filesLevel only)
    (hsections only)
  constructor
  · obtain ⟨q, new, hq, hnew, htargets⟩ :=
      (hload [.ofStrings ["/w/p/a.c"], .ofStrings []] (by simp)).1
      (List.forall_mem_map.mpr (by simp [listsFiles_filesEntry, Value.ofStrings]))
    exact ⟨q, hq, (congrArg List.length hnew).trans htargets.length_eq.symm⟩
  · obtain ⟨q, new, hq, hnew, htargets⟩ :=
      (hload [.ofStrings ["/w/p/a.c"], .text "/w/p/b.h"] (by simp)).2
      [filesEntry (.ofStrings ["/w/p/a.c"])] (filesEntry (.text "/w/p/b.h")) [] rfl
      (by simp [listsFiles_filesEntry, Value.ofStrings]) (by simp [listsFiles_filesEntry])
    exact ⟨q, hq, (congrArg List.length hnew).trans htargets.length_eq.symm⟩

/-- Checking a number ends without an answer. A document can be accepted that asks for no history
and has well-formed patterns, and not be loaded. -/
theorem isValid_not_loaded : (∀ b, isValid (.int 5) ≠ .ok b) ∧
    isValid (filesDocument [.text ""]) = .ok true ∧
    AsksNoHistory (filesEntry (.text "")) ∧ WellFormedPatterns (filesEntry (.text "")) ∧
    ∀ q, Run.applyDocument (filesAsked [.text ""]) ≠ .ok () q := by
  refine ⟨nofun, isValid_iff.mpr ⟨_, configures_filesDocument (by simp)⟩,
    asksNoHistory_filesEntry _, wellFormedPatterns_filesEntry _, fun q hq => ?_⟩
  have hfailed : (final? Run.applyDocument (filesAsked [.text ""])).isNone = true := by
    decide +kernel
  rw [final?, hq] at hfailed
  cases hfailed

end Sample

end CodeAtlas
