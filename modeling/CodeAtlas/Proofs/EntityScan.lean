import CodeAtlas.Proofs.Entities
import CodeAtlas.Proofs.Phases
import CodeAtlas.Proofs.Visits

/-!
# Looking for entities

Only one language has entities. When its scanner looks for them, it finds those of all its files
(`Scanner.scanEntities_java`); every other scanner that has results stops the analysis. So what
comes of looking for entities is told by the languages of the files (`Run.analyze_entities`).
-/

namespace CodeAtlas

open Effect CodeAtlas.Configuration Entities Mention OrderedMap

/-! ### Languages of files -/

def FileNode.isIn (permitted : Value) (language : Language) (n : FileNode) : Bool :=
  !n.isDirectory && match Language.ofExtension? (Path.suffix n.name) permitted with
    | .ok (some l) => l = language
    | _ => false

def GraphView.languages (permitted : Value) (v : GraphView) : List Language :=
  Language.scanners.filter fun l => v.fileNodes.values.any (FileNode.isIn permitted l)

theorem FileNode.isIn_iff {permitted : Value} {language : Language} {n : FileNode} :
    n.isIn permitted language = true ↔
    n.isDirectory = false ∧ Language.ofExtension? (Path.suffix n.name) permitted =
      .ok (some language) := by
  rw [isIn, Bool.and_eq_true, Bool.not_eq_true']
  refine and_congr_right fun _ => ?_
  rcases Language.ofExtension? (Path.suffix n.name) permitted with e | _ | l <;> simp

namespace Scanner

variable {ctx : ScanContext} {t t' : ScanState}

/-- The files in the language with entities that were scanned for an analysis. -/
def javaFiles (scanners : List Scanner) (analysis : Nat) : List ScanResult :=
  (scanners.filter fun s => s.language = .java).flatMap
    fun s => (ownFiles s.results analysis).values

def outline (s : Scanner) : Scanner :=
  { s with results := s.results.mapValues fun _ r => { r with imports := [] } }

theorem outline_linkFiles (h : linkFiles ctx t = .ok () t') :
    t'.scanner.outline = t.scanner.outline ∧ t'.statistics = t.statistics := by
  rw [linkFiles, get_bind] at h
  split_ifs at h
  · obtain ⟨-, rfl⟩ := EStateM.Result.ok.inj h
    refine ⟨?_, rfl⟩
    simp only [outline, mapValues, List.map_map]
    congr 2
    refine List.map_congr_left fun e _ => ?_
    simp only [Function.comp_apply]
    split_ifs
    · rfl
    · rfl
  · obtain ⟨-, rfl⟩ := EStateM.Result.ok.inj h
    exact ⟨rfl, rfl⟩

theorem map_javaFiles (ss : List Scanner) (analysis : Nat) :
    (javaFiles ss analysis).map (fun r => { r with imports := [] }) =
      javaFiles (ss.map outline) analysis := by
  have hfiles : ∀ s : Scanner, (ownFiles s.results analysis).values.map
      (fun r => { r with imports := [] }) = (ownFiles s.outline.results analysis).values := by
    intro s
    simp only [ownFiles, outline, values, filter, mapValues, List.filter_map, List.map_map]
    rfl
  rw [javaFiles, javaFiles, List.filter_map, List.flatMap_map, List.map_flatMap]
  simp only [hfiles]
  rfl

end Scanner

namespace Desk

open Scanner (javaFiles outline)

variable {d d' : Desk} {ctx : ScanContext} {f : FileNode → Option Visit} {nodes : List FileNode}
  {n : FileNode}

theorem busy_eq_of_outline (h : d'.scanners.map outline = d.scanners.map outline) :
    d'.busy = d.busy := by
  have hbusy : ∀ e : Desk, e.busy =
      ((e.scanners.map outline).filter fun s => !s.results.isEmpty).map Scanner.language := by
    intro e
    have hempty : ∀ s : Scanner, s.outline.results.isEmpty = s.results.isEmpty :=
      fun s => List.isEmpty_map
    simp only [busy, List.filter_map, List.map_map, Function.comp_def, hempty]
    rfl
  rw [hbusy, hbusy, h]

theorem keeps_linkAll {ss : List Scanner} (hnd : (ss.map Scanner.language).Nodup)
    (st : Statistics) :
    Keeps (fun e => e.scanners.map outline = ss.map outline ∧ e.statistics = st)
      (eachBusy (linkWith ctx)) := by
  refine .bind .get fun _ => .forM fun language _ => ?_
  rintro e ⟨⟩ e' ⟨hscanners, hst⟩ h
  rw [bind_of_ok (scanner?_eq language)] at h
  cases hfind : e.scanners.find? fun s => s.language = language with
  | none =>
    rw [hfind] at h
    obtain ⟨-, rfl⟩ := EStateM.Result.ok.inj h
    exact ⟨hscanners, hst⟩
  | some s =>
    rw [hfind] at h
    have hs := List.mem_of_find?_eq_some hfind
    have hnd' : e.languages.Nodup := by
      have hlanguages : e.languages = ss.map Scanner.language := by
        have hmap := congrArg (List.map Scanner.language) hscanners
        rw [List.map_map, List.map_map] at hmap
        exact hmap
      exact hlanguages ▸ hnd
    obtain ⟨⟨⟩, e₁, hlink, htake⟩ := bind_eq_ok.mp h
    obtain ⟨t, hfiles, rfl⟩ := scan_eq_ok_iff.mp hlink
    obtain ⟨houtline, hstatistics⟩ := Scanner.outline_linkFiles hfiles
    have hlanguage : t.scanner.language = s.language :=
      (congrArg Scanner.language houtline : t.scanner.outline.language = s.outline.language)
    have hput : (e.put t).scanners.map outline = ss.map outline := by
      rw [← hscanners, put, List.map_map]
      refine List.map_congr_left fun s' hs' => ?_
      simp only [Function.comp_apply]
      split_ifs with heq
      · rw [houtline, eq_of_language hnd' hs' hs (heq.trans hlanguage)]
      · rfl
    rw [useResults, bind_of_ok (scanner?_eq _)] at htake
    cases hfound : (e.put t).scanners.find? fun s' => s'.language = s.language with
    | none =>
      rw [hfound] at htake
      obtain ⟨-, rfl⟩ := EStateM.Result.ok.inj htake
      exact ⟨hput, hstatistics.trans hst⟩
    | some s' =>
      rw [hfound] at htake
      obtain ⟨-, rfl⟩ := EStateM.Result.ok.inj htake
      exact ⟨hput, hstatistics.trans hst⟩

theorem Visits.exists_iff {l : Language} {v : Option Visit} (h : Visits ctx d.languages n v)
    (hl : l ∈ d.languages) :
    (∃ w, v = some w ∧ w.language = l) ↔ n.isIn ctx.settings.filters.languages l = true := by
  rw [FileNode.isIn_iff]
  constructor
  · rintro ⟨w, rfl, rfl⟩
    exact ⟨h.exists_eq.1, h.exists_eq.2.2.1⟩
  · rintro ⟨hfile, hchoice⟩
    cases h with
    | directory hdir => simp [hfile] at hdir
    | unknown _ hchoice' => simp [hchoice] at hchoice'
    | absent _ hchoice' hl' =>
      obtain rfl : l = _ := by simpa [hchoice] using hchoice'
      exact absurd hl hl'
    | read _ hchoice' _ _ _ =>
      refine ⟨_, rfl, ?_⟩
      simpa [hchoice, eq_comm] using hchoice'

theorem busy_foldl_take (hempty : ∀ s ∈ d.scanners, s.results = ∅)
    (hf : ∀ n ∈ nodes, Visits ctx d.languages n (f n)) :
    ((nodes.filterMap f).foldl take d).busy =
      d.languages.filter fun l => nodes.any (FileNode.isIn ctx.settings.filters.languages l) := by
  rw [busy, scanners_foldl_take, List.filter_map, List.map_map, languages, List.filter_map]
  refine congrArg (List.map Scanner.language) (List.filter_congr fun s hs => ?_)
  have hl : s.language ∈ d.languages := List.mem_map_of_mem hs
  simp only [Function.comp_apply, hempty s hs]
  rw [show (∅ : Results).insertMany _ = ofList _ from rfl, isEmpty_ofList, Bool.eq_iff_iff,
    List.any_eq_true, Bool.not_eq_true', List.isEmpty_eq_false_iff, ne_eq, List.map_eq_nil_iff,
    List.filter_eq_nil_iff]
  simp only [not_forall, List.mem_filterMap]
  constructor
  · rintro ⟨v, ⟨n, hn, hv⟩, hlanguage⟩
    exact ⟨n, hn, ((hf n hn).exists_iff hl).mp ⟨v, hv, by simpa using hlanguage⟩⟩
  · rintro ⟨n, hn, hin⟩
    obtain ⟨v, hv, hlanguage⟩ := ((hf n hn).exists_iff hl).mpr hin
    exact ⟨v, ⟨n, hn, hv⟩, by simpa using hlanguage⟩

theorem exists_javaFile (hempty : ∀ s ∈ d.scanners, s.results = ∅)
    (hf : ∀ n ∈ nodes, Visits ctx d.languages n (f n)) (hn : n ∈ nodes)
    (hjava : .java ∈ d.languages) (hin : n.isIn ctx.settings.filters.languages .java = true) :
    ∃ r ∈ javaFiles ((nodes.filterMap f).foldl take d).scanners ctx.analysis, ∃ source,
      ctx.settings.source = .text source ∧
      r.uniqueName = Resolve.relativeName source n.name := by
  obtain ⟨v, hv, hlanguage⟩ := ((hf n hn).exists_iff hjava).mpr hin
  obtain ⟨-, -, -, source, content, package, imports, hsource, -, hresult⟩ :=
    (hv ▸ hf n hn).exists_eq
  have hname : v.result.uniqueName = Resolve.relativeName source n.name := by rw [hresult]; rfl
  obtain ⟨s, hs, hs', -⟩ :=
    exists_find? ((languages_foldl_take (d := d) (nodes.filterMap f)).symm ▸ hjava)
  have hresults := results_of_mem_scanners hempty hs
  have hmem : v.entry ∈ ((nodes.filterMap f).filter fun v => v.language = s.language).map
      Visit.entry :=
    List.mem_map_of_mem (List.mem_filter.mpr
      ⟨List.mem_filterMap.mpr ⟨n, hn, hv⟩, by simp [hlanguage, hs']⟩)
  obtain ⟨r, hr⟩ := Option.ne_none_iff_exists'.mp (get?_ofList_ne_none hmem)
  -- another file of that name may have come later
  obtain ⟨w, hw, heq⟩ := List.mem_map.mp (mem_of_mem_ofList (get?_eq_some_iff.mp hr))
  obtain ⟨hwname, rfl⟩ := Prod.mk.inj heq
  obtain ⟨m, hm, hmw⟩ := List.mem_filterMap.mp (List.mem_of_mem_filter hw)
  obtain ⟨-, -, -, _, _, _, _, -, -, hwresult⟩ := (hmw ▸ hf m hm).exists_eq
  refine ⟨w.result, List.mem_flatMap.mpr ⟨s, List.mem_filter.mpr ⟨hs, by simpa using hs'⟩, ?_⟩,
    source, hsource, hwname.trans hname⟩
  refine mem_values_iff.mpr ⟨v.entry.1, get?_filter_eq_some_iff.mpr ⟨hresults ▸ hr, ?_⟩⟩
  rw [hwresult]
  simp [Scanner.blankResult, ScanResult.isFile]

theorem of_scanFiles {view : GraphView} (hnd : d.languages.Nodup)
    (hempty : ∀ s ∈ d.scanners, s.results = ∅) (hcount : d.statistics.Countable)
    (hok : scanFiles ctx (some view) d = .ok () d') :
    d'.languages = d.languages ∧ d'.statistics.Countable ∧
    d'.busy = d.languages.filter
      (fun l => view.fileNodes.values.any (FileNode.isIn ctx.settings.filters.languages l)) ∧
    ∀ n ∈ view.fileNodes.values, n.isIn ctx.settings.filters.languages .java = true →
      .java ∈ d.languages →
      ∃ f ∈ javaFiles d'.scanners ctx.analysis, ∃ source, ctx.settings.source = .text source ∧
        f.uniqueName = Resolve.relativeName source n.name := by
  let d₀ : Desk :=
    { d with log := d.log.write .analysis .start ("starting file result creation in " ++
      ctx.settings.name.display) }
  obtain ⟨⟨⟩, d₁, hnodes, hrest⟩ := bind_eq_ok.mp (show (do
    view.fileNodes.values.forM (scanNode ctx)
    eachBusy (linkWith ctx)
    countFiles) d₀ = .ok () d' from hok)
  obtain ⟨f, hf⟩ := exists_visits_of_forM (d := d₀) hnd hnodes
  obtain ⟨st, hst, rfl⟩ := (forM_scanNode_eq_ok_iff (d := d₀) hnd hf).mp hnodes
  obtain ⟨⟨⟩, d₂, hlink, hend⟩ := bind_eq_ok.mp hrest
  obtain ⟨-, rfl⟩ := EStateM.Result.ok.inj hend
  let vs := view.fileNodes.values.filterMap f
  have hnd₁ : (vs.foldl take d₀).languages.Nodup := (languages_foldl_take vs).symm ▸ hnd
  obtain ⟨houtline, rfl⟩ :=
    keeps_linkAll hnd₁ st ((vs.foldl take d₀).withStatistics st) () d₂ ⟨rfl, rfl⟩ hlink
  refine ⟨?_, ?_, ?_, fun n hn hin hjava => ?_⟩
  · have hlanguages := congrArg (List.map Scanner.language) houtline
    rw [List.map_map, List.map_map] at hlanguages
    exact hlanguages.trans (languages_foldl_take vs)
  · obtain ⟨st', hst', hcount'⟩ := hcount.forM_tally (vs.flatMap Visit.mentions)
    obtain ⟨-, rfl⟩ := EStateM.Result.ok.inj (hst'.symm.trans hst)
    exact (hcount'.add (by decide) (by decide) _).add (by decide) (by decide) _
  · exact (busy_eq_of_outline (d := vs.foldl take d₀) houtline).trans
      (busy_foldl_take (d := d₀) hempty hf)
  · obtain ⟨r, hr, source, hsource, hname⟩ := exists_javaFile (d := d₀) hempty hf hn hjava hin
    have hmem : { r with imports := [] } ∈ (javaFiles d₂.scanners ctx.analysis).map
        fun r => { r with imports := [] } := by
      rw [Scanner.map_javaFiles, houtline, ← Scanner.map_javaFiles]
      exact List.mem_map_of_mem hr
    obtain ⟨r', hr', heq⟩ := List.mem_map.mp hmem
    have hsame := congrArg ScanResult.uniqueName heq
    exact ⟨r', hr', source, hsource, hsame.trans hname⟩

end Desk

/-! ### Entities of a file -/

namespace Entities

variable {file : ScanResult} {es : List ScanResult}

def ofClass (file : ScanResult) (c : String × List String) : Except Fault ScanResult := do
  return entityOf file c.1 c.2 ((← parents c.2).filterMap found?)

def ofFile (file : ScanResult) : Except Fault (List ScanResult) := do
  (found (← declarations (scopeWords file.words))).entries.mapM (ofClass file)

def entry (e : ScanResult) : String × ScanResult := (e.uniqueName, e)

/-- The entities of files under their names. Of entities with the same name, the last one counts. -/
def ofFiles (files : List ScanResult) : Except Fault Results := do
  return ofList ((← files.mapM ofFile).flatten.map entry)

theorem scope_ne_singleton {rest : List String} (h : rest ≠ []) :
    scope 0 ("class" :: rest) ≠ ["class"] := by
  obtain ⟨word, rest, rfl⟩ := List.exists_cons_of_ne_nil h
  have hclass : scope 0 ("class" :: word :: rest) = "class" :: scope 0 (word :: rest) := rfl
  rw [hclass, scope]
  split_ifs with hopen hclose hlevel
  · simp
  · omega
  · simp
  · simp

theorem exists_ofFile (h : scopeWords file.words ≠ ["class"]) : ∃ es, ofFile file = .ok es := by
  have hsightings : ∀ words ≠ ["class"], ∃ seen, sightings (· == "class") words =
      .ok seen := fun words hne =>
    exists_sightings fun word hword => beq_eq_false_iff_ne.mpr fun heq => hne (heq ▸ hword)
  obtain ⟨ms, hms⟩ : ∃ ms, declarations (scopeWords file.words) = .ok ms := by
    obtain ⟨seen, hseen⟩ := hsightings _ h
    exact ⟨_, by rw [declarations, hseen]; rfl⟩
  rw [ofFile, hms]
  refine exists_mapM_eq_ok ?_
  rintro ⟨name, part⟩ hfound
  obtain ⟨rest, hahead, -, hpart⟩ := exists_of_mem_found hms hfound
  obtain ⟨seen, hseen⟩ :=
    hsightings part (hpart ▸ scope_ne_singleton (Window.ne_nil_of_mem_ahead hahead))
  obtain ⟨ps, hps⟩ : ∃ ps, parents part = .ok ps := ⟨_, by rw [parents, all, hseen]; rfl⟩
  exact ⟨_, by rw [ofClass, hps]; rfl⟩

end Entities

/-! ### Looking for the entities of files -/

namespace Scanner

variable {ctx : ScanContext} {t : ScanState} {file : ScanResult} {es : List ScanResult}

def withEntities (t : ScanState) (es : List ScanResult) (st : Statistics) : ScanState :=
  ⟨{ t.scanner with results := t.scanner.results.insertMany (es.map entry) }, st⟩

theorem tallied_script {α : Type} (hcount : t.statistics.Countable) (ms : List (Mention Unit))
    (a : α) :
    ∃ st, ScanM.tallied (Tallied.script ms (.ok a)) t = .ok a { t with statistics := st } ∧
      st.Countable := by
  obtain ⟨st, hst, hcount'⟩ := hcount.script ms a
  exact ⟨st, tallied_eq_ok_iff.mpr ⟨st, hst, rfl⟩, hcount'⟩

theorem forM_classes {cs : List (String × List String)} (hes : cs.mapM (ofClass file) = .ok es)
    (hcount : t.statistics.Countable) :
    ∃ st, (cs.forM fun (name, words) => do
      let parents ← ScanM.tallied (Tallied.lift (parents words))
      let inherits ← ScanM.tallied (Tallied.collect (fun p => pure [p]) parents)
      let entity := entityOf file name words inherits
      ScanM.modifyResults fun rs => rs.insert entity.uniqueName entity) t =
        .ok () (withEntities t es st) ∧ st.Countable := by
  induction cs generalizing t es with
  | nil =>
    obtain rfl := Except.ok.inj hes
    exact ⟨t.statistics, rfl, hcount⟩
  | cons c cs ih =>
    obtain ⟨e, rest, he, hrest, rfl⟩ := mapM_cons_eq_ok.mp hes
    obtain ⟨ps, hps, heq⟩ := except_bind_eq_ok.mp he
    obtain rfl := Except.ok.inj heq
    obtain ⟨st₁, hst₁, hcount₁⟩ :=
      tallied_script hcount (ps.map bare) ((ps.filterMap found?).flatMap fun p => [p])
    rw [← Tallied.collect_pure, List.flatMap_singleton'] at hst₁
    let e := entityOf file c.1 c.2 (ps.filterMap found?)
    obtain ⟨st, hst, hcount'⟩ := ih (t := withEntities t [e] st₁) hrest hcount₁
    refine ⟨st, bind_eq_ok.mpr ⟨(), withEntities t [e] st₁, ?_, hst⟩, hcount'⟩
    refine bind_eq_ok.mpr ⟨ps, t, ?_, bind_eq_ok.mpr ⟨_, _, hst₁, rfl⟩⟩
    rw [hps]
    rfl

theorem scanClasses_of_ofFile (hes : ofFile file = .ok es) (hcount : t.statistics.Countable) :
    ∃ st, scanClasses file t = .ok () (withEntities t es st) ∧ st.Countable := by
  obtain ⟨ms, hms, hes⟩ := except_bind_eq_ok.mp hes
  obtain ⟨st₁, hst₁, hcount₁⟩ := tallied_script hcount (ms.map bare)
    ((ms.filterMap found?).flatMap fun _ => ([] : List Unit))
  rw [← Tallied.collect_pure] at hst₁
  obtain ⟨st, hst, hcount'⟩ := forM_classes (t := { t with statistics := st₁ }) hes hcount₁
  refine ⟨st, bind_eq_ok.mpr ⟨ms, t, ?_, bind_eq_ok.mpr ⟨_, _, hst₁, hst⟩⟩, hcount'⟩
  rw [hms]
  rfl

theorem scanEntities_java (ctx : ScanContext) {ess : List (List ScanResult)}
    (hlanguage : t.scanner.language = .java)
    (hess : (ownFiles t.scanner.results ctx.analysis).values.mapM ofFile = .ok ess)
    (hcount : t.statistics.Countable) :
    ∃ st, scanEntities ctx t = .ok () (withEntities t ess.flatten st) ∧ st.Countable := by
  have hfiles : ∀ (files : List ScanResult) (ess : List (List ScanResult)) (t : ScanState),
      files.mapM ofFile = .ok ess → t.statistics.Countable → ∃ st,
        files.forM scanClasses t = .ok () (withEntities t ess.flatten st) ∧ st.Countable := by
    intro files
    induction files with
    | nil =>
      intro ess t hess hcount
      obtain rfl := Except.ok.inj hess
      exact ⟨t.statistics, rfl, hcount⟩
    | cons file files ih =>
      intro ess t hess hcount
      obtain ⟨es, rest, hes, hrest, rfl⟩ := mapM_cons_eq_ok.mp hess
      obtain ⟨st₁, hst₁, hcount₁⟩ := scanClasses_of_ofFile hes hcount
      obtain ⟨st, hst, hcount'⟩ := ih rest (withEntities t es st₁) hrest hcount₁
      refine ⟨st, bind_eq_ok.mpr ⟨(), _, hst₁, ?_⟩, hcount'⟩
      rw [hst, List.flatten_cons]
      simp only [withEntities, List.map_append, insertMany, List.foldl_append]
  rw [scanEntities, get_bind, if_pos hlanguage]
  exact hfiles _ ess t hess hcount

theorem scanEntities_of_ne_java (hlanguage : t.scanner.language ≠ .java) :
    scanEntities ctx t = .error (notImplemented t.scanner.language) t := by
  rw [scanEntities, get_bind, if_neg hlanguage]
  rfl

end Scanner

namespace Desk

open Scanner (javaFiles notImplemented)

variable {d d' : Desk} {ctx : ScanContext} {s : Scanner}

theorem scanEntitiesWith_java (ctx : ScanContext) {ess : List (List ScanResult)}
    (hs : s ∈ d.scanners) (hlanguage : s.language = .java)
    (hess : (Scanner.ownFiles s.results ctx.analysis).values.mapM ofFile = .ok ess)
    (hcount : d.statistics.Countable) :
    ∃ d', scanEntitiesWith ctx s d = .ok () d' ∧ d'.languages = d.languages ∧
      d'.results = d.results.update (s.results.insertMany (ess.flatten.map entry)) := by
  obtain ⟨st, hst, -⟩ :=
    Scanner.scanEntities_java ctx (t := ⟨s, d.statistics⟩) hlanguage hess hcount
  let t := Scanner.withEntities ⟨s, d.statistics⟩ ess.flatten st
  have hmem : s.language ∈ d.languages := List.mem_map_of_mem hs
  refine ⟨{ d.put t with results := d.results.update t.scanner.results }, ?_, languages_put t, rfl⟩
  rw [scanEntitiesWith, bind_of_ok (scan_eq_ok_iff.mpr ⟨t, hst, rfl⟩)]
  exact useResults_eq (find?_put (t := t) hmem)

theorem scanEntitiesWith_of_ne_java (hnd : d.languages.Nodup) (hs : s ∈ d.scanners)
    (hlanguage : s.language ≠ .java) :
    scanEntitiesWith ctx s d = .error (notImplemented s.language) d := by
  have hscan : scan s (Scanner.scanEntities ctx) d = .error (notImplemented s.language) d := by
    rw [scan, Scanner.scanEntities_of_ne_java (t := ⟨s, d.statistics⟩) hlanguage]
    exact congrArg (EStateM.Result.error _) (put_self hnd hs)
  rw [scanEntitiesWith, bind_of_error hscan]

def lookWith (ctx : ScanContext) (language : Language) : EStateM Fault Desk Unit := do
  match ← scanner? language with
  | some s => scanEntitiesWith ctx s
  | none => return

theorem lookWith_of_ne_java {l : Language} (hnd : d.languages.Nodup) (hmem : l ∈ d.languages)
    (hl : l ≠ .java) : lookWith ctx l d = .error (notImplemented l) d := by
  obtain ⟨s, hs, rfl, hfind⟩ := exists_find? hmem
  rw [lookWith, bind_of_ok (scanner?_eq _), hfind]
  exact scanEntitiesWith_of_ne_java hnd hs hl

theorem exists_lookWith_java (ctx : ScanContext) {rest : List Scanner}
    (hscanners : d.scanners = s :: rest) (hlanguage : s.language = .java) (hnd : d.languages.Nodup)
    (hcount : d.statistics.Countable)
    (hclass : ∀ f ∈ (Scanner.ownFiles s.results ctx.analysis).values,
      scopeWords f.words ≠ ["class"]) :
    ∃ found d', ofFiles (Scanner.ownFiles s.results ctx.analysis).values = .ok found ∧
      (∀ key e, found.get? key = some e → d'.results.get? key = some e) ∧
      d'.languages = d.languages ∧
      (if s.results.isEmpty then [] else [Language.java]).forM (lookWith ctx) d = .ok () d' := by
  have hs : s ∈ d.scanners := hscanners ▸ List.mem_cons_self
  obtain ⟨ess, hess⟩ := exists_mapM_eq_ok fun f hf => exists_ofFile (hclass f hf)
  have hfound : ofFiles (Scanner.ownFiles s.results ctx.analysis).values =
      .ok (ofList (ess.flatten.map entry)) := by
    rw [ofFiles, hess]
    rfl
  split_ifs with hempty
  · have hnone : s.results = ∅ := ext_entries (List.isEmpty_iff.mp hempty)
    rw [hnone] at hess
    obtain rfl := Except.ok.inj hess
    exact ⟨_, d, hfound, fun key e he => (by cases he), rfl, rfl⟩
  · obtain ⟨d', hd', hlanguages, hresults⟩ := scanEntitiesWith_java ctx hs hlanguage hess hcount
    refine ⟨_, d', hfound, fun key e he => ?_, hlanguages, bind_eq_ok.mpr ⟨(), d', ?_, rfl⟩⟩
    · rw [hresults, get?_update, get?_insertMany_or, he]
      rfl
    · obtain ⟨s', hs', hlanguage', hfind⟩ :=
        exists_find? (hlanguage ▸ List.mem_map_of_mem hs : Language.java ∈ d.languages)
      obtain rfl := eq_of_language hnd hs' hs (hlanguage'.trans hlanguage.symm)
      rw [lookWith, bind_of_ok (scanner?_eq _), hfind]
      exact hd'

theorem scanEntities_cases (ctx : ScanContext) (hlanguages : d.languages = Language.scanners)
    (hcount : d.statistics.Countable)
    (hclass : ∀ f ∈ javaFiles d.scanners ctx.analysis, scopeWords f.words ≠ ["class"]) :
    ∃ found d', ofFiles (javaFiles d.scanners ctx.analysis) = .ok found ∧
      (∀ key e, found.get? key = some e → d'.results.get? key = some e) ∧
      ((∀ l ∈ d.busy, l = .java) → scanEntities ctx d = .ok () d') ∧
      ∀ l, d.busy.find? (fun l => l ≠ .java) = some l →
        scanEntities ctx d = .error (notImplemented l) d' := by
  obtain ⟨s, rest, hscanners, hlanguage, hrest⟩ := List.map_eq_cons_iff.mp hlanguages
  have hother : ∀ s' ∈ rest, s'.language ≠ .java := by
    intro s' hs' heq
    have hmem : s'.language ∈ [Language.c, .cpp, .javascript, .objc, .python] :=
      hrest ▸ List.mem_map_of_mem hs'
    rw [heq] at hmem
    exact absurd hmem (by decide)
  have hfiles : javaFiles d.scanners ctx.analysis =
      (Scanner.ownFiles s.results ctx.analysis).values := by
    rw [javaFiles, hscanners, List.filter_cons_of_pos (by simpa using hlanguage),
      List.filter_eq_nil_iff.mpr fun s' hs' => by simpa using hother s' hs', List.flatMap_singleton]
  let others := (rest.filter fun s => !s.results.isEmpty).map Scanner.language
  have hbusy : d.busy = (if s.results.isEmpty then [] else [Language.java]) ++ others := by
    rw [busy, hscanners, List.filter_cons, ← hlanguage]
    cases s.results.isEmpty with
    | true => rfl
    | false => rfl
  have hothers : ∀ l ∈ others, l ≠ .java := by
    intro l hl
    obtain ⟨s', hs', rfl⟩ := List.mem_map.mp hl
    exact hother s' (List.mem_of_mem_filter hs')
  let d₀ : Desk :=
    { d with log := d.log.write .analysis .start ("starting entity extraction in " ++
      ctx.settings.name.display) }
  have hnd : d.languages.Nodup := hlanguages ▸ (by decide)
  have hscan : scanEntities ctx d = (do d.busy.forM (lookWith ctx); countEntities) d₀ := rfl
  obtain ⟨found, d₁, hfound, hresults, hlanguages₁, hjava⟩ :=
    exists_lookWith_java ctx (d := d₀) hscanners hlanguage hnd
    hcount (hfiles ▸ hclass)
  have hafter : scanEntities ctx d = (do others.forM (lookWith ctx); countEntities) d₁ := by
    rw [hscan, hbusy]
    exact bind_congr_left (forM_append_of_ok others hjava) _
  have hfirst : d.busy.find? (fun l => l ≠ .java) = others.head? := by
    rw [hbusy]
    cases hcases : others with
    | nil => cases s.results.isEmpty <;> rfl
    | cons l ls =>
      have hl : l ≠ .java := hothers l (hcases ▸ List.mem_cons_self)
      cases s.results.isEmpty <;> simp [hl]
  rw [hfiles, hafter, hfirst]
  cases hcases : others with
  | nil =>
    refine ⟨found, _, hfound, ?_, fun _ => rfl, fun l hl => (nomatch hl)⟩
    exact hresults
  | cons l ls =>
    have hl : l ≠ .java := hothers l (hcases ▸ List.mem_cons_self)
    refine ⟨found, d₁, hfound, hresults, fun hall => absurd (hall l ?_) hl, fun l' hl' => ?_⟩
    · rw [hbusy, hcases]
      exact List.mem_append_right _ List.mem_cons_self
    · obtain rfl := Option.some.inj hl'
      have hmem : l ∈ d₁.languages := by
        obtain ⟨s', hs', rfl⟩ := List.mem_map.mp (hcases ▸ List.mem_cons_self : l ∈ others)
        rw [hlanguages₁]
        exact List.mem_map_of_mem (hscanners ▸ List.mem_cons_of_mem _ (List.mem_of_mem_filter hs'))
      exact bind_of_error (bind_of_error (lookWith_of_ne_java (hlanguages₁ ▸ hnd) hmem hl))

end Desk

/-! ### The entities of an analysis -/

theorem Value.exists_hasText {v : Value} {s : String} {b : Bool} (h : v.hasText s = .ok b)
    (s' : String) : ∃ b', v.hasText s' = .ok b' := by
  cases v with
  | list xs => exact ⟨_, rfl⟩
  | tuple xs => exact ⟨_, rfl⟩
  | set xs => exact ⟨_, rfl⟩
  | text t => exact ⟨_, rfl⟩
  | map es => exact ⟨_, rfl⟩
  | _ => cases h

namespace Run

open Scanner (javaFiles notImplemented)

variable {p p₁ : Program} {i : Nat} {a a₁ : Analysis}

def untilFiles (i : Nat) : Run Unit := do
  onAnalysis i Work.checkSource
  onAnalysis i Work.buildFileSystem
  log .analysis .done "created the filesystem graph"
  scanFiles i

def afterScans (i : Nat) (start : Int) : Run Unit := do
  log .analysis .done "scanning complete"
  onAnalysis i Work.calculateAll
  collect
  onAnalysis i (Work.finish start)

theorem scanAll_eq (ha : p.configuration.analyses[i]? = some a)
    (hscans : a.settings.scans.hasText (scanKey .entities) = .ok true) :
    scanAll i p = (do scanFiles i; scanEntities i) p := by
  obtain ⟨files, hfiles⟩ := Value.exists_hasText hscans (scanKey .files)
  have hread : onAnalysis i Work.settings p = .ok a.settings p := onAnalysis_read ha rfl
  rw [scanAll, bind_of_ok hread, hfiles, hscans]
  rw [bind_of_ok (show lift (.ok files) p = .ok files p from rfl),
    bind_of_ok (show lift (.ok true) p = .ok true p from rfl)]
  rw [if_pos (Bool.or_true files), if_pos rfl]

/-- The files are scanned for an analysis that has the graph of the file system and is otherwise as
it was. -/
theorem of_untilFiles (ha : p.configuration.analyses[i]? = some a)
    (h : untilFiles i p = .ok () p₁) :
    ∃ q b, q.configuration.analyses[i]? = some b ∧ q.scanners = p.scanners ∧ b.id = a.id ∧
      b.settings = a.settings ∧
      (a.statistics.Countable → b.statistics.Countable) ∧ scanFiles i q = .ok () p₁ ∧
      analyze i p = (do scanAll i; afterScans i p.session.now) q := by
  obtain ⟨⟨⟩, q₁, hcheck, h⟩ := bind_eq_ok.mp h
  obtain ⟨⟨⟩, q₂, hbuild, h⟩ := bind_eq_ok.mp h
  obtain ⟨⟨⟩, q₃, hlog, hscan⟩ := bind_eq_ok.mp h
  have hanalyze : analyze i p = (do scanAll i; afterScans i p.session.now) q₃ := by
    rw [analyze, bind_of_ok (show session p = .ok p.session p from rfl), bind_of_ok hcheck,
      bind_of_ok hbuild, bind_of_ok hlog]
    rfl
  obtain ⟨j₀, hsource, rfl, -⟩ := of_onAnalysis hcheck ha
  obtain rfl := (Work.checkSource_eq_ok_iff.mp hsource).2.2
  rw [keep_self ha] at hbuild
  obtain ⟨j, hj, rfl, hb⟩ := of_onAnalysis hbuild ha
  obtain ⟨source, s, -, -, rfl⟩ := Work.buildFileSystem_eq_ok_iff.mp hj
  have hq := (EStateM.Result.ok.inj hlog).2
  refine ⟨q₃, _, (congrArg (fun q : Program => q.configuration.analyses[i]?) hq).symm.trans hb,
    (congrArg Program.scanners hq).symm, rfl, rfl, fun hcount => ?_, hscan, hanalyze⟩
  exact ((hcount.add (by decide) (by decide) _).add (by decide) (by decide) _).add (by decide)
    (by decide) _

/-- What comes of looking for entities is told by the languages of the files. Unless a file is
nothing but a keyword, all entities of the files in the one language that has them are among the
results, under their names. If there are files in no other language, the analysis goes on from
there; else it fails, at the first scanner of another language that has results. -/
theorem analyze_entities (i : Nat) (p p₁ : Program) (a a₁ : Analysis) (view : GraphView)
    (ha : p.configuration.analyses[i]? = some a)
    (hscanners : p.scanners = Language.scanners.map fun l => { language := l })
    (hcount : a.statistics.Countable)
    (hscans : a.settings.scans.hasText (scanKey .entities) = .ok true)
    (hfiles : untilFiles i p = .ok () p₁) (ha₁ : p₁.configuration.analyses[i]? = some a₁)
    (hview : a₁.graphs.get? .fileSystem = some view)
    (hclass : ∀ f ∈ javaFiles p₁.scanners a.id, scopeWords f.words ≠ ["class"]) :
    (∀ n ∈ view.fileNodes.values, n.isIn a.settings.filters.languages .java = true →
      ∃ f ∈ javaFiles p₁.scanners a.id, ∃ source, a.settings.source = .text source ∧
        f.uniqueName = Resolve.relativeName source n.name) ∧
    ∃ p₂ a₂ found, p₂.configuration.analyses[i]? = some a₂ ∧
      ofFiles (javaFiles p₁.scanners a.id) = .ok found ∧
      (∀ key e, found.get? key = some e → a₂.results.get? key = some e) ∧
      ((∀ l ∈ view.languages a.settings.filters.languages, l = .java) →
        scanEntities i p₁ = .ok () p₂ ∧ analyze i p = afterScans i p.session.now p₂) ∧
      ∀ l, (view.languages a.settings.filters.languages).find? (fun l => l ≠ .java) = some l →
        analyze i p = .error (notImplemented l) p₂ := by
  obtain ⟨q, b, hb, hq, hid, hsettings, hcountable, hscan, hanalyze⟩ := of_untilFiles ha hfiles
  have hi : i < q.configuration.analyses.length := (List.getElem?_eq_some_iff.mp hb).1
  obtain ⟨d, hd, rfl⟩ := of_worksOn hb (worksOn_scanFiles hi) hscan
  obtain rfl := Option.some.inj (ha₁.symm.trans (getElem?_atDesk hi d))
  rw [show b.graphs.get? .fileSystem = some view from hview] at hd
  have hlanguages : (deskOf q b).languages = Language.scanners := by
    rw [Desk.languages, deskOf, hq, hscanners, List.map_map]
    rfl
  have hempty : ∀ s ∈ (deskOf q b).scanners, s.results = ∅ := by
    intro s hs
    rw [deskOf, hq, hscanners] at hs
    obtain ⟨l, -, rfl⟩ := List.mem_map.mp hs
    rfl
  obtain ⟨hlanguages', hcount', hbusy, hjava⟩ :=
    Desk.of_scanFiles (d := deskOf q b) (hlanguages ▸ (by decide)) hempty
    (hcountable hcount) hd
  rw [hlanguages] at hlanguages' hbusy hjava
  have hpermitted : (contextOf q b).settings.filters.languages = a.settings.filters.languages :=
    congrArg (fun s : Settings => s.filters.languages) hsettings
  have hview' : d.busy = view.languages a.settings.filters.languages := by
    rw [hbusy, hpermitted]
    rfl
  have hid' : (contextOf q b).analysis = a.id := hid
  rw [hpermitted, hid'] at hjava
  obtain ⟨found, d₂, hfound, hresults, hjavaOnly, hother⟩ :=
    Desk.scanEntities_cases (contextOf q b) hlanguages' hcount'
    (hid'.symm ▸ hclass)
  rw [hid'] at hfound
  rw [hview'] at hjavaOnly hother
  let a₂ := b.withDesk d
  let p₁ := atDesk q i b d
  have hi₁ : i < p₁.configuration.analyses.length := (List.getElem?_eq_some_iff.mp ha₁).1
  have hphase : scanEntities i p₁ =
      mapState (atDesk p₁ i a₂) (Desk.scanEntities (contextOf q b) d) :=
    eq_of_worksOn ha₁ (worksOn_scanEntities hi₁)
  have hrest : analyze i p = (do scanEntities i; afterScans i p.session.now) p₁ := by
    rw [hanalyze]
    refine bind_congr_left ?_ _
    rw [scanAll_eq hb (hsettings.symm ▸ hscans), bind_of_ok hscan]
  refine ⟨fun n hn hin => ?_, atDesk p₁ i a₂ d₂, a₂.withDesk d₂, found, getElem?_atDesk hi₁ d₂,
    hfound, hresults, fun hall => ?_, fun l hl => ?_⟩
  · obtain ⟨f, hf, source, hsource, hname⟩ := hjava n hn hin (by decide)
    exact ⟨f, hf, source, (congrArg Settings.source hsettings).symm.trans hsource, hname⟩
  · rw [hjavaOnly hall] at hphase
    exact ⟨hphase, hrest.trans (bind_of_ok hphase)⟩
  · rw [hother l hl] at hphase
    exact hrest.trans (bind_of_error hphase)

end Run

namespace Sample

def project (files : List (String × String)) : Program where
  session :=
    { disk := { tree := .dir [("w",
      .dir [("p", .dir (files.map fun f => (f.1, .file f.2.toUTF8)))])], cwd := [] }
      home := "/", now := 0 }
  configuration.analyses :=
    [{ settings :=
        { scans := .ofStrings ["entity_scan"], name := .text "entities", source := .text "/w/p"
          filters :=
            { languages := .ofStrings ["java", "py"], extensions := .ofStrings [".java",
              ".py"] } } }]

def twoClasses : Program :=
  project [("A.java", "package q;\nclass A extends B { int x; }\n"), ("C.java", "class C { }\n")]

theorem analyze_entities_twoClasses :
    ∃ p₁ p₂ a₂ e, Run.untilFiles 0 twoClasses = .ok () p₁ ∧ Run.scanEntities 0 p₁ = .ok () p₂ ∧
    Run.analyze 0 twoClasses = Run.afterScans 0 0 p₂ ∧ p₂.configuration.analyses[0]? = some a₂ ∧
    a₂.results.get? "q.A" = some e ∧ e.inherits = ["B"] := by
  have hends : (final? (Run.untilFiles 0) twoClasses).map (fun p₁ =>
      ((p₁.configuration.analyses[0]?.bind (·.graphs.get? .fileSystem)).map
        (GraphView.languages (.ofStrings ["java", "py"])),
        (Scanner.javaFiles p₁.scanners 0).all (fun f => scopeWords f.words ≠ ["class"]),
        ((ofFiles (Scanner.javaFiles p₁.scanners 0)).toOption.bind (·.get? "q.A")).map
          ScanResult.inherits)) = some (some [.java], true, some ["B"]) := by
    decide +kernel
  obtain ⟨p₁, hp₁, heq⟩ := Option.map_eq_some_iff.mp hends
  obtain ⟨hview, hrest⟩ := Prod.mk.inj heq
  obtain ⟨hclass, hentity⟩ := Prod.mk.inj hrest
  obtain ⟨view, hview, hlanguages⟩ := Option.map_eq_some_iff.mp hview
  obtain ⟨a₁, ha₁, hview⟩ := Option.bind_eq_some_iff.mp hview
  obtain ⟨e, he, hinherits⟩ := Option.map_eq_some_iff.mp hentity
  have hscans : (Value.ofStrings ["entity_scan"]).hasText (scanKey .entities) = .ok true := by
    decide +kernel
  obtain ⟨-, p₂, a₂, found, ha₂, hfound, hresults, hjava, -⟩ :=
    Run.analyze_entities 0 twoClasses p₁ _ a₁ view rfl rfl
    Statistics.countable_empty hscans (of_final? hp₁) ha₁ hview
      (fun f hf => by simpa using List.all_eq_true.mp hclass f hf)
  obtain ⟨hscan, hanalyze⟩ := hjava fun l hl => List.mem_singleton.mp (hlanguages ▸ hl)
  rw [show ofFiles (Scanner.javaFiles p₁.scanners 0) = .ok found from hfound] at he
  exact ⟨p₁, p₂, a₂, e, of_final? hp₁, hscan, hanalyze, ha₂, hresults _ e he, hinherits⟩

/-- One file in another language, and there are no entities but a failure. -/
theorem analyze_entities_mixed :
    ∃ p', Run.analyze 0 (project [("A.java", "class A { }\n"), ("b.py", "x = 1\n")]) =
    .error (.notImplemented "currently not implemented in PYTHON_PARSER") p' :=
  of_fault? (by decide +kernel)

end Sample

end CodeAtlas
