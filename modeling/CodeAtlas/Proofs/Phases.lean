import CodeAtlas.Proofs.Desk
import CodeAtlas.Proofs.Exporting
import CodeAtlas.Proofs.FanDegrees
import CodeAtlas.Proofs.Walks

/-!
# The phases of an analysis

An analysis checks its source directory, builds the graph of the file system, scans, measures and
exports (`Run.compute_eq_ok_iff`, `Run.of_analyze`). Each phase is told by what it changes:
`Work.checkSource_eq_ok_iff` nothing, `Work.buildFileSystem_eq_ok_iff` one graph, scanning the desk,
`Work.calculateAll_cases` figures and graphs.
-/

namespace CodeAtlas

open Effect

/-! ### The graph of the file system -/

namespace Survey

variable {disk : Disk} {f : Filters} {source : String} {s s' : Survey}

theorem keeps_lift {I : Survey → Prop} {α : Type} (x : Except Fault α) : Keeps I (lift x) := by
  cases x with
  | ok v => exact .pure v
  | error e => exact .throw e

theorem kind_of_walk (h : walk disk f source s = .ok () s') : s'.view.kind = s.view.kind := by
  have hsub : ∀ root (names : List String) (t : Survey),
      (names.foldl (addSubdirectory source root) t).view.kind = t.view.kind := by
    intro root names
    induction names with
    | nil => exact fun _ => rfl
    | cons name names ih => exact fun t => ih _
  have hfile : ∀ root name, Keeps (fun t => t.view.kind = s.view.kind)
      (visitFile disk f source root name) := by
    intro root name
    refine .bind (keeps_lift _) fun allowed => ?_
    split
    · exact .modify fun _ ht => ht
    split
    · exact .pure _
    refine .bind (keeps_lift _) fun wanted => ?_
    split
    · exact .bind (.modify fun _ ht => ht) fun _ => .bind (keeps_lift _) fun _ => .modify
        fun _ ht => ht
    · exact .modify fun _ ht => ht
  have hvisit : ∀ l, Keeps (fun t => t.view.kind = s.view.kind) (visit disk f source l) := by
    intro l
    refine .bind (keeps_lift _) fun dirs =>
      .bind (.modify fun t ht => (hsub l.root dirs t).trans ht) fun _ => ?_
    exact .bind (keeps_lift _) fun files => .forM fun name _ => hfile l.root name
  have hwalk : Keeps (fun t => t.view.kind = s.view.kind) (walk disk f source) :=
    .bind (.modify fun _ ht => ht) fun _ => .bind (keeps_lift _) fun ls => .forM fun l _ => hvisit l
  exact hwalk s () s' rfl h

end Survey

namespace Work

variable {j j' : Job}

theorem lift_eq_ok {α : Type} {x : Except Fault α} {v : α} :
    lift x j = .ok v j' ↔ x = .ok v ∧ j' = j :=
  lifted_eq_ok (fun _ => rfl) fun _ => rfl

theorem checkSource_eq_ok_iff : checkSource j = .ok () j' ↔
    j.analysis.settings.source.isNull = false ∧
    j.session.disk.holdsDir j.analysis.settings.source = .ok true ∧ j' = j := by
  rw [checkSource, bind_of_ok (show settings j = .ok j.analysis.settings j from rfl)]
  cases j.analysis.settings.source.isNull with
  | true => simp [bind_of_error (throw_apply _ j)]
  | false =>
    rw [if_neg (by simp)]
    beta_reduce
    rw [bind_of_ok (show session j = .ok j.session j from rfl)]
    cases hdir : j.session.disk.holdsDir j.analysis.settings.source with
    | error e => simp [lift, bind_of_error (throw_apply e j)]
    | ok there =>
      rw [bind_of_ok (lift_eq_ok.mpr ⟨rfl, rfl⟩)]
      cases there with
      | true => simp [pure, EStateM.pure, eq_comm]
      | false =>
        constructor
        · intro h
          cases h
        · rintro ⟨-, h, -⟩
          cases h

theorem source_of_surveyFiles (h : surveyFiles j = .ok () j') :
    ∃ source, j.analysis.settings.source = .text source := by
  rw [surveyFiles, get_bind] at h
  split at h
  · cases h
  obtain ⟨_, j₁, -, h⟩ := bind_eq_ok.mp h
  obtain ⟨_, j₂, -, h⟩ := bind_eq_ok.mp h
  obtain ⟨_, j₃, -, h⟩ := bind_eq_ok.mp h
  obtain ⟨source, j₄, hpath, -⟩ := bind_eq_ok.mp h
  have hpath := (lift_eq_ok.mp hpath).1
  rw [Settings.sourcePath] at hpath
  split at hpath
  · next path hsource => exact ⟨path, hsource⟩
  · cases hpath

/-- The graph that is there, or a new one, gets what a walk finds. -/
theorem buildFileSystem_eq_ok_iff : buildFileSystem j = .ok () j' ↔ ∃ source s,
    j.analysis.settings.source = .text source ∧
    Survey.walk j.session.disk j.analysis.settings.filters source
      ⟨(j.analysis.graphs.get? .fileSystem).getD (.new .fileSystem), j.analysis.scannedNames,
        j.analysis.filesIn, 0, 0⟩ = .ok () s ∧
    j' = surveyed { j with analysis := { j.analysis with
      graphs := j.analysis.graphs.insertNew .fileSystem (.new .fileSystem) } } source s := by
  let j₁ : Job := { j with analysis := { j.analysis with
    graphs := j.analysis.graphs.insertNew .fileSystem (.new .fileSystem) } }
  have hview : j₁.analysis.graphs.get? .fileSystem =
      some ((j.analysis.graphs.get? .fileSystem).getD (.new .fileSystem)) := by
    rw [OrderedMap.get?_insertNew]
    cases j.analysis.graphs.get? .fileSystem with
    | none => rfl
    | some v => rfl
  have hbuild : buildFileSystem j = surveyFiles j₁ := rfl
  rw [hbuild]
  constructor
  · intro h
    obtain ⟨source, hsource⟩ := source_of_surveyFiles h
    obtain ⟨s, hwalk, hj'⟩ := (surveyFiles_eq_ok_iff hsource hview).mp h
    exact ⟨source, s, hsource, hwalk, hj'⟩
  · rintro ⟨source, s, hsource, hwalk, hj'⟩
    exact (surveyFiles_eq_ok_iff (j := j₁) hsource hview).mpr ⟨s, hwalk, hj'⟩

theorem other_of_buildFileSystem (hkeyed : j.analysis.Keyed) (h : buildFileSystem j = .ok () j') :
    j'.analysis.Keyed ∧
    (∀ kind ≠ .fileSystem, j'.analysis.graphs.get? kind = j.analysis.graphs.get? kind) ∧
      ∀ ref, j'.analysis.metric? ref = j.analysis.metric? ref := by
  obtain ⟨source, s, -, hwalk, rfl⟩ := buildFileSystem_eq_ok_iff.mp h
  have hkind : s.view.kind = .fileSystem := by
    rw [Survey.kind_of_walk hwalk]
    cases hview : j.analysis.graphs.get? .fileSystem with
    | none => rfl
    | some v => exact hkeyed .fileSystem v hview
  have hget : ∀ kind, (j.analysis.graphs.insertNew .fileSystem
      (.new .fileSystem) |>.insert s.view.kind s.view).get? kind =
      if .fileSystem = kind then some s.view else j.analysis.graphs.get? kind := by
    intro kind
    rw [OrderedMap.get?_insert, hkind, OrderedMap.get?_insertNew]
    split_ifs
    · rfl
    · exact Option.or_none
  refine ⟨fun kind v hv => ?_, fun kind hne => (hget kind).trans (if_neg hne.symm), fun ref => rfl⟩
  have hv := (hget kind).symm.trans hv
  split_ifs at hv with hfiles
  · rw [← Option.some.inj hv, hkind]
    exact hfiles
  · exact hkeyed kind v hv

/-! ### Measuring -/

/-- Code is measured first; then, if there are metrics of graphs, the graphs are filled, measured
and labelled. -/
theorem calculateAll_eq_ok_iff : calculateAll j = .ok () j' ↔ ∃ j₁,
    (if j.analysis.hasCodeMetrics then calculateCodeMetrics j = .ok () j₁ else j₁ = j) ∧
    if j₁.analysis.hasGraphMetrics then measureGraphs calculateGraphMetrics j₁ = .ok () j' else j' =
      j₁ := by
  have hgraphs : ∀ j₁ : Job, (do
      if (← analysis).hasGraphMetrics then
        step Analysis.fillGraphs
        calculateGraphMetrics
        step Analysis.addRowsToGraphs : Work Unit) j₁ = .ok () j' ↔
      if j₁.analysis.hasGraphMetrics then measureGraphs calculateGraphMetrics j₁ =
        .ok () j' else j' = j₁ := by
    intro j₁
    rw [bind_of_ok (show analysis j₁ = .ok j₁.analysis j₁ from rfl)]
    split
    · rfl
    · simp [pure, EStateM.pure, eq_comm]
  rw [calculateAll, bind_of_ok (show analysis j = .ok j.analysis j from rfl)]
  split
  · rw [bind_eq_ok]
    simp only [← hgraphs]
    constructor
    · rintro ⟨_, j₁, hcode, hrest⟩
      exact ⟨j₁, hcode, hrest⟩
    · rintro ⟨j₁, hcode, hrest⟩
      exact ⟨(), j₁, hcode, hrest⟩
  · simp only [exists_eq_left, ← hgraphs]

theorem measuring_of_code {j₁ : Job}
    (h : if j.analysis.hasCodeMetrics then calculateCodeMetrics j = .ok () j₁ else j₁ = j) :
    Measuring j j₁ := by
  split at h
  · exact onlyMeasures_calculateMetrics false j () j₁ (.refl j) h
  · exact h ▸ .refl j

end Work

/-! ### The whole analysis -/

namespace Run

variable {p p' : Program} {i : Nat} {a : Analysis}

def deskAfter (p : Program) (j : Job) : Desk :=
  ⟨j.session.log.write .analysis .done "created the filesystem graph", p.scanners,
    j.analysis.results, j.analysis.statistics⟩

def jobAfter (j : Job) (d : Desk) : Job :=
  ⟨{ j.session with log := d.log.write .analysis .done "scanning complete" }, j.analysis.withDesk d⟩

theorem of_onAnalysis {α : Type} {w : Work α} {x : α} (h : onAnalysis i w p = .ok x p')
    (ha : p.configuration.analyses[i]? = some a) :
    ∃ j, w ⟨p.session, a⟩ = .ok x j ∧ p' = keep p i j ∧
      (keep p i j).configuration.analyses[i]? = some j.analysis := by
  obtain ⟨j, hj, rfl⟩ := (onAnalysis_eq_ok ha).mp h
  exact ⟨j, hj, rfl, getElem?_keep ha j⟩

/-- An analysis up to its figures. What is left to do is to collect the results and to export. -/
def compute (i : Nat) : Run Unit := do
  onAnalysis i Work.checkSource
  onAnalysis i Work.buildFileSystem
  log .analysis .done "created the filesystem graph"
  scanAll i
  log .analysis .done "scanning complete"
  onAnalysis i Work.calculateAll

theorem analyze_eq (i : Nat) : analyze i = (do
    let start := (← session).now
    compute i
    collect
    onAnalysis i (Work.finish start)) := by
  simp only [analyze, compute, bind_assoc]

def scanned (p : Program) (i : Nat) (j : Job) (d : Desk) : Program :=
  { keep p i ⟨{ j.session with log := d.log }, j.analysis.withDesk d⟩ with scanners := d.scanners }

theorem scanAll_keep (ha : p.configuration.analyses[i]? = some a) (j : Job) :
    scanAll i (keep p i { j with session := { j.session with log := (deskAfter p j).log } }) =
      mapState (scanned p i j)
        (Desk.scanAll ⟨j.analysis.id, j.analysis.settings, j.session.disk, j.session.knownModules⟩
        (j.analysis.graphs.get? .fileSystem) (deskAfter p j)) := by
  let k : Job := { j with session := { j.session with log := (deskAfter p j).log } }
  have hk := getElem?_keep ha k
  have hi : i < (keep p i k).configuration.analyses.length := (List.getElem?_eq_some_iff.mp hk).1
  have hdesk : atDesk (keep p i k) i k.analysis = scanned p i j := by
    funext d
    simp only [atDesk, scanned, keep, List.set_set]
    rfl
  rw [← hdesk]
  exact eq_of_worksOn hk (worksOn_scanAll hi)

/-- The phases of an analysis up to its figures. -/
theorem compute_eq_ok_iff (ha : p.configuration.analyses[i]? = some a) :
    compute i p = .ok () p' ↔ ∃ j₁ d j₂,
    Work.checkSource ⟨p.session, a⟩ = .ok () ⟨p.session, a⟩ ∧
    Work.buildFileSystem ⟨p.session, a⟩ = .ok () j₁ ∧
    Desk.scanAll ⟨j₁.analysis.id, j₁.analysis.settings, j₁.session.disk, j₁.session.knownModules⟩
      (j₁.analysis.graphs.get? .fileSystem) (deskAfter p j₁) = .ok () d ∧
    Work.calculateAll (jobAfter j₁ d) = .ok () j₂ ∧
    p' = { keep p i j₂ with scanners := d.scanners } := by
  -- the last phase, with a message in front of it
  have hlast : ∀ j d, (do log .analysis .done "scanning complete"; onAnalysis i Work.calculateAll)
    (scanned p i j d) = .ok () p' ↔
      ∃ j₂, Work.calculateAll (jobAfter j d) = .ok () j₂ ∧
        p' = { keep p i j₂ with scanners := d.scanners } := by
    intro j d
    have hscanned : ({ scanned p i j d with session := (jobAfter j d).session } :
      Program).configuration.analyses[i]? =
        some (j.analysis.withDesk d) := getElem?_keep ha _
    refine (onAnalysis_eq_ok hscanned).trans (exists_congr fun j₂ => and_congr_right fun _ => ?_)
    simp only [scanned, keep, List.set_set]
  constructor
  · intro h
    obtain ⟨⟨⟩, p₁, hok, h⟩ := bind_eq_ok.mp h
    obtain ⟨j₀, hcheck, rfl, -⟩ := of_onAnalysis hok ha
    obtain rfl := (Work.checkSource_eq_ok_iff.mp hcheck).2.2
    rw [keep_self ha] at h
    obtain ⟨⟨⟩, p₂, hok, h⟩ := bind_eq_ok.mp h
    obtain ⟨j₁, hbuild, rfl, -⟩ := of_onAnalysis hok ha
    obtain ⟨⟨⟩, p₃, hlog, h⟩ := bind_eq_ok.mp h
    obtain ⟨-, rfl⟩ := EStateM.Result.ok.inj hlog
    obtain ⟨⟨⟩, p₄, hok, h⟩ := bind_eq_ok.mp h
    obtain ⟨d, hscan, rfl⟩ := mapState_eq_ok.mp ((scanAll_keep ha j₁).symm.trans hok)
    obtain ⟨j₂, hcalculate, rfl⟩ := (hlast j₁ d).mp h
    exact ⟨j₁, d, j₂, hcheck, hbuild, hscan, hcalculate, rfl⟩
  · rintro ⟨j₁, d, j₂, hcheck, hbuild, hscan, hcalculate, rfl⟩
    have hchecked := (onAnalysis_eq_ok ha).mpr ⟨_, hcheck, rfl⟩
    rw [keep_self ha] at hchecked
    have hbuilt := (onAnalysis_eq_ok ha).mpr ⟨_, hbuild, rfl⟩
    have hscanned := (scanAll_keep ha j₁).trans (mapState_eq_ok.mpr ⟨d, hscan, rfl⟩)
    refine (bind_of_ok hchecked).trans
      ((bind_of_ok hbuilt).trans ((bind_of_ok rfl).trans ((bind_of_ok hscanned).trans ?_)))
    exact (hlast j₁ d).mpr ⟨j₂, hcalculate, rfl⟩

theorem of_analyze (ha : p.configuration.analyses[i]? = some a) (h : analyze i p = .ok () p') :
    ∃ j₁ d j₂ j₃, Work.checkSource ⟨p.session, a⟩ = .ok () ⟨p.session, a⟩ ∧
      Work.buildFileSystem ⟨p.session, a⟩ = .ok () j₁ ∧
      Desk.scanAll ⟨j₁.analysis.id, j₁.analysis.settings, j₁.session.disk, j₁.session.knownModules⟩
        (j₁.analysis.graphs.get? .fileSystem) (deskAfter p j₁) = .ok () d ∧
      Work.calculateAll (jobAfter j₁ d) = .ok () j₂ ∧ Work.finish p.session.now j₂ = .ok () j₃ ∧
      p'.configuration.analyses[i]? = some j₃.analysis := by
  rw [analyze_eq] at h
  obtain ⟨s, p₀, hs, h⟩ := bind_eq_ok.mp h
  obtain ⟨rfl, rfl⟩ := EStateM.Result.ok.inj hs
  obtain ⟨⟨⟩, p₁, hcompute, h⟩ := bind_eq_ok.mp h
  obtain ⟨j₁, d, j₂, hcheck, hbuild, hscan, hcalculate, rfl⟩ := (compute_eq_ok_iff ha).mp hcompute
  obtain ⟨⟨⟩, p₂, hcollect, h⟩ := bind_eq_ok.mp h
  obtain ⟨-, rfl⟩ := EStateM.Result.ok.inj hcollect
  obtain ⟨j₃, hfinish, rfl, ha₃⟩ := of_onAnalysis h (getElem?_keep ha j₂)
  exact ⟨j₁, d, j₂, j₃, hcheck, hbuild, hscan, hcalculate, hfinish, ha₃⟩

end Run

end CodeAtlas
