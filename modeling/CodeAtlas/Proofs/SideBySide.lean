import CodeAtlas.Proofs.OwnFigures
import CodeAtlas.Proofs.TwoRuns

/-!
# Calculating a metric in two analyses

Two analyses may differ in the order in which things are registered and in the figures that other
metrics have filed. A metric that is calculated in one of them can then be calculated in the other,
and both say the same of its own figures: every part of the calculation keeps what `Work.Paired`
says, up to `Work.follows_calculateMetric`.
-/

namespace CodeAtlas

open Effect MetricKind OrderedMap

/-! ### Results without figures -/

def ScanResult.bare (r : ScanResult) : ScanResult := { r with metrics := ∅ }

namespace Results

theorem values_bare (rs : Results) : rs.bare.values = rs.values.map ScanResult.bare := by
  change (rs.entries.map _).map Prod.snd = (rs.entries.map Prod.snd).map _
  rw [List.map_map, List.map_map]
  rfl

theorem keys_bare (rs : Results) : rs.bare.keys = rs.keys := keys_mapValues _ rs

theorem get?_bare (rs : Results) (name : String) :
    rs.bare.get? name = (rs.get? name).map ScanResult.bare :=
  get?_mapValues _ rs name

theorem bare_filter (p : ScanResult → Bool) (hp : ∀ r, p r.bare = p r) (rs : Results) :
    bare (rs.filter fun _ r => p r) = rs.bare.filter fun _ r => p r := by
  refine ext_entries ?_
  change (rs.entries.filter _).map _ = (rs.entries.map _).filter _
  rw [List.filter_map]
  congr 1
  exact List.filter_congr fun e _ => (hp e.2).symm

end Results

theorem Analysis.bare_resultsOf {a a' : Analysis} (h : a'.results.bare = a.results.bare)
    (scope : ScanScope) : (a'.resultsOf scope).bare = (a.resultsOf scope).bare := by
  cases scope with
  | files =>
    have hbare := Results.bare_filter ScanResult.isFile fun _ => rfl
    exact (hbare a'.results).trans ((congrArg _ h).trans (hbare a.results).symm)
  | entities =>
    have hbare := Results.bare_filter ScanResult.isEntity fun _ => rfl
    exact (hbare a'.results).trans ((congrArg _ h).trans (hbare a.results).symm)

namespace Work

theorem countEach_bare (ref : MetricRef) (figure : String) {count : ScanResult → Except Fault Nat}
    (hcount : ∀ r, count r.bare = count r) (rs : List ScanResult) :
    countEach ref figure count (rs.map ScanResult.bare) =
      (fun counts => counts.map fun (r, n) => (r.bare, n)) <$> countEach ref figure count rs := by
  induction rs with
  | nil => rfl
  | cons r rs ih =>
    rw [List.map_cons, countEach, countEach, ih, hcount]
    simp only [map_bind, bind_map_left, map_pure]
    rfl

theorem countsOf_bare (counts : List (ScanResult × Nat)) (files : Bool) :
    countsOf (counts.map fun (r, n) => (r.bare, n)) files = countsOf counts files := by
  rw [countsOf, countsOf, List.filter_map, List.map_map]
  rfl

theorem forM_map_bare {f : ScanResult → Work Unit} (hf : ∀ r, f r.bare = f r)
    (rs : List ScanResult) : (rs.map ScanResult.bare).forM f = rs.forM f := by
  induction rs with
  | nil => rfl
  | cons r rs ih =>
    change (f r.bare >>= fun _ => (rs.map ScanResult.bare).forM f) = (f r >>= fun _ => rs.forM f)
    rw [hf, ih]

theorem measure_bare (ref : MetricRef) (rs : Results) : measure ref rs.bare = measure ref rs := by
  unfold measure
  congr 1
  funext m
  split
  · rw [Results.values_bare, measureMethods, measureMethods, countEach_bare _ _ (fun _ => rfl),
      bind_map_left]
    simp only [countsOf_bare]
  · rw [Results.values_bare, measureSourceLines, measureSourceLines,
      countEach_bare _ _ (fun _ => rfl), bind_map_left]
    simp only [countsOf_bare]
  · rw [Results.values_bare]
    exact forM_map_bare (fun _ => rfl) rs.values
  · rfl
  · next slots _ =>
    have hkey : ∀ kind node, communityKey? kind (rs.bare.get? node) =
        communityKey? kind (rs.get? node) := by
      intro kind node
      rw [Results.get?_bare]
      cases rs.get? node <;> rfl
    have hfile : fileCommunity ref rs.bare = fileCommunity ref rs := by
      funext kind node n
      rw [fileCommunity, fileCommunity, hkey, Results.get?_bare, Option.isSome_map]
    rw [measureCommunities, measureCommunitiesBy, hfile]
    rfl
  · rw [Results.values_bare, measureTerms, measureTerms, forM_map_bare (fun _ => rfl)]
  · rw [Results.keys_bare]

end Work

/-! ### What metrics read -/

/-- Two jobs in which metrics read the same, whatever is written in the log and in whatever order
things are registered. -/
structure Job.Agree (j j' : Job) : Prop where
  session : { j'.session with log := {} } = { j.session with log := {} }
  settings : j'.analysis.settings = j.analysis.settings
  results : j'.analysis.results.bare = j.analysis.results.bare
  graphs : j.analysis.graphs.Alike j'.analysis.graphs
  kinds : ∀ ref, (j'.analysis.metric? ref).map Metric.kind =
    (j.analysis.metric? ref).map Metric.kind

namespace Job.Agree

variable {j j' j'' : Job}

section
variable (h : Agree j j')
include h

theorem symm : Agree j' j :=
  ⟨h.session.symm, h.settings.symm, h.results.symm, h.graphs.symm, fun ref => (h.kinds ref).symm⟩

theorem trans (h' : Agree j' j'') : Agree j j'' :=
  ⟨h'.session.trans h.session, h'.settings.trans h.settings, h'.results.trans h.results,
    h.graphs.trans h'.graphs, fun ref => (h'.kinds ref).trans (h.kinds ref)⟩

theorem now : j'.session.now = j.session.now :=
  show ({ j'.session with log := {} } : Session).now =
    ({ j.session with log := {} } : Session).now by rw [h.session]

theorem terms : j'.session.terms = j.session.terms :=
  show ({ j'.session with log := {} } : Session).terms =
    ({ j.session with log := {} } : Session).terms by rw [h.session]

theorem commits : j'.session.commits = j.session.commits :=
  show ({ j'.session with log := {} } : Session).commits =
    ({ j.session with log := {} } : Session).commits by
    rw [h.session]

theorem slotViews (slots : GraphSlots) : j'.analysis.slotViews slots = j.analysis.slotViews slots :=
  Metric.slotViews_congr h.graphs slots

theorem hasMetric (scope : ScanScope) (kind : MetricKind) :
    j'.analysis.hasMetric scope kind.name = j.analysis.hasMetric scope kind.name := by
  have hkind := congrArg Option.isSome (h.kinds ⟨scope, kind.name⟩)
  rw [Option.isSome_map, Option.isSome_map] at hkind
  rw [Analysis.hasMetric_eq, Analysis.hasMetric_eq, hkind]

theorem measure_resultsOf (ref : MetricRef) (scope : ScanScope) :
    Work.measure ref (j'.analysis.resultsOf scope) =
      Work.measure ref (j.analysis.resultsOf scope) := by
  rw [← Work.measure_bare, Analysis.bare_resultsOf h.results, Work.measure_bare]

end

end Job.Agree

/-! ### A metric at work -/

def Job.put (j : Job) (ref : MetricRef) (m : Metric) (rows : Rows) : Job :=
  { j with analysis := ({ j.analysis with rows := rows } : Analysis).setMetric ref.scope m }

namespace Work

variable {ref : MetricRef} {kind : MetricKind} {c c' j j' : Job} {m m' : Metric}

/-- A metric has been at work since `c`. Other metrics, and what is said of figures that are not its
own, are as they were. -/
structure Framed (ref : MetricRef) (kind : MetricKind) (c : Job) (m : Metric) (j : Job) : Prop where
  unmeasured : j.unmeasured = c.unmeasured
  metric : j.analysis.metric? ref = some m
  others : ∀ r ≠ ref, j.analysis.metric? r = c.analysis.metric? r
  filing : m.Filing kind c.analysis.rows j.analysis.rows
  overall : ∀ k, ofFigure k ≠ kind → j.analysis.overall.get? k = c.analysis.overall.get? k

namespace Framed

section
variable (h : Framed ref kind c m j)
include h

theorem step (hinputs : j'.unmeasured = j.unmeasured)
    (hmetrics : ∀ r, j'.analysis.metric? r = j.analysis.metric? r)
    (hrows : j'.analysis.rows = j.analysis.rows)
    (hoverall : j'.analysis.overall = j.analysis.overall) : Framed ref kind c m j' where
  unmeasured := hinputs.trans h.unmeasured
  metric := (hmetrics ref).trans h.metric
  others r hr := (hmetrics r).trans (h.others r hr)
  filing := hrows ▸ h.filing
  overall := hoverall ▸ h.overall

theorem put (href : ref.name = kind.name) {rows : Rows}
    (hfiling : m'.Filing kind c.analysis.rows rows) : Framed ref kind c m' (j.put ref m' rows) := by
  have hat : ref = ⟨ref.scope, m'.kind.name⟩ := by rw [hfiling.ofKind, ← href]
  refine ⟨Eq.trans ?_ h.unmeasured, ?_, fun r hr => ?_, ?_, ?_⟩
  · rw [Job.put]
    cases ref.scope <;> rfl
  · exact (Analysis.metric?_setMetric ..).trans (if_pos hat)
  · exact (Analysis.metric?_setMetric ..).trans ((if_neg (hat ▸ hr)).trans (h.others r hr))
  · rw [Job.put, Analysis.rows_setMetric]
    exact hfiling
  · rw [Job.put]
    cases ref.scope <;> exact h.overall

theorem graphs : j.analysis.graphs = c.analysis.graphs :=
  show j.unmeasured.analysis.graphs = c.unmeasured.analysis.graphs by rw [h.unmeasured]

theorem agree (hm : (c.analysis.metric? ref).map Metric.kind = some kind) : Job.Agree c j where
  session := show j.unmeasured.session = c.unmeasured.session by rw [h.unmeasured]
  settings := show j.unmeasured.analysis.settings = c.unmeasured.analysis.settings by
    rw [h.unmeasured]
  results := show j.unmeasured.analysis.results = c.unmeasured.analysis.results by rw [h.unmeasured]
  graphs := h.graphs ▸ .refl _
  kinds r := by
    by_cases hr : r = ref
    · rw [hr, hm, h.metric, Option.map_some, h.filing.ofKind]
    · rw [h.others r hr]

end

end Framed

/-- The metric at a reference has been at work in two analyses, and has got as far in both. -/
structure Paired (ref : MetricRef) (kind : MetricKind) (c c' : Job) (m m' : Metric) (j j' : Job) :
    Prop where
  left : Framed ref kind c m j
  right : Framed ref kind c' m' j'
  tied : m.Tied kind j.analysis.rows m' j'.analysis.rows
  overall : ∀ k, ofFigure k = kind → j'.analysis.overall.get? k = j.analysis.overall.get? k

def Beside (ref : MetricRef) (kind : MetricKind) (c c' j j' : Job) : Prop :=
  ∃ m m', Paired ref kind c c' m m' j j'

/-- At work in two analyses, with all rows collected. -/
def Settled (ref : MetricRef) (kind : MetricKind) (c c' j j' : Job) : Prop :=
  ∃ m m', Paired ref kind c c' m m' j j' ∧
    (∀ n k, ofFigure k = kind → j'.analysis.rows.figure? n k = j.analysis.rows.figure? n k) ∧
    (∀ n, (m.rows.get? n).isSome → (j.analysis.rows.get? n).isSome) ∧
    ∀ n, (m'.rows.get? n).isSome → (j'.analysis.rows.get? n).isSome

theorem Settled.beside (h : Settled ref kind c c' j j') : Beside ref kind c c' j j' := by
  obtain ⟨m, m', hpaired, -⟩ := h
  exact ⟨m, m', hpaired⟩

end Work

/-- Two analyses in which one metric, registered at `ref`, is calculated. -/
structure Work.Setting (ref : MetricRef) (kind : MetricKind) (c c' : Job) : Prop where
  name : ref.name = kind.name
  kind_left : (c.analysis.metric? ref).map Metric.kind = some kind
  agree : Job.Agree c c'

namespace Work

section

variable {ref : MetricRef} {kind : MetricKind} {c c' j j' : Job} {m m' : Metric} {α : Type}
  {row : List (String × Value)} {f : Metric → Metric}

theorem Setting.agree_of_paired (hs : Setting ref kind c c') (h : Paired ref kind c c' m m' j j') :
    Job.Agree j j' := by
  have hkind : (c'.analysis.metric? ref).map Metric.kind = some kind :=
    (hs.agree.kinds ref).trans hs.kind_left
  exact (h.left.agree hs.kind_left).symm.trans (hs.agree.trans (h.right.agree hkind))

/-- A change that has nothing to do with metrics and their figures. -/
structure Steady (f : Job → Job) : Prop where
  unmeasured : ∀ j, (f j).unmeasured = j.unmeasured
  metrics : ∀ j r, (f j).analysis.metric? r = j.analysis.metric? r
  rows : ∀ j, (f j).analysis.rows = j.analysis.rows
  overall : ∀ j, (f j).analysis.overall = j.analysis.overall

namespace Steady

variable {f : Job → Job} (hf : Steady f)

include hf

theorem paired (h : Paired ref kind c c' m m' j j') : Paired ref kind c c' m m' (f j) (f j') := by
  refine ⟨h.left.step (hf.unmeasured j) (hf.metrics j) (hf.rows j) (hf.overall j),
    h.right.step (hf.unmeasured j') (hf.metrics j') (hf.rows j') (hf.overall j'), ?_, ?_⟩
  · rw [hf.rows, hf.rows]
    exact h.tied
  · rw [hf.overall, hf.overall]
    exact h.overall

theorem follows : Follows (Beside ref kind c c') (Beside ref kind c c') (modify f : Work Unit)
    (modify f) := by
  refine .modify ?_
  rintro j j' ⟨m, m', h⟩
  exact ⟨m, m', hf.paired h⟩

theorem follows_settled : Follows (Settled ref kind c c') (Settled ref kind c c')
    (modify f : Work Unit) (modify f) := by
  refine .modify ?_
  rintro j j' ⟨m, m', h, hrest⟩
  refine ⟨m, m', hf.paired h, ?_⟩
  rw [hf.rows, hf.rows]
  exact hrest

end Steady

theorem overall_put (j : Job) (m : Metric) (rows : Rows) :
    (j.put ref m rows).analysis.overall = j.analysis.overall := by
  rw [Job.put]
  cases ref.scope <;> rfl

theorem rows_put (j : Job) (m : Metric) (rows : Rows) : (j.put ref m rows).analysis.rows = rows :=
  Analysis.rows_setMetric ..

theorem follows_put (hs : Setting ref kind c c') {x : Work Unit} (g : Metric → Rows → Metric × Rows)
    (hx : ∀ j m, j.analysis.metric? ref = some m →
      x j = .ok () (j.put ref (g m j.analysis.rows).1 (g m j.analysis.rows).2))
    (hfiling : ∀ base m rows, m.Filing kind base rows → (g m rows).1.Filing kind base (g m rows).2)
    (htied : ∀ m rows m' rows', m.Tied kind rows m' rows' →
      (g m rows).1.Tied kind (g m rows).2 (g m' rows').1 (g m' rows').2) :
    Follows (Beside ref kind c c') (Beside ref kind c c') x x := by
  rintro j j' ⟨m, m', h⟩ ⟨⟩ t hok
  obtain ⟨-, rfl⟩ := EStateM.Result.ok.inj ((hx j m h.left.metric).symm.trans hok)
  refine ⟨_, hx j' m' h.right.metric, _, _, h.left.put hs.name (hfiling _ _ _ h.left.filing),
    h.right.put hs.name (hfiling _ _ _ h.right.filing), ?_, ?_⟩
  · rw [rows_put, rows_put]
    exact htied _ _ _ _ h.tied
  · rw [overall_put, overall_put]
    exact h.overall

theorem modifyMetric_of_metric? (h : j.analysis.metric? ref = some m) :
    modifyMetric ref f j = .ok () (j.put ref (f m) j.analysis.rows) :=
  bind_of_ok (metricAt_of_metric? h)

theorem Registered.put (hm : Registered ref m j) (hkind : m'.kind = m.kind) (rows : Rows) :
    Registered ref m' (j.put ref m' rows) := by
  have href : ref = ⟨ref.scope, m'.kind.name⟩ := by rw [hkind, ← hm.name]
  refine ⟨?_, hm.name.trans (congrArg MetricKind.name hkind.symm)⟩
  rw [Job.put, Analysis.metric?_setMetric, if_pos href]

section
variable (hs : Setting ref kind c c')
include hs

theorem follows_modifyMetric
    (hfiling : ∀ base m rows, m.Filing kind base rows → (f m).Filing kind base rows)
    (htied : ∀ m rows m' rows', m.Tied kind rows m' rows' → (f m).Tied kind rows (f m') rows') :
    Follows (Beside ref kind c c') (Beside ref kind c c') (modifyMetric ref f)
      (modifyMetric ref f) :=
  follows_put hs (fun m rows => (f m, rows)) (fun _ _ h => modifyMetric_of_metric? h) hfiling htied

theorem follows_assignRow (hkind : Metric.Replaces kind) (name : String) (hrow : kind.Files row) :
    Follows (Beside ref kind c c') (Beside ref kind c c') (assignRow ref name row)
      (assignRow ref name row) :=
  follows_modifyMetric hs (fun _ _ _ h => h.assignRow name hrow) fun _ _ _ _ h =>
    h.assignRow hkind name row

theorem follows_mergeRow (hkind : ¬ Metric.Replaces kind) (name : String) (hrow : kind.Files row) :
    Follows (Beside ref kind c c') (Beside ref kind c c') (mergeRow ref name row)
      (mergeRow ref name row) :=
  follows_put hs (fun m rows => m.mergeRow rows name row)
    (fun _ _ h => bind_of_ok (metricAt_of_metric? h))
    (fun _ _ _ h => h.mergeRow name hrow) fun _ _ _ _ h => h.mergeRow hkind name row

theorem follows_addOverall {figures : List (String × Value)} (hfigures : kind.Files figures) :
    Follows (Beside ref kind c c') (Beside ref kind c c') (addOverall ref figures)
      (addOverall ref figures) :=
  follows_modifyMetric hs (fun _ _ _ h => h.addOverall hfigures) fun _ _ _ _ h =>
    h.addOverall figures

end

theorem follows_log (source : LogSource) (k : LogKind) (message : String) :
    Follows (Beside ref kind c c') (Beside ref kind c c') (log source k message)
      (log source k message) :=
  Steady.follows ⟨fun _ => rfl, fun _ _ => rfl, fun _ => rfl, fun _ => rfl⟩

theorem follows_recordFigure (name key : String) (v : Value) :
    Follows (Beside ref kind c c') (Beside ref kind c c')
      (modifyAnalysis fun a => a.recordFigure name key v)
      (modifyAnalysis fun a => a.recordFigure name key v) := by
  refine Steady.follows ⟨fun j => ?_, fun _ _ => rfl, fun _ => rfl, fun _ => rfl⟩
  have hbare : (j.analysis.recordFigure name key v).results.bare = j.analysis.results.bare :=
    Results.bare_modify _ _ _ fun _ => rfl
  exact congrArg (fun rs => { j.unmeasured with analysis.results := rs }) hbare

theorem follows_lift (x : Except Fault α) :
    Follows (Beside ref kind c c') (Beside ref kind c c') (lift x) (lift x) := by
  cases x with
  | ok v => exact .pure (fun _ _ h => h) v
  | error e => exact .throw e _

theorem follows_metricAt_bind {S : Job → Job → Prop} {f : Metric → Work α}
    (hsame : ∀ m m', m'.gauge = m.gauge → f m' = f m)
    (hf : ∀ m, m.kind = kind → Follows (Beside ref kind c c') S (f m) (f m)) :
    Follows (Beside ref kind c c') S (metricAt ref >>= f) (metricAt ref >>= f) := by
  rintro j j' ⟨m, m', h⟩ v t hok
  rw [bind_of_ok (metricAt_of_metric? h.left.metric)] at hok
  rw [bind_of_ok (metricAt_of_metric? h.right.metric), hsame m m' h.tied.gauge]
  exact hf m h.left.filing.ofKind j j' ⟨m, m', h⟩ v t hok

/-! ### Measuring code -/

theorem follows_fileFigure (hs : Setting ref kind c c') (hkind : Metric.Replaces kind)
    (r : ScanResult) {key : String} (hkey : ofFigure key = kind) (v : Value) :
    Follows (Beside ref kind c c') (Beside ref kind c c') (fileFigure ref r key v)
      (fileFigure ref r key v) :=
  .bind (follows_recordFigure r.uniqueName key v) fun _ => follows_assignRow hs hkind r.uniqueName
    (.single hkey v)

theorem follows_countEach (hs : Setting ref kind c c') (hkind : Metric.Replaces kind)
    {figure : String} (hfigure : ∀ s ∈ ["file", "entity"], figure ++ "-in-" ++ s ∈ kind.figures)
    (count : ScanResult → Except Fault Nat) (rs : List ScanResult) :
    Follows (Beside ref kind c c') (Beside ref kind c c') (countEach ref figure count rs)
      (countEach ref figure count rs) := by
  induction rs with
  | nil => exact .pure (fun _ _ h => h) _
  | cons r rest ih =>
    refine .bind (follows_lift _) fun n => .bind ?_ fun _ => .bind ih
      fun _ => .pure (fun _ _ h => h) _
    exact follows_fileFigure hs hkind r (ofFigure_of_mem (hfigure _ (mem_subjectOf r))) _

theorem follows_measureMethods (hs : Setting ref .methods c c') (rs : List ScanResult) :
    Follows (Beside ref .methods c c') (Beside ref .methods c c') (measureMethods ref rs)
      (measureMethods ref rs) := by
  have hfigures : ∀ s ∈ ["file", "entity"],
      "number-of-methods" ++ "-in-" ++ s ∈ MetricKind.methods.figures ∧
      "avg-number-of-methods-in-" ++ s ∈ MetricKind.methods.figures := by decide +kernel
  refine .bind (follows_countEach hs (by simp [Metric.Replaces])
    (fun s hmem => (hfigures s hmem).1) _ rs) fun counts => .forM ?_
  rintro ⟨files, subject⟩ hmem
  have hsubject : subject ∈ ["file", "entity"] := by
    simp only [List.mem_cons, List.not_mem_nil, or_false, Prod.mk.injEq] at hmem ⊢
    tauto
  dsimp only
  split
  · exact follows_addOverall hs (.single (ofFigure_of_mem (hfigures subject hsubject).2) _)
  · exact .pure (fun _ _ h => h) _

theorem follows_measureSourceLines (hs : Setting ref .sourceLines c c') (rs : List ScanResult) :
    Follows (Beside ref .sourceLines c c') (Beside ref .sourceLines c c')
      (measureSourceLines ref rs)
      (measureSourceLines ref rs) := by
  have hfigures : ∀ s ∈ ["file", "entity"],
      "sloc" ++ "-in-" ++ s ∈ MetricKind.sourceLines.figures := by decide +kernel
  have hoverall : ∀ s ∈ [("file", "files"), ("entity", "entities")],
      "avg-sloc-in-" ++ s.1 ∈ MetricKind.sourceLines.figures ∧
      "total-sloc-in-" ++ s.2 ∈ MetricKind.sourceLines.figures := by decide +kernel
  refine .bind (follows_countEach hs (by simp [Metric.Replaces]) hfigures _ rs)
    fun counts => .forM ?_
  rintro ⟨files, subject, subjects⟩ hmem
  have hsubject : (subject, subjects) ∈ [("file", "files"), ("entity", "entities")] := by
    simp only [List.mem_cons, List.not_mem_nil, or_false, Prod.mk.injEq] at hmem ⊢
    tauto
  obtain ⟨havg, htotal⟩ := hoverall _ hsubject
  dsimp only
  split
  · refine follows_addOverall hs (.of_mem fun e he => ?_)
    simp only [List.mem_cons, List.not_mem_nil, or_false] at he
    rcases he with rfl | rfl
    · exact havg
    · exact htotal
  · exact .pure (fun _ _ h => h) _

theorem follows_measureWhitespace (hs : Setting ref .whitespace c c') (rs : List ScanResult) :
    Follows (Beside ref .whitespace c c') (Beside ref .whitespace c c') (measureWhitespace ref rs)
      (measureWhitespace ref rs) := by
  refine .forM fun r _ => ?_
  split
  · exact follows_fileFigure hs (by simp [Metric.Replaces]) r (by decide +kernel) _
  · exact .throw _ _

/-! ### Measuring terms, graphs and history -/

theorem follows_modifyTexts (hs : Setting ref kind c c')
    (f : OrderedMap String String → OrderedMap String String) :
    Follows (Beside ref kind c c') (Beside ref kind c c') (modifyTexts ref f)
      (modifyTexts ref f) := by
  refine follows_modifyMetric hs (fun base m rows h => ?_) fun m rows m' rows' h => ?_
  · split
    · next texts hgauge =>
      refine h.setGauge ?_
      rw [← h.ofKind, Metric.kind, hgauge]
      rfl
    · exact h
  · rw [h.gauge]
    split
    · exact h.setGauge _
    · exact h

theorem follows_tagTexts (hs : Setting ref .terms c c') (features names : List String)
    (scores : List (List (Int × Value))) :
    Follows (Beside ref .terms c c') (Beside ref .terms c c') (tagTexts ref features names scores)
      (tagTexts ref features names scores) := by
  induction names generalizing scores with
  | nil => exact .pure (fun _ _ h => h) _
  | cons name names ih =>
    cases scores with
    | nil => exact .throw _ _
    | cons row scores =>
      refine .bind (follows_lift _) fun named => .bind ?_ fun _ => ih scores
      exact follows_mergeRow hs (by simp [Metric.Replaces]) name (Terms.files_tags named)

theorem follows_measureTerms (hs : Setting ref .terms c c') (rs : List ScanResult) :
    Follows (Beside ref .terms c c') (Beside ref .terms c c') (measureTerms ref rs)
      (measureTerms ref rs) := by
  refine .bind (.forM fun r _ => .bind (follows_lift _) fun _ => follows_modifyTexts hs _)
    fun _ => ?_
  refine .read_bind (r := fun j => j.session) (fun _ => rfl) ?_ fun j j' _ => ?_
  · rintro j j' ⟨m, m', h⟩
    simp only [(hs.agree_of_paired h).terms]
  · split
    · exact follows_log _ _ _
    · refine follows_metricAt_bind (fun m m' hgauge => by rw [hgauge]) fun m _ => ?_
      split
      · exact follows_tagTexts hs _ _ _
      · exact .pure (fun _ _ h => h) _

theorem follows_fileReport (hs : Setting ref .fanInOut c c') {r : FanInOut.Report}
    (hrows : ∀ e ∈ r.rows, MetricKind.fanInOut.Files e.2)
    (hoverall : ∀ figures ∈ r.overall, MetricKind.fanInOut.Files figures) :
    Follows (Beside ref .fanInOut c c') (Beside ref .fanInOut c c') (fileReport ref r)
      (fileReport ref r) := by
  refine .bind (.forM fun e he => follows_mergeRow hs (by simp [Metric.Replaces]) e.1 (hrows e he))
    fun _ => ?_
  split
  · next figures hfigures => exact follows_addOverall hs (hoverall figures hfigures)
  · exact follows_log _ _ _

theorem follows_measureFanInOut (hs : Setting ref .fanInOut c c') (slots : GraphSlots) :
    Follows (Beside ref .fanInOut c c') (Beside ref .fanInOut c c') (measureFanInOut ref slots)
      (measureFanInOut ref slots) := by
  refine .read_bind (r := fun j => j.analysis) (fun _ => rfl) ?_ fun j j' _ => ?_
  · rintro j j' ⟨m, m', h⟩
    simp only [(hs.agree_of_paired h).slotViews]
  · refine .bind (.forM fun r hr => ?_) fun _ => ?_
    · obtain ⟨hrows, hoverall⟩ := FanInOut.files_reports (by simp) hr
      exact follows_fileReport hs hrows hoverall
    · split
      · exact .throw _ _
      · exact .pure (fun _ _ h => h) _

theorem follows_fileCommunity (hs : Setting ref .communities c c') (rs : Results) (kind : GraphKind)
    (node : String) (n : Nat) :
    Follows (Beside ref .communities c c') (Beside ref .communities c c')
      (fileCommunity ref rs kind node n)
      (fileCommunity ref rs kind node n) := by
  rw [fileCommunity]
  dsimp only
  split
  · exact .pure (fun _ _ h => h) _
  · next key hkey =>
    have hmerge := follows_mergeRow hs (by simp [Metric.Replaces]) node
      (.single (ofFigure_communityKey? hkey) (.int n))
    split
    · exact .bind (follows_recordFigure node key _) fun _ => hmerge
    · exact hmerge

theorem follows_measureCommunities (hs : Setting ref .communities c c') (slots : GraphSlots)
    (rs : Results) :
    Follows (Beside ref .communities c c') (Beside ref .communities c c')
      (measureCommunities ref slots rs)
      (measureCommunities ref slots rs) := by
  refine .read_bind (r := fun j => j.analysis) (fun _ => rfl) ?_ fun j j' _ => .forM fun v _ => ?_
  · rintro j j' ⟨m, m', h⟩
    simp only [(hs.agree_of_paired h).slotViews]
  · split
    · exact follows_log _ _ _
    · refine .bind (.forM fun e _ => follows_fileCommunity hs rs v.kind e.1 e.2) fun _ => ?_
      exact follows_addOverall hs (files_communityFigures v _)

theorem follows_measureHistory (hs : Setting ref .history c c') (state : HistoryState)
    (names : List String) :
    Follows (Beside ref .history c c') (Beside ref .history c c') (measureHistory ref state names)
      (measureHistory ref state names) := by
  refine .read_bind (r := fun j => j.analysis.settings) (fun _ => rfl) ?_ fun j₁ _ _ => ?_
  · rintro j j' ⟨m, m', h⟩
    simp only [(hs.agree_of_paired h).settings]
  refine .read_bind (r := fun j => j.session) (fun _ => rfl) ?_ fun j₂ _ _ => ?_
  · rintro j j' ⟨m, m', h⟩
    simp only [(hs.agree_of_paired h).commits]
  refine .bind (follows_modifyMetric hs (fun _ _ _ h => h.setGauge rfl) fun _ _ _ _ h =>
    h.setGauge _) fun _ => ?_
  refine .bind (follows_lift _) fun _ => follows_addOverall hs (.single ?_ _)
  decide +kernel

theorem follows_measure (hs : Setting ref kind c c') (rs : Results) :
    Follows (Beside ref kind c c') (Beside ref kind c c') (measure ref rs) (measure ref rs) := by
  refine follows_metricAt_bind (fun m m' hgauge => by rw [hgauge]) fun m hkind => ?_
  rw [Metric.kind] at hkind
  subst hkind
  cases hgauge : m.gauge with
  | methods =>
    rw [hgauge] at hs
    exact follows_measureMethods hs _
  | sourceLines =>
    rw [hgauge] at hs
    exact follows_measureSourceLines hs _
  | whitespace =>
    rw [hgauge] at hs
    exact follows_measureWhitespace hs _
  | fanInOut slots =>
    rw [hgauge] at hs
    exact follows_measureFanInOut hs slots
  | communities slots =>
    rw [hgauge] at hs
    exact follows_measureCommunities hs slots rs
  | terms texts =>
    rw [hgauge] at hs
    exact follows_measureTerms hs _
  | history state =>
    rw [hgauge] at hs
    exact follows_measureHistory hs state _

/-! ### Collecting -/

def addTotals (j : Job) (overall : OrderedMap String Value) : Job :=
  { j with analysis := j.analysis.collectOverall overall }

theorem Framed.addTotals (h : Framed ref kind c m j) {overall : OrderedMap String Value}
    (hoverall : ∀ k v, overall.get? k = some v → ofFigure k = kind) :
    Framed ref kind c m (addTotals j overall) where
  unmeasured := h.unmeasured
  metric := h.metric
  others := h.others
  filing := h.filing
  overall k hk := by
    have hnone : overall.get? k = none := by
      rw [Option.eq_none_iff_forall_ne_some]
      exact fun v hv => hk (hoverall k v hv)
    refine (get?_update ..).trans ?_
    rw [hnone, Option.none_or]
    exact h.overall k hk

theorem collectMetric_of_metric? (h : j.analysis.metric? ref = some m) :
    collectMetric ref j = .ok () ((addTotals j (m.collect j.analysis.rows).1.overall).put ref
      (m.collect j.analysis.rows).1 (m.collect j.analysis.rows).2) :=
  bind_of_ok (metricAt_of_metric? h)

theorem follows_collectMetric (hs : Setting ref kind c c') :
    Follows (Beside ref kind c c') (Settled ref kind c c') (collectMetric ref)
      (collectMetric ref) := by
  rintro j j' ⟨m, m', h⟩ ⟨⟩ t hok
  obtain ⟨-, rfl⟩ := EStateM.Result.ok.inj ((collectMetric_of_metric? h.left.metric).symm.trans hok)
  obtain ⟨hfiling, hnames⟩ := h.left.filing.collect
  obtain ⟨hfiling', hnames'⟩ := h.right.filing.collect
  obtain ⟨htied, hfigures⟩ := h.tied.collect
  refine ⟨_, collectMetric_of_metric? h.right.metric, _, _,
    ⟨(h.left.addTotals hfiling.overall).put hs.name hfiling,
      (h.right.addTotals hfiling'.overall).put hs.name hfiling', ?_, fun k hk => ?_⟩, ?_,
      fun n hn => ?_, fun n hn => ?_⟩
  · rw [rows_put, rows_put]
    exact htied
  · rw [overall_put, overall_put]
    refine (get?_update ..).trans (Eq.trans ?_ (get?_update ..).symm)
    rw [htied.overall, h.overall k hk]
  · rw [rows_put, rows_put]
    exact hfigures
  · rw [rows_put]
    rw [Metric.isSome_collect] at hn
    exact hnames n hn
  · rw [rows_put]
    rw [Metric.isSome_collect] at hn
    exact hnames' n hn

/-- A metric can be calculated in both analyses, and then these say the same of its figures. -/
theorem follows_calculateMetric (hs : Setting ref kind c c') :
    Follows (Settled ref kind c c') (Settled ref kind c c') (calculateMetric ref)
      (calculateMetric ref) := by
  have hagree : ∀ j j', Settled ref kind c c' j j' → Job.Agree j j' := by
    rintro j j' ⟨m, m', h, -⟩
    exact hs.agree_of_paired h
  refine .read_bind (r := fun j => j.session) (fun _ => rfl) (fun j j' h => ?_) fun j₁ _ _ => ?_
  · simp only [(hagree j j' h).now]
  refine .bind (.forM fun scope _ => ?_) fun _ => ?_
  · refine .read_bind (r := fun j => j.analysis) (fun _ => rfl) (fun j j' h => ?_) fun j _ _ => ?_
    · rw [hs.name, (hagree j j' h).hasMetric, (hagree j j' h).measure_resultsOf]
    · split
      · refine .bind (fun j j' h => ?_) fun _ => follows_collectMetric hs
        exact follows_measure hs _ j j' h.beside
      · exact .pure (fun _ _ h => h) _
  · refine .read_bind (r := fun j => j.session) (fun _ => rfl) (fun j j' h => ?_) fun j _ _ => ?_
    · simp only [(hagree j j' h).now]
    · exact Steady.follows_settled ⟨fun _ => rfl, fun _ _ => rfl, fun _ => rfl, fun _ => rfl⟩

end

end Work

end CodeAtlas
