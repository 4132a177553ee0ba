import CodeAtlas.Program.Analyze
import CodeAtlas.Proofs.Effects
import CodeAtlas.Proofs.Maps

/-!
# What measuring leaves as it is

Metrics file figures: in their rows, with the results, in the analysis. Whatever they read besides
their own state is the same afterwards (`Job.unmeasured`), and as long as each metric is registered
under its own name, the same kinds of metrics stay registered (`Measuring.kinds`). There is one
lemma for each kind of work on a metric, each from those of the work it is made of, up to
`Work.onlyMeasures_calculateMetrics`.
-/

namespace CodeAtlas

open Effect

/-! ### Metrics of an analysis -/

namespace Analysis

def metric? (a : Analysis) (ref : MetricRef) : Option Metric := (a.metrics ref.scope).get? ref.name

/-- Every metric is registered under its own name. -/
def Named (a : Analysis) : Prop := ∀ ref m, a.metric? ref = some m → ref.name = m.kind.name

theorem metric?_setMetric (a : Analysis) (scope : ScanScope) (m : Metric) (ref : MetricRef) :
    (a.setMetric scope m).metric? ref =
      if ref = ⟨scope, m.kind.name⟩ then some m else a.metric? ref := by
  obtain ⟨scope', name⟩ := ref
  cases scope <;> cases scope' <;>
    simp [metric?, metrics, setMetric, OrderedMap.get?_insert, eq_comm]

theorem graphs_setMetric (a : Analysis) (scope : ScanScope) (m : Metric) :
    (a.setMetric scope m).graphs = a.graphs := by
  cases scope <;> rfl

theorem rows_setMetric (a : Analysis) (scope : ScanScope) (m : Metric) :
    (a.setMetric scope m).rows = a.rows := by
  cases scope <;> rfl

theorem hasMetric_eq (a : Analysis) (scope : ScanScope) (kind : MetricKind) :
    a.hasMetric scope kind.name = (a.metric? ⟨scope, kind.name⟩).isSome := by
  have hlower : String.ofList (Text.lower kind.name.toList) = kind.name := by
    cases kind <;> decide +kernel
  rw [hasMetric, hlower]
  rfl

theorem mem_allMetrics {a : Analysis} {m : Metric} :
    m ∈ a.allMetrics ↔ ∃ ref, a.metric? ref = some m := by
  rw [allMetrics, List.mem_append, OrderedMap.mem_values_iff, OrderedMap.mem_values_iff]
  constructor
  · rintro (⟨name, hm⟩ | ⟨name, hm⟩)
    · exact ⟨⟨.files, name⟩, hm⟩
    · exact ⟨⟨.entities, name⟩, hm⟩
  · rintro ⟨⟨scope, name⟩, hm⟩
    cases scope with
    | files => exact .inl ⟨name, hm⟩
    | entities => exact .inr ⟨name, hm⟩

theorem any_allMetrics_congr {a a' : Analysis}
    (h : ∀ ref, (a'.metric? ref).map Metric.kind = (a.metric? ref).map Metric.kind)
    (p : MetricKind → Bool) :
    (a'.allMetrics.any fun m => p m.kind) = a.allMetrics.any fun m => p m.kind := by
  have hiff : ∀ b : Analysis, (b.allMetrics.any fun m => p m.kind) = true ↔
      ∃ ref kind, (b.metric? ref).map Metric.kind = some kind ∧ p kind = true := by
    intro b
    simp only [List.any_eq_true, mem_allMetrics, Option.map_eq_some_iff]
    constructor
    · rintro ⟨m, ⟨ref, hm⟩, hp⟩
      exact ⟨ref, m.kind, ⟨m, hm, rfl⟩, hp⟩
    · rintro ⟨ref, kind, ⟨m, hm, rfl⟩, hp⟩
      exact ⟨m, ⟨ref, hm⟩, hp⟩
  rw [Bool.eq_iff_iff, hiff, hiff]
  simp only [h]

end Analysis

/-! ### What a metric measures stays the same -/

namespace Metric

@[simp] theorem gauge_mergeRow (m : Metric) (rows : Rows) (name : String)
    (row : List (String × Value)) : (m.mergeRow rows name row).1.gauge = m.gauge := by
  rw [mergeRow]
  split <;> rfl

/-- Handing rows over changes nothing of a metric but its rows. -/
theorem exists_collect_eq (m : Metric) (rows : Rows) :
    ∃ rs, (m.collect rows).1 = { m with rows := rs } := by
  have hfold : ∀ (es : List (String × MetricRow)) (m : Metric) (rows : Rows),
      ∃ rs, (es.foldl handOver (m, rows)).1 = { m with rows := rs } := by
    intro es
    induction es with
    | nil => exact fun m _ => ⟨m.rows, rfl⟩
    | cons e es ih =>
      intro m rows
      rw [List.foldl_cons, handOver]
      split
      · exact ih m rows
      · split
        · exact ih m _
        · exact ih _ _
  exact hfold m.rows.entries m rows

@[simp] theorem gauge_collect (m : Metric) (rows : Rows) : (m.collect rows).1.gauge = m.gauge := by
  obtain ⟨rs, h⟩ := m.exists_collect_eq rows
  rw [h]

end Metric

/-! ### Everything but the figures -/

def Results.bare (rs : Results) : Results := rs.mapValues fun _ r => { r with metrics := ∅ }

theorem Results.bare_modify (rs : Results) (name : String) (f : ScanResult → ScanResult)
    (hf : ∀ r, { f r with metrics := ∅ } = { r with metrics := ∅ }) :
    bare (rs.modify name f) = rs.bare := by
  refine OrderedMap.ext_entries ?_
  change (rs.entries.map _).map _ = rs.entries.map _
  rw [List.map_map]
  refine List.map_congr_left fun e _ => ?_
  dsimp only [Function.comp_apply]
  split_ifs
  · exact congrArg (Prod.mk e.1) (hf e.2)
  · rfl

/-- What metrics read, and whatever else they do not change. -/
def Job.unmeasured (j : Job) : Job where
  session := { j.session with log := {} }
  analysis :=
    { j.analysis with
      results := j.analysis.results.bare
      fileMetrics := ∅
      entityMetrics := ∅
      rows := ∅
      overall := ∅
      statistics := .empty }

/-- A stage of measuring that began with `c`. -/
structure Measuring (c j : Job) : Prop where
  unmeasured : j.unmeasured = c.unmeasured
  kinds : c.analysis.Named →
    ∀ ref, (j.analysis.metric? ref).map Metric.kind = (c.analysis.metric? ref).map Metric.kind

namespace Measuring

variable {c j j' : Job}

theorem refl (c : Job) : Measuring c c := ⟨rfl, fun _ _ => rfl⟩

section
variable (h : Measuring c j)
include h

theorem id : j.analysis.id = c.analysis.id :=
  show j.unmeasured.analysis.id = c.unmeasured.analysis.id by rw [h.unmeasured]

theorem graphs : j.analysis.graphs = c.analysis.graphs :=
  show j.unmeasured.analysis.graphs = c.unmeasured.analysis.graphs by rw [h.unmeasured]

theorem bare : j.analysis.results.bare = c.analysis.results.bare :=
  show j.unmeasured.analysis.results = c.unmeasured.analysis.results by rw [h.unmeasured]

theorem named (hc : c.analysis.Named) : j.analysis.Named := by
  intro ref m hm
  have hkind := h.kinds hc ref
  rw [hm, Option.map_some, eq_comm, Option.map_eq_some_iff] at hkind
  obtain ⟨m₀, hm₀, hkind⟩ := hkind
  rw [hc ref m₀ hm₀, hkind]

theorem step (hinputs : j'.unmeasured = j.unmeasured)
    (hmetrics : ∀ ref, j'.analysis.metric? ref = j.analysis.metric? ref) : Measuring c j' :=
  ⟨hinputs.trans h.unmeasured, fun hc ref => (congrArg _ (hmetrics ref)).trans (h.kinds hc ref)⟩

theorem replace {a : Analysis} (hinputs : Job.unmeasured ⟨j.session, a⟩ = j.unmeasured)
    (hmetrics : ∀ ref, a.metric? ref = j.analysis.metric? ref) {ref : MetricRef} {m m' : Metric}
    (hm : j.analysis.metric? ref = some m) (hkind : m'.kind = m.kind) :
    Measuring c ⟨j.session, a.setMetric ref.scope m'⟩ := by
  refine ⟨?_, fun hc r => ?_⟩
  · rw [← h.unmeasured, ← hinputs]
    cases ref.scope <;> rfl
  · have href : ref = ⟨ref.scope, m'.kind.name⟩ := by
      rw [hkind, ← h.named hc ref m hm]
    rw [← h.kinds hc r, Analysis.metric?_setMetric, hmetrics]
    split_ifs with hr
    · rw [hr, ← href, hm, Option.map_some, Option.map_some, hkind]
    · rfl

end

end Measuring

/-! ### Work on metrics -/

namespace Work

variable {c : Job} {α : Type}

abbrev OnlyMeasures (c : Job) (w : Work α) : Prop := Keeps (Measuring c) w

theorem onlyMeasures_modifyAnalysis {f : Analysis → Analysis}
    (hinputs : ∀ s a, Job.unmeasured ⟨s, f a⟩ = Job.unmeasured ⟨s, a⟩)
    (hmetrics : ∀ a ref, (f a).metric? ref = a.metric? ref) : OnlyMeasures c (modifyAnalysis f) :=
  .modify fun j hj => hj.step (hinputs j.session j.analysis) (hmetrics j.analysis)

theorem onlyMeasures_modifyStatistics (f : Statistics → Statistics) :
    OnlyMeasures c (modifyStatistics f) :=
  onlyMeasures_modifyAnalysis (fun _ _ => rfl) fun _ _ => rfl

theorem onlyMeasures_log (source : LogSource) (kind : LogKind) (message : String) :
    OnlyMeasures c (log source kind message) :=
  .modify fun _ hj => hj.step rfl fun _ => rfl

theorem onlyMeasures_analysis : OnlyMeasures c analysis := .bind .get fun _ => .pure _

theorem onlyMeasures_session : OnlyMeasures c session := .bind .get fun _ => .pure _

theorem onlyMeasures_settings : OnlyMeasures c settings := .bind .get fun _ => .pure _

theorem onlyMeasures_lift (x : Except Fault α) : OnlyMeasures c (lift x) := by
  cases x with
  | ok v => exact .pure v
  | error e => exact .throw e

variable {ref : MetricRef}

theorem metricAt_eq_ok {m : Metric} {j j' : Job} :
    metricAt ref j = .ok m j' ↔ j.analysis.metric? ref = some m ∧ j' = j := by
  rw [metricAt, bind_of_ok (show analysis j = .ok j.analysis j from rfl), Analysis.metric?]
  cases (j.analysis.metrics ref.scope).get? ref.name with
  | none => simp [throw_apply]
  | some m' => simp [pure, EStateM.pure, eq_comm]

theorem metricAt_of_metric? {m : Metric} {j : Job} (h : j.analysis.metric? ref = some m) :
    metricAt ref j = .ok m j :=
  metricAt_eq_ok.mpr ⟨h, rfl⟩

theorem metricAt_bind_eq_ok {f : Metric → Work α} {x : α} {j j' : Job} :
    (metricAt ref >>= f) j = .ok x j' ↔
    ∃ m, j.analysis.metric? ref = some m ∧ f m j = .ok x j' := by
  simp only [bind_eq_ok, metricAt_eq_ok]
  constructor
  · rintro ⟨m, j₁, ⟨hm, rfl⟩, hok⟩
    exact ⟨m, hm, hok⟩
  · rintro ⟨m, hm, hok⟩
    exact ⟨m, j, ⟨hm, rfl⟩, hok⟩

theorem onlyMeasures_metricAt (ref : MetricRef) : OnlyMeasures c (metricAt ref) := by
  intro j m j' hj hok
  obtain ⟨-, rfl⟩ := metricAt_eq_ok.mp hok
  exact hj

theorem onlyMeasures_modifyMetric (ref : MetricRef) {f : Metric → Metric}
    (hf : ∀ m, (f m).kind = m.kind) : OnlyMeasures c (modifyMetric ref f) := by
  intro j _ j' hj hok
  obtain ⟨m, hm, hok⟩ := metricAt_bind_eq_ok.mp hok
  obtain ⟨-, rfl⟩ := EStateM.Result.ok.inj hok
  exact hj.replace rfl (fun _ => rfl) hm (hf m)

theorem onlyMeasures_mergeRow (ref : MetricRef) (name : String) (row : List (String × Value)) :
    OnlyMeasures c (mergeRow ref name row) := by
  intro j _ j' hj hok
  obtain ⟨m, hm, hok⟩ := metricAt_bind_eq_ok.mp hok
  obtain ⟨-, rfl⟩ := EStateM.Result.ok.inj hok
  refine hj.replace (a := { j.analysis with rows := (m.mergeRow j.analysis.rows name row).2 }) rfl
    (fun _ => rfl) hm ?_
  exact congrArg Gauge.kind (m.gauge_mergeRow ..)

theorem onlyMeasures_collectMetric (ref : MetricRef) : OnlyMeasures c (collectMetric ref) := by
  intro j _ j' hj hok
  obtain ⟨m, hm, hok⟩ := metricAt_bind_eq_ok.mp hok
  obtain ⟨-, rfl⟩ := EStateM.Result.ok.inj hok
  refine hj.replace
    (a := ({ j.analysis with rows := (m.collect j.analysis.rows).2 } : Analysis).collectOverall
    (m.collect j.analysis.rows).1.overall) rfl (fun _ => rfl) hm ?_
  exact congrArg Gauge.kind (m.gauge_collect _)

theorem onlyMeasures_addOverall (ref : MetricRef) (figures : List (String × Value)) :
    OnlyMeasures c (addOverall ref figures) :=
  onlyMeasures_modifyMetric ref fun _ => rfl

theorem onlyMeasures_recordFigure (name key : String) (v : Value) :
    OnlyMeasures c (modifyAnalysis fun a => a.recordFigure name key v) := by
  refine onlyMeasures_modifyAnalysis (fun s a => ?_) fun _ _ => rfl
  have hbare : (a.recordFigure name key v).results.bare = a.results.bare :=
    Results.bare_modify _ _ _ fun _ => rfl
  exact congrArg (fun rs => { Job.unmeasured ⟨s, a⟩ with analysis.results := rs }) hbare

theorem onlyMeasures_fileFigure (ref : MetricRef) (r : ScanResult) (key : String) (v : Value) :
    OnlyMeasures c (fileFigure ref r key v) :=
  .bind (onlyMeasures_recordFigure r.uniqueName key v) fun _ => onlyMeasures_modifyMetric ref
    fun _ => rfl

/-! ### Measuring code, terms, graphs and history -/

theorem onlyMeasures_countEach (ref : MetricRef) (figure : String)
    (count : ScanResult → Except Fault Nat) (rs : List ScanResult) :
    OnlyMeasures c (countEach ref figure count rs) := by
  induction rs with
  | nil => exact .pure _
  | cons r rest ih =>
    exact .bind (onlyMeasures_lift _) fun n => .bind (onlyMeasures_fileFigure ref r _ _)
      fun _ => .bind ih fun _ => .pure _

theorem onlyMeasures_measureMethods (ref : MetricRef) (rs : List ScanResult) :
    OnlyMeasures c (measureMethods ref rs) := by
  refine .bind (onlyMeasures_countEach ref _ _ rs) fun counts => .forM ?_
  rintro ⟨files, subject⟩ -
  dsimp only
  split
  · exact onlyMeasures_addOverall ref _
  · exact .pure _

theorem onlyMeasures_measureSourceLines (ref : MetricRef) (rs : List ScanResult) :
    OnlyMeasures c (measureSourceLines ref rs) := by
  refine .bind (onlyMeasures_countEach ref _ _ rs) fun counts => .forM ?_
  rintro ⟨files, subject, subjects⟩ -
  dsimp only
  split
  · exact onlyMeasures_addOverall ref _
  · exact .pure _

theorem onlyMeasures_measureWhitespace (ref : MetricRef) (rs : List ScanResult) :
    OnlyMeasures c (measureWhitespace ref rs) := by
  refine .forM fun r _ => ?_
  split
  · exact onlyMeasures_fileFigure ref r _ _
  · exact .throw _

theorem onlyMeasures_modifyTexts (ref : MetricRef)
    (f : OrderedMap String String → OrderedMap String String) :
    OnlyMeasures c (modifyTexts ref f) := by
  refine onlyMeasures_modifyMetric ref fun m => ?_
  split
  · next texts hgauge =>
    rw [Metric.kind, Metric.kind, hgauge]
    rfl
  · rfl

theorem onlyMeasures_tagTexts (ref : MetricRef) (features names : List String)
    (scores : List (List (Int × Value))) : OnlyMeasures c (tagTexts ref features names scores) := by
  induction names generalizing scores with
  | nil => exact .pure _
  | cons name names ih =>
    cases scores with
    | nil => exact .throw _
    | cons row scores =>
      exact .bind (onlyMeasures_lift _) fun _ => .bind (onlyMeasures_mergeRow ref name _)
        fun _ => ih scores

theorem onlyMeasures_measureTerms (ref : MetricRef) (rs : List ScanResult) :
    OnlyMeasures c (measureTerms ref rs) := by
  refine .bind (.forM fun r _ => .bind (onlyMeasures_lift _)
    fun _ => onlyMeasures_modifyTexts ref _) fun _ => ?_
  refine .bind onlyMeasures_session fun s => ?_
  split
  · exact onlyMeasures_log _ _ _
  · refine .bind (onlyMeasures_metricAt ref) fun m => ?_
    split
    · exact onlyMeasures_tagTexts ref _ _ _
    · exact .pure _

theorem onlyMeasures_fileReport (ref : MetricRef) (r : FanInOut.Report) :
    OnlyMeasures c (fileReport ref r) := by
  refine .bind (.forM fun entry _ => onlyMeasures_mergeRow ref entry.1 entry.2) fun _ => ?_
  split
  · exact onlyMeasures_addOverall ref _
  · exact onlyMeasures_log _ _ _

theorem onlyMeasures_measureFanInOut (ref : MetricRef) (slots : GraphSlots) :
    OnlyMeasures c (measureFanInOut ref slots) := by
  refine .bind onlyMeasures_analysis fun a => .bind (.forM fun r _ => onlyMeasures_fileReport ref r)
    fun _ => ?_
  split
  · exact .throw _
  · exact .pure _

theorem onlyMeasures_fileCommunity (ref : MetricRef) (rs : Results) (kind : GraphKind)
    (node : String) (n : Nat) : OnlyMeasures c (fileCommunity ref rs kind node n) := by
  rw [fileCommunity]
  dsimp only
  split
  · exact .pure _
  · split
    · exact .bind (onlyMeasures_recordFigure node _ _) fun _ => onlyMeasures_mergeRow ref node _
    · exact onlyMeasures_mergeRow ref node _

theorem onlyMeasures_measureCommunities (ref : MetricRef) (slots : GraphSlots) (rs : Results) :
    OnlyMeasures c (measureCommunities ref slots rs) := by
  refine .bind onlyMeasures_analysis fun a => .forM fun v _ => ?_
  split
  · exact onlyMeasures_log _ _ _
  · exact .bind (.forM fun entry _ => onlyMeasures_fileCommunity ref rs v.kind entry.1 entry.2)
      fun _ =>
      onlyMeasures_addOverall ref _

theorem onlyMeasures_measureHistory {state : HistoryState} {names : List String} {j j' : Job}
    {m : Metric} (hj : Measuring c j) (hm : j.analysis.metric? ref = some m)
    (hgauge : m.gauge = .history state) (hok : measureHistory ref state names j = .ok () j') :
    Measuring c j' := by
  obtain ⟨s, j₁, hs, hok⟩ := bind_eq_ok.mp hok
  obtain ⟨rfl, rfl⟩ := EStateM.Result.ok.inj hs
  obtain ⟨s, j₁, hs, hok⟩ := bind_eq_ok.mp hok
  obtain ⟨rfl, rfl⟩ := EStateM.Result.ok.inj hs
  obtain ⟨⟨⟩, j₁, hmodify, hok⟩ := bind_eq_ok.mp hok
  -- only here the kind of a metric could change
  have hj₁ : Measuring c j₁ := by
    obtain ⟨m', hm', hmodify⟩ := metricAt_bind_eq_ok.mp hmodify
    obtain ⟨-, rfl⟩ := EStateM.Result.ok.inj hmodify
    obtain rfl := Option.some.inj (hm.symm.trans hm')
    refine hj.replace rfl (fun _ => rfl) hm ?_
    rw [Metric.kind, Metric.kind, hgauge]
    rfl
  exact Keeps.bind (onlyMeasures_lift _) (fun _ => onlyMeasures_addOverall ref _) j₁ () j' hj₁ hok

/-! ### All metrics -/

theorem onlyMeasures_measure (ref : MetricRef) (rs : Results) :
    OnlyMeasures c (measure ref rs) := by
  intro j _ j' hj hok
  obtain ⟨m, hm, hok⟩ := metricAt_bind_eq_ok.mp hok
  cases hgauge : m.gauge with
  | methods => exact onlyMeasures_measureMethods ref _ j () j' hj (by simpa only [hgauge] using hok)
  | sourceLines =>
    exact onlyMeasures_measureSourceLines ref _ j () j' hj (by simpa only [hgauge] using hok)
  | whitespace =>
    exact onlyMeasures_measureWhitespace ref _ j () j' hj (by simpa only [hgauge] using hok)
  | fanInOut slots =>
    exact onlyMeasures_measureFanInOut ref slots j () j' hj (by simpa only [hgauge] using hok)
  | communities slots =>
    exact onlyMeasures_measureCommunities ref slots rs j () j' hj (by simpa only [hgauge] using hok)
  | terms texts =>
    exact onlyMeasures_measureTerms ref _ j () j' hj (by simpa only [hgauge] using hok)
  | history state =>
    exact onlyMeasures_measureHistory hj hm hgauge (by simpa only [hgauge] using hok)

theorem onlyMeasures_calculateMetric (ref : MetricRef) : OnlyMeasures c (calculateMetric ref) := by
  refine .bind onlyMeasures_session fun s => .bind (.forM fun scope _ => ?_) fun _ => ?_
  · refine .bind onlyMeasures_analysis fun a => ?_
    split
    · exact .bind (onlyMeasures_measure ref _) fun _ => onlyMeasures_collectMetric ref
    · exact .pure _
  · exact .bind onlyMeasures_session fun s => onlyMeasures_modifyStatistics _

theorem onlyMeasures_calculateMetrics (graph : Bool) : OnlyMeasures c (calculateMetrics graph) := by
  refine .bind onlyMeasures_settings fun s => .bind (onlyMeasures_log _ _ _) fun _ => ?_
  refine .bind (.bind onlyMeasures_analysis fun _ => .pure _)
    fun refs => .bind (.forM fun ref _ => ?_) fun _ => ?_
  · exact .bind (onlyMeasures_metricAt ref) fun _ => .bind (onlyMeasures_log _ _ _) fun _ =>
      onlyMeasures_calculateMetric ref
  · exact onlyMeasures_log _ _ _

end Work

end CodeAtlas
