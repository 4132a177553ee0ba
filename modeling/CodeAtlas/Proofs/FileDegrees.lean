import CodeAtlas.Proofs.FanDegrees

/-!
# Dependencies of files next to those of entities

Both graphs have the same word for their degrees, so the two metrics of fan-in and fan-out file into
the same place. The one of entities comes last, and a name that is a node of both graphs ends with
what the entities say: `Work.calculateGraphMetrics_carriesFan` tells when the graph of files carries
its own degrees all the same.
-/

namespace CodeAtlas

open Effect

theorem flatMap_eq_of_unique {α β : Type} {f : α → List β} {xs : List α} (hnd : xs.Nodup) {x : α}
    (hx : x ∈ xs) (hrest : ∀ y ∈ xs, y ≠ x → f y = []) : xs.flatMap f = f x := by
  obtain ⟨l, r, rfl⟩ := List.append_of_mem hx
  rw [List.nodup_append, List.nodup_cons] at hnd
  obtain ⟨-, ⟨hr, -⟩, hl⟩ := hnd
  have hleft : l.flatMap f = [] := List.flatMap_eq_nil_iff.mpr fun y hy =>
    hrest y (List.mem_append_left _ hy) (hl y hy x List.mem_cons_self)
  have hright : r.flatMap f = [] := List.flatMap_eq_nil_iff.mpr fun y hy =>
    hrest y (by simp [hy]) fun heq => hr (heq ▸ hy)
  rw [List.flatMap_append, List.flatMap_cons, hleft, hright, List.append_nil, List.nil_append]

namespace Analysis

variable {a : Analysis}

theorem fanRows_eq_nil {ref : MetricRef} {m : Metric} (hm : a.metric? ref = some m)
    (hkind : m.kind ≠ .fanInOut) : a.fanRows ref = [] := by
  rw [fanRows, hm]
  change m.fanRows a = []
  rw [Metric.fanRows]
  split
  · next slots hgauge =>
    rw [Metric.kind, hgauge] at hkind
    exact absurd rfl hkind
  · rfl

theorem Prepared.flatMap_fanRows (h : a.Prepared) {mf me : Metric}
    (hmf : a.metric? ⟨.files, MetricKind.fanInOut.name⟩ = some mf)
    (hme : a.metric? ⟨.entities, MetricKind.fanInOut.name⟩ = some me) (hf : mf.kind = .fanInOut)
    (he : me.kind = .fanInOut) :
    (a.refs true).flatMap a.fanRows = mf.fanRows a ++ me.fanRows a := by
  have hscope {scope : ScanScope} {m : Metric}
      (hm : a.metric? ⟨scope, MetricKind.fanInOut.name⟩ = some m)
      (hkind : m.kind = .fanInOut) : (a.refsOf true scope).flatMap a.fanRows = m.fanRows a := by
    have hmem : ⟨scope, MetricKind.fanInOut.name⟩ ∈ a.refsOf true scope :=
      mem_refsOf.mpr ⟨rfl, m, hm, by rw [hkind]; rfl⟩
    rw [flatMap_eq_of_unique (a.nodup_refsOf true scope) hmem, fanRows, hm]
    · rfl
    · rintro ref href hne
      obtain ⟨rfl, m', hm', hgraph⟩ := mem_refsOf.mp href
      refine fanRows_eq_nil hm' fun hkind' => hne ?_
      rw [← hkind', ← h.name ref m' hm' hgraph]
  rw [refs, List.flatMap_cons, List.flatMap_singleton, List.flatMap_append, hscope hmf hf,
    hscope hme he]

end Analysis

/-- An analysis that measures the dependencies of files and those of entities, each with a metric of
its own; all its metrics of graphs are new. -/
structure Analysis.MeasuresBoth (a : Analysis) (files entities : GraphView) : Prop where
  keyed : a.Keyed
  files : a.graphs.get? .fileDependency = some files
  entities : a.graphs.get? .entityDependency = some entities
  fileMetric : ∃ m kinds, a.metric? ⟨.files, MetricKind.fanInOut.name⟩ = some m ∧
    Metric.new .fanInOut a.settings kinds = .ok m ∧ .fileDependency ∈ kinds ∧
      .entityDependency ∉ kinds
  entityMetric : ∃ m kinds, a.metric? ⟨.entities, MetricKind.fanInOut.name⟩ = some m ∧
    Metric.new .fanInOut a.settings kinds = .ok m ∧ .entityDependency ∈ kinds
  metrics : ∀ ref m, a.metric? ref = some m → m.kind.isGraph = true →
    ref.name = m.kind.name ∧ ∃ kinds, Metric.new m.kind a.settings kinds = .ok m

namespace Analysis.MeasuresBoth

variable {a a' : Analysis} {files entities : GraphView}

section
variable (h : a.MeasuresBoth files entities)
include h

theorem prepared (hfills : Fills a a') : a'.Prepared := by
  have hnew : ∀ ref m, a'.metric? ref = some m → m.kind.isGraph = true →
      ref.name = m.kind.name ∧ m.rows = ∅ ∧ m.Measures a' := by
    intro ref m hm hgraph
    rw [hfills.rest] at hm
    obtain ⟨hname, kinds, hnew⟩ := h.metrics ref m hm hgraph
    exact ⟨hname, Metric.of_new hfills.keyed hgraph hnew⟩
  exact ⟨fun ref m hm hgraph => (hnew ref m hm hgraph).1,
    fun ref m hm hgraph => (hnew ref m hm hgraph).2.1,
    fun ref m hm hgraph => (hnew ref m hm hgraph).2.2⟩

theorem get?_files (hfills : Fills a a') :
    a'.graphs.get? .fileDependency =
      some { files with graph := files.graph.addDependencies a.fileResults } := by
  rw [hfills.simple _ (by decide), h.files]
  rfl

theorem get?_entities (hfills : Fills a a') :
    a'.graphs.get? .entityDependency =
      some { entities with graph := entities.graph.addDependencies a.entityResults } := by
  rw [hfills.simple _ (by decide), h.entities]
  rfl

end

end Analysis.MeasuresBoth

namespace Work

variable {j : Job} {files entities : GraphView}

/-- Both metrics file under the same word, into the same rows, and that of entities comes last. -/
theorem reaches_of_measuresBoth {a : Analysis} (h : j.analysis.MeasuresBoth files entities)
    (hfills : Analysis.Fills j.analysis a) :
    Reaches calculateGraphMetrics { j with analysis := a } fun _ t => t.analysis.graphs = a.graphs ∧
      (∀ n ∈ (entities.graph.addDependencies j.analysis.entityResults).names,
        t.analysis.rows.SaysFan "dependency"
          (entities.graph.addDependencies j.analysis.entityResults) n) ∧
      ∀ n ∈ (files.graph.addDependencies j.analysis.fileResults).names,
        n ∉ (entities.graph.addDependencies j.analysis.entityResults).names →
        t.analysis.rows.SaysFan "dependency"
          (files.graph.addDependencies j.analysis.fileResults) n := by
  obtain ⟨mf, kf, hmf, hnewf, hkf, hkf'⟩ := h.fileMetric
  obtain ⟨me, ke, hme, hnewe, hke⟩ := h.entityMetric
  obtain rfl := Metric.of_new_fanInOut hnewf
  obtain rfl := Metric.of_new_fanInOut hnewe
  have hprepared := h.prepared hfills
  have hmetric : ∀ ref, a.metric? ref = j.analysis.metric? ref :=
    fun ref => by rw [hfills.rest]; rfl
  have hrows := hprepared.flatMap_fanRows ((hmetric _).trans hmf) ((hmetric _).trans hme) rfl rfl
  obtain ⟨hkeyIn, hkeyOut⟩ := FanInOut.mem_keys (s := "dependency") (by decide)
  refine (reaches_calculateGraphMetrics (j := { j with analysis := a }) hprepared).imp
    fun _ t ht => ?_
  refine ⟨ht.graphs, fun n hn => ?_, fun n hn hother => ?_⟩
  all_goals
    obtain ⟨hinF, houtF⟩ :=
      hfills.keyed.lastFiled?_slotViews ⟨hkf, .inr ⟨rfl, hkf'⟩⟩ (h.get?_files hfills) rfl n
    obtain ⟨hinE, houtE⟩ := hfills.keyed.lastFiled?_slotViews ⟨hke, .inl (by decide)⟩
      (h.get?_entities hfills) rfl n
    rw [Rows.SaysFan, ht.figures n _ hkeyIn, ht.figures n _ hkeyOut, hrows, Rows.lastFiled?_append,
      Rows.lastFiled?_append, Metric.fanRows, Metric.fanRows, hinF, hinE, houtF, houtE]
  · rw [if_pos hn, if_pos hn]
    exact ⟨rfl, rfl⟩
  · rw [if_neg hother, if_neg hother, if_pos hn, if_pos hn]
    exact ⟨rfl, rfl⟩

/-- The nodes of the graph of entities carry their degrees. Those of the graph of files do so just
if both graphs agree on the degrees of the nodes that they have in common. -/
theorem calculateGraphMetrics_carriesFan (j : Job) (files entities : GraphView)
    (h : j.analysis.MeasuresBoth files entities) :
    ((j.analysis.graphs.contains .entityComplete = true →
      j.analysis.graphs.contains .entityInheritance = true) →
      (∀ v, j.analysis.graphs.get? .fileSystem = some v → v.TellsDirectories) →
      ∃ j', measureGraphs calculateGraphMetrics j = .ok () j') ∧
    ∀ j', measureGraphs calculateGraphMetrics j = .ok () j' → ∃ f e,
      j'.analysis.graphs.get? .fileDependency = some f ∧
      j'.analysis.graphs.get? .entityDependency = some e ∧
      f.graph.SameShape (files.graph.addDependencies j.analysis.fileResults) ∧
      e.graph.SameShape (entities.graph.addDependencies j.analysis.entityResults) ∧
      e.graph.CarriesFan "dependency" ∧
      (f.graph.CarriesFan "dependency" ↔ ∀ n ∈ f.graph.names, n ∈ e.graph.names →
        f.graph.inDegree n = e.graph.inDegree n ∧ f.graph.outDegree n = e.graph.outDegree n) := by
  have hx := fun a hfills => reaches_of_measuresBoth (a := a) h hfills
  constructor
  · intro hparts hdirectories
    refine exists_measureGraphs h.keyed hx (fun hcomplete => ⟨?_, hparts hcomplete⟩) hdirectories
    rw [OrderedMap.contains, h.entities]
    rfl
  · intro j' hok
    obtain ⟨a, t, hfills, hsame, ⟨hentities, hfiles⟩, hkeyed, hadd⟩ :=
      of_measureGraphs h.keyed hx hok
    have hgetF := hsame ▸ h.get?_files hfills
    have hgetE := hsame ▸ h.get?_entities hfills
    obtain ⟨f, hf, hshapeF, hattributeF⟩ := hkeyed.exists_labelled hadd rfl hgetF
    obtain ⟨e, he, hshapeE, hattributeE⟩ := hkeyed.exists_labelled hadd rfl hgetE
    refine ⟨f, e, hf, he, hshapeF, hshapeE,
      Digraph.carriesFan_of_saysFan rfl hshapeE hattributeE hentities, ?_⟩
    constructor
    · -- On a common name the graph of files carries the degrees of the other graph, and these are
      -- its own too.
      intro hcarries n hn hne
      have hown := hcarries n hn
      rw [hshapeF.names] at hn
      have hother :=
        Digraph.attribute?_of_saysFan rfl (hattributeF n hn) (hentities n (hshapeE.names ▸ hne))
      rw [← hshapeE.inDegree, ← hshapeE.outDegree] at hother
      exact ⟨Int.ofNat_inj.mp (by simpa using hown.1.symm.trans hother.1),
        Int.ofNat_inj.mp (by simpa using hown.2.symm.trans hother.2)⟩
    · intro hagree n hn
      by_cases hne : n ∈ e.graph.names
      · obtain ⟨hin, hout⟩ := hagree n hn hne
        rw [hin, hout, hshapeE.inDegree, hshapeE.outDegree]
        rw [hshapeF.names] at hn
        exact Digraph.attribute?_of_saysFan rfl (hattributeF n hn)
          (hentities n (hshapeE.names ▸ hne))
      · rw [hshapeF.inDegree, hshapeF.outDegree]
        rw [hshapeF.names] at hn
        exact Digraph.attribute?_of_saysFan rfl (hattributeF n hn)
          (hfiles n hn (hshapeE.names ▸ hne))

end Work

namespace Sample

def filesAndClasses : Job :=
  ⟨session,
    { results := parts
      graphs :=
        .ofList [(.fileDependency, .new .fileDependency),
          (.entityDependency, .new .entityDependency)]
      fileMetrics := fanMetrics [.fileDependency]
      entityMetrics := fanMetrics [.entityDependency, .fileDependency] }⟩

theorem measuresBoth_filesAndClasses :
    filesAndClasses.analysis.MeasuresBoth (.new .fileDependency) (.new .entityDependency) where
  keyed := by
    intro kind v hv
    cases kind with
    | fileDependency | entityDependency => exact congrArg GraphView.kind (Option.some.inj hv).symm
    | entityInheritance | entityComplete | fileSystem | fileChangeCoupling => cases hv
  files := rfl
  entities := rfl
  fileMetric := ⟨_, [.fileDependency], rfl, rfl, by decide, by decide⟩
  entityMetric := ⟨_, [.entityDependency, .fileDependency], rfl, rfl, by decide⟩
  metrics := by
    rintro ⟨scope, name⟩ m hm -
    cases scope with
    | files =>
      obtain ⟨rfl, rfl⟩ := Prod.mk.inj (List.mem_singleton.mp (OrderedMap.get?_eq_some_iff.mp hm))
      exact ⟨rfl, _, rfl⟩
    | entities =>
      obtain ⟨rfl, rfl⟩ := Prod.mk.inj (List.mem_singleton.mp (OrderedMap.get?_eq_some_iff.mp hm))
      exact ⟨rfl, _, rfl⟩

/-- One file uses the list, but two classes do, and that is what the graph of files says. -/
theorem calculateGraphMetrics_not_carriesFan : ∃ j' f e,
    Work.measureGraphs Work.calculateGraphMetrics filesAndClasses = .ok () j' ∧
      j'.analysis.graphs.get? .fileDependency = some f ∧
      j'.analysis.graphs.get? .entityDependency = some e ∧
      e.graph.CarriesFan "dependency" ∧ f.graph.inDegree "x.List" = 1 ∧
      e.graph.inDegree "x.List" = 2 ∧
      ¬ f.graph.CarriesFan "dependency" := by
  obtain ⟨hends, hfan⟩ :=
    Work.calculateGraphMetrics_carriesFan filesAndClasses _ _ measuresBoth_filesAndClasses
  obtain ⟨j', hok⟩ := hends (fun h => by cases h) fun v hv => by cases hv
  obtain ⟨f, e, hf, he, hshapeF, hshapeE, hcarries, hiff⟩ := hfan j' hok
  have hfiles : f.graph.inDegree "x.List" = 1 := by
    rw [hshapeF.inDegree]
    decide +kernel
  have hentities : e.graph.inDegree "x.List" = 2 := by
    rw [hshapeE.inDegree]
    decide +kernel
  refine ⟨j', f, e, hok, hf, he, hcarries, hfiles, hentities, fun hcarriesF => ?_⟩
  have hmemF : "x.List" ∈ f.graph.names := by
    rw [hshapeF.names]
    decide +kernel
  have hmemE : "x.List" ∈ e.graph.names := by
    rw [hshapeE.names]
    decide +kernel
  have hagree := (hiff.mp hcarriesF "x.List" hmemF hmemE).1
  rw [hfiles, hentities] at hagree
  cases hagree

end Sample

end CodeAtlas
