import CodeAtlas.Proofs.Phases

/-!
# Imports of files in the graph of their dependencies

The graph of the dependencies of files is filled when there are metrics of graphs, and only then. It
then has a node for every result of a file and an edge for every import of one, and both are still
there at the end of the analysis (`Run.analyze_fileDependency`).
-/

namespace CodeAtlas

open Effect OrderedMap

namespace Digraph

theorem of_addDependencies {rs : Results} {r : ScanResult} (hr : r ∈ rs.values) (g : Digraph) :
    r.uniqueName ∈ (g.addDependencies rs).names ∧
    ∀ d ∈ r.imports, (r.uniqueName, d) ∈ (g.addDependencies rs).arcs := by
  rw [addDependencies_eq]
  exact ⟨mem_names_links.mpr (.inr ⟨r, hr, .inl rfl⟩),
    fun d hd => mem_arcs_links.mpr (.inr ⟨r, hr, rfl, hd⟩)⟩

end Digraph

/-! ### What measuring leaves of results and metrics -/

theorem Results.exists_of_bare {rs rs' : Results} (h : rs'.bare = rs.bare) {key : String}
    {r : ScanResult} (hr : rs'.get? key = some r) :
    ∃ r₀, rs.get? key = some r₀ ∧ r = { r₀ with metrics := r.metrics } := by
  have hget := congrArg (get? · key) h
  simp only [bare, get?_mapValues, hr, Option.map_some] at hget
  obtain ⟨r₀, hr₀, heq⟩ := Option.map_eq_some_iff.mp hget.symm
  exact ⟨r₀, hr₀, congrArg (fun s : ScanResult => { s with metrics := r.metrics }) heq.symm⟩

namespace Measuring

variable {c j : Job}

theorem hasGraphMetrics (h : Measuring c j) (hc : c.analysis.Named) :
    j.analysis.hasGraphMetrics = c.analysis.hasGraphMetrics :=
  Analysis.any_allMetrics_congr (h.kinds hc) MetricKind.isGraph

theorem exists_fileResult (h : Measuring c j) {r : ScanResult}
    (hr : r ∈ j.analysis.fileResults.values) :
    ∃ r₀ ∈ c.analysis.fileResults.values, r₀.uniqueName = r.uniqueName ∧
      r₀.imports = r.imports := by
  obtain ⟨key, hkey⟩ := mem_values_iff.mp hr
  obtain ⟨hget, hfile⟩ := get?_filter_eq_some_iff.mp hkey
  obtain ⟨r₀, hr₀, heq⟩ := Results.exists_of_bare h.bare hget
  rw [heq] at hfile ⊢
  exact ⟨r₀, mem_values_iff.mpr ⟨key, get?_filter_eq_some_iff.mpr ⟨hr₀, hfile⟩⟩, rfl, rfl⟩

end Measuring

/-! ### The graph after an analysis -/

/-- Every graph is kept under its kind and every metric under its name. -/
structure Analysis.Orderly (a : Analysis) : Prop where
  keyed : a.Keyed
  named : a.Named

namespace Work

variable {j j' : Job} {v : GraphView}

/-- With metrics of graphs, the graph gets the files and their imports; without any, nothing is done
to it. -/
theorem calculateAll_fileDependency (h : j.analysis.Orderly)
    (hv : j.analysis.graphs.get? .fileDependency = some v) (hok : calculateAll j = .ok () j') :
    ∃ v', j'.analysis.graphs.get? .fileDependency = some v' ∧
      (j.analysis.hasGraphMetrics = true → ∀ r ∈ j'.analysis.fileResults.values,
        r.uniqueName ∈ v'.graph.names ∧
        ∀ d ∈ r.imports, (r.uniqueName, d) ∈ v'.graph.arcs) ∧
      (j.analysis.hasGraphMetrics = false → v' = v) := by
  obtain ⟨j₁, hcode, hgraph⟩ := calculateAll_eq_ok_iff.mp hok
  have hmeasuring := measuring_of_code hcode
  have hv₁ : j₁.analysis.graphs.get? .fileDependency = some v := hmeasuring.graphs ▸ hv
  rw [hmeasuring.hasGraphMetrics h.named] at hgraph
  cases hhas : j.analysis.hasGraphMetrics with
  | false =>
    rw [hhas, if_neg (by simp)] at hgraph
    subst hgraph
    exact ⟨v, hv₁, by simp, fun _ => rfl⟩
  | true =>
    rw [hhas, if_pos rfl] at hgraph
    have hkeyed₁ : j₁.analysis.Keyed := fun kind u hu => h.keyed kind u (hmeasuring.graphs ▸ hu)
    obtain ⟨_, j₂, hfill, hgraph⟩ := bind_eq_ok.mp hgraph
    obtain ⟨a, ha, rfl⟩ := step_eq_ok_iff.mp hfill
    obtain ⟨_, j₃, hmetrics, hadd⟩ := bind_eq_ok.mp hgraph
    obtain ⟨a', ha', rfl⟩ := step_eq_ok_iff.mp hadd
    have hfills := hkeyed₁.fills ha
    have hmeasuring₂ := onlyMeasures_calculateMetrics true _ () j₃ (.refl _) hmetrics
    have hkeyed₃ : j₃.analysis.Keyed :=
      fun kind u hu => hfills.keyed kind u (hmeasuring₂.graphs ▸ hu)
    have hv₃ : j₃.analysis.graphs.get? .fileDependency =
        some { v with graph := v.graph.addDependencies j₁.analysis.fileResults } := by
      rw [hmeasuring₂.graphs, hfills.simple _ (by decide), hv₁]
      rfl
    obtain ⟨v', hv', hshape, -⟩ := hkeyed₃.exists_labelled ha' rfl hv₃
    refine ⟨v', hv', fun _ r hr => ?_, by simp⟩
    -- the results are those from which the graph was filled, but for their figures
    have hr₃ : r ∈ j₃.analysis.fileResults.values := by
      rw [show a' = _ from Analysis.rest_of_addRowsToGraphs ha'] at hr
      exact hr
    obtain ⟨r₀, hr₀, hname, himports⟩ := hmeasuring₂.exists_fileResult hr₃
    rw [show a = _ from hfills.rest] at hr₀
    have hr₁ : r₀ ∈ j₁.analysis.fileResults.values := hr₀
    obtain ⟨hnode, hedges⟩ := Digraph.of_addDependencies hr₁ v.graph
    rw [hshape.names, hshape.arcs, ← hname, ← himports]
    exact ⟨hnode, hedges⟩

end Work

/-- Once an analysis that has metrics of graphs has been carried out, the graph of the dependencies
of files has a node for every result of a file and an edge for every import of one. Without such
metrics the graph is left as it was. -/
theorem Run.analyze_fileDependency (i : Nat) (p p' : Program) (a : Analysis) (v : GraphView)
    (ha : p.configuration.analyses[i]? = some a) (h : a.Orderly)
    (hv : a.graphs.get? .fileDependency = some v) (hok : analyze i p = .ok () p') :
    ∃ a' v', p'.configuration.analyses[i]? = some a' ∧ a'.graphs.get? .fileDependency = some v' ∧
      (a.hasGraphMetrics = true → ∀ r ∈ a'.fileResults.values, r.uniqueName ∈ v'.graph.names ∧
        ∀ d ∈ r.imports, (r.uniqueName, d) ∈ v'.graph.arcs) ∧
      (a.hasGraphMetrics = false → v' = v) := by
  obtain ⟨j₁, d, j₂, j₃, -, hbuild, -, hcalculate, hfinish, ha'⟩ := of_analyze ha hok
  obtain ⟨hkeyed, hgraphs, hmetrics⟩ := Work.other_of_buildFileSystem h.keyed hbuild
  have horderly : (jobAfter j₁ d).analysis.Orderly :=
    ⟨hkeyed, fun ref m hm => h.named ref m ((hmetrics ref).symm.trans hm)⟩
  have hv₁ : (jobAfter j₁ d).analysis.graphs.get? .fileDependency = some v :=
    (hgraphs _ (by decide)).trans hv
  have hhas : (jobAfter j₁ d).analysis.hasGraphMetrics = a.hasGraphMetrics :=
    Analysis.any_allMetrics_congr (fun ref => congrArg _ (hmetrics ref)) MetricKind.isGraph
  obtain ⟨v', hv', hfilled, hleft⟩ := Work.calculateAll_fileDependency horderly hv₁ hcalculate
  rw [hhas] at hfilled hleft
  have hexported := Analysis.eq_of_unexported (Work.onlyExports_finish _ j₂ () j₃ rfl hfinish)
  refine ⟨j₃.analysis, v', ha', ?_, ?_, hleft⟩
  · rw [hexported]
    exact hv'
  · rw [hexported]
    exact hfilled

namespace Sample

def including (kinds : List MetricKind) : Program where
  session :=
    { disk := { tree := .dir [("w", .dir [("p", .dir
        [("a.c", .file "#include \"b.h\"".toUTF8), ("b.h", .file "int x ;".toUTF8)])])], cwd := [] }
      home := "/", now := 0 }
  configuration.analyses :=
    [{ settings :=
        { scans := .ofStrings ["file_scan"], name := .text "includes", source := .text "/w/p"
          exports := { directory := .text "/w" }
          filters := { languages := .ofStrings ["c"], extensions := .ofStrings [".c", ".h"] } }
       graphs := .ofList [(.fileDependency, .new .fileDependency)]
       fileMetrics := .ofList (kinds.filterMap fun kind =>
        (Metric.new kind {} [.fileDependency]).toOption.map fun m => (kind.name, m)) }]

theorem orderly_including :
    ((including [.fanInOut]).configuration.analyses.head (by decide)).Orderly where
  keyed := by
    intro kind v hv
    cases kind with
    | fileDependency => exact congrArg GraphView.kind (Option.some.inj hv).symm
    | _ => cases hv
  named := by
    rintro ⟨scope, name⟩ m hm
    cases scope with
    | files =>
      obtain ⟨rfl, rfl⟩ := Prod.mk.inj (List.mem_singleton.mp (get?_eq_some_iff.mp hm))
      rfl
    | entities => cases hm

theorem imports_including : ((final? (Run.analyze 0) (including [.fanInOut])).bind
      fun p' => p'.configuration.analyses[0]?).map
    (fun a => a.fileResults.values.map fun r => (r.uniqueName, r.imports)) =
      some [("p/a.c", ["p/b.h"]), ("p/b.h", [])] := by
  decide +kernel

theorem analyze_fileDependency_including :
    ∃ p' a' v', Run.analyze 0 (including [.fanInOut]) = .ok () p' ∧
    p'.configuration.analyses[0]? = some a' ∧ a'.graphs.get? .fileDependency = some v' ∧
    "p/a.c" ∈ v'.graph.names ∧ ("p/a.c", "p/b.h") ∈ v'.graph.arcs := by
  obtain ⟨a₁, ha₁, himports⟩ := Option.map_eq_some_iff.mp imports_including
  obtain ⟨p', hp', ha₁⟩ := Option.bind_eq_some_iff.mp ha₁
  have hok := of_final? hp'
  obtain ⟨a', v', ha', hv', hfilled, -⟩ :=
    Run.analyze_fileDependency 0 (including [.fanInOut]) p' _ _ rfl orderly_including rfl hok
  obtain rfl := Option.some.inj (ha₁.symm.trans ha')
  have hmem : ("p/a.c", ["p/b.h"]) ∈
      a₁.fileResults.values.map fun r => (r.uniqueName, r.imports) := by
    rw [himports]
    exact List.mem_cons_self
  obtain ⟨r, hr, heq⟩ := List.mem_map.mp hmem
  obtain ⟨hname, himport⟩ := Prod.mk.inj heq
  obtain ⟨hnode, hedges⟩ := hfilled (by decide) r hr
  rw [hname, himport] at hedges
  exact ⟨p', a₁, v', hok, ha', hv', hname ▸ hnode, hedges "p/b.h" List.mem_cons_self⟩

/-- A metric of code does not make the graph: it stays empty, though there are files and an
import. -/
theorem analyze_fileDependency_unfilled :
    ∃ p' a' v' r, Run.analyze 0 (including [.sourceLines]) = .ok () p' ∧
    p'.configuration.analyses[0]? = some a' ∧ a'.graphs.get? .fileDependency = some v' ∧
    r ∈ a'.fileResults.values ∧
    r.uniqueName ∉ v'.graph.names ∧ r.imports = ["p/b.h"] ∧ v'.graph.arcs = [] := by
  have hends : ((final? (Run.analyze 0) (including [.sourceLines])).bind
      fun p' => p'.configuration.analyses[0]?).map
      (fun a => (a.fileResults.values.map fun r => (r.uniqueName, r.imports),
        (a.graphs.get? .fileDependency).map fun v => (v.graph.names, v.graph.arcs))) =
        some ([("p/a.c", ["p/b.h"]), ("p/b.h", [])], some ([], [])) := by
    decide +kernel
  obtain ⟨a', ha', heq⟩ := Option.map_eq_some_iff.mp hends
  obtain ⟨p', hp', ha'⟩ := Option.bind_eq_some_iff.mp ha'
  obtain ⟨hresults, hgraph⟩ := Prod.mk.inj heq
  obtain ⟨v', hv', hempty⟩ := Option.map_eq_some_iff.mp hgraph
  obtain ⟨hnames, harcs⟩ := Prod.mk.inj hempty
  have hmem : ("p/a.c", ["p/b.h"]) ∈
      a'.fileResults.values.map fun r => (r.uniqueName, r.imports) := by
    rw [hresults]
    exact List.mem_cons_self
  obtain ⟨r, hr, heq⟩ := List.mem_map.mp hmem
  exact ⟨p', a', v', r, of_final? hp', ha', hv', hr, by simp [hnames], (Prod.mk.inj heq).2, harcs⟩

end Sample

end CodeAtlas
