import CodeAtlas.Proofs.ResultGraphs
import CodeAtlas.Proofs.SideBySide
import Mathlib.Data.List.Dedup
import Mathlib.Data.Prod.Basic

/-!
# Figures of the graph of dependencies

In the graph of dependencies the degrees of a node are counted in the results: how many import it
and how much it imports (`Results.inDegree_dependencyGraph`, `Results.outDegree_dependencyGraph`).
Both kinds of degrees add up to the number of edges. A metric files them, their averages and the
first of the greatest ones, and filing them again changes nothing (`Work.measure_dependencyGraph`).
-/

namespace CodeAtlas

open Effect FanInOut

/-! ### Degrees -/

namespace Digraph

variable {g : Digraph} {a b n : String}

def flip (g : Digraph) : Digraph := ⟨g.nodes, g.arcs.map Prod.swap⟩

theorem successors_flip (g : Digraph) (n : String) : g.flip.successors n = g.predecessors n := by
  simp [flip, successors, predecessors, List.filter_map, Function.comp_def]

theorem mem_successors : b ∈ g.successors a ↔ (a, b) ∈ g.arcs := by simp [successors]

theorem mem_predecessors : a ∈ g.predecessors b ↔ (a, b) ∈ g.arcs := by simp [predecessors]

namespace Simple

theorem flip (hg : g.Simple) : g.flip.Simple := by
  refine ⟨fun a b he => ?_, hg.nodup.map Prod.swap_injective⟩
  obtain ⟨⟨x, y⟩, harc, heq⟩ := List.mem_map.mp he
  obtain ⟨rfl, rfl⟩ := Prod.mk.inj heq
  exact (hg.ends x y harc).symm

theorem length_edges (hg : g.Simple) : g.edges.length = g.arcs.length :=
  ((List.perm_ext_iff_of_nodup hg.nodup_edges hg.nodup).mpr fun _ => hg.mem_edges).length_eq

theorem total_outDegree (hg : g.Simple) :
    Decimal.total (g.names.map g.outDegree) = g.arcs.length := by
  rw [← hg.length_edges, edges, List.length_flatMap, Decimal.total, ← List.sum_eq_foldl_nat]
  simp only [List.length_map]
  rfl

theorem total_inDegree (hg : g.Simple) :
    Decimal.total (g.names.map g.inDegree) = g.arcs.length := by
  have hflip := hg.flip.total_outDegree
  have hdegree : g.flip.outDegree = g.inDegree :=
    funext fun n => by rw [outDegree, successors_flip]; rfl
  rwa [hdegree, show g.flip.arcs.length = g.arcs.length from List.length_map _] at hflip

end Simple

end Digraph

namespace Results

variable {rs : Results}

/-- The number of results that import something. -/
def fanIn (rs : Results) (n : String) : Nat := rs.values.countP fun r => n ∈ r.imports

/-- The number of different things that the result of a name imports; what is no result imports
nothing. -/
def fanOut (rs : Results) (n : String) : Nat :=
  (rs.values.find? fun r => r.uniqueName = n).elim 0 fun r => r.imports.dedup.length

theorem mem_arcs_dependencyGraph {a b : String} :
    (a, b) ∈ rs.dependencyGraph.arcs ↔ ∃ r ∈ rs.values, a = r.uniqueName ∧ b ∈ r.imports :=
  rs.simple_dependencyGraph.mem_edges.symm.trans (rs.ofResults_dependencyGraph.edges a b)

theorem inDegree_dependencyGraph (hnd : (rs.values.map ScanResult.uniqueName).Nodup) (n : String) :
    rs.dependencyGraph.inDegree n = rs.fanIn n := by
  have hperm : (rs.dependencyGraph.predecessors n).Perm
      ((rs.values.filter fun r => n ∈ r.imports).map ScanResult.uniqueName) := by
    refine (List.perm_ext_iff_of_nodup ?_ (hnd.sublist (List.filter_sublist.map _))).mpr fun a => ?_
    · rw [← Digraph.successors_flip]
      exact rs.simple_dependencyGraph.flip.nodup_successors n
    · rw [Digraph.mem_predecessors, mem_arcs_dependencyGraph]
      simp [and_assoc, eq_comm, and_comm]
  rw [Digraph.inDegree, hperm.length_eq, List.length_map, fanIn, List.countP_eq_length_filter]

theorem outDegree_dependencyGraph (hnd : (rs.values.map ScanResult.uniqueName).Nodup) (n : String) :
    rs.dependencyGraph.outDegree n = rs.fanOut n := by
  have hmem : ∀ b, b ∈ rs.dependencyGraph.successors n ↔
      ∃ r ∈ rs.values, n = r.uniqueName ∧ b ∈ r.imports := fun b =>
    Digraph.mem_successors.trans mem_arcs_dependencyGraph
  rw [Digraph.outDegree, fanOut]
  cases hfind : rs.values.find? fun r => r.uniqueName = n with
  | none =>
    refine List.length_eq_zero_iff.mpr (List.eq_nil_iff_forall_not_mem.mpr fun b hb => ?_)
    obtain ⟨r, hr, rfl, -⟩ := (hmem b).mp hb
    simpa using List.find?_eq_none.mp hfind r hr
  | some r =>
    obtain rfl : r.uniqueName = n := by simpa using List.find?_some hfind
    have hr := List.mem_of_find?_eq_some hfind
    refine ((List.perm_ext_iff_of_nodup (rs.simple_dependencyGraph.nodup_successors _)
      (List.nodup_dedup _)).mpr
      fun b => ?_).length_eq
    rw [hmem, List.mem_dedup]
    constructor
    · rintro ⟨s, hs, hname, hb⟩
      rwa [List.inj_on_of_nodup_map hnd hr hs hname]
    · exact fun hb => ⟨r, hr, rfl, hb⟩

end Results

/-! ### Figures of a whole graph -/

namespace FanInOut

variable {degree : String → Nat} {names : List String} {best : String} {g : Digraph}

/-- The node `best` has the greatest degree of all, and is the first one that has it. -/
def IsFirstGreatest (degree : String → Nat) (names : List String) (best : String) : Prop :=
  ∃ before after, names = before ++ best :: after ∧ (∀ n ∈ before, degree n < degree best) ∧
    ∀ n ∈ after, degree n ≤ degree best

theorem IsFirstGreatest.le (h : IsFirstGreatest degree names best) {n : String} (hn : n ∈ names) :
    degree n ≤ degree best := by
  obtain ⟨before, after, rfl, hbefore, hafter⟩ := h
  rcases List.mem_append.mp hn with hn | hn
  · exact (hbefore n hn).le
  · rcases List.mem_cons.mp hn with rfl | hn
    · exact le_rfl
    · exact hafter n hn

theorem exists_greatest (degree : String → Nat) (hne : names ≠ []) :
    ∃ best, greatest degree names = some (best, degree best) ∧
      IsFirstGreatest degree names best := by
  induction names with
  | nil => exact absurd rfl hne
  | cons n rest ih =>
    by_cases hrest : rest = []
    · subst hrest
      exact ⟨n, rfl, [], [], rfl, by simp, by simp⟩
    · obtain ⟨best, heq, hbest⟩ := ih hrest
      by_cases hlt : degree n < degree best
      · obtain ⟨before, after, rfl, hbefore, hafter⟩ := hbest
        refine ⟨best, by rw [greatest, heq]; exact if_pos hlt, n :: before, after, rfl, ?_, hafter⟩
        exact List.forall_mem_cons.mpr ⟨hlt, hbefore⟩
      · refine ⟨n, by rw [greatest, heq]; exact if_neg hlt, [], rest, rfl, by simp, fun x hx => ?_⟩
        exact (hbest.le hx).trans (not_lt.mp hlt)

/-- The figures of a whole graph of dependencies, by degrees that add up to the number of edges. -/
structure Summarizes (overall : OrderedMap String Value) (figure : String) (g : Digraph)
    (degree : String → Nat) : Prop where
  average : overall.get? ("avg-" ++ figure ++ "-dependency-graph") =
    some (average g.edges.length g.names.length)
  greatest : ∃ best, IsFirstGreatest degree g.names best ∧
    overall.get? ("max-" ++ figure ++ "-dependency-graph") = some (.int (degree best)) ∧
    overall.get? ("max-" ++ figure ++ "-name-dependency-graph") = some (.text best)

def summary (g : Digraph) : List (String × Value) :=
  averages "dependency" g ++ maxima "dependency" g

theorem summarizes (overall : OrderedMap String Value) (hg : g.Simple) (hne : g.names ≠ []) :
    Summarizes (overall.insertMany (summary g)) "fan-in" g g.inDegree ∧
    Summarizes (overall.insertMany (summary g)) "fan-out" g g.outDegree := by
  obtain ⟨i, hi, hfirstIn⟩ := exists_greatest g.inDegree hne
  obtain ⟨o, ho, hfirstOut⟩ := exists_greatest g.outDegree hne
  have hfigures : summary g =
      [("avg-fan-in-dependency-graph", average g.edges.length g.names.length),
        ("avg-fan-out-dependency-graph", average g.edges.length g.names.length),
        ("max-fan-in-dependency-graph", .int (g.inDegree i)),
        ("max-fan-in-name-dependency-graph", .text i),
        ("max-fan-out-dependency-graph", .int (g.outDegree o)),
        ("max-fan-out-name-dependency-graph", .text o)] := by
    rw [summary, averages, maxima, hg.total_inDegree, hg.total_outDegree, ← hg.length_edges,
      show g.nodes.size = g.names.length from (List.length_map _).symm]
    dsimp only
    rw [hi, ho]
    rfl
  have hnd : ((summary g).map Prod.fst).Nodup := by
    rw [hfigures]
    simp
  refine ⟨⟨?_, i, hfirstIn, ?_, ?_⟩, ?_, o, hfirstOut, ?_, ?_⟩
  all_goals
    rw [OrderedMap.get?_insertMany hnd, hfigures]
    rfl

theorem lastFiled?_dependency {n : String} (hn : n ∈ g.names) :
    Rows.lastFiled? (rows "dependency" g) n (key "fan-in" "dependency") =
      some (.int (g.inDegree n)) ∧
    Rows.lastFiled? (rows "dependency" g) n (key "fan-out" "dependency") =
      some (.int (g.outDegree n)) := by
  simpa only [hn, and_self, if_true] using lastFiled?_rows "dependency" "dependency" g n

end FanInOut

/-! ### Rows that are shown -/

theorem OrderedMap.insertMany_of_get? {κ α : Type} [DecidableEq κ] {m : OrderedMap κ α}
    {es : List (κ × α)} (h : ∀ e ∈ es, m.get? e.1 = some e.2) : m.insertMany es = m := by
  induction es with
  | nil => rfl
  | cons e es ih =>
    obtain ⟨he, hes⟩ := List.forall_mem_cons.mp h
    rw [insertMany_cons, insert_of_get? he, ih hes]

namespace Metric

variable {m : Metric} {rows : Rows} {name n k : String} {row : List (String × Value)}

/-- A figure in a row of the metric, wherever that row is kept. -/
def shown? (m : Metric) (rows : Rows) (name key : String) : Option Value :=
  (m.shownRows rows).figure? name key

theorem shown?_eq (m : Metric) (rows : Rows) (n k : String) : m.shown? rows n k =
    (m.rows.get? n).bind fun row =>
      match row with
      | .own row => row.get? k
      | .shared => rows.figure? n k := by
  rw [shown?, Rows.figure?, shownRows, OrderedMap.get?_mapValues]
  cases m.rows.get? n with
  | none => rfl
  | some row =>
    cases row with
    | own row => rfl
    | shared => exact rows.get?_getD n k

theorem shown?_mergeRow (m : Metric) (rows : Rows) (name : String) (row : List (String × Value))
    (n k : String) : (m.mergeRow rows name row).1.shown? (m.mergeRow rows name row).2 n k =
      (if name = n then (OrderedMap.ofList row).get? k else none).or (m.shown? rows n k) := by
  rw [mergeRow, shown?_eq, shown?_eq]
  by_cases hname : name = n
  · subst hname
    rw [if_pos rfl]
    split
    · next hnone =>
      rw [assignRow, OrderedMap.get?_insert, if_pos rfl, hnone]
      exact Option.or_none.symm
    · next old hold =>
      rw [OrderedMap.get?_insert, if_pos rfl, hold]
      exact OrderedMap.get?_insertMany_or ..
    · next hshared =>
      rw [hshared, Option.bind_some, Option.bind_some, Rows.figure?_insert, if_pos rfl,
        OrderedMap.get?_insertMany_or, Rows.get?_getD]
  · rw [if_neg hname, Option.none_or]
    split
    · rw [assignRow, OrderedMap.get?_insert, if_neg hname]
    · rw [OrderedMap.get?_insert, if_neg hname]
    · simp only [Rows.figure?_insert, if_neg hname]

theorem mergeRow_of_shown (hne : row ≠ []) (h : ∀ e ∈ row, m.shown? rows name e.1 = some e.2) :
    m.mergeRow rows name row = (m, rows) := by
  obtain ⟨e, he⟩ := List.exists_mem_of_ne_nil row hne
  simp only [shown?_eq] at h
  rw [mergeRow]
  split
  · next hnone =>
    have hfirst := h e he
    rw [hnone] at hfirst
    cases hfirst
  · next old hold =>
    rw [hold] at h
    rw [OrderedMap.insertMany_of_get? h, OrderedMap.insert_of_get? hold]
  · next hshared =>
    simp only [hshared, Option.bind_some] at h
    obtain ⟨old, hold, -⟩ := Option.bind_eq_some_iff.mp (h e he)
    simp only [Rows.figure?, hold, Option.bind_some] at h
    rw [OrderedMap.getD_eq, hold, Option.getD_some, OrderedMap.insertMany_of_get? h,
      OrderedMap.insert_of_get? hold]

end Metric

/-! ### Filing the figures -/

namespace Work

variable {ref : MetricRef} {m m' : Metric} {j j' : Job}

theorem Registered.put_self (hm : Registered ref m j) : j.put ref m j.analysis.rows = j := by
  obtain ⟨scope, name⟩ := ref
  obtain ⟨hmetric, rfl⟩ := hm
  cases scope with
  | files =>
    exact congrArg (fun ms => { j with analysis.fileMetrics := ms })
      (OrderedMap.insert_of_get? hmetric)
  | entities =>
    exact congrArg (fun ms => { j with analysis.entityMetrics := ms })
      (OrderedMap.insert_of_get? hmetric)

/-- Rows have been filed in a metric, and its overall figures are the given ones. -/
structure FiledRows (ref : MetricRef) (m : Metric) (j : Job)
    (es : List (String × List (String × Value))) (overall : OrderedMap String Value) (m' : Metric)
    (j' : Job) : Prop where
  registered : Registered ref m' j'
  gauge : m'.gauge = m.gauge
  graphs : j'.analysis.graphs = j.analysis.graphs
  shown : ∀ n k, m'.shown? j'.analysis.rows n k =
    (Rows.lastFiled? es n k).or (m.shown? j.analysis.rows n k)
  overall : m'.overall = overall

theorem FiledRows.append {es fs : List (String × List (String × Value))}
    {overall overall' : OrderedMap String Value} {m₁ : Metric} {j₁ : Job}
    (h : FiledRows ref m j es overall m₁ j₁) (h' : FiledRows ref m₁ j₁ fs overall' m' j') :
    FiledRows ref m j (es ++ fs) overall' m' j' where
  registered := h'.registered
  gauge := h'.gauge.trans h.gauge
  graphs := h'.graphs.trans h.graphs
  shown n k := by rw [h'.shown, h.shown, Rows.lastFiled?_append, Option.or_assoc]
  overall := h'.overall

section
variable (hm : Registered ref m j)
include hm

theorem reaches_filedRow (name : String) (row : List (String × Value)) :
    Reaches (mergeRow ref name row) j fun _ j' => ∃ m',
      FiledRows ref m j [(name, row)] m.overall m' j' := by
  have hgauge := m.gauge_mergeRow j.analysis.rows name row
  refine ⟨(), _, bind_of_ok (metricAt_of_metric? hm.metric), _,
    hm.put (congrArg Gauge.kind hgauge) _, hgauge, Analysis.graphs_setMetric .., fun n k => ?_,
    m.overall_mergeRow ..⟩
  refine (congrArg (fun rows => Metric.shown? _ rows n k) (rows_put ..)).trans
    ((m.shown?_mergeRow ..).trans ?_)
  rw [Rows.lastFiled?, Rows.lastFiled?, Option.none_or]

theorem reaches_filedRows (es : List (String × List (String × Value))) :
    Reaches (es.forM fun e => mergeRow ref e.1 e.2) j fun _ j' => ∃ m',
      FiledRows ref m j es m.overall m' j' := by
  refine .forM (I := fun done j' => ∃ m', FiledRows ref m j done m.overall m' j') []
    ⟨m, hm, rfl, rfl, fun _ _ => rfl, rfl⟩ ?_ rfl
  rintro done e rest t - ⟨m', h⟩
  refine (reaches_filedRow h.registered e.1 e.2).imp ?_
  rintro - t' ⟨m'', h'⟩
  exact ⟨m'', h.append (h.overall ▸ h')⟩

theorem reaches_filedOverall (figures : List (String × Value)) :
    Reaches (addOverall ref figures) j fun _ j' => ∃ m',
      FiledRows ref m j [] (m.overall.insertMany figures) m' j' := by
  let summed : Metric := { m with overall := m.overall.insertMany figures }
  refine ⟨(), _, modifyMetric_of_metric? hm.metric, summed,
    hm.put (show summed.kind = m.kind from rfl) _, rfl, Analysis.graphs_setMetric ..,
    fun n k => ?_, rfl⟩
  exact congrArg (fun rows => summed.shown? rows n k) (rows_put ..)

theorem mergeRow_steady {name : String} {row : List (String × Value)} (hne : row ≠ [])
    (h : ∀ e ∈ row, m.shown? j.analysis.rows name e.1 = some e.2) :
    mergeRow ref name row j = .ok () j := by
  have hok : mergeRow ref name row j = .ok ()
      (j.put ref (m.mergeRow j.analysis.rows name row).1 (m.mergeRow j.analysis.rows name row).2) :=
    bind_of_ok (metricAt_of_metric? hm.metric)
  rw [hok, Metric.mergeRow_of_shown hne h, hm.put_self]

end

/-- A graph of dependencies has been measured: its degrees are in the rows, and unless it has no
nodes their summary is among the overall figures. -/
abbrev FiledGraph (ref : MetricRef) (m : Metric) (j : Job) (g : Digraph) : Metric → Job → Prop :=
  FiledRows ref m j (rows "dependency" g)
    (if g.names = [] then m.overall else m.overall.insertMany (summary g))

def fileGraph (ref : MetricRef) (g : Digraph) : Work Unit :=
  fileReport ref ⟨rows "dependency" g, if g.names = [] then none else some (summary g)⟩

theorem measure_eq_fileGraph {slots : GraphSlots} {v : GraphView} (hm : Registered ref m j)
    (hgauge : m.gauge = .fanInOut slots) (hviews : j.analysis.slotViews slots = [v])
    (hsubject : subject? v.kind = some "dependency") (rs : Results) :
    measure ref rs j = fileGraph ref v.graph j := by
  have hreports : reports none [v] = ([⟨rows "dependency" v.graph,
      if v.graph.names = [] then none else some (summary v.graph)⟩], none) := by
    have hempty : v.graph.nodes.isEmpty = true ↔ v.graph.names = [] := by
      rw [OrderedMap.isEmpty, List.isEmpty_iff, Digraph.names, OrderedMap.keys, List.map_eq_nil_iff]
    rw [reports, report, hsubject]
    by_cases hnone : v.graph.names = []
    · rw [if_pos (hempty.mpr hnone), if_pos hnone, rows_of_isEmpty (hempty.mpr hnone)]
      rfl
    · rw [if_neg (mt hempty.mp hnone), if_neg hnone]
      rfl
  rw [measure, bind_of_ok (metricAt_of_metric? hm.metric), hgauge]
  change measureFanInOut ref slots j = _
  rw [measureFanInOut, bind_of_ok (show analysis j = .ok j.analysis j from rfl), hviews, hreports]
  simp only [List.forM_eq_forM, List.forM_cons, List.forM_nil, bind_assoc, pure_bind]
  exact congrFun (bind_pure (fileGraph ref v.graph)) j

theorem reaches_fileGraph (hm : Registered ref m j) (g : Digraph) :
    Reaches (fileGraph ref g) j fun _ j' => ∃ m', FiledGraph ref m j g m' j' := by
  refine .bind (reaches_filedRows hm _) fun _ t ht => ?_
  obtain ⟨m', h⟩ := ht
  by_cases hnone : g.names = []
  · rw [if_pos hnone]
    exact ⟨(), _, rfl, m', ⟨h.registered.metric, h.registered.name⟩, h.gauge, h.graphs,
      h.shown, by rw [if_pos hnone, h.overall]⟩
  · rw [if_neg hnone]
    refine (reaches_filedOverall h.registered _).imp ?_
    rintro - t' ⟨m'', h'⟩
    refine ⟨m'', ?_⟩
    rw [FiledGraph, if_neg hnone, ← h.overall]
    simpa using h.append h'

theorem fileGraph_again {g : Digraph} (h : FiledGraph ref m j g m' j') :
    ∃ j'', fileGraph ref g j' = .ok () j'' ∧ j''.analysis = j'.analysis := by
  have hrows : (rows "dependency" g).forM (fun e => mergeRow ref e.1 e.2) j' = .ok () j' := by
    refine forM_of_steady fun e he => ?_
    obtain ⟨n, hn, rfl⟩ := List.mem_map.mp he
    refine mergeRow_steady h.registered (by simp [row]) ?_
    obtain ⟨hin, hout⟩ := lastFiled?_dependency hn
    simp only [row, List.forall_mem_cons, h.shown, hin, hout]
    simp
  rw [fileGraph, fileReport, bind_of_ok hrows]
  by_cases hnone : g.names = []
  · rw [if_pos hnone]
    exact ⟨_, rfl, rfl⟩
  · have hsame : m'.overall.insertMany (summary g) = m'.overall := by
      rw [h.overall, if_neg hnone, OrderedMap.insertMany_twice]
    rw [if_neg hnone]
    refine ⟨_, modifyMetric_of_metric? h.registered.metric, ?_⟩
    rw [hsame, h.registered.put_self]

/-- The figures of the graph of dependencies are those of the results: how many import something,
and how much a result imports. Both add up to the number of edges; of the greatest ones the first is
named. A graph without nodes has no overall figures, and measuring again changes nothing. -/
theorem measure_dependencyGraph (j : Job) (ref : MetricRef) (m : Metric) (slots : GraphSlots)
    (v : GraphView) (rs measured : Results) (hm : Registered ref m j)
    (hgauge : m.gauge = .fanInOut slots) (hviews : j.analysis.slotViews slots = [v])
    (hkind : v.kind = .fileDependency ∨ v.kind = .entityDependency)
    (hgraph : v.graph = rs.dependencyGraph) (hnd : (rs.values.map ScanResult.uniqueName).Nodup) :
    ∃ j' m', measure ref measured j = .ok () j' ∧ Registered ref m' j' ∧
      (∀ fan ∈ [("fan-in", rs.fanIn), ("fan-out", rs.fanOut)],
        (∀ n ∈ v.graph.names, m'.shown? j'.analysis.rows n (fan.1 ++ "-dependency-graph") =
          some (.int (fan.2 n))) ∧
        Decimal.total (v.graph.names.map fan.2) = v.graph.edges.length ∧
        (v.graph.names ≠ [] → FanInOut.Summarizes m'.overall fan.1 v.graph fan.2)) ∧
      (v.graph.names = [] → m'.overall = m.overall) ∧
      ∃ j'', measure ref measured j' = .ok () j'' ∧ j''.analysis = j'.analysis := by
  have hsubject : subject? v.kind = some "dependency" := by
    rcases hkind with hkind | hkind <;> rw [hkind] <;> rfl
  have hsimple : v.graph.Simple := hgraph ▸ rs.simple_dependencyGraph
  have hin : rs.fanIn = v.graph.inDegree :=
    funext fun n => by rw [hgraph, Results.inDegree_dependencyGraph hnd]
  have hout : rs.fanOut = v.graph.outDegree :=
    funext fun n => by rw [hgraph, Results.outDegree_dependencyGraph hnd]
  obtain ⟨⟨⟩, j', hok, m', h⟩ := reaches_fileGraph hm v.graph
  obtain ⟨j'', hagain, hsame⟩ := fileGraph_again h
  have hviews' : j'.analysis.slotViews slots = [v] :=
    (Metric.slotViews_congr (OrderedMap.Alike.of_eq h.graphs) slots).trans hviews
  refine ⟨j', m', (measure_eq_fileGraph hm hgauge hviews hsubject measured).trans hok, h.registered,
    ?_, fun hnone => ?_, j'', (measure_eq_fileGraph h.registered
      (h.gauge.trans hgauge) hviews' hsubject measured).trans hagain, hsame⟩
  · have hsummary : v.graph.names ≠ [] →
        FanInOut.Summarizes m'.overall "fan-in" v.graph v.graph.inDegree ∧
        FanInOut.Summarizes m'.overall "fan-out" v.graph v.graph.outDegree := by
      intro hne
      rw [h.overall, if_neg hne]
      exact summarizes m.overall hsimple hne
    rw [hin, hout, hsimple.length_edges]
    simp only [List.forall_mem_cons, List.not_mem_nil, false_implies, implies_true, and_true]
    refine ⟨⟨fun n hn => ?_, hsimple.total_inDegree, fun hne => (hsummary hne).1⟩, fun n hn => ?_,
      hsimple.total_outDegree, fun hne => (hsummary hne).2⟩
    · refine (h.shown n _).trans ?_
      rw [show "fan-in" ++ "-dependency-graph" = key "fan-in" "dependency" from rfl,
        (lastFiled?_dependency hn).1]
      rfl
    · refine (h.shown n _).trans ?_
      rw [show "fan-out" ++ "-dependency-graph" = key "fan-out" "dependency" from rfl,
        (lastFiled?_dependency hn).2]
      rfl
  · rw [h.overall, if_pos hnone]

end Work

namespace Sample

/-- A class that uses itself, and a list twice, and another class that uses the list. -/
def users : Results := .ofList
  [part "A" ["x.List", "x.List", "A"] (.entity { entityName := "A" }),
    part "B" ["x.List"] (.entity { entityName := "B" })]

def usersJob : Job :=
  ⟨session,
    { graphs := .ofList [(.entityDependency,
      { kind := .entityDependency, graph := users.dependencyGraph })]
      entityMetrics := fanMetrics [.entityDependency] }⟩

/-- The list is imported by two classes, and so the first of the greatest; what is imported twice
counts once. -/
theorem measure_dependencyGraph_users : ∃ (j' : Job) (m' : Metric),
    Work.measure ⟨.entities, MetricKind.fanInOut.name⟩ users usersJob = .ok () j' ∧
      m'.shown? j'.analysis.rows "A" "fan-out-dependency-graph" = some (.int 2) ∧
      m'.shown? j'.analysis.rows "x.List" "fan-in-dependency-graph" = some (.int 2) ∧
      m'.overall.get? "avg-fan-in-dependency-graph" =
        m'.overall.get? "avg-fan-out-dependency-graph" ∧
      ∃ j'', Work.measure ⟨.entities, MetricKind.fanInOut.name⟩ users j' = .ok () j'' ∧
        j''.analysis = j'.analysis := by
  obtain ⟨j', m', hok, -, hfans, -, hagain⟩ :=
    Work.measure_dependencyGraph usersJob ⟨.entities, MetricKind.fanInOut.name⟩ _ _ _
    users users ⟨rfl, rfl⟩ rfl rfl (.inr rfl) rfl (by decide +kernel)
  obtain ⟨hin, -, havgIn⟩ := hfans ("fan-in", users.fanIn) (by simp)
  obtain ⟨hout, -, havgOut⟩ := hfans ("fan-out", users.fanOut) (by simp)
  have hmem : "A" ∈ users.dependencyGraph.names ∧ "x.List" ∈ users.dependencyGraph.names := by
    decide +kernel
  have hne := List.ne_nil_of_mem hmem.1
  exact ⟨j', m', hok, hout "A" hmem.1, hin "x.List" hmem.2,
    (havgIn hne).average.trans (havgOut hne).average.symm, hagain⟩

end Sample

end CodeAtlas
