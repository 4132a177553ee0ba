import CodeAtlas.Proofs.MetricOrder
import CodeAtlas.Proofs.Phases

/-!
# Graphs of analyses that are alike

Filling the graphs does not look at figures, so analyses that agree get the same graphs
(`Analysis.fillGraphs_alike`). The figures on the nodes then come in the order of the rows, and the
graphs are the same up to that (`Analysis.addRowsToGraphs_alike`).
-/

namespace CodeAtlas

open Effect

/-! ### Filling -/

namespace Digraph

theorem addDependencies_bare (g : Digraph) (rs : Results) :
    g.addDependencies rs.bare = g.addDependencies rs := by
  rw [addDependencies, Results.values_bare, List.foldl_map]
  rfl

theorem addInheritance_bare (g : Digraph) (rs : Results) :
    g.addInheritance rs.bare = g.addInheritance rs := by
  rw [addInheritance, Results.values_bare, List.foldl_map]
  rfl

end Digraph

namespace Analysis

variable {a a' b : Analysis}

theorem filling_congr (h : a'.results.bare = a.results.bare) (kind : GraphKind) (g : Digraph) :
    a'.filling kind g = a.filling kind g := by
  have hfiles : a'.fileResults.bare = a.fileResults.bare := bare_resultsOf h .files
  have hentities : a'.entityResults.bare = a.entityResults.bare := bare_resultsOf h .entities
  cases kind with
  | entityDependency =>
    change g.addDependencies a'.entityResults = g.addDependencies a.entityResults
    rw [← g.addDependencies_bare, hentities, g.addDependencies_bare]
  | entityInheritance =>
    change g.addInheritance a'.entityResults = g.addInheritance a.entityResults
    rw [← g.addInheritance_bare, hentities, g.addInheritance_bare]
  | fileDependency =>
    change g.addDependencies a'.fileResults = g.addDependencies a.fileResults
    rw [← g.addDependencies_bare, hfiles, g.addDependencies_bare]
  | entityComplete | fileSystem | fileChangeCoupling => rfl

theorem fillGraphs_alike (hkeyed : a.Keyed) (hkeyed' : a'.Keyed)
    (hgraphs : a.graphs.Alike a'.graphs) (hresults : a'.results.bare = a.results.bare)
    (hok : a.fillGraphs = (b, .ok ())) :
    ∃ b', a'.fillGraphs = (b', .ok ()) ∧ b.graphs.Alike b'.graphs := by
  have hsimple : a.fillSimpleGraphs.graphs.Alike a'.fillSimpleGraphs.graphs := by
    intro kind
    rw [hkeyed.get?_fillSimpleGraphs, hkeyed'.get?_fillSimpleGraphs, hgraphs kind]
    simp only [filling_congr hresults]
  rw [fillGraphs] at hok ⊢
  rw [hsimple .entityComplete, hsimple .entityDependency, hsimple .entityInheritance]
  split at hok
  · obtain ⟨rfl, -⟩ := Prod.mk.inj hok
    exact ⟨_, rfl, hsimple⟩
  · split at hok
    · obtain ⟨rfl, -⟩ := Prod.mk.inj hok
      exact ⟨_, rfl, hsimple.insert _ _⟩
    · cases (Prod.mk.inj hok).2

end Analysis

/-! ### Figures on nodes -/

theorem OrderedMap.Alike.insertMany {κ α : Type} [DecidableEq κ] {m m' : OrderedMap κ α}
    (h : m.Alike m') {es es' : List (κ × α)} (hnd : (es.map Prod.fst).Nodup) (hperm : es'.Perm es) :
    (m.insertMany es).Alike (m'.insertMany es') := by
  have hnd' : (es'.map Prod.fst).Nodup := (hperm.map Prod.fst).nodup_iff.mpr hnd
  intro k
  have hlookup : lookup k es' = lookup k es := by
    refine Option.ext fun a => ?_
    rw [lookup_eq_some_iff hnd, lookup_eq_some_iff hnd', hperm.mem_iff]
  rw [get?_insertMany hnd, get?_insertMany hnd', hlookup, h k]

namespace GraphView

variable {v v' : GraphView} {rows rows' : Rows}

/-- The same graph, up to the order of the attributes of its nodes. -/
structure Alike (v v' : GraphView) : Prop where
  kind : v'.kind = v.kind
  fileNodes : v'.fileNodes = v.fileNodes
  shape : Digraph.SameShape v'.graph v.graph
  attributes : ∀ n, Option.Rel OrderedMap.Alike (v.graph.nodes.get? n) (v'.graph.nodes.get? n)

theorem Alike.refl (v : GraphView) : v.Alike v := by
  refine ⟨rfl, rfl, ⟨rfl, rfl⟩, fun n => ?_⟩
  cases v.graph.nodes.get? n with
  | none => exact .none
  | some as => exact .some (.refl as)

theorem labelled_alike (h : rows.Alike rows') (kind : GraphKind) (name : String)
    {as as' : Attributes} (has : as.Alike as') :
    (labelled kind rows name as).Alike (labelled kind rows' name as') := by
  have hname := h name
  rw [labelled, labelled]
  generalize rows.get? name = row, rows'.get? name = row' at hname ⊢
  cases hname with
  | none => exact has
  | some hrow => exact has.insertMany (nodup_admitted kind _) ((hrow.perm.filter _).map _)

theorem Alike.putRow (h : v.Alike v') (hrows : rows.Alike rows') (name : String) :
    (v.putRow rows name).Alike (v'.putRow rows' name) := by
  have hshape := Digraph.sameShape_modifyNode v.graph name (labelled v.kind rows name)
  have hshape' := Digraph.sameShape_modifyNode v'.graph name (labelled v'.kind rows' name)
  refine ⟨h.kind, h.fileNodes, ⟨?_, ?_⟩, fun n => ?_⟩
  · exact hshape'.names.trans (h.shape.names.trans hshape.names.symm)
  · exact hshape'.arcs.trans (h.shape.arcs.trans hshape.arcs.symm)
  · have hn := h.attributes n
    rw [GraphView.putRow, GraphView.putRow, Digraph.get?_modifyNode,
      Digraph.get?_modifyNode, h.kind]
    split_ifs with hname
    · generalize v.graph.nodes.get? n = as, v'.graph.nodes.get? n = as' at hn ⊢
      cases hn with
      | none => exact .none
      | some has => exact .some (labelled_alike hrows v.kind name has)
    · exact hn

theorem addRows_alike (hrows : rows.Alike rows') (h : v.Alike v')
    (es : List (String × Attributes)) :
    (addRows (fun node => .ok (rows'.get? node)) v' es).2 =
      (addRows (fun node => .ok (rows.get? node)) v es).2 ∧
      (addRows (fun node => .ok (rows.get? node)) v es).1.Alike
        (addRows (fun node => .ok (rows'.get? node)) v' es).1 := by
  induction es generalizing v v' with
  | nil => exact ⟨rfl, h⟩
  | cons e es ih =>
    obtain ⟨name, as⟩ := e
    have hput := ih (h.putRow hrows name)
    rw [addRows, addRows, addRow_eq, addRow_eq, h.kind]
    split_ifs
    · exact ih h
    · cases as.get? "directory" with
      | none => exact ⟨rfl, h⟩
      | some mark =>
        cases mark with
        | bool isDirectory =>
          cases isDirectory with
          | true => exact ih h
          | false => exact hput
        | _ => exact hput
    · exact ih h
    · exact hput

theorem addFigures_alike (hrows : rows.Alike rows') (v : GraphView) :
    (v.addFigures rows').2 = (v.addFigures rows).2 ∧
    (v.addFigures rows).1.Alike (v.addFigures rows').1 :=
  addRows_alike hrows (.refl v) v.graph.nodes.entries

end GraphView

namespace Analysis

variable {a a' b : Analysis}

theorem addRowsToGraphs_alike (hkeyed : a.Keyed) (hkeyed' : a'.Keyed)
    (hgraphs : a.graphs.Alike a'.graphs) (hrows : a.rows.Alike a'.rows)
    (hok : a.addRowsToGraphs = (b, .ok ())) : ∃ b', a'.addRowsToGraphs = (b', .ok ()) ∧
      ∀ kind, Option.Rel GraphView.Alike (b.graphs.get? kind) (b'.graphs.get? kind) := by
  have hlist : a'.graphList = a.graphList := by
    rw [graphList, graphList]
    exact List.filterMap_congr fun kind _ => hgraphs kind
  have hok' : a'.addRowsToGraphs.2 = .ok () := by
    rw [addRowsToGraphs, hlist, addRowsTo_ok_iff]
    intro v hv
    have hgood : (a.addRowsTo a.graphList).2 = .ok () := congrArg Prod.snd hok
    rw [(GraphView.addFigures_alike hrows v).1]
    exact addRowsTo_ok_iff.mp hgood v hv
  have heq : a'.addRowsToGraphs = (a'.addRowsToGraphs.1, .ok ()) := Prod.ext rfl hok'
  refine ⟨a'.addRowsToGraphs.1, heq, fun kind => ?_⟩
  by_cases hmem : kind ∈ a.graphList.map GraphView.kind
  · obtain ⟨v, hv, rfl⟩ := List.mem_map.mp hmem
    obtain ⟨kind, hkept, hget⟩ := mem_graphList.mp hv
    obtain rfl := hkeyed kind v hget
    rw [hkeyed.of_addRowsToGraphs hok hkept hget,
      hkeyed'.of_addRowsToGraphs heq hkept ((hgraphs _).trans hget)]
    exact .some (GraphView.addFigures_alike hrows v).2
  -- a graph that is not in the list stays as it is
  · have hleft : b.graphs.get? kind = a.graphs.get? kind := by
      rw [← show a.addRowsToGraphs.1 = b from congrArg Prod.fst hok]
      exact get?_addRowsTo_of_not_mem hmem
    have hright : a'.addRowsToGraphs.1.graphs.get? kind = a'.graphs.get? kind :=
      get?_addRowsTo_of_not_mem (by rwa [hlist])
    rw [hleft, hright, hgraphs kind]
    cases a.graphs.get? kind with
    | none => exact .none
    | some v => exact .some (.refl v)

end Analysis

/-! ### All metrics and graphs -/

/-- Two analyses have come to the same figures and the same graphs, up to the order in which they
are written. -/
structure Analysis.SameFindings (a a' : Analysis) : Prop where
  overall : a.overall.Alike a'.overall
  rows : a.rows.Alike a'.rows
  graphs : ∀ kind, Option.Rel GraphView.Alike (a.graphs.get? kind) (a'.graphs.get? kind)

theorem Job.Alike.sameFindings {j j' : Job} (h : Job.Alike j j') :
    j.analysis.SameFindings j'.analysis := by
  refine ⟨h.overall, h.rows, fun kind => ?_⟩
  rw [h.agree.graphs kind]
  cases j.analysis.graphs.get? kind with
  | none => exact .none
  | some v => exact .some (.refl v)

namespace Work

variable {j j' t : Job}

theorem untold_of_fresh {graph : Bool}
    (hfresh : ∀ ref m, j.analysis.metric? ref = some m → m.kind.isGraph = graph →
      m.Fresh ∧ ref.name = m.kind.name ∧ j'.analysis.metric? ref = some m) : Untold graph j j' := by
  intro ref href
  obtain ⟨m, hm, hgraph⟩ := Analysis.mem_refs.mp href
  obtain ⟨hm₁, hname, hm'⟩ := hfresh ref m hm hgraph
  exact ⟨m, hm₁, hname, hm, hm'⟩

theorem measureGraphs_alike (h : Job.Alike j j') (hkeyed : j.analysis.Keyed)
    (hfresh : Untold true j j') (hok : measureGraphs calculateGraphMetrics j = .ok () t) :
    ∃ t', measureGraphs calculateGraphMetrics j' = .ok () t' ∧
      t.analysis.SameFindings t'.analysis := by
  have hkeyed' : j'.analysis.Keyed :=
    fun kind v hv => hkeyed kind v ((h.agree.graphs kind).symm.trans hv)
  obtain ⟨⟨⟩, j₁, hfill, hok⟩ := bind_eq_ok.mp hok
  obtain ⟨a, ha, rfl⟩ := step_eq_ok_iff.mp hfill
  obtain ⟨⟨⟩, j₂, hmetrics, hadd⟩ := bind_eq_ok.mp hok
  obtain ⟨b, hb, rfl⟩ := step_eq_ok_iff.mp hadd
  -- both are filled in the same way
  obtain ⟨a', ha', hgraphs⟩ :=
    Analysis.fillGraphs_alike hkeyed hkeyed' h.agree.graphs h.agree.results ha
  have hfills := hkeyed.fills ha
  have hfills' := hkeyed'.fills ha'
  obtain ⟨gs, rfl⟩ : ∃ gs, a = { j.analysis with graphs := gs } := ⟨_, hfills.rest⟩
  obtain ⟨gs', rfl⟩ : ∃ gs', a' = { j'.analysis with graphs := gs' } := ⟨_, hfills'.rest⟩
  have h₁ : Job.Alike { j with analysis := { j.analysis with graphs := gs } }
      { j' with analysis := { j'.analysis with graphs := gs' } } :=
    ⟨⟨h.agree.session, h.agree.settings, h.agree.results, hgraphs, h.agree.kinds⟩, h.tells, h.rows,
      h.overall⟩
  obtain ⟨j₂', hmetrics', h₂, -⟩ := calculateMetrics_alike h₁ hfresh hmetrics
  -- the graphs are the same until their nodes get figures
  have hsame := (onlyMeasures_calculateMetrics true _ () j₂ (.refl _) hmetrics).graphs
  have hsame' := (onlyMeasures_calculateMetrics true _ () j₂' (.refl _) hmetrics').graphs
  have hkeyed₂ : j₂.analysis.Keyed := fun kind v hv => hfills.keyed kind v (hsame ▸ hv)
  have hkeyed₂' : j₂'.analysis.Keyed := fun kind v hv => hfills'.keyed kind v (hsame' ▸ hv)
  obtain ⟨b', hb', hlabelled⟩ :=
    Analysis.addRowsToGraphs_alike hkeyed₂ hkeyed₂' h₂.agree.graphs h₂.rows hb
  refine ⟨{ j₂' with analysis := b' }, ?_, ?_⟩
  · refine (bind_of_ok (step_eq_ok_iff.mpr ⟨_, ha', rfl⟩)).trans ((bind_of_ok hmetrics').trans ?_)
    exact step_eq_ok_iff.mpr ⟨b', hb', rfl⟩
  · have hrest := Analysis.rest_of_addRowsToGraphs hb
    have hrest' := Analysis.rest_of_addRowsToGraphs hb'
    refine ⟨?_, ?_, hlabelled⟩
    · rw [hrest, hrest']
      exact h₂.overall
    · rw [hrest, hrest']
      exact h₂.rows

theorem codeMetrics_alike {j₁ : Job} (h : Job.Alike j j') (hfresh : Untold false j j')
    (hcode : if j.analysis.hasCodeMetrics then calculateCodeMetrics j = .ok () j₁ else j₁ = j) :
    ∃ j₁', (if j'.analysis.hasCodeMetrics then calculateCodeMetrics j' = .ok () j₁' else j₁' = j') ∧
      Job.Alike j₁ j₁' ∧ ∀ r ∉ j.analysis.refs false,
        j₁.analysis.metric? r = j.analysis.metric? r ∧
        j₁'.analysis.metric? r = j'.analysis.metric? r := by
  have hcodes : j'.analysis.hasCodeMetrics = j.analysis.hasCodeMetrics :=
    Analysis.any_allMetrics_congr h.agree.kinds fun kind => !kind.isGraph
  rw [hcodes]
  split_ifs at hcode ⊢
  · exact calculateMetrics_alike h hfresh hcode
  · subst hcode
    exact ⟨j', rfl, h, fun _ _ => ⟨rfl, rfl⟩⟩

/-- Metrics that have nothing to tell yet come to the same figures and graphs in analyses that are
alike. -/
theorem calculateAll_alike (h : Job.Alike j j') (hkeyed : j.analysis.Keyed)
    (hmetrics : ∀ ref, j'.analysis.metric? ref = j.analysis.metric? ref)
    (hfresh : ∀ ref m, j.analysis.metric? ref = some m → m.Fresh ∧ ref.name = m.kind.name)
    (hok : calculateAll j = .ok () t) :
    ∃ t', calculateAll j' = .ok () t' ∧ t.analysis.SameFindings t'.analysis := by
  obtain ⟨j₁, hcode, hgraph⟩ := calculateAll_eq_ok_iff.mp hok
  have hmeasuring := measuring_of_code hcode
  have huntold : Untold false j j' := untold_of_fresh fun ref m hm _ =>
    ⟨(hfresh ref m hm).1, (hfresh ref m hm).2, (hmetrics ref).trans hm⟩
  obtain ⟨j₁', hcode', h₁, hrest⟩ := codeMetrics_alike h huntold hcode
  have hgraphs : j₁'.analysis.hasGraphMetrics = j₁.analysis.hasGraphMetrics :=
    Analysis.any_allMetrics_congr h₁.agree.kinds MetricKind.isGraph
  have hkeyed₁ : j₁.analysis.Keyed := fun kind v hv => hkeyed kind v (hmeasuring.graphs ▸ hv)
  -- metrics of graphs are none of those that have been calculated
  have huntold₁ : Untold true j₁ j₁' := by
    refine untold_of_fresh fun ref m hm hgraph => ?_
    have hnot : ref ∉ j.analysis.refs false := by
      intro hmem
      obtain ⟨m₀, hm₀, hcode₀⟩ := Analysis.mem_refs.mp hmem
      have hkind := hmeasuring.kinds (fun ref m hm => (hfresh ref m hm).2) ref
      rw [hm, hm₀, Option.map_some, Option.map_some] at hkind
      rw [← Option.some.inj hkind, hgraph] at hcode₀
      cases hcode₀
    obtain ⟨hleft, hright⟩ := hrest ref hnot
    have hm₀ := hleft.symm.trans hm
    exact ⟨(hfresh ref m hm₀).1, (hfresh ref m hm₀).2, hright.trans ((hmetrics ref).trans hm₀)⟩
  obtain ⟨t', ht', hsame⟩ : ∃ t',
    (if j₁'.analysis.hasGraphMetrics then measureGraphs calculateGraphMetrics j₁' = .ok () t'
      else t' = j₁') ∧ t.analysis.SameFindings t'.analysis := by
    rw [hgraphs]
    split_ifs at hgraph ⊢
    · exact measureGraphs_alike h₁ hkeyed₁ huntold₁ hgraph
    · subst hgraph
      exact ⟨j₁', rfl, h₁.sameFindings⟩
  exact ⟨t', calculateAll_eq_ok_iff.mpr ⟨j₁', hcode', ht'⟩, hsame⟩

end Work

end CodeAtlas
