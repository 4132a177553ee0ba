import CodeAtlas.Proofs.Figures
import CodeAtlas.Proofs.Growth
import Mathlib.Data.List.TakeWhile

/-!
# Graphs before and after they are measured

Filling the graphs of an analysis (`Analysis.Fills`) comes first; then figures are put on their
nodes (`Analysis.Keyed.of_addRowsToGraphs`). That changes no name and no edge, and a node gets those
figures of its row that its graph admits (`GraphView.attribute?_addFigures`).
-/

namespace CodeAtlas

/-! ### Nodes with attributes -/

namespace Digraph

def attribute? (g : Digraph) (name key : String) : Option Value :=
  (g.nodes.get? name).bind fun as => as.get? key

/-- The same nodes in the same order, and the same edges. -/
structure SameShape (g h : Digraph) : Prop where
  names : g.names = h.names
  arcs : g.arcs = h.arcs

variable {g h : Digraph}

theorem SameShape.inDegree (hshape : SameShape g h) (name : String) :
    g.inDegree name = h.inDegree name := by
  rw [Digraph.inDegree, predecessors, hshape.arcs]
  rfl

theorem SameShape.outDegree (hshape : SameShape g h) (name : String) :
    g.outDegree name = h.outDegree name := by
  rw [Digraph.outDegree, successors, hshape.arcs]
  rfl

theorem sameShape_modifyNode (g : Digraph) (name : String) (f : Attributes → Attributes) :
    SameShape (g.modifyNode name f) g :=
  ⟨OrderedMap.keys_mapValues _ g.nodes, rfl⟩

theorem get?_modifyNode (g : Digraph) (name : String) (f : Attributes → Attributes) (n : String) :
    (g.modifyNode name f).nodes.get? n =
      if n = name then (g.nodes.get? n).map f else g.nodes.get? n := by
  rw [modifyNode, OrderedMap.modify, OrderedMap.get?_mapValues]
  split_ifs with hn
  · rfl
  · exact Option.map_id'

theorem modifyNode_id (g : Digraph) (name : String) : g.modifyNode name id = g := by
  have hentries : (g.nodes.modify name id).entries = g.nodes.entries := by
    rw [OrderedMap.modify, OrderedMap.mapValues]
    simp
  rw [modifyNode, OrderedMap.ext_entries hentries]

end Digraph

namespace GraphView

variable {v : GraphView} {rows : Rows} {as : Attributes} {v' : GraphView} {name : String}

/-- The attributes of a node after the figures of its row were put on it. -/
def labelled (kind : GraphKind) (rows : Rows) (name : String) (as : Attributes) : Attributes :=
  (rows.get? name).elim as fun row => as.insertMany (admitted kind row)

theorem nodup_admitted (kind : GraphKind) (row : OrderedMap String Value) :
    ((admitted kind row).map Prod.fst).Nodup := by
  have hkeys :=
    row.nodup.sublist ((row.entries.filter_sublist (p := fun e => kind.admits e.1)).map _)
  have hmap := hkeys.map (f := fun name => "metric_" ++ name) fun _ _ heq =>
    String.append_right_inj _ |>.mp heq
  rw [admitted, List.map_map]
  rwa [List.map_map] at hmap

theorem lookup_admitted (kind : GraphKind) (row : OrderedMap String Value) (k : String) :
    OrderedMap.lookup ("metric_" ++ k) (admitted kind row) =
      if kind.admits k then row.get? k else none := by
  have hentries : ∀ es : List (String × Value), OrderedMap.lookup ("metric_" ++ k)
      ((es.filter fun e => kind.admits e.1).map fun e => ("metric_" ++ e.1, e.2)) =
        if kind.admits k then OrderedMap.lookup k es else none := by
    intro es
    induction es with
    | nil => simp [OrderedMap.lookup]
    | cons e es ih =>
      obtain ⟨name, value⟩ := e
      by_cases hname : name = k
      · subst hname
        by_cases hadmits : kind.admits name = true
        · simp [OrderedMap.lookup, hadmits]
        · simpa [hadmits] using ih
      · have hne : "metric_" ++ name ≠ "metric_" ++ k :=
          fun heq => hname (String.append_right_inj _ |>.mp heq)
        by_cases hadmits : kind.admits name = true
        · simpa [OrderedMap.lookup, hadmits, hname, hne] using ih
        · simpa [OrderedMap.lookup, hadmits, hname] using ih
  exact hentries row.entries

theorem get?_labelled (kind : GraphKind) (rows : Rows) (name k : String) (as : Attributes) :
    (labelled kind rows name as).get? ("metric_" ++ k) =
      (if kind.admits k then rows.figure? name k else none).or (as.get? ("metric_" ++ k)) := by
  rw [labelled, Rows.figure?]
  cases rows.get? name with
  | none => simp
  | some row =>
    change (as.insertMany (admitted kind row)).get? ("metric_" ++ k) = _
    rw [OrderedMap.get?_insertMany (nodup_admitted kind row), lookup_admitted]
    rfl

/-- Whether figures can be put on the nodes: in the graph of the file system it has to be known
which nodes are directories. -/
def TellsDirectories (v : GraphView) : Prop :=
  v.kind = .fileSystem → ∀ n as, v.graph.nodes.get? n = some as → as.isEmpty = true ∨
    (as.get? "directory").isSome

def putRow (v : GraphView) (rows : Rows) (name : String) : GraphView :=
  { v with graph := v.graph.modifyNode name (labelled v.kind rows name) }

theorem addRow_eq (v : GraphView) (rows : Rows) (name : String) (as : Attributes) :
    v.addRow (fun node => .ok (rows.get? node)) name as =
      if v.kind = .fileSystem then
        if as.isEmpty then .ok v
        else
          match as.get? "directory" with
          | none => .error .noSuchKey
          | some (.bool true) => .ok v
          | some _ => .ok (v.putRow rows name)
      else if v.kind = .fileChangeCoupling then .ok v
      else .ok (v.putRow rows name) := by
  rw [addRow, putRow]
  cases hrow : rows.get? name with
  | none =>
    have hsame : labelled v.kind rows name = id := by
      funext as
      rw [labelled, hrow]
      rfl
    rw [hsame, Digraph.modifyNode_id]
    rfl
  | some row =>
    have hadds : labelled v.kind rows name = fun as => as.insertMany (admitted v.kind row) := by
      funext as
      rw [labelled, hrow]
      rfl
    rw [hadds]
    rfl

theorem addRow_of_graph (hfiles : v.kind ≠ .fileSystem) (hchanges : v.kind ≠ .fileChangeCoupling)
    (rows : Rows) (name : String) (as : Attributes) :
    v.addRow (fun node => .ok (rows.get? node)) name as = .ok (v.putRow rows name) := by
  rw [addRow_eq, if_neg hfiles, if_neg hchanges]

theorem addRow_cases
    (h : v.addRow (fun node => .ok (rows.get? node)) name as = .ok v') :
    v' = v ∨ v' = v.putRow rows name := by
  rw [addRow_eq] at h
  split_ifs at h
  · exact .inl (Except.ok.inj h).symm
  · split at h
    · cases h
    · exact .inl (Except.ok.inj h).symm
    · exact .inr (Except.ok.inj h).symm
  · exact .inl (Except.ok.inj h).symm
  · exact .inr (Except.ok.inj h).symm

theorem kind_of_addRow
    (h : v.addRow (fun node => .ok (rows.get? node)) name as = .ok v') : v'.kind = v.kind := by
  rcases addRow_cases h with rfl | rfl
  · rfl
  · rfl

theorem kind_addFigures (v : GraphView) (rows : Rows) : (v.addFigures rows).1.kind = v.kind := by
  have hrows : ∀ (es : List (String × Attributes)) (v : GraphView),
      (addRows (fun node => .ok (rows.get? node)) v es).1.kind = v.kind := by
    intro es
    induction es with
    | nil =>
      intro v
      rfl
    | cons e es ih =>
      intro v
      rw [addRows]
      split
      · next v' hv' => exact (ih v').trans (kind_of_addRow hv')
      · rfl
  exact hrows _ v

theorem addFigures_ok (h : v.TellsDirectories) (rows : Rows) : (v.addFigures rows).2 = .ok () := by
  have hrows : ∀ (es : List (String × Attributes)) (v : GraphView),
      (v.kind = .fileSystem → ∀ e ∈ es, e.2.isEmpty = true ∨ (e.2.get? "directory").isSome) →
      (addRows (fun node => .ok (rows.get? node)) v es).2 = .ok () := by
    intro es
    induction es with
    | nil =>
      intro v _
      rfl
    | cons e es ih =>
      obtain ⟨name, as⟩ := e
      intro v hes
      have hok : ∃ v', v.addRow (fun node => .ok (rows.get? node)) name as = .ok v' := by
        rw [addRow_eq]
        split_ifs with hfiles hempty
        · exact ⟨v, rfl⟩
        · have hmark := (hes hfiles (name, as) List.mem_cons_self).resolve_left hempty
          split
          · next hnone => simp [hnone] at hmark
          · exact ⟨v, rfl⟩
          · exact ⟨_, rfl⟩
        · exact ⟨v, rfl⟩
        · exact ⟨_, rfl⟩
      obtain ⟨v', hv'⟩ := hok
      rw [addRows, hv']
      exact ih v' fun hfiles e he => hes (kind_of_addRow hv' ▸ hfiles) e (List.mem_cons_of_mem _ he)
  exact hrows _ v fun hkind e he => h hkind e.1 e.2 (OrderedMap.get?_eq_some_iff.mpr he)

theorem addRows_of_graph (hfiles : v.kind ≠ .fileSystem) (hchanges : v.kind ≠ .fileChangeCoupling)
    (rows : Rows) {es : List (String × Attributes)} (hnd : (es.map Prod.fst).Nodup) :
    ∃ g, addRows (fun node => .ok (rows.get? node)) v es = ({ v with graph := g }, .ok ()) ∧
      Digraph.SameShape g v.graph ∧
      ∀ n, g.nodes.get? n =
        if n ∈ es.map Prod.fst then (v.graph.nodes.get? n).map (labelled v.kind rows n)
        else v.graph.nodes.get? n := by
  induction es generalizing v with
  | nil => exact ⟨v.graph, rfl, ⟨rfl, rfl⟩, fun n => rfl⟩
  | cons e es ih =>
    obtain ⟨name, as⟩ := e
    rw [List.map_cons, List.nodup_cons] at hnd
    obtain ⟨g, hrest, hshape, hget⟩ := ih (v := v.putRow rows name) hfiles hchanges hnd.2
    have hshape₁ := Digraph.sameShape_modifyNode v.graph name (labelled v.kind rows name)
    refine ⟨g, ?_, ⟨hshape.names.trans hshape₁.names, hshape.arcs.trans hshape₁.arcs⟩, fun n => ?_⟩
    · rw [addRows, addRow_of_graph hfiles hchanges]
      exact hrest
    · rw [hget n, putRow, Digraph.get?_modifyNode, List.map_cons]
      by_cases hn : n = name
      · subst hn
        rw [if_neg hnd.1, if_pos rfl, if_pos List.mem_cons_self]
      · rw [if_neg hn]
        by_cases hmem : n ∈ es.map Prod.fst
        · rw [if_pos hmem, if_pos (List.mem_cons_of_mem _ hmem)]
        · rw [if_neg hmem, if_neg fun h => (List.mem_cons.mp h).elim hn hmem]

theorem addFigures_of_graph (hfiles : v.kind ≠ .fileSystem)
    (hchanges : v.kind ≠ .fileChangeCoupling) (rows : Rows) :
    ∃ g, v.addFigures rows = ({ v with graph := g }, .ok ()) ∧ Digraph.SameShape g v.graph ∧
      ∀ n ∈ v.graph.names, ∀ k, g.attribute? n ("metric_" ++ k) =
        (if v.kind.admits k then rows.figure? n k else none).or
          (v.graph.attribute? n ("metric_" ++ k)) := by
  obtain ⟨g, heq, hshape, hget⟩ := addRows_of_graph hfiles hchanges rows v.graph.nodes.nodup
  refine ⟨g, heq, hshape, fun n hn k => ?_⟩
  obtain ⟨as, has⟩ := Digraph.mem_names_iff.mp hn
  rw [Digraph.attribute?, hget n, if_pos (show n ∈ v.graph.nodes.entries.map Prod.fst from hn),
    Digraph.attribute?, has]
  exact get?_labelled v.kind rows n k as

theorem addInheritance_of_isEntity (v : GraphView) {rs : Results}
    (hrs : ∀ r ∈ rs.values, r.isEntity = true) :
    v.addInheritance rs.values = ({ v with graph := v.graph.addInheritance rs }, .ok ()) := by
  rw [addInheritance, List.takeWhile_eq_self_iff.mpr hrs, List.dropWhile_eq_nil_iff.mpr hrs]
  rfl

end GraphView

namespace Analysis

variable {a a' : Analysis}

def Keyed (a : Analysis) : Prop := ∀ kind v, a.graphs.get? kind = some v → v.kind = kind

theorem Keyed.setGraph (h : a.Keyed) (v : GraphView) : (a.setGraph v).Keyed := by
  intro kind u hu
  rw [Analysis.setGraph, OrderedMap.get?_insert] at hu
  split_ifs at hu with hkind
  · rw [← Option.some.inj hu]
    exact hkind
  · exact h kind u hu

/-! ### Figures on all graphs -/

variable {v : GraphView}

theorem mem_graphList : v ∈ a.graphList ↔ ∃ kind ∈ GraphKind.kept, a.graphs.get? kind = some v :=
  List.mem_filterMap

theorem Keyed.nodup_kinds (h : a.Keyed) : (a.graphList.map GraphView.kind).Nodup := by
  have hkinds : ∀ kinds : List GraphKind,
      ((kinds.filterMap a.graphs.get?).map GraphView.kind).Sublist kinds := by
    intro kinds
    induction kinds with
    | nil => exact List.Sublist.refl _
    | cons kind kinds ih =>
      cases hget : a.graphs.get? kind with
      | none =>
        rw [List.filterMap_cons_none hget]
        exact ih.cons kind
      | some v =>
        rw [List.filterMap_cons_some hget, List.map_cons, h kind v hget]
        exact ih.cons_cons kind
  exact List.Nodup.sublist (hkinds _) (by decide)

variable {views : List GraphView} {f : GraphView → GraphView} {kind : GraphKind}

theorem get?_addRowsTo_of_not_mem (h : kind ∉ views.map GraphView.kind) :
    (a.addRowsTo views).1.graphs.get? kind = a.graphs.get? kind := by
  induction views generalizing a with
  | nil => rfl
  | cons v views ih =>
    rw [List.map_cons, List.mem_cons, not_or] at h
    have hset : (a.setGraph (v.addFigures a.rows).1).graphs.get? kind = a.graphs.get? kind := by
      rw [Analysis.setGraph, OrderedMap.get?_insert, GraphView.kind_addFigures,
        if_neg (Ne.symm h.1)]
    rw [addRowsTo]
    split
    · next v' hv' =>
      rw [hv'] at hset
      exact (ih h.2).trans hset
    · next v' e hv' =>
      rw [hv'] at hset
      exact hset

theorem of_addRowsTo (hnd : (views.map GraphView.kind).Nodup)
    (h : a.addRowsTo views = (a', .ok ())) (hv : v ∈ views) :
    a'.graphs.get? v.kind = some (v.addFigures a.rows).1 := by
  induction views generalizing a with
  | nil => cases hv
  | cons u views ih =>
    rw [List.map_cons, List.nodup_cons] at hnd
    rw [addRowsTo] at h
    split at h
    · next u' hu' =>
      have hkind : u'.kind = u.kind := by rw [← u.kind_addFigures a.rows, hu']
      rcases List.mem_cons.mp hv with rfl | hv
      -- later graphs are of other kinds
      · have hlater := get?_addRowsTo_of_not_mem (a := a.setGraph u') hnd.1
        rw [h, Analysis.setGraph, OrderedMap.get?_insert, if_pos hkind] at hlater
        rw [hlater, hu']
      · exact ih (a := a.setGraph u') hnd.2 h hv
    · cases (Prod.mk.inj h).2

theorem addRowsTo_ok_iff :
    (a.addRowsTo views).2 = .ok () ↔ ∀ v ∈ views, (v.addFigures a.rows).2 = .ok () := by
  induction views generalizing a with
  | nil => simp [addRowsTo]
  | cons v views ih =>
    rw [addRowsTo, List.forall_mem_cons]
    cases hv : v.addFigures a.rows with
    | mk v' outcome =>
      cases outcome with
      | ok u =>
        cases u
        exact ih.trans (by simp [setGraph])
      | error e => simp

theorem addRowsTo_ok (h : ∀ v ∈ views, v.TellsDirectories) :
    (a.addRowsTo views).2 = .ok () :=
  addRowsTo_ok_iff.mpr fun v hv => GraphView.addFigures_ok (h v hv) a.rows

theorem addRowsTo_eq (a : Analysis) (views : List GraphView) :
    (a.addRowsTo views).1 = { a with graphs := (a.addRowsTo views).1.graphs } := by
  induction views generalizing a with
  | nil => rfl
  | cons v views ih =>
    rw [addRowsTo]
    split
    · rw [ih]
      rfl
    · rfl

theorem rest_of_addRowsToGraphs (h : a.addRowsToGraphs = (a', .ok ())) :
    a' = { a with graphs := a'.graphs } := by
  have heq := a.addRowsTo_eq a.graphList
  rwa [show a.addRowsTo a.graphList = (a', .ok ()) from h] at heq

theorem Keyed.of_addRowsToGraphs (hkeyed : a.Keyed) (h : a.addRowsToGraphs = (a', .ok ()))
    (hkind : kind ∈ GraphKind.kept) (hv : a.graphs.get? kind = some v) :
    a'.graphs.get? kind = some (v.addFigures a.rows).1 := by
  have hget := of_addRowsTo hkeyed.nodup_kinds h (mem_graphList.mpr ⟨kind, hkind, hv⟩)
  rwa [hkeyed kind v hv] at hget

/-! ### Filling the graphs -/

theorem Keyed.get?_fillGraph (h : a.Keyed) (hf : ∀ v, (f v).kind = v.kind) (kind k : GraphKind) :
    (a.fillGraph kind f).graphs.get? k =
      if kind = k then (a.graphs.get? k).map f else a.graphs.get? k := by
  rw [fillGraph]
  cases hget : a.graphs.get? kind with
  | none =>
    split_ifs with hk
    · rw [← hk, hget]
      rfl
    · rfl
  | some v =>
    change (a.graphs.insert (f v).kind (f v)).get? k = _
    rw [OrderedMap.get?_insert, hf, h kind v hget]
    split_ifs with hk
    · rw [← hk, hget]
      rfl
    · rfl

theorem fillGraph_eq (a : Analysis) (kind : GraphKind) (f : GraphView → GraphView) :
    a.fillGraph kind f = { a with graphs := (a.fillGraph kind f).graphs } := by
  rw [fillGraph]
  split
  · rfl
  · rfl

theorem Keyed.fillGraph (h : a.Keyed) (kind : GraphKind) : (a.fillGraph kind f).Keyed := by
  rw [Analysis.fillGraph]
  split
  · exact h.setGraph _
  · exact h

def filling (a : Analysis) (kind : GraphKind) (g : Digraph) : Digraph :=
  match kind with
  | .entityDependency => g.addDependencies a.entityResults
  | .entityInheritance => g.addInheritance a.entityResults
  | .fileDependency => g.addDependencies a.fileResults
  | _ => g

theorem addInheritance_entityResults (a : Analysis) (v : GraphView) :
    (v.addInheritance a.entityResults.values).1 =
      { v with graph := v.graph.addInheritance a.entityResults } := by
  refine congrArg Prod.fst (v.addInheritance_of_isEntity fun r hr => ?_)
  obtain ⟨key, hkey⟩ := OrderedMap.mem_values_iff.mp hr
  exact (OrderedMap.get?_filter_eq_some_iff.mp hkey).2

theorem Keyed.get?_fillSimpleGraphs (h : a.Keyed) (kind : GraphKind) :
    a.fillSimpleGraphs.graphs.get? kind =
    (a.graphs.get? kind).map fun v => { v with graph := a.filling kind v.graph } := by
  have hinheritance : ∀ v : GraphView, (v.addInheritance a.entityResults.values).1.kind =
      v.kind := by
    intro v
    rw [addInheritance_entityResults]
  have hdependencies : ∀ (rs : Results) (v : GraphView), (v.addDependencies rs).kind = v.kind :=
    fun _ _ => rfl
  rw [fillSimpleGraphs, ((h.fillGraph _).fillGraph _).get?_fillGraph (hdependencies a.fileResults),
    (h.fillGraph _).get?_fillGraph hinheritance, h.get?_fillGraph (hdependencies a.entityResults)]
  cases kind with
  | entityDependency | fileDependency => rfl
  | entityInheritance =>
    refine Option.map_congr ?_
    exact fun v _ => addInheritance_entityResults a v
  | entityComplete | fileSystem | fileChangeCoupling => exact Option.map_id'.symm

theorem fillSimpleGraphs_eq (a : Analysis) :
    a.fillSimpleGraphs = { a with graphs := a.fillSimpleGraphs.graphs } := by
  rw [fillSimpleGraphs, fillGraph_eq, fillGraph_eq, fillGraph_eq]

/-- What filling the graphs does: each gets what the results say, and the complete one gets both of
its parts. -/
structure Fills (a a' : Analysis) : Prop where
  rest : a' = { a with graphs := a'.graphs }
  keyed : a'.Keyed
  simple : ∀ kind ≠ .entityComplete, a'.graphs.get? kind =
    (a.graphs.get? kind).map fun v => { v with graph := a.filling kind v.graph }
  complete : ∀ v, a.graphs.get? .entityComplete = some v →
    ∃ d i, a'.graphs.get? .entityDependency = some d ∧
    a'.graphs.get? .entityInheritance = some i ∧
    a'.graphs.get? .entityComplete = some { v with graph := d.graph.compose i.graph }

theorem Keyed.fills (h : a.Keyed) (hok : a.fillGraphs = (a', .ok ())) : Fills a a' := by
  have hkeyed : a.fillSimpleGraphs.Keyed := ((h.fillGraph _).fillGraph _).fillGraph _
  rw [fillGraphs] at hok
  split at hok
  · next hnone =>
    obtain ⟨rfl, -⟩ := Prod.mk.inj hok
    refine ⟨a.fillSimpleGraphs_eq, hkeyed, fun kind _ => h.get?_fillSimpleGraphs kind,
      fun v hv => ?_⟩
    rw [h.get?_fillSimpleGraphs, hv] at hnone
    cases hnone
  · next v hv =>
    split at hok
    · next d i hd hi =>
      obtain ⟨rfl, -⟩ := Prod.mk.inj hok
      have hkind : v.kind = .entityComplete := hkeyed _ v hv
      have hget : ∀ kind,
        (a.fillSimpleGraphs.setGraph { v with graph := d.graph.compose i.graph }).graphs.get? kind =
          if .entityComplete = kind then some { v with graph := d.graph.compose i.graph }
          else a.fillSimpleGraphs.graphs.get? kind := by
        intro kind
        rw [Analysis.setGraph, OrderedMap.get?_insert, hkind]
      refine ⟨?_, hkeyed.setGraph _, fun kind hne => ?_, fun u hu => ⟨d, i, ?_, ?_, ?_⟩⟩
      · exact congrArg (fun b : Analysis => { b with graphs := (a.fillSimpleGraphs.setGraph
          { v with graph := d.graph.compose i.graph }).graphs }) a.fillSimpleGraphs_eq
      · rw [hget, if_neg hne.symm, h.get?_fillSimpleGraphs]
      · rw [hget]
        exact hd
      · rw [hget]
        exact hi
      · rw [hget, if_pos rfl]
        rw [h.get?_fillSimpleGraphs, hu] at hv
        rw [← Option.some.inj hv]
    · cases (Prod.mk.inj hok).2

/-- Figures can be put on filled graphs if it is known which nodes of the file system are
directories. -/
theorem Fills.addRowsToGraphs_ok (h : Fills a a') {b : Analysis} (hgraphs : b.graphs = a'.graphs)
    (hdirectories : ∀ v, a.graphs.get? .fileSystem = some v → v.TellsDirectories) :
    b.addRowsToGraphs.2 = .ok () := by
  refine addRowsTo_ok fun v hv => ?_
  obtain ⟨kind, -, hget⟩ := mem_graphList.mp hv
  rw [hgraphs] at hget
  intro hkind
  obtain rfl : kind = .fileSystem := (h.keyed kind v hget).symm.trans hkind
  rw [h.simple _ (by decide)] at hget
  obtain ⟨u, hu, rfl⟩ := Option.map_eq_some_iff.mp hget
  exact hdirectories u hu hkind

theorem Keyed.fillGraphs_ok (h : a.Keyed) (hparts : a.graphs.contains .entityComplete = true →
    a.graphs.contains .entityDependency = true ∧ a.graphs.contains .entityInheritance = true) :
    ∃ a', a.fillGraphs = (a', .ok ()) := by
  have hfilled : ∀ kind v, a.graphs.get? kind = some v →
      ∃ u, a.fillSimpleGraphs.graphs.get? kind = some u := by
    intro kind v hv
    rw [h.get?_fillSimpleGraphs, hv]
    exact ⟨_, rfl⟩
  cases hcomplete : a.graphs.get? .entityComplete with
  | none =>
    have hnone : a.fillSimpleGraphs.graphs.get? .entityComplete = none := by
      rw [h.get?_fillSimpleGraphs, hcomplete]
      rfl
    exact ⟨a.fillSimpleGraphs, by rw [fillGraphs, hnone]⟩
  | some v =>
    obtain ⟨hd, hi⟩ := hparts (by rw [OrderedMap.contains, hcomplete]; rfl)
    obtain ⟨d, hd⟩ := Option.isSome_iff_exists.mp hd
    obtain ⟨i, hi⟩ := Option.isSome_iff_exists.mp hi
    obtain ⟨v', hv'⟩ := hfilled _ v hcomplete
    obtain ⟨d', hd'⟩ := hfilled _ d hd
    obtain ⟨i', hi'⟩ := hfilled _ i hi
    exact ⟨_, by rw [fillGraphs, hv', hd', hi']⟩

end Analysis

end CodeAtlas
