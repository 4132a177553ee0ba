import CodeAtlas.Proofs.FileDegrees

/-!
# Graphs of results

The graph of dependencies and that of inheritance have the results and what they lead to for nodes,
and the ways there for edges; the complete graph is the union of both, with the attributes that the
graph of dependencies gives. Filling the graphs again changes nothing, and the order of the results
does not matter for their nodes and edges (`Analysis.fillGraphs_exact`).
-/

namespace CodeAtlas

open OrderedMap

namespace Digraph

variable {g h : Digraph} {n a b : String}

/-! ### Edges between nodes -/

theorem mem_edges : (a, b) ∈ g.edges ↔ a ∈ g.names ∧ (a, b) ∈ g.arcs := by
  simp [edges, successors]

/-- Edges lead between nodes, and no edge is there twice. -/
structure Simple (g : Digraph) : Prop where
  ends : ∀ a b, (a, b) ∈ g.arcs → a ∈ g.names ∧ b ∈ g.names
  nodup : g.arcs.Nodup

theorem simple_empty : Digraph.empty.Simple := ⟨fun _ _ he => (nomatch he), List.nodup_nil⟩

namespace Simple

theorem mem_edges (hg : g.Simple) : (a, b) ∈ g.edges ↔ (a, b) ∈ g.arcs :=
  Digraph.mem_edges.trans ⟨And.right, fun he => ⟨(hg.ends a b he).1, he⟩⟩

theorem nodup_successors (hg : g.Simple) (a : String) : (g.successors a).Nodup := by
  refine List.Nodup.map_on (fun e he e' he' h => ?_) (hg.nodup.filter _)
  have hfirst : e.1 = e'.1 := by
    rw [beq_iff_eq.mp (List.mem_filter.mp he).2, beq_iff_eq.mp (List.mem_filter.mp he').2]
  exact Prod.ext hfirst h

theorem nodup_edges (hg : g.Simple) : g.edges.Nodup := by
  refine List.nodup_flatMap.mpr ⟨fun a _ => (hg.nodup_successors a).map
    fun b b' h => (Prod.mk.inj h).2, ?_⟩
  refine List.Nodup.pairwise_of_forall_ne g.nodes.keys_nodup fun a _ a' _ hne => ?_
  intro e he he'
  obtain ⟨b, -, rfl⟩ := List.mem_map.mp he
  obtain ⟨b', -, h⟩ := List.mem_map.mp he'
  exact hne (Prod.mk.inj h).1.symm

theorem add (hg : g.Simple) (x : Addition) : (g.add x).Simple := by
  refine ⟨fun a b he => ?_, ?_⟩
  · rw [mem_names_add, mem_names_add]
    rcases mem_arcs_add.mp he with he | rfl
    · exact (hg.ends a b he).imp .inl .inl
    · exact ⟨.inr (by simp [Addition.names]), .inr (by simp [Addition.names])⟩
  · cases x with
    | node name attributes => exact hg.nodup
    | edge a b =>
      rw [Digraph.add, arcs_addEdge]
      split_ifs with hmem
      · exact hg.nodup
      · rw [← List.concat_eq_append]
        exact hg.nodup.concat hmem

theorem addAll (hg : g.Simple) (xs : List Addition) : (g.addAll xs).Simple := by
  induction xs generalizing g with
  | nil => exact hg
  | cons x xs ih => exact ih (hg.add x)

end Simple

/-! ### Unions -/

/-- `c` has the nodes and the edges of `d` and of `i`, and the attributes of `d`. -/
structure IsUnion (c d i : Digraph) : Prop where
  names : ∀ n, n ∈ c.names ↔ n ∈ d.names ∨ n ∈ i.names
  edges : ∀ e, e ∈ c.edges ↔ e ∈ d.edges ∨ e ∈ i.edges
  nodup : c.edges.Nodup
  attributes : ∀ n ∈ c.names, c.nodes.get? n = some (d.nodes.getD n ∅)

def nodeAdditions (g : Digraph) : List Addition :=
  g.nodes.entries.map fun e => .node e.1 e.2.entries

def edgeAdditions (g : Digraph) : List Addition := g.edges.map fun e => .edge e.1 e.2

theorem compose_eq (g h : Digraph) :
    g.compose h = empty.addAll
      (g.nodeAdditions ++ h.nodeAdditions ++ (g.edgeAdditions ++ h.edgeAdditions)) := by
  rw [addAll, List.foldl_append, nodeAdditions, nodeAdditions, edgeAdditions, edgeAdditions,
    ← List.map_append, ← List.map_append, List.foldl_map, List.foldl_map]
  rfl

theorem attributesOf_nodeAdditions (g : Digraph) (n : String) :
    g.nodeAdditions.flatMap (Addition.attributesOf n) = (g.nodes.getD n ∅).entries := by
  rw [nodeAdditions, List.flatMap_map]
  cases hget : g.nodes.get? n with
  | none =>
    rw [getD_eq, hget]
    refine List.flatMap_eq_nil_iff.mpr fun e he => if_neg fun hname => ?_
    rw [← hname, get?_eq_some_iff.mpr he] at hget
    cases hget
  | some as =>
    rw [getD_eq, hget, flatMap_eq_of_unique (List.Nodup.of_map _ g.nodes.nodup)
      (get?_eq_some_iff.mp hget)]
    · exact if_pos rfl
    · refine fun e he hne => if_neg fun hname => hne ?_
      rw [← hname, get?_eq_some_iff.mpr he] at hget
      exact Prod.ext hname (Option.some.inj hget)

theorem exists_mem_nodeAdditions : (∃ x ∈ g.nodeAdditions, n ∈ x.names) ↔ n ∈ g.names := by
  simp [nodeAdditions, Addition.names, names, keys]

theorem edge_mem_edgeAdditions : .edge a b ∈ g.edgeAdditions ↔ (a, b) ∈ g.edges := by
  simp [edgeAdditions]

theorem Simple.mem_names_of_edgeAdditions (hg : g.Simple) {x : Addition} (hx : x ∈ g.edgeAdditions)
    (hn : n ∈ x.names) : n ∈ g.names := by
  obtain ⟨⟨a, b⟩, he, rfl⟩ := List.mem_map.mp hx
  obtain ⟨ha, hb⟩ := hg.ends a b (Digraph.mem_edges.mp he).2
  rcases List.mem_pair.mp hn with rfl | rfl
  · exact ha
  · exact hb

theorem Simple.mem_names_compose (hg : g.Simple) (hh : h.Simple) :
    n ∈ (g.compose h).names ↔ n ∈ g.names ∨ n ∈ h.names := by
  rw [compose_eq, mem_names_addAll]
  constructor
  · rintro (hn | ⟨x, hx, hn⟩)
    · cases hn
    · rcases List.mem_append.mp hx with hx | hx
      · exact (List.mem_append.mp hx).imp (fun hx => exists_mem_nodeAdditions.mp ⟨x, hx, hn⟩)
          fun hx => exists_mem_nodeAdditions.mp ⟨x, hx, hn⟩
      · exact (List.mem_append.mp hx).imp (hg.mem_names_of_edgeAdditions · hn)
          (hh.mem_names_of_edgeAdditions · hn)
  · rintro (hn | hn)
    all_goals
      obtain ⟨x, hx, hn⟩ := exists_mem_nodeAdditions.mpr hn
      exact .inr ⟨x, by simp [hx], hn⟩

theorem mem_arcs_compose : (a, b) ∈ (g.compose h).arcs ↔ (a, b) ∈ g.edges ∨ (a, b) ∈ h.edges := by
  rw [compose_eq, mem_arcs_addAll, ← edge_mem_edgeAdditions, ← edge_mem_edgeAdditions]
  simp [nodeAdditions, empty]

theorem getD_compose (hbare : h.nodes.getD n ∅ = ∅) :
    (g.compose h).nodes.getD n ∅ = g.nodes.getD n ∅ := by
  have hedges : (g.edgeAdditions ++ h.edgeAdditions).flatMap (Addition.attributesOf n) = [] := by
    rw [edgeAdditions, edgeAdditions, ← List.map_append, List.flatMap_map]
    exact List.flatMap_eq_nil_iff.mpr fun _ _ => rfl
  rw [compose_eq, getD_addAll, List.flatMap_append, List.flatMap_append, hedges,
    attributesOf_nodeAdditions, attributesOf_nodeAdditions, hbare,
    show (∅ : Attributes).entries = [] from rfl, List.append_nil, List.append_nil]
  exact ext_entries (entries_insertMany_of_nodup (g.nodes.getD n ∅).nodup)

theorem isUnion_compose (hg : g.Simple) (hh : h.Simple) (hbare : ∀ n, h.nodes.getD n ∅ = ∅) :
    (g.compose h).IsUnion g h := by
  have hsimple : (g.compose h).Simple := compose_eq g h ▸ simple_empty.addAll _
  refine ⟨fun n => hg.mem_names_compose hh, fun (a, b) => hsimple.mem_edges.trans mem_arcs_compose,
    hsimple.nodup_edges, fun n hn => ?_⟩
  obtain ⟨as, has⟩ := mem_names_iff.mp hn
  rw [← getD_compose (hbare n), getD_eq, has]
  rfl

/-! ### Results and what they lead to -/

/-- `g` has the results and what they lead to for nodes, and an edge for each way there. -/
structure OfResults (g : Digraph) (rs : Results) (targets : ScanResult → List String) : Prop where
  names : ∀ n, n ∈ g.names ↔ ∃ r ∈ rs.values, n = r.uniqueName ∨ n ∈ targets r
  edges : ∀ a b, (a, b) ∈ g.edges ↔ ∃ r ∈ rs.values, a = r.uniqueName ∧ b ∈ targets r
  nodup : g.edges.Nodup

theorem ofResults_links (rs : Results) (own : ScanResult → List (String × Value))
    (other : String → List (String × Value)) (targets : ScanResult → List String) : OfResults
      (empty.addAll (rs.values.flatMap fun r => linkAdditions r.uniqueName (own r) other
        (targets r))) rs targets := by
  have hsimple := simple_empty.addAll
    (rs.values.flatMap fun r => linkAdditions r.uniqueName (own r) other (targets r))
  refine ⟨fun n => ?_, fun a b => ?_, hsimple.nodup_edges⟩
  · exact mem_names_links.trans (or_iff_right fun hn => nomatch hn)
  · rw [hsimple.mem_edges]
    exact mem_arcs_links.trans (or_iff_right fun he => nomatch he)

/-- Both graphs have the same nodes and edges, in whatever order. -/
structure SameSets (g h : Digraph) : Prop where
  names : ∀ n, n ∈ g.names ↔ n ∈ h.names
  edges : ∀ e, e ∈ g.edges ↔ e ∈ h.edges

theorem OfResults.sameSets {rs rs' : Results} {targets : ScanResult → List String}
    (hg : g.OfResults rs targets) (hh : h.OfResults rs' targets)
    (hperm : rs.values.Perm rs'.values) : g.SameSets h where
  names n := by rw [hg.names, hh.names]; simp only [hperm.mem_iff]
  edges := fun (a, b) => by rw [hg.edges, hh.edges]; simp only [hperm.mem_iff]

theorem IsUnion.sameSets {c c' d d' i i' : Digraph} (hc : c.IsUnion d i) (hc' : c'.IsUnion d' i')
    (hd : d.SameSets d') (hi : i.SameSets i') : c.SameSets c' where
  names n := by rw [hc.names, hc'.names, hd.names, hi.names]
  edges e := by rw [hc.edges, hc'.edges, hd.edges, hi.edges]

end Digraph

/-! ### Graphs of a dictionary of results -/

namespace Results

open CodeAtlas.Digraph

variable {rs : Results}

def dependencyGraph (rs : Results) : Digraph :=
  ((GraphView.new .entityDependency).addDependencies rs).graph

def inheritanceGraph (rs : Results) : Digraph :=
  ((GraphView.new .entityInheritance).addInheritance rs.values).1.graph

def completeGraph (rs : Results) : Digraph := rs.dependencyGraph.compose rs.inheritanceGraph

theorem dependencyGraph_eq (rs : Results) :
    rs.dependencyGraph = empty.addAll (rs.values.flatMap importAdditions) :=
  addDependencies_eq empty rs

theorem inheritanceGraph_eq (hrs : ∀ r ∈ rs.values, r.isEntity = true) :
    rs.inheritanceGraph = empty.addAll (rs.values.flatMap parentAdditions) := by
  rw [inheritanceGraph, GraphView.addInheritance_of_isEntity _ hrs]
  exact addInheritance_eq empty rs

theorem ofResults_dependencyGraph (rs : Results) :
    rs.dependencyGraph.OfResults rs ScanResult.imports :=
  rs.dependencyGraph_eq ▸ ofResults_links rs _ _ _

theorem ofResults_inheritanceGraph (hrs : ∀ r ∈ rs.values, r.isEntity = true) :
    rs.inheritanceGraph.OfResults rs ScanResult.inherits :=
  inheritanceGraph_eq hrs ▸ ofResults_links rs _ _ _

theorem getD_inheritanceGraph (hrs : ∀ r ∈ rs.values, r.isEntity = true) (n : String) :
    rs.inheritanceGraph.nodes.getD n ∅ = ∅ := by
  have hbare : ∀ x ∈ rs.values.flatMap parentAdditions, x.attributesOf n = [] := by
    intro x hx
    obtain ⟨r, -, hx⟩ := List.mem_flatMap.mp hx
    rcases List.mem_cons.mp hx with rfl | hx
    · exact ite_self _
    · obtain ⟨d, -, hx⟩ := List.mem_flatMap.mp hx
      rcases List.mem_pair.mp hx with rfl | rfl
      · exact ite_self _
      · rfl
  rw [inheritanceGraph_eq hrs, getD_addAll, List.flatMap_eq_nil_iff.mpr hbare]
  rfl

theorem simple_dependencyGraph (rs : Results) : rs.dependencyGraph.Simple := by
  rw [dependencyGraph_eq]
  exact simple_empty.addAll _

theorem isUnion_completeGraph (hrs : ∀ r ∈ rs.values, r.isEntity = true) :
    rs.completeGraph.IsUnion rs.dependencyGraph rs.inheritanceGraph := by
  refine isUnion_compose rs.simple_dependencyGraph ?_ (getD_inheritanceGraph hrs)
  rw [inheritanceGraph_eq hrs]
  exact simple_empty.addAll _

end Results

/-! ### Filling twice -/

namespace Analysis

variable {a a' : Analysis} {kind : GraphKind}

theorem filling_twice (a : Analysis) (kind : GraphKind) (g : Digraph) :
    a.filling kind (a.filling kind g) = a.filling kind g := by
  cases kind with
  | entityDependency | fileDependency =>
    rw [filling, filling, Digraph.addDependencies_eq, Digraph.addDependencies_eq,
      Digraph.addAll_twice]
  | entityInheritance =>
    rw [filling, filling, Digraph.addInheritance_eq, Digraph.addInheritance_eq,
      Digraph.addAll_twice]
  | entityComplete | fileSystem | fileChangeCoupling => rfl

theorem Keyed.setGraph_eq_self (h : a.Keyed) {v : GraphView} (hv : a.graphs.get? kind = some v) :
    a.setGraph v = a := by
  rw [Analysis.setGraph, h kind v hv, insert_of_get? hv]

theorem Keyed.fillGraph_eq_self (h : a.Keyed) {f : GraphView → GraphView}
    (hf : ∀ v, a.graphs.get? kind = some v → f v = v) : a.fillGraph kind f = a := by
  rw [Analysis.fillGraph]
  split
  · next v hv => rw [hf v hv, h.setGraph_eq_self hv]
  · rfl

theorem Fills.fillSimpleGraphs_eq_self (h : Fills a a') : a'.fillSimpleGraphs = a' := by
  have hentities : a'.entityResults = a.entityResults := by rw [h.rest]; rfl
  have hfiles : a'.fileResults = a.fileResults := by rw [h.rest]; rfl
  have hfilled : ∀ kind ≠ .entityComplete, ∀ v, a'.graphs.get? kind = some v →
      { v with graph := a.filling kind v.graph } = v := by
    intro kind hkind v hv
    rw [h.simple kind hkind] at hv
    obtain ⟨u, -, rfl⟩ := Option.map_eq_some_iff.mp hv
    rw [a.filling_twice kind u.graph]
  have hdependency : ∀ v, a'.graphs.get? .entityDependency = some v →
      v.addDependencies a.entityResults = v :=
    hfilled .entityDependency (by decide)
  have hinheritance : ∀ v, a'.graphs.get? .entityInheritance = some v →
      (v.addInheritance a.entityResults.values).1 = v := by
    intro v hv
    rw [addInheritance_entityResults]
    exact hfilled .entityInheritance (by decide) v hv
  have hfile : ∀ v, a'.graphs.get? .fileDependency = some v → v.addDependencies a.fileResults = v :=
    hfilled .fileDependency (by decide)
  rw [fillSimpleGraphs, hentities, hfiles, h.keyed.fillGraph_eq_self hdependency,
    h.keyed.fillGraph_eq_self hinheritance, h.keyed.fillGraph_eq_self hfile]

/-- Graphs that have been filled are left as they are. -/
theorem Keyed.fillGraphs_twice (h : a.Keyed) {u : GraphView}
    (hcomplete : a.graphs.get? .entityComplete = some u) (hok : a.fillGraphs = (a', .ok ())) :
    a'.fillGraphs = (a', .ok ()) := by
  have hfills := h.fills hok
  obtain ⟨d, i, hd, hi, hc⟩ := hfills.complete u hcomplete
  rw [fillGraphs, hfills.fillSimpleGraphs_eq_self, hc, hd, hi]
  exact congrArg (·, _) (hfills.keyed.setGraph_eq_self hc)

/-- The graphs of results say what the results say and no more, the complete graph is their union,
filling them again changes nothing, and neither does the order of the results. -/
theorem fillGraphs_exact (rs : Results) (hrs : ∀ r ∈ rs.values, r.isEntity = true) :
    ((GraphView.new .entityInheritance).addInheritance rs.values).2 = .ok () ∧
      rs.dependencyGraph.OfResults rs ScanResult.imports ∧
      rs.inheritanceGraph.OfResults rs ScanResult.inherits ∧
      rs.completeGraph.IsUnion rs.dependencyGraph rs.inheritanceGraph ∧
      (∀ rs' : Results, rs'.values.Perm rs.values →
        rs'.dependencyGraph.SameSets rs.dependencyGraph ∧
        rs'.inheritanceGraph.SameSets rs.inheritanceGraph ∧
        rs'.completeGraph.SameSets rs.completeGraph) ∧
      ∀ a : Analysis, a.Keyed → a.entityResults = rs →
        (∀ kind ∈ GraphKind.ofEntities, a.graphs.contains kind = true) →
        ∃ a', a.fillGraphs = (a', .ok ()) ∧ a'.fillGraphs = (a', .ok ()) ∧
          ((∀ kind ∈ GraphKind.ofEntities, a.graphs.get? kind = some (.new kind)) →
            (a'.graphs.get? .entityDependency).map GraphView.graph = some rs.dependencyGraph ∧
            (a'.graphs.get? .entityInheritance).map GraphView.graph = some rs.inheritanceGraph ∧
            (a'.graphs.get? .entityComplete).map GraphView.graph = some rs.completeGraph) := by
  have hinherits := GraphView.addInheritance_of_isEntity (GraphView.new .entityInheritance) hrs
  refine ⟨congrArg Prod.snd hinherits, rs.ofResults_dependencyGraph,
    Results.ofResults_inheritanceGraph hrs, Results.isUnion_completeGraph hrs, fun rs' hperm => ?_,
    fun a hkeyed hentities hall => ?_⟩
  · have hrs' : ∀ r ∈ rs'.values, r.isEntity = true := fun r hr => hrs r (hperm.mem_iff.mp hr)
    have hdependency := rs'.ofResults_dependencyGraph.sameSets rs.ofResults_dependencyGraph hperm
    have hinheritance := (Results.ofResults_inheritanceGraph hrs').sameSets
      (Results.ofResults_inheritanceGraph hrs) hperm
    exact ⟨hdependency, hinheritance,
      (Results.isUnion_completeGraph hrs').sameSets
        (Results.isUnion_completeGraph hrs) hdependency hinheritance⟩
  · obtain ⟨a', ha'⟩ := hkeyed.fillGraphs_ok fun _ => ⟨hall _ (by decide), hall _ (by decide)⟩
    obtain ⟨u, hu⟩ := Option.isSome_iff_exists.mp (hall .entityComplete (by decide))
    refine ⟨a', ha', hkeyed.fillGraphs_twice hu ha', fun hnew => ?_⟩
    have hget := (hkeyed.fills ha').get?_entityGraph hnew
    have hgraph : rs.inheritanceGraph = Digraph.empty.addInheritance rs := by
      rw [Results.inheritanceGraph, hinherits]; rfl
    rw [hget _ (by decide), hget _ (by decide), hget _ (by decide), Results.completeGraph, hgraph,
      ← hentities]
    exact ⟨rfl, rfl, rfl⟩

end Analysis

namespace Sample

def heirs : List (String × ScanResult) :=
  [part "A" ["x.List"] (.entity { entityName := "A", inherits := ["B"] }),
    part "B" ["A"] (.entity { entityName := "B", inherits := ["y.Base"] })]

def heirsAnalysis : Analysis := { classes.analysis with results := .ofList heirs }

/-- A base class that no class uses is in the complete graph, without attributes. -/
theorem fillGraphs_exact_heirs :
    ∃ a', heirsAnalysis.fillGraphs = (a', .ok ()) ∧ a'.fillGraphs = (a', .ok ()) ∧
    (a'.graphs.get? .entityComplete).map GraphView.graph =
      some (Results.completeGraph (.ofList heirs)) ∧
    (Results.completeGraph (.ofList heirs)).nodes.get? "y.Base" = some ∅ ∧
    ("A", "B") ∈ (Results.completeGraph (.ofList heirs)).edges ∧
    ("A", "B") ∉ (Results.dependencyGraph (.ofList heirs)).edges ∧
    (Results.completeGraph (.ofList heirs.reverse)).SameSets
      (Results.completeGraph (.ofList heirs)) := by
  have hvalues : (ofList heirs).values = heirs.map Prod.snd := rfl
  have hreverse : (ofList heirs.reverse).values = (heirs.map Prod.snd).reverse := rfl
  have hrs : ∀ r ∈ (ofList heirs).values, r.isEntity = true := by decide +kernel
  have hnew : ∀ kind ∈ GraphKind.ofEntities, heirsAnalysis.graphs.get? kind = some (.new kind) := by
    simp only [GraphKind.ofEntities, List.forall_mem_cons]
    exact ⟨rfl, rfl, rfl, by simp⟩
  obtain ⟨-, -, -, hunion, hperm, hfill⟩ := Analysis.fillGraphs_exact (.ofList heirs) hrs
  obtain ⟨a', ha', hagain, hgraphs⟩ := hfill heirsAnalysis keyed_classes rfl (by decide)
  have hbase : "y.Base" ∈ (Results.completeGraph (.ofList heirs)).names := by decide +kernel
  refine ⟨a', ha', hagain, (hgraphs hnew).2.2, ?_, ?_, ?_, ?_⟩
  · rw [hunion.attributes _ hbase]
    rfl
  · decide +kernel
  · decide +kernel
  · refine (hperm (.ofList heirs.reverse) ?_).2.2
    rw [hvalues, hreverse]
    exact List.reverse_perm _

end Sample

end CodeAtlas
