import CodeAtlas.Proofs.Additions
import CodeAtlas.Proofs.GraphFigures

/-!
# Fan-in and fan-out on the nodes of graphs

A metric files the degrees of a node under its name and a word for the graph (`FanInOut.subject?`),
and puts what all graphs say of one name into one row. The graphs of entities have three words, and
each admits only its own (`FanInOut.admits_other`), so every one of them ends with its own degrees,
`Work.calculateMetric_carriesFan`, even where they share names.
-/

namespace CodeAtlas

open Effect FanInOut

/-! ### What is filed for a node -/

namespace FanInOut

variable {s s' : String} {g : Digraph} {n k : String}

theorem mem_subjects {kind : GraphKind} (h : subject? kind = some s) : s ∈ subjects := by
  cases kind with
  | fileSystem | fileChangeCoupling => cases h
  | _ =>
    obtain rfl := Option.some.inj h
    decide

theorem key_inj (w s s' : String) : key w s = key w s' ↔ s = s' := by
  rw [key, key, String.append_left_inj, String.append_right_inj]

theorem key_ne (s s' : String) : key "fan-out" s ≠ key "fan-in" s' := by
  intro h
  simpa [key] using congrArg String.toList h

theorem lastFiled?_map (names : List String) (f : String → List (String × Value)) (n k : String) :
    Rows.lastFiled? (names.map fun name => (name, f name)) n k =
      if n ∈ names then (OrderedMap.ofList (f n)).get? k else none := by
  induction names with
  | nil => rfl
  | cons name names ih =>
    rw [List.map_cons, Rows.lastFiled?, ih]
    by_cases hname : name = n
    · subst hname
      by_cases hmem : name ∈ names
      · simp [hmem]
      · simp [hmem]
    · have hne : n ≠ name := fun h => hname h.symm
      simp [hname, hne]

theorem lastFiled?_rows (s s' : String) (g : Digraph) (n : String) :
    Rows.lastFiled? (rows s g) n (key "fan-in" s') =
      (if s = s' ∧ n ∈ g.names then some (.int (g.inDegree n)) else none) ∧
    Rows.lastFiled? (rows s g) n (key "fan-out" s') =
      if s = s' ∧ n ∈ g.names then some (.int (g.outDegree n)) else none := by
  have hget : ∀ k, (OrderedMap.ofList (row s g n)).get? k =
      if key "fan-out" s = k then some (.int (g.outDegree n))
      else if key "fan-in" s = k then some (.int (g.inDegree n)) else none := by
    intro k
    exact (OrderedMap.get?_insert ..).trans (by rw [OrderedMap.get?_insert]; rfl)
  rw [rows, lastFiled?_map, lastFiled?_map, hget, hget, if_neg (key_ne s s')]
  by_cases hsame : s = s'
  · by_cases hmem : n ∈ g.names <;> simp [hsame, hmem]
  · have hne := (key_ne s' s).symm
    simp [key_inj, hsame, hne]

open Classical in
/-- Only the graph that a word stands for has a say in the figures under that word. -/
theorem lastFiled?_filing {views : List GraphView}
    (hsubject : ∀ u ∈ views, (subject? u.kind).isSome) {v : GraphView}
    (hs : subject? v.kind = some s) (hunique : ∀ u ∈ views, subject? u.kind = some s → u = v)
    (n : String) : Rows.lastFiled? (filing views) n (key "fan-in" s) =
      (if v ∈ views ∧ n ∈ v.graph.names then some (.int (v.graph.inDegree n)) else none) ∧
    Rows.lastFiled? (filing views) n (key "fan-out" s) =
      if v ∈ views ∧ n ∈ v.graph.names then some (.int (v.graph.outDegree n)) else none := by
  induction views with
  | nil => exact ⟨by simp [filing, Rows.lastFiled?], by simp [filing, Rows.lastFiled?]⟩
  | cons u views ih =>
    obtain ⟨hu, hviews⟩ := List.forall_mem_cons.mp hsubject
    obtain ⟨huv, hrest⟩ := List.forall_mem_cons.mp hunique
    obtain ⟨t, ht⟩ := Option.isSome_iff_exists.mp hu
    obtain ⟨hin, hout⟩ := ih hviews hrest
    obtain ⟨hrowsIn, hrowsOut⟩ := lastFiled?_rows t s u.graph n
    have hcons : filing (u :: views) = rows t u.graph ++ filing views := by
      rw [filing, List.flatMap_cons, ht]
      rfl
    rw [hcons, Rows.lastFiled?_append, Rows.lastFiled?_append, hin, hout, hrowsIn, hrowsOut]
    -- Should the graph come again further on, it files the same degrees once more.
    by_cases hts : t = s
    · obtain rfl : u = v := huv (hts ▸ ht)
      by_cases hmem : u ∈ views <;> by_cases hn : n ∈ u.graph.names <;> simp [hts, hmem, hn]
    · have hne : v ≠ u := by
        rintro rfl
        exact hts (Option.some.inj (ht.symm.trans hs))
      simp [hts, hne]

end FanInOut

/-! ### The graphs that a metric looks at -/

def GraphKind.ofEntities : List GraphKind :=
  [.entityDependency, .entityInheritance, .entityComplete]

/-- A metric that was made when there were graphs of some kinds looks at that of a kind: at those of
entities, and at the dependencies of files if there were none of entities. -/
def GraphSlots.LooksAt (kinds : List GraphKind) (kind : GraphKind) : Prop :=
  kind ∈ kinds ∧ (kind ∈ GraphKind.ofEntities ∨ kind = .fileDependency ∧ .entityDependency ∉ kinds)

variable {kinds : List GraphKind} {settings : Settings} {kind : GraphKind}

theorem GraphSlots.LooksAt.subject (h : LooksAt kinds kind) :
    (subject? kind).isSome := by
  have hall : ∀ kind ∈ GraphKind.ofEntities, (subject? kind).isSome := by decide
  rcases h.2 with hentity | ⟨rfl, -⟩
  · exact hall kind hentity
  · rfl

theorem GraphSlots.LooksAt.unique {kind kind' : GraphKind} (h : LooksAt kinds kind)
    (h' : LooksAt kinds kind') (hsubject : subject? kind = subject? kind') : kind = kind' := by
  have hdistinct : ∀ k ∈ GraphKind.ofEntities, ∀ k' ∈ GraphKind.ofEntities,
      subject? k = subject? k' → k = k' := by decide
  have hfile : ∀ k ∈ GraphKind.ofEntities, subject? k = subject? .fileDependency →
      k = .entityDependency := by decide
  rcases h.2 with hk | ⟨rfl, hk⟩ <;> rcases h'.2 with hk' | ⟨rfl, hk'⟩
  · exact hdistinct kind hk kind' hk' hsubject
  · exact absurd (hfile kind hk hsubject ▸ h.1) hk'
  · exact absurd (hfile kind' hk' hsubject.symm ▸ h'.1) hk
  · rfl

namespace Analysis

variable {a : Analysis} {kinds : List GraphKind} {v : GraphView}

theorem mem_slotViews_ofKinds :
    v ∈ a.slotViews (.ofKinds kinds) ↔
    ∃ kind, GraphSlots.LooksAt kinds kind ∧ a.graphs.get? kind = some v := by
  simp only [slotViews, GraphSlots.list, GraphSlots.ofKinds, List.mem_filterMap, List.mem_cons,
    List.not_mem_nil, or_false, List.contains_iff_mem]
  constructor
  · rintro ⟨slot, rfl | rfl | rfl, hslot⟩
    · split_ifs at hslot with hentity hfile
      · exact ⟨_, ⟨hentity, .inl (by decide)⟩, hslot⟩
      · exact ⟨_, ⟨hfile, .inr ⟨rfl, hentity⟩⟩, hslot⟩
      · cases hslot
    · split_ifs at hslot with hmem
      · exact ⟨_, ⟨hmem, .inl (by decide)⟩, hslot⟩
      · cases hslot
    · split_ifs at hslot with hmem
      · exact ⟨_, ⟨hmem, .inl (by decide)⟩, hslot⟩
      · cases hslot
  · rintro ⟨kind, ⟨hmem, hkind⟩, hget⟩
    refine ⟨.ofAnalysis kind, ?_, hget⟩
    rcases hkind with hkind | ⟨rfl, hnone⟩
    · simp only [GraphKind.ofEntities, List.mem_cons, List.not_mem_nil, or_false] at hkind
      rcases hkind with rfl | rfl | rfl
      · exact .inl (if_pos hmem).symm
      · exact .inr (.inl (if_pos hmem).symm)
      · exact .inr (.inr (if_pos hmem).symm)
    · exact .inl ((if_neg hnone).trans (if_pos hmem)).symm

theorem Keyed.subject_of_mem (h : a.Keyed) (hv : v ∈ a.slotViews (.ofKinds kinds)) :
    (subject? v.kind).isSome := by
  obtain ⟨kind, hlooks, hget⟩ := mem_slotViews_ofKinds.mp hv
  exact h kind v hget ▸ hlooks.subject

theorem Keyed.lastFiled?_slotViews (h : a.Keyed) {kind : GraphKind}
    (hlooks : GraphSlots.LooksAt kinds kind) (hget : a.graphs.get? kind = some v) {s : String}
    (hs : subject? kind = some s) (n : String) :
    Rows.lastFiled? (filing (a.slotViews (.ofKinds kinds))) n (key "fan-in" s) =
      (if n ∈ v.graph.names then some (.int (v.graph.inDegree n)) else none) ∧
    Rows.lastFiled? (filing (a.slotViews (.ofKinds kinds))) n (key "fan-out" s) =
      if n ∈ v.graph.names then some (.int (v.graph.outDegree n)) else none := by
  have hv : v ∈ a.slotViews (.ofKinds kinds) := mem_slotViews_ofKinds.mpr ⟨kind, hlooks, hget⟩
  have hvs : subject? v.kind = some s := h kind v hget ▸ hs
  have hunique : ∀ u ∈ a.slotViews (.ofKinds kinds), subject? u.kind = some s → u = v := by
    intro u hu hus
    obtain ⟨kind', hlooks', hget'⟩ := mem_slotViews_ofKinds.mp hu
    obtain rfl := hlooks'.unique hlooks ((h kind' u hget' ▸ hus).trans hs.symm)
    exact Option.some.inj (hget'.symm.trans hget)
  obtain ⟨hin, hout⟩ := lastFiled?_filing (fun u hu => h.subject_of_mem hu) hvs hunique n
  rw [hin, hout]
  simp [hv]

end Analysis

theorem Metric.of_new_fanInOut {m : Metric}
    (h : Metric.new .fanInOut settings kinds = .ok m) :
    m = { gauge := .fanInOut (.ofKinds kinds) } :=
  (Except.ok.inj h).symm

theorem Metric.of_new {m : Metric} {a : Analysis} (hkeyed : a.Keyed)
    (hgraph : m.kind.isGraph = true) (h : Metric.new m.kind settings kinds = .ok m) :
    m.rows = ∅ ∧ m.Measures a := by
  cases hkind : m.kind with
  | fanInOut =>
    rw [hkind] at h
    obtain rfl := of_new_fanInOut h
    exact ⟨rfl, fun v hv => hkeyed.subject_of_mem hv⟩
  | communities =>
    rw [hkind] at h
    obtain rfl := Except.ok.inj h
    exact ⟨rfl, trivial⟩
  | methods | sourceLines | whitespace | terms | history =>
    rw [hkind] at hgraph
    cases hgraph

/-! ### Graphs with figures -/

/-- Every node carries its degrees, under a word for graphs. -/
def Digraph.CarriesFan (g : Digraph) (subject : String) : Prop := ∀ n ∈ g.names,
  g.attribute? n ("metric_" ++ key "fan-in" subject) = some (.int (g.inDegree n)) ∧
  g.attribute? n ("metric_" ++ key "fan-out" subject) = some (.int (g.outDegree n))

/-- No node carries degrees under a word for graphs. -/
def Digraph.OmitsFan (g : Digraph) (subject : String) : Prop := ∀ n ∈ g.names,
  g.attribute? n ("metric_" ++ key "fan-in" subject) = none ∧
  g.attribute? n ("metric_" ++ key "fan-out" subject) = none

/-- The row of a node says its degrees in a graph. -/
def Rows.SaysFan (rows : Rows) (subject : String) (g : Digraph) (n : String) : Prop :=
  rows.figure? n (key "fan-in" subject) = some (.int (g.inDegree n)) ∧
  rows.figure? n (key "fan-out" subject) = some (.int (g.outDegree n))

theorem Analysis.Keyed.exists_labelled {a a' : Analysis} (hkeyed : a.Keyed)
    (h : a.addRowsToGraphs = (a', .ok ())) (hsubject : (subject? kind).isSome) {v : GraphView}
    (hv : a.graphs.get? kind = some v) :
    ∃ v', a'.graphs.get? kind = some v' ∧ v'.graph.SameShape v.graph ∧ ∀ n ∈ v.graph.names, ∀ k,
      v'.graph.attribute? n ("metric_" ++ k) =
        (if kind.admits k then a.rows.figure? n k else none).or
          (v.graph.attribute? n ("metric_" ++ k)) := by
  have hkind := hkeyed kind v hv
  have hkept : kind ∈ GraphKind.kept ∧ kind ≠ .fileSystem ∧ kind ≠ .fileChangeCoupling := by
    cases kind with
    | fileSystem | fileChangeCoupling => cases hsubject
    | _ => decide
  obtain ⟨hkept, hfiles, hchanges⟩ := hkept
  have hget := hkeyed.of_addRowsToGraphs h hkept hv
  subst hkind
  obtain ⟨g, heq, hshape, hattributes⟩ := GraphView.addFigures_of_graph hfiles hchanges a.rows
  rw [heq] at hget
  exact ⟨_, hget, hshape, hattributes⟩

theorem Work.step_eq_ok_iff {f : Analysis → Analysis × Except Fault Unit} {j j' : Job} :
    step f j = .ok () j' ↔ ∃ a, f j.analysis = (a, .ok ()) ∧ j' = { j with analysis := a } := by
  cases hf : f j.analysis with
  | mk a r =>
    have hstep : step f j = lift r { j with analysis := a } := by
      rw [step, bind_of_ok (show analysis j = .ok j.analysis j from rfl), hf]
      rfl
    rw [hstep]
    cases r with
    | ok u =>
      constructor
      · intro h
        exact ⟨a, rfl, (EStateM.Result.ok.inj h).2.symm⟩
      · rintro ⟨a', heq, rfl⟩
        rw [(Prod.mk.inj heq).1]
        rfl
    | error e =>
      constructor
      · intro h
        cases h
      · rintro ⟨a', heq, -⟩
        cases (Prod.mk.inj heq).2

/-! ### Graphs before they are measured -/

namespace Digraph

variable {g h : Digraph} {es : List (String × Value)}

def Unmeasured (g : Digraph) : Prop := ∀ n k, g.attribute? n ("metric_" ++ k) = none

theorem attribute?_addNode (g : Digraph) (name : String) (es : List (String × Value))
    (n k : String) : (g.addNode name es).attribute? n k =
      (if name = n then (OrderedMap.ofList es).get? k else none).or (g.attribute? n k) := by
  rw [attribute?, addNode, OrderedMap.get?_insert]
  split_ifs with hname
  · subst hname
    rw [Option.bind_some, OrderedMap.get?_insertMany_or, OrderedMap.getD_eq, attribute?]
    cases g.nodes.get? name with
    | none => rfl
    | some as => rfl
  · rfl

theorem Unmeasured.addNode (hg : g.Unmeasured) (name : String)
    (hes : ∀ k, (OrderedMap.ofList es).get? ("metric_" ++ k) = none) :
    (g.addNode name es).Unmeasured := by
  intro n k
  rw [attribute?_addNode, hg, hes]
  split_ifs
  · rfl
  · rfl

theorem Unmeasured.addEdge (hg : g.Unmeasured) (a b : String) : (g.addEdge a b).Unmeasured := by
  have hnodes : ((g.addNode a []).addNode b []).Unmeasured :=
    (hg.addNode a fun _ => rfl).addNode b fun _ => rfl
  rw [Digraph.addEdge]
  split_ifs
  · exact hnodes
  · exact hnodes

theorem unmeasured_foldl {α : Type} {f : Digraph → α → Digraph} {xs : List α} (hg : g.Unmeasured)
    (hf : ∀ g x, x ∈ xs → g.Unmeasured → (f g x).Unmeasured) : (xs.foldl f g).Unmeasured := by
  induction xs generalizing g with
  | nil => exact hg
  | cons x xs ih =>
    exact ih (hf g x List.mem_cons_self hg) fun g y hy => hf g y (List.mem_cons_of_mem _ hy)

theorem get?_names (hes : ∀ e ∈ es, e.1 = "absolute_name" ∨ e.1 = "display_name")
    (k : String) : (OrderedMap.ofList es).get? ("metric_" ++ k) = none := by
  rw [Option.eq_none_iff_forall_ne_some]
  intro v hv
  rcases OrderedMap.of_get?_insertMany hv with hmem | hmem
  · rcases hes _ hmem with heq | heq
    · simpa using congrArg (fun s : String => s.toList.head?) heq
    · simpa using congrArg (fun s : String => s.toList.head?) heq
  · cases hmem

/-- Links add the names of nodes and no figures. -/
theorem Unmeasured.addLinks (hg : g.Unmeasured) (rs : List ScanResult)
    {own : ScanResult → List (String × Value)} {other : String → List (String × Value)}
    {targets : ScanResult → List String}
    (hown : ∀ r, ∀ e ∈ own r, e.1 = "absolute_name" ∨ e.1 = "display_name")
    (hother : ∀ d, ∀ e ∈ other d, e.1 = "absolute_name" ∨ e.1 = "display_name") :
    (g.addAll (rs.flatMap fun r =>
      linkAdditions r.uniqueName (own r) other (targets r))).Unmeasured := by
  refine unmeasured_foldl hg fun g x hx hg => ?_
  obtain ⟨r, -, hx⟩ := List.mem_flatMap.mp hx
  cases x with
  | edge a b => exact hg.addEdge a b
  | node n es =>
    refine hg.addNode n (get?_names ?_)
    rcases node_mem_linkAdditions.mp hx with ⟨-, rfl⟩ | ⟨-, rfl⟩
    · exact hown r
    · exact hother n

theorem Unmeasured.addDependencies (hg : g.Unmeasured) (rs : Results) :
    (g.addDependencies rs).Unmeasured :=
  addDependencies_eq g rs ▸ hg.addLinks rs.values (by simp) (by simp)

theorem Unmeasured.addInheritance (hg : g.Unmeasured) (rs : Results) :
    (g.addInheritance rs).Unmeasured :=
  addInheritance_eq g rs ▸ hg.addLinks rs.values (by simp) (by simp)

theorem Unmeasured.compose (hg : g.Unmeasured) (hh : h.Unmeasured) : (g.compose h).Unmeasured := by
  have hentry : ∀ e ∈ g.nodes.entries ++ h.nodes.entries, ∀ k,
      (OrderedMap.ofList e.2.entries).get? ("metric_" ++ k) = none := by
    intro e he k
    have hget : (OrderedMap.ofList e.2.entries).get? ("metric_" ++ k) = e.2.get? ("metric_" ++ k) :=
      (OrderedMap.get?_insertMany e.2.nodup ..).trans Option.or_none
    have hattribute : ∀ g : Digraph, g.Unmeasured → e ∈ g.nodes.entries →
        e.2.get? ("metric_" ++ k) = none := by
      intro g hg he
      have hnone := hg e.1 k
      rwa [attribute?, OrderedMap.get?_eq_some_iff.mpr he] at hnone
    rw [hget]
    rcases List.mem_append.mp he with he | he
    · exact hattribute g hg he
    · exact hattribute h hh he
  have hempty : Digraph.empty.Unmeasured := fun _ _ => rfl
  refine unmeasured_foldl (unmeasured_foldl hempty fun acc e he hacc => ?_) fun acc e _ hacc => ?_
  · exact hacc.addNode e.1 (hentry e he)
  · exact hacc.addEdge e.1 e.2

end Digraph

namespace Analysis

variable {a a' : Analysis}

def entityGraph (a : Analysis) : GraphKind → Digraph
  | .entityDependency => Digraph.empty.addDependencies a.entityResults
  | .entityInheritance => Digraph.empty.addInheritance a.entityResults
  | .entityComplete =>
    (Digraph.empty.addDependencies a.entityResults).compose
      (Digraph.empty.addInheritance a.entityResults)
  | _ => Digraph.empty

theorem unmeasured_entityGraph (a : Analysis) (kind : GraphKind) :
    (a.entityGraph kind).Unmeasured := by
  have hempty : Digraph.empty.Unmeasured := fun _ _ => rfl
  cases kind with
  | entityDependency => exact hempty.addDependencies _
  | entityInheritance => exact hempty.addInheritance _
  | entityComplete => exact (hempty.addDependencies _).compose (hempty.addInheritance _)
  | fileDependency | fileSystem | fileChangeCoupling => exact hempty

theorem Fills.get?_entityGraph (h : Fills a a')
    (hnew : ∀ kind ∈ GraphKind.ofEntities, a.graphs.get? kind = some (.new kind)) :
    ∀ kind ∈ GraphKind.ofEntities,
      a'.graphs.get? kind = some { GraphView.new kind with graph := a.entityGraph kind } := by
  have hdependency : a'.graphs.get? .entityDependency =
      some { GraphView.new .entityDependency with graph := a.entityGraph .entityDependency } := by
    rw [h.simple _ (by decide), hnew _ (by decide)]
    rfl
  have hinheritance : a'.graphs.get? .entityInheritance =
      some { GraphView.new .entityInheritance with graph := a.entityGraph .entityInheritance } := by
    rw [h.simple _ (by decide), hnew _ (by decide)]
    rfl
  simp only [GraphKind.ofEntities, List.forall_mem_cons, List.not_mem_nil, false_implies,
    implies_true, and_true]
  refine ⟨hdependency, hinheritance, ?_⟩
  obtain ⟨d, i, hd, hi, hcomplete⟩ := h.complete _ (hnew _ (by decide))
  obtain rfl := Option.some.inj (hd.symm.trans hdependency)
  obtain rfl := Option.some.inj (hi.symm.trans hinheritance)
  exact hcomplete

end Analysis

/-! ### Graphs of entities -/

namespace FanInOut

theorem admits_key {kind : GraphKind} {s : String} (h : subject? kind = some s) :
    kind.admits (key "fan-in" s) = true ∧ kind.admits (key "fan-out" s) = true := by
  cases kind with
  | fileSystem | fileChangeCoupling => cases h
  | _ =>
    obtain rfl := Option.some.inj h
    decide +kernel

theorem admits_other : ∀ kind ∈ GraphKind.ofEntities, ∀ s ∈ subjects, subject? kind ≠ some s →
    kind.admits (key "fan-in" s) = false ∧ kind.admits (key "fan-out" s) = false := by
  decide +kernel

theorem mem_keys {s : String} (h : s ∈ subjects) : key "fan-in" s ∈ keys ∧ key "fan-out" s ∈ keys :=
  ⟨List.mem_flatMap.mpr ⟨s, h, by simp⟩, List.mem_flatMap.mpr ⟨s, h, by simp⟩⟩

end FanInOut

namespace Digraph

variable {kind : GraphKind} {s : String} {rows : Rows} {g g' : Digraph}

/-- A node carries the degrees that its row says, those in its own graph or in another one. -/
theorem attribute?_of_saysFan (hs : subject? kind = some s) {n : String}
    (hattribute : ∀ k, g'.attribute? n ("metric_" ++ k) =
      (if kind.admits k then rows.figure? n k else none).or (g.attribute? n ("metric_" ++ k)))
    {d : Digraph} (hrow : rows.SaysFan s d n) :
    g'.attribute? n ("metric_" ++ key "fan-in" s) = some (.int (d.inDegree n)) ∧
    g'.attribute? n ("metric_" ++ key "fan-out" s) = some (.int (d.outDegree n)) := by
  obtain ⟨hadmitsIn, hadmitsOut⟩ := admits_key hs
  rw [hattribute, hattribute, if_pos hadmitsIn, if_pos hadmitsOut, hrow.1, hrow.2]
  exact ⟨rfl, rfl⟩

theorem carriesFan_of_saysFan (hs : subject? kind = some s) (hshape : g'.SameShape g)
    (hattribute : ∀ n ∈ g.names, ∀ k, g'.attribute? n ("metric_" ++ k) =
      (if kind.admits k then rows.figure? n k else none).or (g.attribute? n ("metric_" ++ k)))
    (hrow : ∀ n ∈ g.names, rows.SaysFan s g n) : g'.CarriesFan s := by
  intro n hn
  rw [hshape.names] at hn
  rw [hshape.inDegree, hshape.outDegree]
  exact attribute?_of_saysFan hs (hattribute n hn) (hrow n hn)

end Digraph

namespace Work

variable {j j' : Job} {x : Work Unit} {P : Analysis → Job → Prop}

def measureGraphs (x : Work Unit) : Work Unit := do
  step Analysis.fillGraphs
  x
  step Analysis.addRowsToGraphs

theorem of_measureGraphs (hkeyed : j.analysis.Keyed) (hx : ∀ a, Analysis.Fills j.analysis a →
    Reaches x { j with analysis := a } fun _ t => t.analysis.graphs = a.graphs ∧ P a t)
    (hok : measureGraphs x j = .ok () j') :
    ∃ a t, Analysis.Fills j.analysis a ∧ t.analysis.graphs = a.graphs ∧ P a t ∧
      t.analysis.Keyed ∧ t.analysis.addRowsToGraphs = (j'.analysis, .ok ()) := by
  obtain ⟨_, t₁, hfill, hok⟩ := bind_eq_ok.mp hok
  obtain ⟨a, ha, rfl⟩ := step_eq_ok_iff.mp hfill
  obtain ⟨_, t, hxt, hadd⟩ := bind_eq_ok.mp hok
  obtain ⟨a', ha', rfl⟩ := step_eq_ok_iff.mp hadd
  have hfills := hkeyed.fills ha
  obtain ⟨hgraphs, hP⟩ := (hx a hfills).of_ok hxt
  refine ⟨a, t, hfills, hgraphs, hP, fun kind v hv => hfills.keyed kind v ?_, ha'⟩
  rw [← hgraphs]
  exact hv

/-- It ends well if the complete graph has both of its parts and it is known which nodes of the file
system are directories. -/
theorem exists_measureGraphs (hkeyed : j.analysis.Keyed) (hx : ∀ a, Analysis.Fills j.analysis a →
    Reaches x { j with analysis := a } fun _ t => t.analysis.graphs = a.graphs ∧ P a t)
    (hparts : j.analysis.graphs.contains .entityComplete = true →
      j.analysis.graphs.contains .entityDependency = true ∧
      j.analysis.graphs.contains .entityInheritance = true)
    (hdirectories : ∀ v, j.analysis.graphs.get? .fileSystem = some v → v.TellsDirectories) :
    ∃ j', measureGraphs x j = .ok () j' := by
  obtain ⟨a, ha⟩ := hkeyed.fillGraphs_ok hparts
  have hfills := hkeyed.fills ha
  obtain ⟨⟨⟩, t, hxt, hgraphs, -⟩ := hx a hfills
  have hadd := hfills.addRowsToGraphs_ok hgraphs hdirectories
  refine ⟨{ t with analysis := t.analysis.addRowsToGraphs.1 },
    bind_eq_ok.mpr ⟨(), _, step_eq_ok_iff.mpr ⟨a, ha, rfl⟩, ?_⟩⟩
  exact bind_eq_ok.mpr ⟨(), t, hxt, step_eq_ok_iff.mpr ⟨_, Prod.ext rfl hadd, rfl⟩⟩

theorem Calculated.figure? {ref : MetricRef} {m : Metric}
    {es : List (String × List (String × Value))} (h : Calculated ref es j j')
    (hm : Registered ref m j) (n : String) {k : String} (hk : k ∈ keys) :
    j'.analysis.rows.figure? n k = (Rows.lastFiled? es n k).or (m.figure? j.analysis.rows n k) := by
  obtain ⟨m', hm', -, hfigure⟩ := h.filed.filed m hm
  rw [h.collected m' hm', hfigure n k hk]

/-- Each graph of entities ends with its own degrees on its nodes and without those of the other
two, whichever of the three graphs have a node of that name. -/
theorem calculateMetric_carriesFan (j : Job) (m : Metric) (kinds : List GraphKind)
    (hkeyed : j.analysis.Keyed)
    (hgraphs : ∀ kind ∈ GraphKind.ofEntities, j.analysis.graphs.get? kind = some (.new kind))
    (hmetric : j.analysis.metric? ⟨.entities, MetricKind.fanInOut.name⟩ = some m)
    (hnew : Metric.new .fanInOut j.analysis.settings kinds = .ok m)
    (hkinds : GraphKind.ofEntities ⊆ kinds) :
    ((∀ v, j.analysis.graphs.get? .fileSystem = some v → v.TellsDirectories) →
      ∃ j', measureGraphs (calculateMetric ⟨.entities, MetricKind.fanInOut.name⟩) j = .ok () j') ∧
    ∀ j', measureGraphs (calculateMetric ⟨.entities, MetricKind.fanInOut.name⟩) j = .ok () j' →
      ∀ kind ∈ GraphKind.ofEntities, ∃ v, j'.analysis.graphs.get? kind = some v ∧
        v.graph.SameShape (j.analysis.entityGraph kind) ∧
        (∀ s, subject? kind = some s → v.graph.CarriesFan s) ∧
        ∀ s ∈ subjects, subject? kind ≠ some s → v.graph.OmitsFan s := by
  obtain rfl := Metric.of_new_fanInOut hnew
  -- All three graphs have their say in the row of a name, each under its own word.
  have hx : ∀ a, Analysis.Fills j.analysis a →
      Reaches (calculateMetric ⟨.entities, MetricKind.fanInOut.name⟩) { j with analysis := a }
        fun _ t =>
        t.analysis.graphs = a.graphs ∧ ∀ kind ∈ GraphKind.ofEntities, ∀ s, subject? kind = some s →
          ∀ n ∈ (j.analysis.entityGraph kind).names,
            t.analysis.rows.SaysFan s (j.analysis.entityGraph kind) n := by
    intro a hfills
    have hm : Registered ⟨.entities, MetricKind.fanInOut.name⟩
        { gauge := .fanInOut (.ofKinds kinds) }
        { j with analysis := a } :=
      ⟨by rw [hfills.rest]; exact hmetric, rfl⟩
    refine (reaches_calculateMetric hm fun v hv => hfills.keyed.subject_of_mem hv).imp
      fun _ t ht => ?_
    refine ⟨ht.filed.graphs, fun kind hkind s hs n hn => ?_⟩
    obtain ⟨hin, hout⟩ := hfills.keyed.lastFiled?_slotViews ⟨hkinds hkind, .inl hkind⟩
      (hfills.get?_entityGraph hgraphs kind hkind) hs n
    obtain ⟨hkeyIn, hkeyOut⟩ := mem_keys (mem_subjects hs)
    rw [Rows.SaysFan, ht.figure? hm n hkeyIn, ht.figure? hm n hkeyOut, Metric.fanRows, hin, hout,
      if_pos hn, if_pos hn]
    exact ⟨rfl, rfl⟩
  constructor
  · intro hdirectories
    have hcontains : ∀ kind ∈ GraphKind.ofEntities, j.analysis.graphs.contains kind = true := by
      intro kind hkind
      rw [OrderedMap.contains, hgraphs kind hkind]
      rfl
    exact exists_measureGraphs hkeyed hx
      (fun _ => ⟨hcontains _ (by decide), hcontains _ (by decide)⟩) hdirectories
  · intro j' hok kind hkind
    obtain ⟨a, t, hfills, hsame, hfigures, hkeyed', hadd⟩ := of_measureGraphs hkeyed hx hok
    have hv : t.analysis.graphs.get? kind =
        some { GraphView.new kind with graph := j.analysis.entityGraph kind } := by
      rw [hsame]
      exact hfills.get?_entityGraph hgraphs kind hkind
    have hlooks : GraphSlots.LooksAt kinds kind := ⟨hkinds hkind, .inl hkind⟩
    obtain ⟨v, hget, hshape, hattribute⟩ := hkeyed'.exists_labelled hadd hlooks.subject hv
    refine ⟨v, hget, hshape, fun s hs => ?_, fun s hs hother n hn => ?_⟩
    · exact Digraph.carriesFan_of_saysFan hs hshape hattribute (hfigures kind hkind s hs)
    · -- The row may have figures under the other word, but they are not admitted here.
      rw [hshape.names] at hn
      obtain ⟨hadmitsIn, hadmitsOut⟩ := admits_other kind hkind s hs hother
      have hplain := j.analysis.unmeasured_entityGraph kind
      rw [hattribute n hn, hattribute n hn, hadmitsIn, hadmitsOut]
      exact ⟨hplain n _, hplain n _⟩

end Work

/-! ### A list that is used and extended -/

namespace Sample

def part (name : String) (imports : List String) (details : ResultDetails) : String × ScanResult :=
  (name,
    { analysis := 0, uniqueName := name, fileName := name, absoluteName := name,
      displayName := name, moduleName := "", scannedBy := "", language := none, words := [],
      imports := imports, details := details })

/-- A file and two classes in it that all use a list; the first class also extends it. -/
def parts : Results := .ofList
  [part "p/F.java" ["x.List"] (.file (.ofNames "" "p/F.java" "p/F.java" "")),
    part "A" ["x.List"] (.entity { entityName := "A", inherits := ["x.List"] }),
    part "B" ["x.List"] (.entity { entityName := "B" })]

def session : Session := { disk := { tree := .dir [], cwd := [] }, home := "/", now := 0 }

def fanMetrics (kinds : List GraphKind) : OrderedMap String Metric :=
  .ofList [(MetricKind.fanInOut.name, { gauge := .fanInOut (.ofKinds kinds) })]

def classes : Job :=
  ⟨session,
    { results := parts
      graphs := .ofList (GraphKind.ofEntities.map fun kind => (kind, .new kind))
      entityMetrics := fanMetrics GraphKind.ofEntities }⟩

theorem keyed_classes : classes.analysis.Keyed := by
  intro kind v hv
  cases kind with
  | entityDependency | entityInheritance | entityComplete =>
    exact congrArg GraphView.kind (Option.some.inj hv).symm
  | fileDependency | fileSystem | fileChangeCoupling => cases hv

/-- The list is used twice and extended once, and each graph says its own. -/
theorem calculateMetric_carriesFan_classes : ∃ j' d i,
    Work.measureGraphs (Work.calculateMetric ⟨.entities, MetricKind.fanInOut.name⟩) classes =
      .ok () j' ∧
      j'.analysis.graphs.get? .entityDependency = some d ∧
      j'.analysis.graphs.get? .entityInheritance = some i ∧
      d.graph.attribute? "x.List" "metric_fan-in-dependency-graph" = some (.int 2) ∧
      i.graph.attribute? "x.List" "metric_fan-in-inheritance-graph" = some (.int 1) ∧
      i.graph.attribute? "x.List" "metric_fan-in-dependency-graph" = none := by
  have hgraphs : ∀ kind ∈ GraphKind.ofEntities, classes.analysis.graphs.get? kind =
      some (.new kind) := by
    simp only [GraphKind.ofEntities, List.forall_mem_cons]
    exact ⟨rfl, rfl, rfl, by simp⟩
  obtain ⟨hends, hfan⟩ :=
    Work.calculateMetric_carriesFan classes _ GraphKind.ofEntities keyed_classes hgraphs rfl rfl
    (List.Subset.refl _)
  obtain ⟨j', hok⟩ := hends fun v hv => by cases hv
  obtain ⟨d, hd, hshapeD, hcarriesD, -⟩ := hfan j' hok .entityDependency (by decide)
  obtain ⟨i, hi, hshapeI, hcarriesI, homitsI⟩ := hfan j' hok .entityInheritance (by decide)
  have hmemD : "x.List" ∈ d.graph.names := by
    rw [hshapeD.names]
    decide +kernel
  have hmemI : "x.List" ∈ i.graph.names := by
    rw [hshapeI.names]
    decide +kernel
  have hinD := (hcarriesD "dependency" rfl "x.List" hmemD).1
  have hinI := (hcarriesI "inheritance" rfl "x.List" hmemI).1
  have hdegreeD : d.graph.inDegree "x.List" = 2 := by
    rw [hshapeD.inDegree]
    decide +kernel
  have hdegreeI : i.graph.inDegree "x.List" = 1 := by
    rw [hshapeI.inDegree]
    decide +kernel
  rw [hdegreeD] at hinD
  rw [hdegreeI] at hinI
  exact ⟨j', d, i, hok, hd, hi, hinD, hinI,
    (homitsI "dependency" (by decide) (by decide) "x.List" hmemI).1⟩

end Sample

end CodeAtlas
