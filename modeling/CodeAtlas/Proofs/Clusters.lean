import CodeAtlas.Export.ForceGraph
import CodeAtlas.Proofs.Effects
import Mathlib.Algebra.BigOperators.Group.List.Basic
import Mathlib.Algebra.Order.BigOperators.Group.List
import Mathlib.Algebra.Order.Ring.Int
import Mathlib.Data.List.Induction
import Mathlib.Data.List.Sort

/-!
# Clusters

The nodes of a graph fall into clusters (`ForceGraph.clusters_eq`), and the clusters are shown in
the order of their numbers (`ForceGraph.sortClusters_grouped`). As long as the figures of a cluster
are not too large for doubles, the sum that is shown is exact, and so the clusters share out the
nodes and the source lines of the graph (`ForceGraph.graphScript_clusters`).
-/

namespace CodeAtlas

open Effect ForceGraph

/-! ### Exact sums -/

namespace Amount

/-- A sum over all members is the sum over the parts that have a number. -/
theorem sum_map_filter {α M : Type} [AddCommMonoid M] (number : α → Int) (f : α → M)
    {ids : List Int} (hnd : ids.Nodup) {xs : List α} (hmem : ∀ x ∈ xs, number x ∈ ids) :
    (ids.map fun c => ((xs.filter fun x => number x = c).map f).sum).sum = (xs.map f).sum := by
  induction xs with
  | nil => simp
  | cons x xs ih =>
    obtain ⟨hx, hxs⟩ := List.forall_mem_cons.mp hmem
    have hsplit : ∀ c, (((x :: xs).filter fun x => number x = c).map f).sum =
        (if c = number x then f x else 0) + ((xs.filter fun x => number x = c).map f).sum := by
      intro c
      rcases eq_or_ne (number x) c with rfl | h
      · simp
      · simp [h, h.symm]
    simp only [hsplit]
    rw [List.sum_map_add, ih hxs, List.map_cons, List.sum_cons,
      List.sum_map_eq_nsmul_single (number x) _ fun c hc _ => if_neg hc,
      List.count_eq_one_of_mem hnd hx, one_nsmul, if_pos rfl]

theorem add_int {m n : Int} (h : m.natAbs + n.natAbs ≤ 2 ^ 53) :
    add false (.whole m) (.int n) = .ok (.whole (m + n)) := by
  have htwo : Decimal.twoTo 53 = 2 ^ 53 := rfl
  have hexact : (isExact m && isExact n && isExact (m + n)) = true := by
    simp only [isExact, htwo, Bool.and_eq_true, decide_eq_true_eq]
    omega
  rw [add, addInt, Bool.false_or, hexact]
  rfl

end Amount

namespace ForceGraph

variable {kind : GraphKind} {nodes : List Attributes} {keys : List String}

/-- The first figure that a node has under one of the keys; one that is missing counts zero. -/
def figureOf (keys : List String) (node : Attributes) : Int :=
  ((firstFigure? keys node).bind Value.asInt?).getD 0

def numberOf (kind : GraphKind) (node : Attributes) : Int := (clusterOf kind node).asInt?.getD 0

def members (kind : GraphKind) (nodes : List Attributes) (c : Int) : List Attributes :=
  nodes.filter fun node => numberOf kind node = c

/-- The figures that nodes have under some keys are whole numbers. -/
def Whole (keys : List String) (nodes : List Attributes) : Prop :=
  ∀ node ∈ nodes, (firstFigure? keys node).getD (.int 0) = .int (figureOf keys node)

/-- Together the figures under some keys are not too large for exact doubles. -/
def Small (keys : List String) (nodes : List Attributes) : Prop :=
  (nodes.map fun node => (figureOf keys node).natAbs).sum ≤ 2 ^ 53

theorem foldlM_add (hwhole : Whole keys nodes) {m : Int}
    (hsize : m.natAbs + (nodes.map fun node => (figureOf keys node).natAbs).sum ≤ 2 ^ 53) :
    (nodes.filterMap (firstFigure? keys)).foldlM (Amount.add false) (.whole m) =
      .ok (.whole (m + (nodes.map (figureOf keys)).sum)) := by
  induction nodes generalizing m with
  | nil =>
    rw [List.map_nil, List.sum_nil, Int.add_zero]
    rfl
  | cons node nodes ih =>
    obtain ⟨hnode, hnodes⟩ := List.forall_mem_cons.mp hwhole
    rw [List.map_cons, List.sum_cons] at hsize ⊢
    cases hfigure : firstFigure? keys node with
    | none =>
      have hzero : figureOf keys node = 0 := by rw [figureOf, hfigure]; rfl
      rw [hzero] at hsize
      rw [List.filterMap_cons_none hfigure, hzero, Int.zero_add]
      exact ih hnodes (by omega)
    | some x =>
      rw [hfigure, Option.getD_some] at hnode
      rw [List.filterMap_cons_some hfigure, hnode, List.foldlM_cons, Amount.add_int (by omega),
        ← Int.add_assoc]
      exact ih hnodes (by omega)

theorem total_eq (hwhole : Whole keys nodes) (hsmall : Small keys nodes) :
    total false keys nodes = .ok (.whole (nodes.map (figureOf keys)).sum) := by
  rw [total, Amount.sum, foldlM_add hwhole (m := 0) (by simpa [Small] using hsmall), Int.zero_add]

/-! ### Figures of a cluster -/

theorem eq_of_averageText {n : Int} {count : Nat} {v : Value}
    (h : averageText (.whole n) count = .ok v) :
    v = .text (Decimal.fixed (Float.ofInt n / Float.ofNat count) 2) := by
  obtain ⟨x, hx, hv⟩ := except_bind_eq_ok.mp h
  rw [Amount.toFloat, Amount.nearest] at hx
  split at hx
  · obtain rfl := Except.ok.inj hx
    exact (Except.ok.inj hv).symm
  · cases hx

/-- What is shown of a cluster with the given nodes. -/
structure Tells (nodes : List Attributes) (figures : List (String × Value)) : Prop where
  size : figures.lookup "nodes_in_cluster" = some (.text (Value.intText nodes.length))
  sloc : figures.lookup "sloc_in_cluster" =
    some (.text (Value.intText (nodes.map (figureOf slocKeys)).sum))
  fanIn : figures.lookup "avg_cluster_fan_in" = some (.text (Decimal.fixed
    (Float.ofInt (nodes.map (figureOf fanInKeys)).sum / Float.ofNat nodes.length) 2))

theorem lookup_shareText {part whole : Amount} {share : List (String × Value)}
    (h : shareText part whole = .ok share) : share.lookup "avg_cluster_fan_in" = none := by
  rw [shareText] at h
  split at h
  · obtain ⟨x, -, h⟩ := except_bind_eq_ok.mp h
    obtain ⟨y, -, h⟩ := except_bind_eq_ok.mp h
    obtain rfl := Except.ok.inj h
    rfl
  · obtain rfl := Except.ok.inj h
    rfl

theorem tells_of_clusterFigures {whole : Amount} {figures : List (String × Value)}
    (hexact : ∀ keys ∈ [slocKeys, fanInKeys], Whole keys nodes ∧ Small keys nodes)
    (h : clusterFigures whole nodes = .ok figures) : Tells nodes figures := by
  have htotal : ∀ keys ∈ [slocKeys, fanInKeys],
      total false keys nodes = .ok (.whole (nodes.map (figureOf keys)).sum) :=
    fun keys hkeys => total_eq (hexact keys hkeys).1 (hexact keys hkeys).2
  simp only [clusterFigures, htotal slocKeys (by simp), htotal fanInKeys (by simp),
    except_bind_eq_ok] at h
  obtain ⟨_, ⟨⟩, _, ⟨⟩, fanOut, -, methods, -, _, ⟨⟩, share, hshare, average, haverage, _, -, _,
      -, h⟩ := h
  obtain rfl := Except.ok.inj h
  refine ⟨rfl, rfl, ?_⟩
  rw [eq_of_averageText haverage]
  simp [List.lookup_append, lookup_shareText hshare, List.lookup_cons]

/-! ### Members and order of the clusters -/

theorem int_beq (a b : Int) : (Value.int a == Value.int b) = decide (a = b) := by
  rw [show (Value.int a == Value.int b) = Value.same (.int a) (.int b) from rfl, Value.same]
  rfl

/-- The clusters with the given numbers, with their nodes. -/
def grouped (kind : GraphKind) (nodes : List Attributes) (ids : List Int) :
    List (Value × List Attributes) :=
  ids.map fun c => (.int c, members kind nodes c)

theorem members_concat (node : Attributes) (c : Int) :
    members kind (nodes ++ [node]) c = members kind nodes c ++ if numberOf kind node = c then [node]
      else [] := by
  by_cases h : numberOf kind node = c <;> simp [members, h]

variable {ids : List Int} {node : Attributes}

theorem grouped_concat (h : numberOf kind node ∉ ids) :
    grouped kind (nodes ++ [node]) ids = grouped kind nodes ids := by
  refine List.map_congr_left fun c hc => ?_
  rw [members_concat, if_neg (ne_of_mem_of_not_mem hc h).symm, List.append_nil]

theorem addToCluster_grouped (hnd : ids.Nodup)
    (hnew : numberOf kind node ∉ ids → members kind nodes (numberOf kind node) = []) :
    addToCluster (.int (numberOf kind node)) node (grouped kind nodes ids) =
      grouped kind (nodes ++ [node])
        (if numberOf kind node ∈ ids then ids else ids ++ [numberOf kind node]) := by
  induction ids with
  | nil => simp [grouped, addToCluster, members_concat, hnew]
  | cons d ids ih =>
    obtain ⟨hd, hnd⟩ := List.nodup_cons.mp hnd
    have hcons : ∀ nodes, grouped kind nodes (d :: ids) =
        (.int d, members kind nodes d) :: grouped kind nodes ids := fun _ => rfl
    rw [hcons, addToCluster, int_beq]
    by_cases hc : d = numberOf kind node
    · rw [if_pos (decide_eq_true hc), if_pos (by simp [hc]), hcons, members_concat, if_pos hc.symm,
        grouped_concat (hc ▸ hd)]
    · have hne : numberOf kind node ≠ d := fun h => hc h.symm
      rw [if_neg (by simpa using hc), ih hnd fun h => hnew (by simp [hne, h])]
      have hhead : members kind nodes d = members kind (nodes ++ [node]) d := by
        rw [members_concat, if_neg hne, List.append_nil]
      rw [hhead]
      by_cases hmem : numberOf kind node ∈ ids
      · rw [if_pos hmem, if_pos (by simp [hmem]), hcons]
      · rw [if_neg hmem, if_neg (by simp [hne, hmem])]
        rfl

/-- The clusters have the numbers of the nodes, each once. -/
structure IsNumbering (kind : GraphKind) (nodes : List Attributes) (ids : List Int) : Prop where
  nodup : ids.Nodup
  mem_iff : ∀ c, c ∈ ids ↔ ∃ node ∈ nodes, numberOf kind node = c

theorem IsNumbering.concat (h : IsNumbering kind nodes ids) (node : Attributes) :
    IsNumbering kind (nodes ++ [node])
      (if numberOf kind node ∈ ids then ids else ids ++ [numberOf kind node]) := by
  obtain ⟨hnd, hmem⟩ := h
  constructor
  · split
    · exact hnd
    · grind [List.nodup_append]
  · grind

theorem clusters_eq (h : ∀ node ∈ nodes, clusterOf kind node = .int (numberOf kind node)) :
    ∃ ids, clusters kind nodes = .ok (grouped kind nodes ids) ∧ IsNumbering kind nodes ids := by
  induction nodes using List.reverseRecOn with
  | nil => exact ⟨[], rfl, List.nodup_nil, by simp⟩
  | append_singleton nodes node ih =>
    obtain ⟨ids, hids, hnumbers⟩ := ih fun n hn => h n (by simp [hn])
    refine ⟨_, ?_, hnumbers.concat node⟩
    have hnew : numberOf kind node ∉ ids → members kind nodes (numberOf kind node) = [] := by
      intro hmem
      refine List.filter_eq_nil_iff.mpr fun n hn heq =>
        hmem ((hnumbers.mem_iff _).mpr ⟨n, hn, of_decide_eq_true heq⟩)
    rw [clusters] at hids ⊢
    rw [List.foldlM_append, hids, ← addToCluster_grouped hnumbers.nodup hnew]
    simp only [bind, Except.bind, List.foldlM_cons, List.foldlM_nil, h node (by simp)]
    rfl

theorem insertCluster_grouped {c : Int} (hc : c ∉ ids) :
    insertCluster (.int c, members kind nodes c) (grouped kind nodes ids) =
      .ok (grouped kind nodes (ids.orderedInsert (· ≤ ·) c)) := by
  induction ids with
  | nil => rfl
  | cons d ids ih =>
    obtain ⟨hne, hc⟩ := not_or.mp (mt List.mem_cons.mpr hc)
    have hbefore : before (.int c) (.int d) = .ok (decide (c < d)) := rfl
    rw [grouped, List.map_cons, insertCluster, hbefore, List.orderedInsert]
    by_cases hle : c ≤ d
    · rw [if_pos hle, decide_eq_true (lt_of_le_of_ne hle hne)]
      rfl
    · rw [if_neg hle, decide_eq_false fun hlt => hle hlt.le]
      exact except_bind_eq_ok.mpr ⟨_, rfl, except_bind_eq_ok.mpr ⟨_, ih hc, rfl⟩⟩

theorem sortClusters_grouped (hnd : ids.Nodup) :
    sortClusters (grouped kind nodes ids) =
      .ok (grouped kind nodes (ids.reverse.insertionSort (· ≤ ·))) := by
  induction ids using List.reverseRecOn with
  | nil => rfl
  | append_singleton ids c ih =>
    obtain ⟨hids, -, hc⟩ := List.nodup_append.mp hnd
    have hnew : c ∉ ids.reverse.insertionSort (· ≤ ·) := by
      simpa using fun hmem => hc c hmem c (by simp) rfl
    rw [sortClusters] at ih ⊢
    rw [grouped, List.map_append, List.foldlM_append, List.reverse_concat, List.insertionSort_cons]
    exact except_bind_eq_ok.mpr ⟨_, ih hids,
      except_bind_eq_ok.mpr ⟨_, insertCluster_grouped hnew, rfl⟩⟩

/-! ### The clusters of a graph -/

/-- The clusters of a graph are shown in the order of their numbers. -/
structure Shown (kind : GraphKind) (nodes : List Attributes) (ids : List Int)
    (entries : List (Value × Value)) : Prop where
  numbers : IsNumbering kind nodes ids
  ascending : ids.Pairwise (· < ·)
  keys : entries.map Prod.fst = ids.map .int
  figures : ∀ e ∈ entries, ∃ c figures, e = (.int c, Summary.object figures) ∧
    Tells (members kind nodes c) figures

theorem shown_of_clusterValue {g : Digraph} {v : Value}
    (hnumbers : ∀ node ∈ nodeObjects g, clusterOf kind node = .int (numberOf kind node))
    (hwhole : ∀ keys ∈ [slocKeys, fanInKeys], Whole keys (nodeObjects g))
    (hsmall : ∀ node ∈ nodeObjects g, ∀ keys ∈ [slocKeys, fanInKeys],
      Small keys (members kind (nodeObjects g) (numberOf kind node)))
    (h : clusterValue kind g = .ok v) :
    ∃ ids entries, v = .map entries ∧ Shown kind (nodeObjects g) ids entries := by
  obtain ⟨totalSloc, -, h⟩ := except_bind_eq_ok.mp h
  obtain ⟨ids, hids, hnumbering⟩ := clusters_eq hnumbers
  have hperm : (ids.reverse.insertionSort (· ≤ ·)).Perm ids :=
    (List.perm_insertionSort ..).trans (List.reverse_perm ids)
  have hnd := hperm.nodup_iff.mpr hnumbering.nodup
  rw [hids] at h
  obtain ⟨_, ⟨⟩, h⟩ := except_bind_eq_ok.mp h
  rw [sortClusters_grouped hnumbering.nodup] at h
  obtain ⟨_, ⟨⟩, h⟩ := except_bind_eq_ok.mp h
  obtain ⟨entries, hentries, h⟩ := except_bind_eq_ok.mp h
  refine ⟨_, entries, (Except.ok.inj h).symm, ⟨hnd, fun c => ?_⟩, ?_, ?_, fun e he => ?_⟩
  · rw [hperm.mem_iff, hnumbering.mem_iff]
  · exact (List.pairwise_insertionSort ..).imp₂ (fun _ _ => lt_of_le_of_ne) hnd
  · refine (map_of_mapM (k := Prod.fst) (fun g e he => ?_) hentries).trans (List.map_map ..)
    obtain ⟨figures, -, he⟩ := except_bind_eq_ok.mp he
    exact congrArg Prod.fst (Except.ok.inj he).symm
  · obtain ⟨group, hgroup, hfigures⟩ := exists_of_mem_mapM hentries he
    obtain ⟨c, hc, rfl⟩ := List.mem_map.mp hgroup
    obtain ⟨figures, hfigures, he⟩ := except_bind_eq_ok.mp hfigures
    obtain ⟨first, hfirst, rfl⟩ := (hnumbering.mem_iff c).mp (hperm.mem_iff.mp hc)
    refine ⟨_, figures, (Except.ok.inj he).symm,
      tells_of_clusterFigures (fun keys hkeys => ⟨fun node hnode => ?_, ?_⟩) hfigures⟩
    · exact hwhole keys hkeys node (List.mem_filter.mp hnode).1
    · exact hsmall first hfirst keys hkeys

/-- The clusters of a graph whose figures are whole numbers are shown in the order of their numbers,
and together they have the nodes of the graph and its source lines. -/
theorem graphScript_clusters (v : GraphView) (statistics overall : Value) (script : String)
    (hscript : graphScript v statistics overall = .ok script)
    (hnumbers : ∀ node ∈ nodeObjects v.graph, clusterOf v.kind node = .int (numberOf v.kind node))
    (hwhole : ∀ keys ∈ [slocKeys, fanInKeys], Whole keys (nodeObjects v.graph))
    (hsmall : ∀ node ∈ nodeObjects v.graph, ∀ keys ∈ [slocKeys, fanInKeys],
      Small keys (members v.kind (nodeObjects v.graph) (numberOf v.kind node))) :
    ∃ before ids entries,
      script = before ++ constant (v.kind.name ++ "_cluster_metrics_map") (.map entries) ++ "\n\n" ∧
      Shown v.kind (nodeObjects v.graph) ids entries ∧
      (ids.map fun c => (members v.kind (nodeObjects v.graph) c).length).sum = v.graph.nodes.size ∧
      (ids.map fun c => ((members v.kind (nodeObjects v.graph) c).map
        (figureOf slocKeys)).sum).sum = ((nodeObjects v.graph).map (figureOf slocKeys)).sum := by
  obtain ⟨stats, -, hscript⟩ := except_bind_eq_ok.mp hscript
  obtain ⟨figures, -, hscript⟩ := except_bind_eq_ok.mp hscript
  obtain ⟨clusters, hvalue, hscript⟩ := except_bind_eq_ok.mp hscript
  obtain ⟨ids, entries, rfl, hshown⟩ := shown_of_clusterValue hnumbers hwhole hsmall hvalue
  have hmem : ∀ node ∈ nodeObjects v.graph, numberOf v.kind node ∈ ids := fun node hnode =>
    (hshown.numbers.mem_iff _).mpr ⟨node, hnode, rfl⟩
  refine ⟨_, ids, entries, (Except.ok.inj hscript).symm, hshown, ?_,
    Amount.sum_map_filter _ _ hshown.numbers.nodup hmem⟩
  have hcount := Amount.sum_map_filter _ (fun _ => 1) hshown.numbers.nodup hmem
  have hone : ∀ nodes : List Attributes, (nodes.map fun _ => 1).sum = nodes.length := by simp
  simp only [hone] at hcount
  rw [nodeObjects, List.length_map] at hcount
  exact hcount

end ForceGraph

namespace Sample

def dotted (nodes : List (String × List (String × Value))) : GraphView :=
  { kind := .fileDependency, graph := ⟨.ofList (nodes.map fun e => (e.1, OrderedMap.ofList e.2)),
    []⟩ }

/-- Three files in two clusters, one of them without any figures. -/
def clustered : GraphView := dotted
  [("a", [("metric_file_result_dependency_graph_louvain-modularity-in-file", .int 2),
    ("metric_sloc-in-file", .int 7)]),
    ("b", [("metric_sloc-in-file", .int 5), ("metric_fan-in-dependency-graph", .int 3)]), ("c", [])]

theorem graphScript_clusters_clustered : ∃ script before ids entries,
    graphScript clustered .null .null = .ok script ∧
    script = before ++ constant "file_result_dependency_graph_cluster_metrics_map" (.map entries) ++
      "\n\n" ∧
    ForceGraph.Shown .fileDependency (nodeObjects clustered.graph) ids entries ∧ 0 ∈ ids ∧
    2 ∈ ids := by
  have hends : (graphScript clustered .null .null).toOption.isSome = true := by decide +kernel
  cases hscript : graphScript clustered .null .null with
  | error e =>
    rw [hscript] at hends
    cases hends
  | ok script =>
    have hnodes : ∀ P : Attributes → Prop, (∀ node ∈ nodeObjects clustered.graph, P node) ↔
        _ := fun P =>
      List.forall_mem_cons.trans
        (and_congr_right' (List.forall_mem_cons.trans (and_congr_right' List.forall_mem_singleton)))
    have hwhole : ∀ keys ∈ [slocKeys, fanInKeys],
        ForceGraph.Whole keys (nodeObjects clustered.graph) := by
      simp only [List.forall_mem_cons, ForceGraph.Whole, hnodes]
      exact ⟨⟨rfl, rfl, rfl⟩, ⟨rfl, rfl, rfl⟩, by simp⟩
    obtain ⟨before, ids, entries, heq, hshown, -⟩ :=
      graphScript_clusters clustered .null .null script hscript
      ((hnodes _).mpr ⟨rfl, rfl, rfl⟩) hwhole (by unfold ForceGraph.Small; decide +kernel)
    exact ⟨script, before, ids, entries, rfl, heq, hshown,
      (hshown.numbers.mem_iff 0).mpr (by decide +kernel),
      (hshown.numbers.mem_iff 2).mpr (by decide +kernel)⟩

/-- A file with more lines than doubles can tell apart. -/
def longFile : GraphView := dotted [("a", [("metric_sloc-in-file", .int 9007199254740993)])]

theorem sloc_longFile :
    (((clusterValue .fileDependency longFile.graph).toOption.bind fun v => v.entries.head?).bind
    fun e => (e.2.field? "sloc_in_cluster").bind Value.text?) = some "9007199254740992" := by
  decide +kernel

end Sample

end CodeAtlas
