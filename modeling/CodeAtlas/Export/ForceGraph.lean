import CodeAtlas.Export.Summary

/-!
# Data for the browser

Graphs are drawn in a browser with their nodes held together by forces. The data is a script of constants: for each
graph its nodes and links, the statistics, the figures, and figures for each cluster of nodes.
-/

namespace CodeAtlas

/-! ### Sums -/

/-- A sum of figures: exact as long as it is a whole number, of the size that a double can hold or of any size; else a
double. -/
inductive Amount where
  | whole (n : Int)
  | inexact (x : Float)
deriving Repr, Inhabited

namespace Amount

def isExact (n : Int) : Bool := decide (n.natAbs ≤ Decimal.twoTo 53)

def nearest (n : Int) : Except Fault Float :=
  let x := Float.ofInt n
  if x.isFinite then .ok x else .error .tooLarge

def toFloat : Amount → Except Fault Float
  | .whole n => nearest n
  | .inexact x => .ok x

def addInt (anySize : Bool) (a : Amount) (n : Int) : Except Fault Amount :=
  match a with
  | .whole m =>
    if anySize || (isExact m && isExact n && isExact (m + n)) then .ok (.whole (m + n))
    else do return .inexact ((← nearest m) + (← nearest n))
  | .inexact x => do return .inexact (x + (← nearest n))

def add (anySize : Bool) (a : Amount) (v : Value) : Except Fault Amount :=
  match v with
  | .int n => a.addInt anySize n
  | .bool b => a.addInt anySize (if b then 1 else 0)
  | .float x => do return .inexact ((← a.toFloat) + x)
  | _ => .error .wrongKind

def sum (anySize : Bool) (vs : List Value) : Except Fault Amount := vs.foldlM (add anySize) (.whole 0)

def truncate : Amount → Except Fault Int
  | .whole n => .ok n
  | .inexact x =>
    match Decimal.truncate? x, Decimal.Parts.ofFloat x with
    | some n, _ => .ok n
    | none, .nan => .error .badValue
    | none, _ => .error .tooLarge

def isPositive : Amount → Bool
  | .whole n => decide (0 < n)
  | .inexact x => decide (0 < x)

end Amount

namespace ForceGraph

/-! ### Nodes and links -/

def nodeObject (name : String) (attributes : Attributes) : Attributes := attributes.insert "id" (.text name)

def nodeObjects (g : Digraph) : List Attributes := g.nodes.entries.map fun (name, as) => nodeObject name as

def graphValue (g : Digraph) : Value :=
  Summary.object
    [("directed", .bool true), ("multigraph", .bool false), ("graph", .map []),
      ("nodes", .list ((nodeObjects g).map fun as => Summary.object as.entries)),
      ("links", .list (g.edges.map fun (a, b) =>
        Summary.object [("source", .text a), ("target", .text b)]))]

/-! ### Clusters -/

def clusterKey? : GraphKind → Option String
  | .entityDependency => some "metric_entity_result_dependency_graph_louvain-modularity-in-entity"
  | .entityInheritance => some "metric_entity_result_inheritance_graph_louvain-modularity-in-entity"
  | .entityComplete => some "metric_entity_result_complete_graph_louvain-modularity-in-entity"
  | .fileDependency | .fileSystem => some "metric_file_result_dependency_graph_louvain-modularity-in-file"
  | .fileChangeCoupling => none

def clusterOf (kind : GraphKind) (node : Attributes) : Value :=
  match clusterKey? kind with
  | some key => node.getD key (.int 0)
  | none => .int 0

def firstFigure? (keys : List String) (node : Attributes) : Option Value :=
  keys.findSome? node.get?

def slocKeys : List String := ["metric_sloc-in-file", "metric_sloc-in-entity"]

def fanInKeys : List String :=
  ["metric_fan-in-dependency-graph", "metric_fan-in-inheritance-graph", "metric_fan-in-complete-graph"]

def fanOutKeys : List String :=
  ["metric_fan-out-dependency-graph", "metric_fan-out-inheritance-graph", "metric_fan-out-complete-graph"]

def methodKeys : List String := ["metric_number-of-methods-in-file", "metric_number-of-methods-in-entity"]

def total (anySize : Bool) (keys : List String) (nodes : List Attributes) : Except Fault Amount :=
  Amount.sum anySize (nodes.filterMap (firstFigure? keys))

def addToCluster (cluster : Value) (node : Attributes) :
    List (Value × List Attributes) → List (Value × List Attributes)
  | [] => [(cluster, [node])]
  | (c, nodes) :: rest =>
    if c == cluster then (c, nodes ++ [node]) :: rest else (c, nodes) :: addToCluster cluster node rest

def clusters (kind : GraphKind) (nodes : List Attributes) : Except Fault (List (Value × List Attributes)) :=
  nodes.foldlM
    (fun acc node =>
      let c := clusterOf kind node
      if c.isKey then .ok (addToCluster c node acc) else .error .wrongKind)
    []

def before (a b : Value) : Except Fault Bool :=
  match a, b with
  | .text s, .text t => .ok (decide (s < t))
  | a, b =>
    match a.asInt?, b.asInt? with
    | some m, some n => .ok (decide (m < n))
    | _, _ =>
      match a.toFloat?, b.toFloat? with
      | some x, some y => .ok (decide (x < y))
      | _, _ => .error .wrongKind

def insertCluster (entry : Value × List Attributes) :
    List (Value × List Attributes) → Except Fault (List (Value × List Attributes))
  | [] => .ok [entry]
  | e :: rest => do
    if ← before entry.1 e.1 then return entry :: e :: rest
    return e :: (← insertCluster entry rest)

def sortClusters (entries : List (Value × List Attributes)) :
    Except Fault (List (Value × List Attributes)) :=
  entries.foldlM (fun acc e => insertCluster e acc) []

def averageText (sum : Amount) (count : Nat) : Except Fault Value := do
  return .text (Decimal.fixed ((← sum.toFloat) / Float.ofNat count) 2)

def shareText (part whole : Amount) : Except Fault (List (String × Value)) := do
  if whole.isPositive then
    return [("% of total sloc", .text (Decimal.fixed ((← part.toFloat) / (← whole.toFloat) * 100) 2))]
  else return []

def clusterFigures (totalSloc : Amount) (nodes : List Attributes) : Except Fault (List (String × Value)) := do
  let sloc ← total false slocKeys nodes
  let fanIn ← total false fanInKeys nodes
  let fanOut ← total false fanOutKeys nodes
  let methods ← total false methodKeys nodes
  let n := nodes.length
  return [("nodes_in_cluster", .text (Value.intText n)),
      ("sloc_in_cluster", .text (Value.intText (← sloc.truncate)))]
    ++ (← shareText sloc totalSloc)
    ++ [("avg_cluster_fan_in", ← averageText fanIn n), ("avg_cluster_fan_out", ← averageText fanOut n),
      ("avg_cluster_methods", ← averageText methods n)]

def clusterValue (kind : GraphKind) (g : Digraph) : Except Fault Value := do
  let nodes := nodeObjects g
  let totalSloc ← total true slocKeys nodes
  let groups ← sortClusters (← clusters kind nodes)
  let entries ← groups.mapM fun (c, members) => do
    return (c, Summary.object (← clusterFigures totalSloc members))
  return .map entries

/-! ### The script -/

def constant (name : String) (v : Value) : String := "const " ++ name ++ " = " ++ v.json

def listing (name : String) (v : Value) (shown : List (String × Value) → Except Fault (List (String × Value))) :
    Except Fault String := do
  if !v.truthy then return ""
  return "\n" ++ constant name (Summary.object (← shown (← Summary.listed v)))

def graphScript (v : GraphView) (statistics overall : Value) : Except Fault String := do
  let name := v.kind.name
  let stats ← listing (name ++ "_statistics") statistics .ok
  let figures ← listing (name ++ "_overall_metric_results") overall Summary.shownOverall
  let clusters ← clusterValue v.kind v.graph
  return constant name (graphValue v.graph) ++ stats ++ figures ++ "\n"
    ++ constant (name ++ "_cluster_metrics_map") clusters ++ "\n\n"

end ForceGraph

end CodeAtlas
