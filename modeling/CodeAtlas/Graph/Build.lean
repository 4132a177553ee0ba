import CodeAtlas.Graph.Kind
import CodeAtlas.Scan.Result

/-!
# Graphs of results
-/

namespace CodeAtlas

abbrev Rows := OrderedMap String (OrderedMap String Value)

namespace Digraph

def addImports (g : Digraph) (r : ScanResult) : Digraph :=
  r.imports.foldl
    (fun g d => (g.addNode d [("display_name", .text d)]).addEdge r.uniqueName d)
    (g.addNode r.uniqueName
      [("absolute_name", .text r.absoluteName), ("display_name", .text r.displayName)])

def addParents (g : Digraph) (r : ScanResult) : Digraph :=
  r.inherits.foldl (fun g p => (g.addNode p []).addEdge r.uniqueName p) (g.addNode r.uniqueName [])

def addDependencies (g : Digraph) (rs : Results) : Digraph := rs.values.foldl addImports g

def addInheritance (g : Digraph) (rs : Results) : Digraph := rs.values.foldl addParents g

end Digraph

namespace GraphView

def new (kind : GraphKind) : GraphView := { kind := kind }

def addDependencies (v : GraphView) (rs : Results) : GraphView :=
  { v with graph := v.graph.addDependencies rs }

/-- Adds the inheritance between results. Only entities inherit: a file ends this with a failure, after its own
node has been added. -/
def addInheritance (v : GraphView) (rs : List ScanResult) : GraphView × Except Fault Unit :=
  let g := (rs.takeWhile ScanResult.isEntity).foldl Digraph.addParents v.graph
  match rs.dropWhile ScanResult.isEntity with
  | [] => ({ v with graph := g }, .ok ())
  | r :: _ => ({ v with graph := g.addNode r.uniqueName [] }, .error .noSuchPart)

def admitted (kind : GraphKind) (row : OrderedMap String Value) : List (String × Value) :=
  (row.entries.filter fun (name, _) => kind.admits name).map fun (name, v) => ("metric_" ++ name, v)

abbrev RowSource := String → Except Fault (Option (OrderedMap String Value))

def rowOf (rows : Value) : RowSource := fun node =>
  match rows with
  | .map es =>
    match Value.lookup (.text node) es with
    | none => .ok none
    | some (.map row) =>
      .ok (some (.ofList (row.filterMap fun (k, v) => k.text?.map fun name => (name, v))))
    | some _ => .error .noSuchPart
  | _ => .error .noSuchPart

/-- Puts the figures of one row on the node of the same name. In the graph of the file system, directories and
names that stand for no file are passed over. -/
def addRow (v : GraphView) (row : RowSource) (node : String) (attributes : Attributes) :
    Except Fault GraphView :=
  let add : Except Fault GraphView := do
    match ← row node with
    | none => return v
    | some row =>
      return { v with graph := v.graph.modifyNode node fun as => as.insertMany (admitted v.kind row) }
  if v.kind = .fileSystem then
    if attributes.isEmpty then .ok v
    else
      match attributes.get? "directory" with
      | none => .error .noSuchKey
      | some (.bool true) => .ok v
      | some _ => add
  else if v.kind = .fileChangeCoupling then .ok v
  else add

/-- Puts figures on the nodes, as far as they belong there. A failure leaves what was done before it. -/
def addRows (row : RowSource) : GraphView → List (String × Attributes) → GraphView × Except Fault Unit
  | v, [] => (v, .ok ())
  | v, (node, attributes) :: rest =>
    match v.addRow row node attributes with
    | .ok v => addRows row v rest
    | .error e => (v, .error e)

def addFigures (v : GraphView) (rows : Rows) : GraphView × Except Fault Unit :=
  addRows (fun node => .ok (rows.get? node)) v v.graph.nodes.entries

def addFigureValues (v : GraphView) (rows : Value) : GraphView × Except Fault Unit :=
  addRows (rowOf rows) v v.graph.nodes.entries

end GraphView

end CodeAtlas
