import CodeAtlas.Graph.Build

/-!
# Fan-in and fan-out

The fan-in of a node is the number of edges that lead to it, its fan-out the number of edges that lead from it.
-/

namespace CodeAtlas.FanInOut

/-- The word for a kind of graph in the names of figures; graphs of other kinds have none. -/
def subject? : GraphKind → Option String
  | .fileDependency | .entityDependency => some "dependency"
  | .entityInheritance => some "inheritance"
  | .entityComplete => some "complete"
  | .fileSystem | .fileChangeCoupling => none

def key (figure subject : String) : String := figure ++ "-" ++ subject ++ "-graph"

def row (subject : String) (g : Digraph) (node : String) : List (String × Value) :=
  [(key "fan-in" subject, .int (g.inDegree node)), (key "fan-out" subject, .int (g.outDegree node))]

def rows (subject : String) (g : Digraph) : List (String × List (String × Value)) :=
  g.names.map fun node => (node, row subject g node)

def greatest (degree : String → Nat) : List String → Option (String × Nat)
  | [] => none
  | node :: rest =>
    match greatest degree rest with
    | none => some (node, degree node)
    | some (best, d) => if degree node < d then some (best, d) else some (node, degree node)

def average (total count : Nat) : Value := .float (Float.ofNat total / Float.ofNat count)

def averages (subject : String) (g : Digraph) : List (String × Value) :=
  [(key "avg-fan-in" subject, average (Decimal.total (g.names.map g.inDegree)) g.nodes.size),
    (key "avg-fan-out" subject, average (Decimal.total (g.names.map g.outDegree)) g.nodes.size)]

def maxima (subject : String) (g : Digraph) : List (String × Value) :=
  let entry (word : String) (degree : String → Nat) : List (String × Value) :=
    match greatest degree g.names with
    | none => []
    | some (node, d) =>
      [(key ("max-" ++ word) subject, .int d), (key ("max-" ++ word ++ "-name") subject, .text node)]
  entry "fan-in" g.inDegree ++ entry "fan-out" g.outDegree

structure Report where
  rows : List (String × List (String × Value))
  overall : Option (List (String × Value))

/-- Measures a graph. A graph of a kind that has no word is filed under the word of the graph before it, without the
greatest degrees; if there is none, its nodes cannot be filed. -/
def report (before : Option String) (v : GraphView) : Except Fault (Option String × Report) :=
  if v.graph.nodes.isEmpty then .ok (before, ⟨[], none⟩)
  else
    match subject? v.kind with
    | some subject =>
      .ok (some subject,
        ⟨rows subject v.graph, some (averages subject v.graph ++ maxima subject v.graph)⟩)
    | none =>
      match before with
      | some subject => .ok (some subject, ⟨rows subject v.graph, some (averages subject v.graph)⟩)
      | none => .error .noSuchKey

def reports : (before : Option String) → List GraphView → List Report × Option Fault
  | _, [] => ([], none)
  | before, v :: rest =>
    match report before v with
    | .error e => ([], some e)
    | .ok (subject, r) =>
      let (rs, e) := reports subject rest
      (r :: rs, e)

end CodeAtlas.FanInOut
