import CodeAtlas.OrderedMap
import CodeAtlas.Value.Basic

/-!
# Directed graphs

A simple directed graph whose nodes are named and carry attributes. Nodes stand in the order in which
they were added; edges are listed by their first node, and for each node in the order in which they
were added.
-/

namespace CodeAtlas

abbrev Attributes := OrderedMap String Value

structure Digraph where
  nodes : OrderedMap String Attributes
  arcs : List (String × String)
deriving Inhabited

namespace Digraph

def empty : Digraph := ⟨∅, []⟩

def names (g : Digraph) : List String := g.nodes.keys

def addNode (g : Digraph) (name : String) (attributes : List (String × Value)) : Digraph :=
  { g with nodes := g.nodes.insert name ((g.nodes.getD name ∅).insertMany attributes) }

def hasEdge (g : Digraph) (a b : String) : Bool := g.arcs.contains (a, b)

def addEdge (g : Digraph) (a b : String) : Digraph :=
  let g := (g.addNode a []).addNode b []
  if g.hasEdge a b then g else { g with arcs := g.arcs ++ [(a, b)] }

def successors (g : Digraph) (a : String) : List String :=
  (g.arcs.filter fun (x, _) => x == a).map Prod.snd

def predecessors (g : Digraph) (b : String) : List String :=
  (g.arcs.filter fun (_, y) => y == b).map Prod.fst

def edges (g : Digraph) : List (String × String) :=
  g.names.flatMap fun a => (g.successors a).map fun b => (a, b)

def inDegree (g : Digraph) (name : String) : Nat := (g.predecessors name).length

def outDegree (g : Digraph) (name : String) : Nat := (g.successors name).length

def modifyNode (g : Digraph) (name : String) (f : Attributes → Attributes) : Digraph :=
  { g with nodes := g.nodes.modify name f }

def compose (g h : Digraph) : Digraph :=
  let withNodes := (g.nodes.entries ++ h.nodes.entries).foldl
    (fun acc (name, attributes) => acc.addNode name attributes.entries) empty
  (g.edges ++ h.edges).foldl (fun acc (a, b) => acc.addEdge a b) withNodes

end Digraph

end CodeAtlas
