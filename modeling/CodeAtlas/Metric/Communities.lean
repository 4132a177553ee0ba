import CodeAtlas.Graph.Kind

/-!
# Communities of a graph

Nodes that are linked more closely with each other than with the rest form a community. The search starts with one
community for each node and moves nodes, one after the other, to the community of a neighbour where that raises
the modularity most; then communities become the nodes of a smaller graph and the search goes on there.

`Communities.relabel` numbers the communities of any partition by their sizes.
-/

namespace CodeAtlas.Communities

/-! ### Weighted graphs -/

/-- An undirected graph on `0, …, n - 1`: the neighbours of each node, with the weights of the edges. An edge from
a node to itself stands once in its list. -/
structure Weighted where
  neighbours : Array (List (Nat × Nat))
deriving Inhabited

namespace Weighted

def size (g : Weighted) : Nat := g.neighbours.size

def of (g : Weighted) (v : Nat) : List (Nat × Nat) := (g.neighbours[v]?).getD []

def loop (g : Weighted) (v : Nat) : Nat := ((g.of v).lookup v).getD 0

def degree (g : Weighted) (v : Nat) : Nat := Decimal.total ((g.of v).map Prod.snd) + g.loop v

def total (g : Weighted) : Nat := Decimal.total ((List.range g.size).map g.degree) / 2

def bump (v w : Nat) : List (Nat × Nat) → List (Nat × Nat)
  | [] => [(v, w)]
  | (u, x) :: rest => if u == v then (u, x + w) :: rest else (u, x) :: bump v w rest

def addEdge (g : Weighted) (u v w : Nat) : Weighted :=
  let ns := g.neighbours.modify u (bump v w)
  ⟨if u == v then ns else ns.modify v (bump u w)⟩

def ofSize (n : Nat) : Weighted := ⟨Array.replicate n []⟩

def edges (g : Weighted) : List (Nat × Nat × Nat) :=
  (List.range g.size).flatMap fun u => (g.of u).filterMap fun (v, w) => if u ≤ v then some (u, v, w) else none

end Weighted

def indexOf (names : List String) (name : String) : Nat := names.findIdx (· == name)

def undirected (g : Digraph) : Weighted :=
  let names := g.names
  g.edges.foldl
    (fun acc (a, b) =>
      let u := indexOf names a
      let v := indexOf names b
      if ((acc.of u).lookup v).isSome then acc else acc.addEdge u v 1)
    (Weighted.ofSize names.length)

/-! ### Moving nodes -/

def resolution : Float := 1.5

def leastGain : Float := 0.0000001

/-- The state of the search on one graph: the community of each node, and for each community the sum of its
degrees and the weight inside of it. -/
structure Status where
  graph : Weighted
  total : Float
  degreeOf : Array Float
  loopOf : Array Float
  communityOf : Array Nat
  degrees : Array Float
  inner : Array Float

namespace Status

def start (g : Weighted) : Status :=
  let nodes := List.range g.size
  let degrees := (nodes.map fun v => Float.ofNat (g.degree v)).toArray
  let loops := (nodes.map fun v => Float.ofNat (g.loop v)).toArray
  { graph := g, total := Float.ofNat g.total, degreeOf := degrees, loopOf := loops
    communityOf := nodes.toArray, degrees := degrees, inner := loops }

def community (s : Status) (v : Nat) : Nat := (s.communityOf[v]?).getD 0

def degree (s : Status) (v : Nat) : Float := (s.degreeOf[v]?).getD 0

def loop (s : Status) (v : Nat) : Float := (s.loopOf[v]?).getD 0

def degreesOf (s : Status) (c : Nat) : Float := (s.degrees[c]?).getD 0

def innerOf (s : Status) (c : Nat) : Float := (s.inner[c]?).getD 0

def inUse (s : Status) : List Nat :=
  (List.range s.graph.size).filter fun c => s.communityOf.any (· == c)

def modularity (s : Status) : Float :=
  s.inUse.foldl
    (fun acc c =>
      let share := s.degreesOf c / (2.0 * s.total)
      acc + (s.innerOf c * resolution / s.total - share * share))
    0.0

def links (s : Status) (v : Nat) : List (Nat × Nat) :=
  (s.graph.of v).foldl
    (fun acc (u, w) => if u == v then acc else Weighted.bump (s.community u) w acc) []

def remove (s : Status) (v c : Nat) (weight : Float) : Status :=
  { s with
    degrees := s.degrees.setIfInBounds c (s.degreesOf c - s.degree v)
    inner := s.inner.setIfInBounds c (s.innerOf c - weight - s.loop v) }

def insert (s : Status) (v c : Nat) (weight : Float) : Status :=
  { s with
    communityOf := s.communityOf.setIfInBounds v c
    degrees := s.degrees.setIfInBounds c (s.degreesOf c + s.degree v)
    inner := s.inner.setIfInBounds c (s.innerOf c + weight + s.loop v) }

def moveNode (s : Status) (v : Nat) : Status :=
  let c := s.community v
  let share := s.degree v / (s.total * 2.0)
  let links := s.links v
  let weightTo (d : Nat) : Float := Float.ofNat ((links.lookup d).getD 0)
  let cost := -(weightTo c) + resolution * (s.degreesOf c - s.degree v) * share
  let s := s.remove v c (weightTo c)
  let (best, _) := links.foldl
    (fun (best, gain) (d, w) =>
      let increase := cost + Float.ofNat w - resolution * s.degreesOf d * share
      if gain < increase then (d, increase) else (best, gain))
    (c, 0.0)
  s.insert v best (weightTo best)

def pass (s : Status) : Status := (List.range s.graph.size).foldl moveNode s

def settle : (rounds : Nat) → Status → Status
  | 0, s => s
  | rounds + 1, s =>
    let t := s.pass
    if t.communityOf == s.communityOf then t
    else if t.modularity - s.modularity < leastGain then t
    else settle rounds t

end Status

/-- A bound on the rounds: each of them gains at least `leastGain`. -/
def maxRounds : Nat := 30000000

/-! ### Levels -/

def renumber (partition : List Nat) : List Nat :=
  let top := partition.foldl max 0
  let values := (List.range (top + 1)).filter fun c => partition.contains c
  let target := List.range values.length
  let renumbering := (values.filter fun c => !target.contains c).zip
    (target.filter fun c => !values.contains c)
  partition.map fun c => (renumbering.lookup c).getD c

def distinct (xs : List Nat) : List Nat :=
  xs.foldl (fun acc x => if acc.contains x then acc else acc ++ [x]) []

def induced (g : Weighted) (partition : List Nat) : Weighted :=
  let order := distinct partition
  let place := (partition.map fun c => order.findIdx (· == c)).toArray
  g.edges.foldl
    (fun acc (u, v, w) => acc.addEdge ((place[u]?).getD 0) ((place[v]?).getD 0) w)
    (Weighted.ofSize order.length)

def merge (partition next : List Nat) : List Nat :=
  let order := distinct partition
  partition.map fun c => (next[order.findIdx (· == c)]?).getD 0

def climb : (rounds : Nat) → (g : Weighted) → (modularity : Float) → (partition : List Nat) → List Nat
  | 0, _, _, partition => partition
  | rounds + 1, g, modularity, partition =>
    let g := induced g partition
    let s := (Status.start g).settle maxRounds
    if s.modularity - modularity < leastGain then partition
    else
      let next := renumber s.communityOf.toList
      merge partition (climb rounds g s.modularity next)

def partition (g : Weighted) : List Nat :=
  let s := (Status.start g).settle maxRounds
  climb maxRounds g s.modularity (renumber s.communityOf.toList)

def modularity (g : Weighted) (partition : List Nat) : Float :=
  let communityOf := partition.toArray
  let community (v : Nat) : Nat := (communityOf[v]?).getD 0
  let links := Float.ofNat g.total
  let nodes := List.range g.size
  let inner (c : Nat) : Float := nodes.foldl
    (fun acc v =>
      if community v == c then
        (g.of v).foldl
          (fun acc (u, w) =>
            if community u == c then acc + (if u == v then Float.ofNat w else Float.ofNat w / 2.0) else acc) acc
      else acc) 0.0
  let degrees (c : Nat) : Float := nodes.foldl
    (fun acc v => if community v == c then acc + Float.ofNat (g.degree v) else acc) 0.0
  ((List.range (partition.foldl max 0 + 1)).filter fun c => partition.contains c).foldl
    (fun acc c =>
      let share := degrees c / (2.0 * links)
      acc + (inner c / links - share * share))
    0.0

/-! ### Numbers by size -/

def count (labels : List (String × Nat)) : Nat := (labels.map Prod.snd).foldl max 0 + 1

def sizeOf (labels : List (String × Nat)) (c : Nat) : Nat := (labels.filter fun e => e.2 == c).length

def bySize (labels : List (String × Nat)) : List Nat :=
  (List.range (count labels)).mergeSort fun a b => sizeOf labels b ≤ sizeOf labels a

def relabel (labels : List (String × Nat)) : List (String × Nat) :=
  (bySize labels).zipIdx.flatMap fun (c, new) =>
    (labels.filter fun e => e.2 == c).map fun e => (e.1, new)

/-! ### Figures -/

/-- How often the search is repeated. It visits nodes and communities in a fixed order, so every
repetition finds the same partition and the averages are taken over equal numbers; in an order drawn
at random they could differ. -/
def runs : Nat := 5

def averageOfRuns (x : Float) : Float :=
  ((List.range runs).foldl (fun acc _ => acc + x) 0.0) / Float.ofNat runs

def shares (labels : List (String × Nat)) : List (Value × Value) :=
  let sizes := (bySize labels).map (sizeOf labels)
  (List.range 5).map fun (i : Nat) =>
    let sum := runs * (sizes[i]?).getD 0
    (.int i, .float (Decimal.roundTo (Float.ofNat sum / Float.ofNat runs / Float.ofNat labels.length) 2))

def shownModularity (x : Float) : Value :=
  let r := Decimal.roundTo (averageOfRuns x) 2
  if r < 0 then .int 0 else .float r

def labels? (g : Digraph) : Option (List (String × Nat)) :=
  if g.edges.isEmpty then none
  else some (g.names.zip (partition (undirected g)))

end CodeAtlas.Communities
