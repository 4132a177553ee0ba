import CodeAtlas.Graph.Digraph
import CodeAtlas.Proofs.Maps
import Mathlib.Logic.Relation

/-!
# Graphs that grow like trees

`Digraph.graft` adds a node with its attributes below another one. If every new node is put below
one that is there already, the graph grows from its first node: `Grown g root attributes bs` records
that its nodes and edges are the branches `bs` in their order, and no others. One graft preserves
this (`Grown.graft`), hence any number of them does (`Grown.foldl_graft`), and a graph that has
grown is a tree (`Grown.isTree`).
-/

namespace CodeAtlas

open OrderedMap

namespace Digraph

structure Branch where
  parent : String
  name : String
  attributes : List (String × Value)

def graft (g : Digraph) (b : Branch) : Digraph :=
  (g.addNode b.name b.attributes).addEdge b.parent b.name

def Leads (g : Digraph) : String → String → Prop := Relation.ReflTransGen fun a b => (a, b) ∈ g.arcs

/-- A tree: edges lead between nodes, none to the root, one to every other node, and all nodes are
reached. -/
structure IsTree (g : Digraph) (root : String) : Prop where
  root_mem : root ∈ g.names
  ends_mem : ∀ a b, (a, b) ∈ g.arcs → a ∈ g.names ∧ b ∈ g.names
  inDegree_root : g.inDegree root = 0
  inDegree_eq_one : ∀ name ∈ g.names, name ≠ root → g.inDegree name = 1
  leads : ∀ name ∈ g.names, g.Leads root name

variable {g : Digraph} {root name : String} {attributes : List (String × Value)} {b : Branch}
  {bs : List Branch} {known : List String}

theorem mem_names_iff : name ∈ g.names ↔ ∃ attrs, g.nodes.get? name = some attrs := mem_keys_iff

theorem entries_addNode_of_not_mem (h : name ∉ g.names) (attributes : List (String × Value)) :
    (g.addNode name attributes).nodes.entries =
      g.nodes.entries ++ [(name, .ofList attributes)] := by
  have hnone : g.nodes.get? name = none := get?_eq_none_iff.mpr h
  rw [addNode, entries_insert_of_not_mem h, getD_eq, hnone]
  rfl

theorem addNode_nil_of_mem (h : name ∈ g.names) : g.addNode name [] = g := by
  obtain ⟨attrs, hattrs⟩ := mem_names_iff.mp h
  rw [addNode, insertMany_nil, insert_of_get?]
  rw [getD_eq, hattrs]
  rfl

/-- `g` consists of a root and the branches `bs`, each put below a node that was there before. -/
structure Grown (g : Digraph) (root : String) (attributes : List (String × Value))
    (bs : List Branch) : Prop where
  entries : g.nodes.entries = (root, .ofList attributes) :: bs.map
    fun b => (b.name, .ofList b.attributes)
  arcs : g.arcs = bs.map fun b => (b.parent, b.name)
  parents : ∀ b ∈ bs, b.parent ∈ g.names
  leads : ∀ name ∈ g.names, g.Leads root name

namespace Grown

theorem names (h : Grown g root attributes bs) : g.names = root :: bs.map Branch.name := by
  rw [Digraph.names, keys, h.entries]
  simp [List.map_map, Function.comp_def]

theorem nodup (h : Grown g root attributes bs) : (root :: bs.map Branch.name).Nodup :=
  h.names ▸ g.nodes.keys_nodup

theorem empty_addNode (root : String) (attributes : List (String × Value)) :
    Grown (Digraph.empty.addNode root attributes) root attributes [] := by
  refine ⟨rfl, rfl, by simp, ?_⟩
  intro name hname
  have : name = root := by simpa [Digraph.names, Digraph.addNode, Digraph.empty,
    keys_insert] using hname
  rw [this]
  exact .refl

theorem graft (h : Grown g root attributes bs) (hparent : b.parent ∈ g.names)
    (hname : b.name ∉ g.names) : Grown (g.graft b) root attributes (bs ++ [b]) := by
  have hnew : (g.addNode b.name b.attributes).names = g.names ++ [b.name] := by
    rw [Digraph.names, addNode, keys_insert]
    exact if_neg hname
  have hedge : (b.parent, b.name) ∉ g.arcs := by
    rw [h.arcs]
    intro hmem
    obtain ⟨c, hc, heq⟩ := List.mem_map.mp hmem
    rw [h.names] at hname
    exact hname (List.mem_cons_of_mem _ (List.mem_map.mpr ⟨c, hc, (Prod.mk.inj heq).2⟩))
  -- both ends of the new edge are nodes, so it adds no node of its own
  have hgraft : g.graft b =
      { g.addNode b.name b.attributes with arcs := g.arcs ++ [(b.parent, b.name)] } := by
    have hp : b.parent ∈ (g.addNode b.name b.attributes).names := by
      rw [hnew]; exact List.mem_append_left _ hparent
    have hn : b.name ∈ (g.addNode b.name b.attributes).names := by simp [hnew]
    rw [Digraph.graft, addEdge, addNode_nil_of_mem hp, addNode_nil_of_mem hn,
      if_neg (by simpa [hasEdge, addNode] using hedge)]
    rfl
  have hnames : (g.graft b).names = g.names ++ [b.name] := by rw [hgraft]; exact hnew
  have hmono : ∀ {x y}, g.Leads x y → (g.graft b).Leads x y := by
    intro x y hxy
    refine Relation.ReflTransGen.mono (fun u v huv => ?_) x y hxy
    rw [hgraft]
    exact List.mem_append_left _ huv
  refine ⟨?_, ?_, ?_, ?_⟩
  · rw [hgraft]
    simp only
    rw [entries_addNode_of_not_mem hname, h.entries]
    simp
  · rw [hgraft, List.map_append, ← h.arcs]
    rfl
  · intro c hc
    rw [hnames]
    rcases List.mem_append.mp hc with hc | hc
    · exact List.mem_append_left _ (h.parents c hc)
    · rw [List.mem_singleton.mp hc]
      exact List.mem_append_left _ hparent
  · intro name hmem
    rw [hnames] at hmem
    rcases List.mem_append.mp hmem with hmem | hmem
    · exact hmono (h.leads name hmem)
    · rw [List.mem_singleton.mp hmem]
      refine (hmono (h.leads _ hparent)).tail ?_
      rw [hgraft]
      exact List.mem_append_right _ (List.mem_singleton_self _)

end Grown

/-- Every branch is put below a node of `known` or below one that came before it. -/
def Parented : List String → List Branch → Prop
  | _, [] => True
  | known, b :: bs => b.parent ∈ known ∧ Parented (known ++ [b.name]) bs

theorem Parented.append {as : List Branch} (ha : Parented known as)
    (hb : Parented (known ++ as.map Branch.name) bs) : Parented known (as ++ bs) := by
  induction as generalizing known with
  | nil => simpa using hb
  | cons a as ih => exact ⟨ha.1, ih ha.2 (by simpa using hb)⟩

theorem parented_of_forall (h : ∀ b ∈ bs, b.parent ∈ known) : Parented known bs := by
  induction bs generalizing known with
  | nil => trivial
  | cons b bs ih =>
    exact ⟨h b (by simp), ih fun c hc => List.mem_append_left _ (h c (by simp [hc]))⟩

namespace Grown

/-- Grafting branches with new names, each below a node that is there by then. -/
theorem foldl_graft {done : List Branch} (h : Grown g root attributes done)
    (hp : Parented g.names bs) (hnd : (g.names ++ bs.map Branch.name).Nodup) :
    Grown (bs.foldl Digraph.graft g) root attributes (done ++ bs) := by
  induction bs generalizing g done with
  | nil => simpa using h
  | cons b bs ih =>
    have hname : b.name ∉ g.names := by
      intro hmem
      exact (List.nodup_append.mp hnd).2.2 _ hmem _ (by simp) rfl
    have hg := h.graft hp.1 hname
    have hnames : (g.graft b).names = g.names ++ [b.name] := by
      rw [hg.names, h.names]
      simp
    rw [List.foldl_cons, List.append_cons]
    refine ih hg ?_ ?_
    · rw [hnames]
      exact hp.2
    · rw [hnames, List.append_assoc]
      exact hnd

theorem inDegree (h : Grown g root attributes bs) (name : String) :
    g.inDegree name = (bs.map Branch.name).count name := by
  rw [Digraph.inDegree, predecessors, h.arcs, List.length_map, ← List.countP_eq_length_filter,
    List.countP_map, List.count, List.countP_map]
  rfl

theorem isTree (h : Grown g root attributes bs) : g.IsTree root := by
  have hnd := List.nodup_cons.mp h.nodup
  refine ⟨?_, ?_, ?_, ?_, h.leads⟩
  · rw [h.names]
    exact List.mem_cons_self ..
  · intro x y hxy
    rw [h.arcs] at hxy
    obtain ⟨b, hb, heq⟩ := List.mem_map.mp hxy
    obtain ⟨rfl, rfl⟩ := Prod.mk.inj heq
    refine ⟨h.parents b hb, ?_⟩
    rw [h.names]
    exact List.mem_cons_of_mem _ (List.mem_map_of_mem hb)
  · rw [h.inDegree]
    exact List.count_eq_zero_of_not_mem hnd.1
  · intro name hname hne
    rw [h.names] at hname
    rw [h.inDegree]
    exact List.count_eq_one_of_mem hnd.2 ((List.mem_cons.mp hname).resolve_left hne)

end Grown

end Digraph

end CodeAtlas
