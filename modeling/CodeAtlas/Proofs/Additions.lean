import CodeAtlas.Graph.Build
import CodeAtlas.Proofs.Growth

/-!
# Adding to a graph

Graphs of results, and unions of graphs, are made by adding nodes and edges one after the other
(`Digraph.addAll`). A node that is added again keeps its place and merges its attributes, so what
becomes of it is told by all that was added under its name (`Digraph.getD_addAll`). Adding the same
things a second time changes nothing (`Digraph.addAll_twice`).
-/

namespace CodeAtlas

open OrderedMap

/-! ### Entries that are inserted again -/

namespace OrderedMap

variable {κ α : Type} [DecidableEq κ] {m m' : OrderedMap κ α} {es : List (κ × α)}

theorem ext_keys (hkeys : m.keys = m'.keys) (hget : ∀ k, m.get? k = m'.get? k) : m = m' := by
  refine ext_entries (List.ext_getElem ?_ fun i hi hi' => ?_)
  · simpa [keys] using congrArg List.length hkeys
  · have hkey : m.entries[i].1 = m'.entries[i].1 := by
      simpa [keys, hi, hi'] using congrArg (·[i]?) hkeys
    have hvalue : m.get? m.entries[i].1 = some m.entries[i].2 :=
      get?_eq_some_iff.mpr (List.getElem_mem hi)
    have hvalue' : m'.get? m'.entries[i].1 = some m'.entries[i].2 :=
      get?_eq_some_iff.mpr (List.getElem_mem hi')
    rw [hget, hkey, hvalue'] at hvalue
    exact Prod.ext hkey (Option.some.inj hvalue).symm

theorem keys_insertMany_of_mem (h : ∀ e ∈ es, e.1 ∈ m.keys) : (m.insertMany es).keys = m.keys := by
  induction es generalizing m with
  | nil => rfl
  | cons e es ih =>
    obtain ⟨he, hes⟩ := List.forall_mem_cons.mp h
    have hkeys : (m.insert e.1 e.2).keys = m.keys := by rw [keys_insert, if_pos he]
    rw [insertMany_cons, ih fun e he => by rw [hkeys]; exact hes e he, hkeys]

theorem insertMany_twice (m : OrderedMap κ α) (es : List (κ × α)) :
    (m.insertMany es).insertMany es = m.insertMany es := by
  refine ext_keys (keys_insertMany_of_mem fun e he => ?_) fun k => ?_
  · obtain ⟨a, ha⟩ := Option.ne_none_iff_exists'.mp (get?_ofList_ne_none he)
    exact mem_keys_iff.mpr ⟨a, by rw [get?_insertMany_or, ha]; rfl⟩
  · rw [get?_insertMany_or, get?_insertMany_or, ← Option.or_assoc, Option.or_self]

end OrderedMap

namespace Digraph

/-- A node or an edge that is added to a graph. -/
inductive Addition where
  | node (name : String) (attributes : List (String × Value))
  | edge (a b : String)

namespace Addition

def names : Addition → List String
  | .node name _ => [name]
  | .edge a b => [a, b]

def attributesOf (n : String) : Addition → List (String × Value)
  | .node name attributes => if name = n then attributes else []
  | .edge _ _ => []

end Addition

def add (g : Digraph) : Addition → Digraph
  | .node name attributes => g.addNode name attributes
  | .edge a b => g.addEdge a b

def addAll (g : Digraph) (xs : List Addition) : Digraph := xs.foldl add g

variable {g h : Digraph} {n a b : String} {x : Addition} {xs ys : List Addition}

/-! ### One addition -/

theorem nodes_addEdge (g : Digraph) (a b : String) :
    (g.addEdge a b).nodes = ((g.addNode a []).addNode b []).nodes := by
  rw [addEdge]
  split_ifs
  · rfl
  · rfl

theorem arcs_addEdge (g : Digraph) (a b : String) :
    (g.addEdge a b).arcs = if (a, b) ∈ g.arcs then g.arcs else g.arcs ++ [(a, b)] := by
  rw [addEdge, hasEdge, show ((g.addNode a []).addNode b []).arcs = g.arcs from rfl]
  simp only [List.contains_iff_mem]
  split_ifs
  · rfl
  · rfl

theorem mem_names_addNode (name : String) (attributes : List (String × Value)) :
    n ∈ (g.addNode name attributes).names ↔ n ∈ g.names ∨ n = name := by
  rw [names, addNode, keys_insert]
  split_ifs with hmem
  · refine ⟨.inl, ?_⟩
    rintro (hn | rfl)
    · exact hn
    · exact hmem
  · simp [names]

theorem getD_addNode (g : Digraph) (name : String) (attributes : List (String × Value))
    (n : String) : (g.addNode name attributes).nodes.getD n ∅ =
      if name = n then (g.nodes.getD n ∅).insertMany attributes else g.nodes.getD n ∅ := by
  rw [getD_eq, addNode, get?_insert]
  split_ifs with hname
  · rw [hname]
    rfl
  · rfl

theorem mem_names_add : n ∈ (g.add x).names ↔ n ∈ g.names ∨ n ∈ x.names := by
  cases x with
  | node name attributes => rw [add, mem_names_addNode, Addition.names, List.mem_singleton]
  | edge a b =>
    rw [add, names, nodes_addEdge]
    refine (mem_names_addNode _ _).trans ?_
    rw [mem_names_addNode, Addition.names, or_assoc]
    simp

theorem mem_arcs_add : (a, b) ∈ (g.add x).arcs ↔ (a, b) ∈ g.arcs ∨ x = .edge a b := by
  cases x with
  | node name attributes => simp [add, addNode]
  | edge a' b' =>
    rw [add, arcs_addEdge]
    split_ifs with hmem
    · refine ⟨.inl, ?_⟩
      rintro (he | he)
      · exact he
      · cases he
        exact hmem
    · simp [eq_comm]

theorem getD_add (g : Digraph) (x : Addition) (n : String) :
    (g.add x).nodes.getD n ∅ = (g.nodes.getD n ∅).insertMany (x.attributesOf n) := by
  cases x with
  | node name attributes =>
    rw [add, getD_addNode, Addition.attributesOf]
    split_ifs
    · rfl
    · rfl
  | edge a b =>
    rw [add, nodes_addEdge, getD_addNode, getD_addNode]
    split_ifs
    all_goals rfl

/-! ### Any number of additions -/

theorem mem_names_addAll : n ∈ (g.addAll xs).names ↔ n ∈ g.names ∨ ∃ x ∈ xs, n ∈ x.names := by
  induction xs generalizing g with
  | nil => simp [addAll]
  | cons x xs ih =>
    refine ih.trans ?_
    rw [mem_names_add, or_assoc]
    simp

theorem mem_arcs_addAll : (a, b) ∈ (g.addAll xs).arcs ↔ (a, b) ∈ g.arcs ∨ .edge a b ∈ xs := by
  induction xs generalizing g with
  | nil => simp [addAll]
  | cons x xs ih =>
    refine ih.trans ?_
    rw [mem_arcs_add, or_assoc, List.mem_cons, eq_comm (a := x)]

theorem getD_addAll (g : Digraph) (xs : List Addition) (n : String) :
    (g.addAll xs).nodes.getD n ∅ =
      (g.nodes.getD n ∅).insertMany (xs.flatMap (Addition.attributesOf n)) := by
  induction xs generalizing g with
  | nil => rfl
  | cons x xs ih =>
    refine (ih (g.add x)).trans ?_
    rw [getD_add, List.flatMap_cons]
    exact List.foldl_append.symm

theorem same_addAll (hnames : ∀ x ∈ xs, ∀ n ∈ x.names, n ∈ g.names)
    (hedges : ∀ a b, .edge a b ∈ xs → (a, b) ∈ g.arcs) :
    (g.addAll xs).names = g.names ∧ (g.addAll xs).arcs = g.arcs := by
  induction xs generalizing g with
  | nil => exact ⟨rfl, rfl⟩
  | cons x xs ih =>
    obtain ⟨hx, hxs⟩ := List.forall_mem_cons.mp hnames
    have hstep : (g.add x).names = g.names ∧ (g.add x).arcs = g.arcs := by
      cases x with
      | node name attributes =>
        refine ⟨?_, rfl⟩
        rw [names, add, addNode, keys_insert]
        exact if_pos (hx name List.mem_cons_self)
      | edge a b =>
        have hab := hedges a b List.mem_cons_self
        have ha : a ∈ g.names := hx a List.mem_cons_self
        have hb : b ∈ g.names := hx b (by simp [Addition.names])
        constructor
        · rw [names, add, nodes_addEdge, addNode_nil_of_mem ha, addNode_nil_of_mem hb]
          rfl
        · rw [add, arcs_addEdge, if_pos hab]
    have hrest := ih (g := g.add x) (by rwa [hstep.1])
      (by rw [hstep.2]; exact fun a b h => hedges a b (List.mem_cons_of_mem _ h))
    exact ⟨hrest.1.trans hstep.1, hrest.2.trans hstep.2⟩

theorem addAll_twice (g : Digraph) (xs : List Addition) :
    (g.addAll xs).addAll xs = g.addAll xs := by
  obtain ⟨hnames, harcs⟩ : ((g.addAll xs).addAll xs).names = (g.addAll xs).names ∧
      ((g.addAll xs).addAll xs).arcs = (g.addAll xs).arcs :=
    same_addAll (fun x hx n hn => mem_names_addAll.mpr (.inr ⟨x, hx, hn⟩))
      fun a b h => mem_arcs_addAll.mpr (.inr h)
  have hnodes : ((g.addAll xs).addAll xs).nodes = (g.addAll xs).nodes := by
    refine ext_keys hnames fun n => ?_
    have hvalue : ((g.addAll xs).addAll xs).nodes.getD n ∅ = (g.addAll xs).nodes.getD n ∅ := by
      rw [getD_addAll, getD_addAll, insertMany_twice]
    by_cases hn : n ∈ (g.addAll xs).names
    · obtain ⟨as, has⟩ := mem_names_iff.mp hn
      obtain ⟨as', has'⟩ := mem_names_iff.mp (hnames ▸ hn)
      rw [getD_eq, getD_eq, has, has'] at hvalue
      rw [has, has']
      exact congrArg some hvalue
    · have hn' : n ∉ ((g.addAll xs).addAll xs).names := hnames ▸ hn
      rw [get?_eq_none_iff.mpr hn, get?_eq_none_iff.mpr hn']
  exact congrArg₂ Digraph.mk hnodes harcs

/-! ### Graphs of results -/

def linkAdditions (name : String) (own : List (String × Value))
    (other : String → List (String × Value)) (targets : List String) : List Addition :=
  .node name own :: targets.flatMap fun d => [.node d (other d), .edge name d]

section Links
variable {name : String} {own : List (String × Value)} {other : String → List (String × Value)}
  {targets : List String}

theorem exists_mem_linkAdditions :
    (∃ x ∈ linkAdditions name own other targets, n ∈ x.names) ↔ n = name ∨ n ∈ targets := by
  constructor
  · rintro ⟨x, hx, hn⟩
    rcases List.mem_cons.mp hx with rfl | hx
    · exact .inl (List.mem_singleton.mp hn)
    · obtain ⟨d, hd, hx⟩ := List.mem_flatMap.mp hx
      have hn : n = name ∨ n = d := by
        rcases List.mem_pair.mp hx with rfl | rfl
        · exact .inr (List.mem_singleton.mp hn)
        · exact List.mem_pair.mp hn
      exact hn.imp_right fun (hn : n = d) => hn ▸ hd
  · rintro (rfl | hn)
    · exact ⟨_, List.mem_cons_self, List.mem_cons_self⟩
    · exact ⟨.node n (other n), List.mem_cons_of_mem _
        (List.mem_flatMap.mpr ⟨n, hn, List.mem_cons_self⟩), List.mem_cons_self⟩

theorem node_mem_linkAdditions {es : List (String × Value)} :
    .node n es ∈ linkAdditions name own other targets ↔
      n = name ∧ es = own ∨ n ∈ targets ∧ es = other n := by
  simp only [linkAdditions, List.mem_cons, List.mem_flatMap, Addition.node.injEq, reduceCtorEq,
    List.not_mem_nil, or_false]
  exact or_congr_right ⟨fun ⟨_, hd, hn, hes⟩ => hn ▸ ⟨hd, hn ▸ hes⟩,
    fun ⟨hn, hes⟩ => ⟨n, hn, rfl, hes⟩⟩

theorem edge_mem_linkAdditions :
    .edge a b ∈ linkAdditions name own other targets ↔ a = name ∧ b ∈ targets := by
  simp [linkAdditions, and_comm]

end Links

section Results
variable {rs : List ScanResult} {own : ScanResult → List (String × Value)}
  {other : String → List (String × Value)} {targets : ScanResult → List String}

theorem mem_names_links : n ∈
    (g.addAll (rs.flatMap fun r => linkAdditions r.uniqueName (own r) other (targets r))).names ↔
    n ∈ g.names ∨ ∃ r ∈ rs, n = r.uniqueName ∨ n ∈ targets r := by
  rw [mem_names_addAll]
  refine or_congr Iff.rfl ⟨?_, ?_⟩
  · rintro ⟨x, hx, hn⟩
    obtain ⟨r, hr, hx⟩ := List.mem_flatMap.mp hx
    exact ⟨r, hr, exists_mem_linkAdditions.mp ⟨x, hx, hn⟩⟩
  · rintro ⟨r, hr, hn⟩
    obtain ⟨x, hx, hn⟩ := exists_mem_linkAdditions.mpr hn
    exact ⟨x, List.mem_flatMap.mpr ⟨r, hr, hx⟩, hn⟩

theorem mem_arcs_links : (a, b) ∈
    (g.addAll (rs.flatMap fun r => linkAdditions r.uniqueName (own r) other (targets r))).arcs ↔
    (a, b) ∈ g.arcs ∨ ∃ r ∈ rs, a = r.uniqueName ∧ b ∈ targets r := by
  rw [mem_arcs_addAll, List.mem_flatMap]
  simp only [edge_mem_linkAdditions]

end Results

def importAdditions (r : ScanResult) : List Addition :=
  linkAdditions r.uniqueName [("absolute_name", .text r.absoluteName),
    ("display_name", .text r.displayName)]
    (fun d => [("display_name", .text d)]) r.imports

def parentAdditions (r : ScanResult) : List Addition :=
  linkAdditions r.uniqueName [] (fun _ => []) r.inherits

theorem addDependencies_eq (g : Digraph) (rs : Results) :
    g.addDependencies rs = g.addAll (rs.values.flatMap importAdditions) := by
  rw [addAll, List.foldl_flatMap]
  refine congrArg (fun f => rs.values.foldl f g) (funext₂ fun g r => ?_)
  rw [importAdditions, linkAdditions, List.foldl_cons, List.foldl_flatMap]
  rfl

theorem addInheritance_eq (g : Digraph) (rs : Results) :
    g.addInheritance rs = g.addAll (rs.values.flatMap parentAdditions) := by
  rw [addAll, List.foldl_flatMap]
  refine congrArg (fun f => rs.values.foldl f g) (funext₂ fun g r => ?_)
  rw [parentAdditions, linkAdditions, List.foldl_cons, List.foldl_flatMap]
  rfl

end Digraph

end CodeAtlas
