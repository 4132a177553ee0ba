import CodeAtlas.Proofs.Records
import CodeAtlas.Proofs.Walks

/-!
# The graph of the file system is a tree

`Survey.NodeAt` tells which nodes the graph of a project has, and at which place below the source
directory each of them stands: the source directory itself, the directories that are entered, and
the files that are scanned. `Survey.Shows` says that a graph has these nodes, hangs together as a
tree and marks each node as a directory or as a file. Every walk through a regular project that ends
well leaves such a graph (`Regular.shows`).
-/

namespace CodeAtlas

open OrderedMap

namespace Survey

open FileTree Resolve

/-- The nodes of the graph of a project, each with its place. -/
inductive NodeAt (disk : Disk) (f : Filters) (source : String) : List String → FileNode → Prop
  | root : NodeAt disk f source [] ⟨true, nodeName source [], none⟩
  | directory {ns : List String} {name : String} (h : Enters disk f source (ns ++ [name])) :
    NodeAt disk f source (ns ++ [name]) ⟨true, nodeName source (ns ++ [name]), none⟩
  | file {ns : List String} {name : String} (h : Scans disk f source ns name) :
    NodeAt disk f source (ns ++ [name])
      ⟨false, nodeName source (ns ++ [name]),
        some (contentAt disk (Path.descend source (ns ++ [name])))⟩

variable {disk : Disk} {f : Filters} {source name : String} {ns ms : List String}
  {ls : List Listing} {e e' : Event} {n m : FileNode} {s s' : Survey} {view : GraphView}

theorem NodeAt.name_eq (h : NodeAt disk f source ns n) : n.name = nodeName source ns := by
  cases h <;> rfl

theorem NodeAt.of_enters (h : ns = [] ∨ Enters disk f source ns) :
    NodeAt disk f source ns ⟨true, nodeName source ns, none⟩ := by
  cases ns using List.reverseRecOn with
  | nil => exact .root
  | append_singleton ns name =>
    rcases h with h | h
    · simp at h
    · exact .directory h

/-! ### Names of places -/

namespace Regular

section
variable (h : Regular disk f source)
include h

theorem of_nodeAt (hn : NodeAt disk f source ns n) :
    (∀ n ∈ ns, PathName n) ∧ Text.OnlyAtStart (parentSlash source) (Path.descend source ns) := by
  cases hn with
  | root => exact ⟨by simp, onlyAtStart_self h.normal⟩
  | directory henters =>
    obtain ⟨es, hdir⟩ := henters.isDir
    exact ⟨h.pathNames hdir, h.dirs _ henters⟩
  | file hscans =>
    obtain ⟨content, hfile⟩ := hscans.isFile
    exact ⟨h.pathNames hfile, h.files _ _ hscans.toVisits⟩

theorem place_injective (hn : NodeAt disk f source ns n) (hm : NodeAt disk f source ms m)
    (heq : n.name = m.name) : ns = ms := by
  obtain ⟨hns, hn'⟩ := h.of_nodeAt hn
  obtain ⟨hms, hm'⟩ := h.of_nodeAt hm
  rw [hn.name_eq, hm.name_eq] at heq
  exact nodeName_injective h.normal hns hms hn' hm' heq

theorem mem_filterMap_node? (hls : listings disk f source = .ok ls) :
    n ∈ (events disk f ls).filterMap (Event.node? source) ↔
    ∃ ns name, NodeAt disk f source (ns ++ [name]) n := by
  rw [List.mem_filterMap]
  constructor
  · rintro ⟨e, he, hn⟩
    rcases (h.mem_events hls).mp he with ⟨ns, name, henters, rfl⟩ | ⟨ns, name, hvisits, rfl⟩
    · obtain rfl := Option.some.inj hn
      rw [Event.path, Event.root, Event.name, ← Path.descend_concat]
      exact ⟨ns, name, .directory henters⟩
    · rw [fileEvent, ← Path.descend_concat] at hn
      split_ifs at hn with hscans
      · obtain rfl := Option.some.inj hn
        rw [Event.path, Event.root, Event.name, ← Path.descend_concat]
        exact ⟨ns, name, .file ⟨hvisits, hscans⟩⟩
      · cases hn
  · rintro ⟨ns, name, hn⟩
    generalize hplace : ns ++ [name] = place at hn
    cases hn with
    | root => simp at hplace
    | @directory ns' name' henters =>
      refine ⟨_, (h.mem_events hls).mpr (.inl ⟨ns', name', henters, rfl⟩), ?_⟩
      rw [Event.node?, Event.path, Event.root, Event.name, ← Path.descend_concat]
      rfl
    | @file ns' name' hscans =>
      refine ⟨_, (h.mem_events hls).mpr (.inr ⟨ns', name', hscans.toVisits, rfl⟩), ?_⟩
      rw [fileEvent, ← Path.descend_concat, if_pos hscans.scans, Event.node?, Event.path,
        Event.root, Event.name, ← Path.descend_concat]
      rfl

theorem mem_nodesOf (hls : listings disk f source = .ok ls) :
    n ∈ nodesOf source (events disk f ls) ↔ ∃ ns, NodeAt disk f source ns n := by
  rw [nodesOf, List.mem_cons, h.mem_filterMap_node? hls]
  constructor
  · rintro (rfl | ⟨ns, name, hn⟩)
    · exact ⟨[], .root⟩
    · exact ⟨_, hn⟩
  · rintro ⟨ns, hn⟩
    cases hn with
    | root => exact .inl rfl
    | directory henters => exact .inr ⟨_, _, .directory henters⟩
    | file hscans => exact .inr ⟨_, _, .file hscans⟩

theorem nodup_nodesOf (hls : listings disk f source = .ok ls) :
    ((nodesOf source (events disk f ls)).map FileNode.name).Nodup := by
  rw [nodesOf, List.map_cons, List.nodup_cons]
  constructor
  · intro hmem
    obtain ⟨n, hn, hname⟩ := List.mem_map.mp hmem
    obtain ⟨ns, name, hn⟩ := (h.mem_filterMap_node? hls).mp hn
    have := h.place_injective hn .root hname
    simp at this
  · rw [List.Nodup, List.pairwise_map, List.pairwise_filterMap]
    refine (h.pairwise_names hls).imp ?_
    intro e e' hne n hn n' hn' heq
    rw [Event.name_of_node? hn, Event.name_of_node? hn'] at heq
    exact hne heq

end

end Regular

/-! ### Every branch has its parent -/

theorem parent_of_branch? {b : Digraph.Branch} (h : e.branch? source = some b) :
    b.parent = projectName source e.root := by
  obtain ⟨n, -, rfl⟩ := Option.map_eq_some_iff.mp h
  rfl

/-- Directories are listed from the top down, so each branch starts at the source directory or at a
directory that was added before. -/
theorem parented_branches {known names : List String} (h : TopDown (keepsDirectory f) known ls)
    (hknown : ∀ r ∈ known, projectName source r ∈ names) :
    Digraph.Parented names ((events disk f ls).filterMap (Event.branch? source)) := by
  induction ls generalizing known names with
  | nil => trivial
  | cons l ls ih =>
    obtain ⟨hroot, hrest⟩ := h
    rw [events, List.flatMap_cons, List.filterMap_append]
    refine Digraph.Parented.append (Digraph.parented_of_forall ?_) (ih hrest ?_)
    · intro b hb
      obtain ⟨e, he, hb⟩ := List.mem_filterMap.mp hb
      rw [parent_of_branch? hb, root_of_mem_eventsOf he]
      exact hknown _ hroot
    · intro r hr
      rcases List.mem_append.mp hr with hr | hr
      · exact List.mem_append_left _ (hknown r hr)
      · obtain ⟨name, hname, rfl⟩ := List.mem_map.mp hr
        refine List.mem_append_right _
          (List.mem_map.mpr ⟨_, List.mem_filterMap.mpr ⟨.directory l.root name, ?_, rfl⟩, rfl⟩)
        exact List.mem_append_left _ (List.mem_map_of_mem hname)

/-! ### The graph after a walk -/

/-- A graph with exactly the nodes of a project, which hang together as a tree. -/
structure Shows (disk : Disk) (f : Filters) (source : String) (view : GraphView) : Prop where
  kind : view.kind = .fileSystem
  isTree : view.graph.IsTree (nodeName source [])
  names : view.graph.names = view.fileNodes.keys
  attributes : ∀ n ∈ view.fileNodes.values, view.graph.nodes.get? n.name =
    some (.ofList (attributesOf n))
  key_eq : ∀ key n, view.fileNodes.get? key = some n → key = n.name
  mem_values : ∀ n, n ∈ view.fileNodes.values ↔ ∃ ns, NodeAt disk f source ns n

namespace Regular

theorem grown (h : Regular disk f source) (hls : listings disk f source = .ok ls) :
    Digraph.Grown
      (((events disk f ls).filterMap (Event.branch? source)).foldl Digraph.graft
        (Digraph.empty.addNode (nodeName source []) (directoryAttributes (nodeName source []))))
      (nodeName source []) (directoryAttributes (nodeName source []))
      ((events disk f ls).filterMap (Event.branch? source)) := by
  have hempty :=
    Digraph.Grown.empty_addNode (nodeName source []) (directoryAttributes (nodeName source []))
  refine hempty.foldl_graft ?_ ?_
  · rw [hempty.names]
    exact parented_branches (h.topDown hls) (by simp [nodeName])
  · rw [hempty.names]
    have hnames := map_branch? (fun name _ => name) source (events disk f ls)
    exact (congrArg (fun l => (nodeName source [] :: l).Nodup) hnames).mpr (h.nodup_nodesOf hls)

variable {filesIn : OrderedMap String (List String)} {names : List String}

theorem grown_of_walk (h : Regular disk f source) (hls : listings disk f source = .ok ls)
    (hwalk : walk disk f source ⟨.new .fileSystem, names, filesIn, 0, 0⟩ = .ok () s) :
    Digraph.Grown s.view.graph (nodeName source []) (directoryAttributes (nodeName source []))
      ((events disk f ls).filterMap (Event.branch? source)) := by
  obtain ⟨-, rfl⟩ := (h.walk_eq_ok_iff hls).mp hwalk
  rw [graph_foldl_record fun e he => h.normal_event hls he]
  exact h.grown hls

theorem fileNodes_of_walk (h : Regular disk f source) (hls : listings disk f source = .ok ls)
    (hwalk : walk disk f source ⟨.new .fileSystem, names, filesIn, 0, 0⟩ = .ok () s) :
    s.view.fileNodes.entries = (nodesOf source (events disk f ls)).map fun n => (n.name, n) := by
  obtain ⟨-, rfl⟩ := (h.walk_eq_ok_iff hls).mp hwalk
  rw [fileNodes_foldl_record fun e he => h.normal_event hls he, entries_insertMany_of_nodup]
  · rfl
  · have hnd := h.nodup_nodesOf hls
    rw [List.map_map]
    exact hnd

/-- Every walk through a regular project leaves a graph that shows the project. -/
theorem shows (h : Regular disk f source)
    (hwalk : walk disk f source ⟨.new .fileSystem, names, filesIn, 0, 0⟩ = .ok () s) :
    Shows disk f source s.view := by
  obtain ⟨ls, hls⟩ := h.exists_listings f
  have hgrown := h.grown_of_walk hls hwalk
  have hnodes := h.fileNodes_of_walk hls hwalk
  have hentries : s.view.graph.nodes.entries =
      (nodesOf source (events disk f ls)).map fun n => (n.name, .ofList (attributesOf n)) := by
    rw [hgrown.entries, map_branch? fun name attrs => (name, ofList attrs)]
    rfl
  have hvalues : ∀ n, n ∈ s.view.fileNodes.values ↔ n ∈ nodesOf source (events disk f ls) := by
    intro n
    rw [values, hnodes, List.map_map]
    simp
  refine ⟨?_, hgrown.isTree, ?_, ?_, ?_, fun n => (hvalues n).trans (h.mem_nodesOf hls)⟩
  · obtain ⟨-, rfl⟩ := (h.walk_eq_ok_iff hls).mp hwalk
    exact kind_foldl_record fun e he => h.normal_event hls he
  · rw [Digraph.names, keys, keys, hentries, hnodes, List.map_map, List.map_map]
    rfl
  · intro n hn
    rw [get?_eq_some_iff, hentries]
    exact List.mem_map_of_mem ((hvalues n).mp hn)
  · intro key n hget
    rw [get?_eq_some_iff, hnodes] at hget
    obtain ⟨m, -, heq⟩ := List.mem_map.mp hget
    obtain ⟨rfl, rfl⟩ := Prod.mk.inj heq
    rfl

end Regular

def Marked (g : Digraph) (name : String) (isDirectory : Bool) : Prop :=
  ∃ attributes, g.nodes.get? name = some attributes ∧
    attributes.get? "directory" = some (.bool isDirectory) ∧
    attributes.get? "file" = some (.bool !isDirectory)

theorem Shows.marked (h : Shows disk f source view) (hn : NodeAt disk f source ns n) :
    Marked view.graph (nodeName source ns) n.isDirectory := by
  rw [← hn.name_eq]
  refine ⟨_, h.attributes n ((h.mem_values n).mpr ⟨ns, hn⟩), ?_⟩
  rw [attributesOf]
  cases n.isDirectory <;> exact ⟨rfl, rfl⟩

theorem Shows.mem_names_iff (h : Shows disk f source view) :
    name ∈ view.graph.names ↔ ∃ ns n, NodeAt disk f source ns n ∧ name = n.name := by
  rw [h.names, mem_keys_iff]
  constructor
  · rintro ⟨n, hget⟩
    obtain ⟨ns, hn⟩ := (h.mem_values n).mp (mem_values_iff.mpr ⟨name, hget⟩)
    exact ⟨ns, n, hn, h.key_eq name n hget⟩
  · rintro ⟨ns, n, hn, rfl⟩
    obtain ⟨key, hget⟩ := mem_values_iff.mp ((h.mem_values n).mpr ⟨ns, hn⟩)
    exact ⟨n, h.key_eq key n hget ▸ hget⟩

end Survey

namespace Work

open Survey FileTree

variable {j j' : Job} {source : String}

theorem shows_of_surveyFiles (hsource : j.analysis.settings.source = .text source)
    (hnew : j.analysis.graphs.get? .fileSystem = some (.new .fileSystem))
    (h : Regular j.session.disk j.analysis.settings.filters source)
    (hok : surveyFiles j = .ok () j') : ∃ view, j'.analysis.graphs.get? .fileSystem = some view ∧
      Shows j.session.disk j.analysis.settings.filters source view := by
  obtain ⟨s, hwalk, rfl⟩ := (surveyFiles_eq_ok_iff hsource hnew).mp hok
  have hshows := h.shows hwalk
  refine ⟨s.view, ?_, hshows⟩
  change (j.analysis.graphs.insert s.view.kind s.view).get? .fileSystem = some s.view
  rw [get?_insert, if_pos hshows.kind]

/-- The graph of the file system is a tree below the source directory. Its nodes are the source
directory, the directories below it that are entered and the files that are scanned, each under a
name of its own and marked for what it is. With lists as filters the graph is built whenever the
paths of the scanned files are short enough to be opened. -/
theorem surveyFiles_isTree (j : Job) (source : String)
    (hsource : j.analysis.settings.source = .text source)
    (hnew : j.analysis.graphs.get? .fileSystem = some (.new .fileSystem))
    (h : Regular j.session.disk j.analysis.settings.filters source) :
    (∀ ignoredDirs ignoredParts paths extensions,
      j.analysis.settings.filters.Lists ignoredDirs ignoredParts paths extensions →
      (∀ ns base, Scans j.session.disk j.analysis.settings.filters source ns base →
        (Path.descend source (ns ++ [base])).utf8ByteSize < maxPath) →
      ∃ j', surveyFiles j = .ok () j') ∧
    ∀ j', surveyFiles j = .ok () j' →
      ∃ view, j'.analysis.graphs.get? .fileSystem = some view ∧
        view.graph.IsTree (nodeName source []) ∧
        view.graph.names.Nodup ∧
        (∀ name, name ∈ view.graph.names ↔
          name = nodeName source [] ∨
          (∃ ns, ns ≠ [] ∧ Enters j.session.disk j.analysis.settings.filters source ns ∧
            name = nodeName source ns) ∨
          ∃ ns base, Scans j.session.disk j.analysis.settings.filters source ns base ∧
            name = nodeName source (ns ++ [base])) ∧
        (∀ ns ms n m, NodeAt j.session.disk j.analysis.settings.filters source ns n →
          NodeAt j.session.disk j.analysis.settings.filters source ms m →
          nodeName source ns = nodeName source ms → ns = ms) ∧
        (∀ name ∈ view.graph.names, ∃ isDirectory, Marked view.graph name isDirectory) ∧
        (∀ ns, ns = [] ∨ Enters j.session.disk j.analysis.settings.filters source ns →
          Marked view.graph (nodeName source ns) true) ∧
        ∀ ns base, Scans j.session.disk j.analysis.settings.filters source ns base →
          Marked view.graph (nodeName source (ns ++ [base])) false := by
  constructor
  · intro ignoredDirs ignoredParts paths extensions hf hlen
    obtain ⟨s, hwalk⟩ :=
      h.exists_walk hf hlen ⟨.new .fileSystem, j.analysis.scannedNames, j.analysis.filesIn, 0, 0⟩
    exact ⟨_, (surveyFiles_eq_ok_iff hsource hnew).mpr ⟨s, hwalk, rfl⟩⟩
  · intro j' hok
    obtain ⟨view, hview, hshows⟩ := shows_of_surveyFiles hsource hnew h hok
    refine ⟨view, hview, hshows.isTree, view.graph.nodes.keys_nodup, ?names, ?places, ?marks,
      ?directories, ?files⟩
    case names =>
      intro name
      rw [hshows.mem_names_iff]
      constructor
      · rintro ⟨ns, n, hn, rfl⟩
        cases hn with
        | root => exact .inl rfl
        | directory henters => exact .inr (.inl ⟨_, by simp, henters, rfl⟩)
        | file hscans => exact .inr (.inr ⟨_, _, hscans, rfl⟩)
      · rintro (rfl | ⟨ns, -, henters, rfl⟩ | ⟨ns, base, hscans, rfl⟩)
        · exact ⟨[], _, .root, rfl⟩
        · exact ⟨ns, _, .of_enters (.inr henters), rfl⟩
        · exact ⟨ns ++ [base], _, .file hscans, rfl⟩
    case places =>
      intro ns ms n m hn hm heq
      exact h.place_injective hn hm (by rw [hn.name_eq, hm.name_eq, heq])
    case marks =>
      intro name hname
      obtain ⟨ns, n, hn, rfl⟩ := hshows.mem_names_iff.mp hname
      rw [hn.name_eq]
      exact ⟨n.isDirectory, hshows.marked hn⟩
    case directories =>
      intro ns hns
      have hn := NodeAt.of_enters hns
      exact hshows.marked hn
    case files =>
      intro ns base hscans
      have hn := NodeAt.file hscans
      exact hshows.marked hn

end Work

/-! ### A small project -/

namespace Sample

open Survey FileTree

/-- A project with a header in a directory of its own and a directory that is ignored. -/
def disk : Disk where
  tree := .dir [("w", .dir [("proj", .dir
    [("a.c", .file ⟨#[105, 110, 116]⟩), ("build", .dir [("x.c", .file ⟨#[]⟩)]),
      ("notes.txt", .file ⟨#[]⟩), ("sub", .dir [("b.h", .file ⟨#[]⟩)])])])]
  cwd := []

def filters : Filters where
  languages := .ofStrings ["c"]
  extensions := .ofStrings [".c", ".h"]
  ignoredDirectories := .ofStrings ["build"]

def job : Job where
  session := { disk := disk, home := "/", now := 0 }
  analysis :=
    { settings := { source := .text "/w/proj", filters := filters }
      graphs := .ofList [(.fileSystem, .new .fileSystem)] }

theorem lists : filters.Lists ["build"] [] [] [".c", ".h"] := ⟨rfl, rfl, rfl, rfl⟩

theorem plain : disk.tree.Plain := by
  refine .dir _ (by decide) (by decide) (List.forall_mem_singleton.mpr ?_)
  refine .dir _ (by decide) (by decide) (List.forall_mem_singleton.mpr ?_)
  refine .dir _ (by decide) (by decide) ?_
  simp only [List.forall_mem_cons]
  exact ⟨.file _, .dir _ (by decide) (by decide) (by simp [Plain.file]), .file _,
    .dir _ (by decide) (by decide) (by simp [Plain.file]), by simp⟩

theorem regular : Regular disk filters "/w/proj" :=
  Tidy.regular ⟨⟨["w", "proj"], by decide, by decide, by decide⟩, plain⟩ (by decide +kernel)

theorem scans_header : Scans disk filters "/w/proj" ["sub"] "b.h" :=
  ⟨⟨⟨_, _, rfl, rfl⟩, by decide +kernel, by decide⟩, by decide +kernel⟩

theorem scans_short (ns : List String) (base : String) (h : Scans disk filters "/w/proj" ns base) :
    (Path.descend "/w/proj" (ns ++ [base])).utf8ByteSize < maxPath :=
  (by decide +kernel : ∀ path ∈ visitedPaths disk filters "/w/proj", path.utf8ByteSize < maxPath) _
    (regular.mem_visitedPaths_of_visits h.toVisits)

theorem surveyFiles_isTree_sample : ∃ j' view, Work.surveyFiles job = .ok () j' ∧
    j'.analysis.graphs.get? .fileSystem = some view ∧ view.graph.IsTree "proj" ∧
    "proj/sub/b.h" ∈ view.graph.names ∧ Marked view.graph "proj/sub/b.h" false := by
  obtain ⟨hbuilt, htree⟩ := Work.surveyFiles_isTree job "/w/proj" rfl rfl regular
  obtain ⟨j', hok⟩ := hbuilt _ _ _ _ lists scans_short
  obtain ⟨view, hview, hroot, -, hnames, -, -, -, hfiles⟩ := htree j' hok
  have hname : nodeName "/w/proj" ["sub", "b.h"] = "proj/sub/b.h" := by decide
  have hmem := (hnames _).mpr (.inr (.inr ⟨_, _, scans_header, rfl⟩))
  have hmark := hfiles _ _ scans_header
  rw [List.singleton_append, hname] at hmem hmark
  exact ⟨j', view, hok, hview, (by decide : nodeName "/w/proj" [] = "proj") ▸ hroot, hmem, hmark⟩

end Sample

end CodeAtlas
