import CodeAtlas.Proofs.FileGraph
import CodeAtlas.Proofs.ImportGraph
import CodeAtlas.Proofs.ProjectNames
import CodeAtlas.Proofs.TwoRuns

/-!
# A slash after the source directory

A source directory can be spelled with a slash at its end. Both spellings lead to the same directory
(`FileTree.stat?_slash`), and every name below it is told in the same way, so that the walks through
them take the same steps (`Survey.walk_slash`). What differs is the node of the source directory
itself, whose name is cut from the spelling. The edges from the source directory lead from the name
without the slash in both graphs. `Survey.Respelled` relates what the two walks collect: all but the
attributes of these two nodes is the same (`Work.surveyFiles_slash`).
-/

namespace CodeAtlas

open Resolve OrderedMap

/-! ### Paths with a slash at the end -/

namespace Path

variable {source : String}

theorem root_concat_slash {cs : List Char} (hne : cs ≠ []) (hend : cs.getLast? ≠ some '/') :
    root (cs ++ ['/']) = root cs := by
  -- the root is told from three characters at most
  match cs with
  | [] => contradiction
  | [a] =>
    have ha : a ≠ '/' := by simpa using hend
    simp [root, ha]
  | [a, b] =>
    have hb : b ≠ '/' := by simpa using hend
    by_cases ha : a = '/' <;> simp [root, ha, hb]
  | a :: b :: c :: rest =>
    by_cases ha : a = '/' <;> by_cases hb : b = '/' <;> by_cases hc : c = '/' <;>
      simp [root, ha, hb, hc]

theorem segments_concat_slash (cs : List Char) : segments (cs ++ ['/']) = segments cs := by
  rw [segments, Chars.splitOn_append, List.filter_append]
  simp [segments, Chars.splitOn, isStep]

variable (hend : source.toList.getLast? ≠ some '/') (hne : source ≠ "")

include hend hne

theorem root_slash : root (source ++ "/").toList = root source.toList := by
  rw [String.toList_append]
  exact root_concat_slash (fun hnil => hne (String.toList_eq_nil_iff.mp hnil)) hend

theorem normalize_slash : normalize (source ++ "/") = normalize source := by
  rw [normalize, root_slash hend hne, String.toList_append]
  exact congrArg (fun segs => String.ofList (assemble _ segs)) (segments_concat_slash _)

theorem parent_slash : parent (source ++ "/") = parent source := by
  rw [parent, parentChars, root_slash hend hne, String.toList_append]
  exact congrArg (fun segs => String.ofList (assemble _ segs.dropLast)) (segments_concat_slash _)

theorem join_slash (name : String) : join (source ++ "/") name = join source name := by
  have hlast : (source ++ "/").toList.getLast? = some '/' := by simp
  rw [join, join, hlast]
  simp [hend, hne]

end Path

namespace FileTree

variable {t : FileTree} {here todo place : List String} {es : List (String × FileTree)}
  {path : String}

theorem names_slash (path : String) : names (path ++ "/") = names path ++ [""] := by
  rw [names, names, Text.splitOn, String.toList_append, Text.splitOn]
  have hsplit := Chars.splitOn_append '/' path.toList []
  simp [hsplit, Chars.splitOn]

theorem followNames_concat_empty {jump : List String → List String → Except Obstacle (List String)}
    (hjump : ∀ here todo, jump here todo = .ok place → jump here (todo ++ [""]) = .ok place)
    (hdir : t.get? place.reverse = some (.dir es))
    (h : followNames t true jump here todo = .ok place) :
    followNames t true jump here (todo ++ [""]) = .ok place := by
  induction todo generalizing here with
  | nil =>
    obtain rfl := Except.ok.inj h
    rw [List.nil_append, followNames, hdir]
    rfl
  | cons name todo ih =>
    rw [followNames] at h
    rw [List.cons_append, followNames]
    cases hhere : t.get? here.reverse with
    | none =>
      rw [hhere] at h
      cases h
    | some sub =>
      rw [hhere] at h
      cases sub with
      | file content => cases h
      | link target => cases h
      | dir entries =>
        simp only [Bool.not_true, Bool.and_false, Bool.false_eq_true, if_false] at h ⊢
        split_ifs at h ⊢
        · exact ih h
        · exact ih h
        · cases hsub : entries.lookup name with
          | none =>
            rw [hsub] at h
            cases h
          | some sub =>
            rw [hsub] at h
            cases sub with
            | file content => exact ih h
            | dir below => exact ih h
            | link target =>
              dsimp only at h ⊢
              rw [← List.append_assoc]
              exact hjump _ _ h

theorem followFrom_concat_empty {links : Nat} (hdir : t.get? place.reverse = some (.dir es))
    (h : t.followFrom true links here todo = .ok place) :
    t.followFrom true links here (todo ++ [""]) = .ok place := by
  induction links generalizing here todo with
  | zero => exact followNames_concat_empty (fun _ _ hloop => nomatch hloop) hdir h
  | succ links ih => exact followNames_concat_empty (fun _ _ => ih) hdir h

theorem pathObstacle?_slash (h : pathObstacle? path = none)
    (hsize : (path ++ "/").utf8ByteSize < maxPath) : pathObstacle? (path ++ "/") = none := by
  simp only [pathObstacle?] at h ⊢
  split_ifs at h with hhalf hzero hempty hlong
  rw [String.toList_append, if_neg, if_neg, if_neg, if_neg]
  · exact Nat.not_le.mpr hsize
  · simp
  · simpa using hzero
  · rw [List.any_append, Bool.or_eq_true, not_or]
    exact ⟨hhalf, by decide⟩

variable {cwd : List String}

/-- A path that leads to a directory leads there with a slash at its end, unless it gets too
long. -/
theorem stat?_slash (hsize : (path ++ "/").utf8ByteSize < maxPath)
    (h : t.stat? cwd path = some (.dir es)) : t.stat? cwd (path ++ "/") = some (.dir es) := by
  rw [stat?, follow?, locate] at h
  cases hobstacle : pathObstacle? path with
  | some o =>
    rw [hobstacle] at h
    cases h
  | none =>
    have habs : Path.isAbsolute (path ++ "/") = Path.isAbsolute path := by
      have hne : path.toList ≠ [] := by
        intro hnil
        rw [String.toList_eq_nil_iff.mp hnil] at hobstacle
        revert hobstacle
        decide
      obtain ⟨c, cs, hcs⟩ := List.exists_cons_of_ne_nil hne
      simp [Path.isAbsolute, hcs]
    rw [hobstacle] at h
    rw [stat?, follow?, locate, pathObstacle?_slash hobstacle hsize, names_slash, habs]
    dsimp only at h ⊢
    cases hplace : t.followFrom true maxLinks (if Path.isAbsolute path then [] else cwd.reverse)
      (names path) with
    | error o =>
      rw [hplace] at h
      cases h
    | ok place =>
      rw [hplace] at h
      rw [followFrom_concat_empty h hplace]
      exact h

theorem exists_stat?_of_pathIsDir (h : t.pathIsDir cwd path = true) :
    ∃ es, t.stat? cwd path = some (.dir es) := by
  rw [pathIsDir] at h
  cases hstat : t.stat? cwd path with
  | none =>
    rw [hstat] at h
    cases h
  | some sub =>
    rw [hstat] at h
    cases sub with
    | dir es => exact ⟨es, rfl⟩
    | file content => cases h
    | link target => cases h

theorem pathObstacle?_of_stat? {sub : FileTree} (h : t.stat? cwd path = some sub) :
    pathObstacle? path = none := by
  rw [stat?, follow?, locate] at h
  cases hobstacle : pathObstacle? path with
  | none => rfl
  | some o =>
    rw [hobstacle] at h
    cases h

theorem listings_dir_congr {root root' : String}
    (hjoin : ∀ name, Path.join root' name = Path.join root name) (linkIsDir keep : String → Bool)
    (es : List (String × FileTree)) : ∃ dirs files rest,
      listings linkIsDir keep root (.dir es) = ⟨root, dirs, files⟩ :: rest ∧
      listings linkIsDir keep root' (.dir es) = ⟨root', dirs, files⟩ :: rest := by
  have hleads : leadsToDir linkIsDir root' = leadsToDir linkIsDir root := by
    funext e
    rw [leadsToDir, leadsToDir, hjoin]
  refine ⟨_, _, _, rfl, ?_⟩
  rw [listings, listingsBelow_eq_flatMap, listingsBelow_eq_flatMap, hleads]
  simp only [hjoin]

end FileTree

/-! ### The same steps -/

namespace Survey

open Effect FileTree

variable {disk : Disk} {f : Filters} {source source' root root' : String}

theorem visit_congr (hslash : parentSlash source' = parentSlash source)
    (hnormal : Path.normalize root' = Path.normalize root)
    (hjoin : ∀ name, Path.join root' name = Path.join root name) (dirs files : List String) :
    visit disk f source' ⟨root', dirs, files⟩ = visit disk f source ⟨root, dirs, files⟩ := by
  have hsub : addSubdirectory source' root' = addSubdirectory source root := by
    funext s name
    simp only [addSubdirectory, projectName, hslash, hnormal, hjoin]
  have hrecord : recordName source' root' = recordName source root := by
    funext path s
    unfold recordName projectName
    rw [hslash, hnormal]
  have hadd : addFile source' root' = addFile source root := by
    funext path content s
    simp only [addFile, projectName, hslash, hnormal]
  have hfile : visitFile disk f source' root' = visitFile disk f source root := by
    funext name
    simp only [visitFile, hjoin, hrecord, hadd]
  simp only [visit, hsub, hfile]

def visitAll (disk : Disk) (f : Filters) (source : String) : SurveyM Unit := do
  (← lift (listings disk f source)).forM (visit disk f source)

theorem walk_eq (disk : Disk) (f : Filters) (source : String) (s : Survey) :
    walk disk f source s = visitAll disk f source (s.addDirectory (relativeName source source)) :=
  rfl

/-- With a slash after the source directory the same is done. -/
theorem walk_slash (hend : source.toList.getLast? ≠ some '/') (hne : source ≠ "")
    (hdir : disk.tree.pathIsDir disk.cwd source = true)
    (hsize : (source ++ "/").utf8ByteSize < maxPath) (s : Survey) : walk disk f (source ++ "/") s =
      visitAll disk f source (s.addDirectory (relativeName (source ++ "/") (source ++ "/"))) := by
  obtain ⟨es, hstat⟩ := exists_stat?_of_pathIsDir hdir
  have hobstacle := pathObstacle?_of_stat? hstat
  have hslash : parentSlash (source ++ "/") = parentSlash source := by
    rw [parentSlash, parentSlash, Path.parent_slash hend hne]
  obtain ⟨dirs, files, rest, hplain, hslashed⟩ := listings_dir_congr (Path.join_slash hend hne)
    (fun path => disk.tree.pathIsDir disk.cwd path)
      (fun name => (f.ignoresDirectory name).toOption == some false) es
  have hls : listings disk f source = .ok (⟨source, dirs, files⟩ :: rest) := by
    rw [listings, hobstacle, hstat, ← hplain]
  have hls' : listings disk f (source ++ "/") = .ok (⟨source ++ "/", dirs, files⟩ :: rest) := by
    rw [listings, pathObstacle?_slash hobstacle hsize, stat?_slash hsize hstat, ← hslashed]
  have hrest : visit disk f (source ++ "/") = visit disk f source := by
    funext l
    exact visit_congr hslash rfl (fun _ => rfl) l.dirs l.files
  rw [walk_eq, visitAll, visitAll, hls, hls']
  change (visit disk f (source ++ "/") ⟨source ++ "/", dirs, files⟩ >>= fun _ =>
    rest.forM (visit disk f (source ++ "/"))) _ =
    (visit disk f source ⟨source, dirs, files⟩ >>= fun _ => rest.forM (visit disk f source)) _
  rw [visit_congr hslash (Path.normalize_slash hend hne) (Path.join_slash hend hne), hrest]

end Survey

/-! ### Graphs that differ in two nodes -/

/-- Graphs with the same edges, which agree on all nodes but two, of which each has one. -/
structure Digraph.Respelled (a b : String) (g h : Digraph) : Prop where
  arcs : h.arcs = g.arcs
  nodes : ∀ n, n ≠ a → n ≠ b → h.nodes.get? n = g.nodes.get? n
  left : a ∈ g.names
  right : b ∈ h.names

namespace Digraph.Respelled

variable {a b : String} {g h : Digraph}

theorem symm (hr : Respelled a b g h) : Respelled b a h g :=
  ⟨hr.arcs.symm, fun n hb ha => (hr.nodes n ha hb).symm, hr.right, hr.left⟩

theorem addNode (hr : Respelled a b g h) (name : String) (attributes : List (String × Value)) :
    Respelled a b (g.addNode name attributes) (h.addNode name attributes) := by
  refine ⟨hr.arcs, fun n ha hb => ?_, (mem_names_addNode ..).mpr (.inl hr.left),
    (mem_names_addNode ..).mpr (.inl hr.right)⟩
  simp only [Digraph.addNode, get?_insert]
  split_ifs with hn
  · subst hn
    rw [getD, getD, hr.nodes _ ha hb]
  · exact hr.nodes n ha hb

theorem addEdge (hr : Respelled a b g h) (x y : String) :
    Respelled a b (g.addEdge x y) (h.addEdge x y) := by
  have hends := (hr.addNode x []).addNode y []
  have hsame : ((h.addNode x []).addNode y []).hasEdge x y =
      ((g.addNode x []).addNode y []).hasEdge x y := by
    rw [hasEdge, hasEdge, hends.arcs]
  rw [Digraph.addEdge, Digraph.addEdge, hsame]
  cases ((g.addNode x []).addNode y []).hasEdge x y with
  | true => exact hends
  | false => exact ⟨congrArg (· ++ [(x, y)]) hends.arcs, hends.nodes, hends.left, hends.right⟩

end Digraph.Respelled

/-- Views of the file system that differ in two nodes. -/
structure GraphView.Respelled (a b : String) (v w : GraphView) : Prop where
  kinds : v.kind = .fileSystem ∧ w.kind = .fileSystem
  graph : Digraph.Respelled a b v.graph w.graph
  fileNodes : ∀ n, n ≠ a → n ≠ b → w.fileNodes.get? n = v.fileNodes.get? n

/-- What two walks collect that name the source directory in two ways. -/
structure Survey.Respelled (a b : String) (s t : Survey) : Prop where
  view : GraphView.Respelled a b s.view t.view
  scannedNames : t.scannedNames = s.scannedNames
  filesIn : t.filesIn = s.filesIn
  scanned : t.scanned = s.scanned
  skipped : t.skipped = s.skipped

namespace Survey

open Effect FileTree

variable {disk : Disk} {f : Filters} {source root : String} {a b : String} {s t : Survey}

namespace Respelled

section
variable (hr : Respelled a b s t)
include hr

theorem symm : Respelled b a t s where
  view := ⟨hr.view.kinds.symm, hr.view.graph.symm, fun n hb ha => (hr.view.fileNodes n ha hb).symm⟩
  scannedNames := hr.scannedNames.symm
  filesIn := hr.filesIn.symm
  scanned := hr.scanned.symm
  skipped := hr.skipped.symm

theorem insert_node (name : String) (node : FileNode) (n : String) (ha : n ≠ a) (hb : n ≠ b) :
    (t.view.fileNodes.insert name node).get? n = (s.view.fileNodes.insert name node).get? n := by
  rw [get?_insert, get?_insert, hr.view.fileNodes n ha hb]

theorem addDirectory (name : String) : Respelled a b (s.addDirectory name) (t.addDirectory name) :=
  { hr with view := ⟨hr.view.kinds, hr.view.graph.addNode _ _, hr.insert_node name _⟩ }

theorem addEdge (x y : String) : Respelled a b (s.addEdge x y) (t.addEdge x y) :=
  { hr with view := ⟨hr.view.kinds, hr.view.graph.addEdge x y, hr.view.fileNodes⟩ }

theorem addSubdirectories (source root : String) (names : List String) :
    Respelled a b (names.foldl (addSubdirectory source root) s)
      (names.foldl (addSubdirectory source root) t) := by
  induction names generalizing s t with
  | nil => exact hr
  | cons name names ih => exact ih ((hr.addDirectory _).addEdge _ _)

theorem recordName (source root path : String) :
    Respelled a b (recordName source root path s) (recordName source root path t) where
  view := hr.view
  scannedNames := by simp only [Survey.recordName, hr.scannedNames]
  filesIn := by simp only [Survey.recordName, hr.filesIn]
  scanned := hr.scanned
  skipped := hr.skipped

theorem addFile (source root path content : String) :
    Respelled a b (addFile source root path content s) (addFile source root path content t) where
  view := ⟨hr.view.kinds, (hr.view.graph.addNode _ _).addEdge _ _, hr.insert_node _ _⟩
  scannedNames := hr.scannedNames
  filesIn := hr.filesIn
  scanned := congrArg (· + 1) hr.scanned
  skipped := hr.skipped

end

theorem start (hkind : s.view.kind = .fileSystem) (a b : String) :
    Respelled a b (s.addDirectory a) (s.addDirectory b) := by
  refine ⟨⟨⟨hkind, hkind⟩, ⟨rfl, fun n ha hb => ?_, ?_, ?_⟩, fun n ha hb => ?_⟩, rfl, rfl, rfl, rfl⟩
  · simp [Survey.addDirectory, Digraph.addNode, get?_insert, ha.symm, hb.symm]
  · exact (Digraph.mem_names_addNode ..).mpr (.inr rfl)
  · exact (Digraph.mem_names_addNode ..).mpr (.inr rfl)
  · simp [Survey.addDirectory, get?_insert, ha.symm, hb.symm]

end Respelled

/-! ### Two walks side by side -/

theorem follows_lift {α : Type} {R : Survey → Survey → Prop} (x : Except Fault α) :
    Follows R R (lift x) (lift x) := by
  cases x with
  | error e => exact .throw e _
  | ok r => exact .pure (fun _ _ h => h) r

theorem follows_skip : Follows (Respelled a b) (Respelled a b) skip skip :=
  .modify fun _ _ hr => { hr with skipped := congrArg (· + 1) hr.skipped }

theorem follows_visitFile (name : String) :
    Follows (Respelled a b) (Respelled a b) (visitFile disk f source root name)
      (visitFile disk f source root name) := by
  rw [visitFile]
  refine .bind (follows_lift _) fun allowed => ?_
  cases allowed with
  | false => exact follows_skip
  | true =>
    cases htarget : target? disk (Path.join root name) with
    | none => exact .pure (fun _ _ hr => hr) ()
    | some path =>
      refine .bind (follows_lift _) fun scanned => ?_
      split_ifs
      · refine .bind (.modify fun _ _ hr => hr.recordName source root path) fun _ => ?_
        refine .bind (follows_lift _) fun content => ?_
        exact .modify fun _ _ hr => hr.addFile source root path content
      · exact follows_skip

theorem follows_visit (l : Listing) :
    Follows (Respelled a b) (Respelled a b) (visit disk f source l) (visit disk f source l) := by
  rw [visit]
  refine .bind (follows_lift _) fun dirs => ?_
  refine .bind (.modify fun _ _ hr => hr.addSubdirectories source l.root dirs) fun _ => ?_
  exact .bind (follows_lift _) fun files => .forM fun name _ => follows_visitFile name

theorem follows_visitAll :
    Follows (Respelled a b) (Respelled a b) (visitAll disk f source) (visitAll disk f source) :=
  .bind (follows_lift _) fun _ => .forM fun l _ => follows_visit l

end Survey

/-! ### The work on an analysis -/

namespace Resolve

/-- Cutting out a parent takes away two characters at least, so it cannot make up for one slash. -/
theorem relativeName_slash_ne {source : String} (habs : Path.isAbsolute source = true)
    (hend : source.toList.getLast? ≠ some '/') (hne : source ≠ "") :
    relativeName (source ++ "/") (source ++ "/") ≠ relativeName source source := by
  intro heq
  have hslash := toList_parentSlash_ne_nil source
  obtain ⟨n, hn⟩ := Chars.exists_length_replace hslash source.toList
  obtain ⟨m, hm⟩ := Chars.exists_length_replace hslash (source ++ "/").toList
  have hsame : (Chars.replace (parentSlash source).toList [] (source ++ "/").toList).length =
      (Chars.replace (parentSlash source).toList [] source.toList).length := by
    have hparent : parentSlash (source ++ "/") = parentSlash source := by
      rw [parentSlash, parentSlash, Path.parent_slash hend hne]
    rw [relativeName, relativeName, hparent, Text.replace, Text.replace, String.toList_empty] at heq
    rw [String.ofList_inj.mp heq]
  have hlong : 2 ≤ (parentSlash source).toList.length := by
    have hroot : 0 < (Path.root source.toList).length :=
      List.length_pos_iff.mpr (Path.root_ne_nil habs)
    rw [toList_parentSlash habs]
    simp only [List.length_append, List.length_singleton]
    omega
  have hslashed : (source ++ "/").toList.length = source.toList.length + 1 := by simp
  have hmore : n * (parentSlash source).toList.length + 1 =
      m * (parentSlash source).toList.length := by omega
  have hone := congrArg (· % (parentSlash source).toList.length) hmore
  simp only [Nat.mul_add_mod_self_right, Nat.mul_mod_left, Nat.mod_eq_of_lt hlong] at hone
  omega

end Resolve

def Job.withSource (j : Job) (source : String) : Job :=
  { j with
    analysis := { j.analysis with
      settings := { j.analysis.settings with source := .text source } } }

namespace Work

open Effect Survey FileTree

/-- A slash after the source directory changes neither whether the graph of the file system can be
built, nor the names of the scanned files, the files of each directory, the statistics, the edges,
or any node but one: the source directory, whose node has another name than the one from which the
edges to its files and directories lead. -/
theorem surveyFiles_slash (j : Job) (source : String) (view : GraphView)
    (habs : Path.isAbsolute source = true) (hend : source.toList.getLast? ≠ some '/')
    (hdir : j.session.disk.tree.pathIsDir j.session.disk.cwd source = true)
    (hsize : (source ++ "/").utf8ByteSize < maxPath)
    (hgraph : j.analysis.graphs.get? .fileSystem = some view) (hkind : view.kind = .fileSystem) :
    ((∃ j₁, surveyFiles (j.withSource source) = .ok () j₁) ↔
      ∃ j₂, surveyFiles (j.withSource (source ++ "/")) = .ok () j₂) ∧
    relativeName (source ++ "/") (source ++ "/") ≠ relativeName source source ∧
    ∀ j₁ j₂, surveyFiles (j.withSource source) = .ok () j₁ →
      surveyFiles (j.withSource (source ++ "/")) = .ok () j₂ →
      j₂.analysis.scannedNames = j₁.analysis.scannedNames ∧
      j₂.analysis.filesIn = j₁.analysis.filesIn ∧
      j₂.analysis.statistics = j₁.analysis.statistics ∧
      ∃ v₁ v₂, j₁.analysis.graphs.get? .fileSystem = some v₁ ∧
        j₂.analysis.graphs.get? .fileSystem = some v₂ ∧
        GraphView.Respelled (relativeName source source)
          (relativeName (source ++ "/") (source ++ "/")) v₁ v₂ := by
  have hne : source ≠ "" := by
    rintro rfl
    cases habs
  have hplain : ∀ j₁, surveyFiles (j.withSource source) = .ok () j₁ ↔ _ :=
    fun _ => surveyFiles_eq_ok_iff rfl hgraph
  have hslash : ∀ j₂, surveyFiles (j.withSource (source ++ "/")) = .ok () j₂ ↔ _ :=
    fun _ => surveyFiles_eq_ok_iff rfl hgraph
  have hwalk := walk_slash (f := j.analysis.settings.filters) hend hne hdir hsize
  have hstart :=
    Respelled.start (s := ⟨view, j.analysis.scannedNames, j.analysis.filesIn, 0, 0⟩) hkind
    (relativeName source source) (relativeName (source ++ "/") (source ++ "/"))
  refine ⟨⟨?_, ?_⟩, relativeName_slash_ne habs hend hne, ?_⟩
  · rintro ⟨j₁, hok⟩
    obtain ⟨s₁, hs₁, -⟩ := (hplain j₁).mp hok
    obtain ⟨s₂, hs₂, -⟩ := follows_visitAll _ _ hstart () s₁ hs₁
    exact ⟨_, (hslash _).mpr ⟨s₂, (hwalk _).trans hs₂, rfl⟩⟩
  · rintro ⟨j₂, hok⟩
    obtain ⟨s₂, hs₂, -⟩ := (hslash j₂).mp hok
    obtain ⟨s₁, hs₁, -⟩ := follows_visitAll _ _ hstart.symm () s₂ ((hwalk _).symm.trans hs₂)
    exact ⟨_, (hplain _).mpr ⟨s₁, hs₁, rfl⟩⟩
  · intro j₁ j₂ hok₁ hok₂
    obtain ⟨s₁, hs₁, rfl⟩ := (hplain j₁).mp hok₁
    obtain ⟨s₂, hs₂, rfl⟩ := (hslash j₂).mp hok₂
    obtain ⟨s₂', hs₂', hr⟩ := follows_visitAll _ _ hstart () s₁ hs₁
    obtain ⟨-, rfl⟩ := EStateM.Result.ok.inj (((hwalk _).symm.trans hs₂).symm.trans hs₂')
    refine ⟨hr.scannedNames, hr.filesIn, ?_, s₁.view, s₂.view, ?_, ?_, hr.view⟩
    · simp only [surveyed, hr.scanned, hr.skipped]
      rfl
    · exact (get?_insert ..).trans (if_pos hr.view.kinds.1)
    · exact (get?_insert ..).trans (if_pos hr.view.kinds.2)

end Work

namespace Sample

open Effect FileTree

def surveyed? (spelling : String) :
    Option (List String × List (String × Nat) × List (String × String)) := do
  let j ← final? Work.surveyFiles (job.withSource spelling)
  let v ← j.analysis.graphs.get? .fileSystem
  return (j.analysis.scannedNames, v.graph.nodes.entries.map fun e => (e.1, e.2.entries.length),
    v.graph.arcs)

theorem surveyed?_plain : surveyed? "/w/proj" = some (["proj/a.c", "proj/sub/b.h"],
    [("proj", 3), ("proj/sub", 3), ("proj/a.c", 4), ("proj/sub/b.h", 4)],
    [("proj", "proj/sub"), ("proj", "proj/a.c"), ("proj/sub", "proj/sub/b.h")]) := by
  decide +kernel

/-- Neither the names of files nor the edges tell the spellings apart. -/
theorem surveyFiles_slash_sample :
    ∃ j₂ v₂, Work.surveyFiles (job.withSource "/w/proj/") = .ok () j₂ ∧
    j₂.analysis.scannedNames = ["proj/a.c", "proj/sub/b.h"] ∧
    j₂.analysis.graphs.get? .fileSystem = some v₂ ∧
    v₂.graph.arcs = [("proj", "proj/sub"), ("proj", "proj/a.c"), ("proj/sub", "proj/sub/b.h")] ∧
    "proj/" ∈ v₂.graph.names := by
  obtain ⟨j₁, hj₁, hfound⟩ := Option.bind_eq_some_iff.mp surveyed?_plain
  obtain ⟨v₁, hv₁, hfound⟩ := Option.bind_eq_some_iff.mp hfound
  obtain ⟨hscanned, hgraph⟩ := Prod.mk.inj (Option.some.inj hfound)
  obtain ⟨hends, -, hsame⟩ :=
    Work.surveyFiles_slash job "/w/proj" (.new .fileSystem) (by decide) (by decide)
    (by decide +kernel) (by decide +kernel) rfl rfl
  obtain ⟨j₂, hj₂⟩ := hends.mp ⟨j₁, of_final? hj₁⟩
  obtain ⟨hnames, -, -, v₁', v₂, hv₁', hv₂, hr⟩ := hsame j₁ j₂ (of_final? hj₁) hj₂
  obtain rfl := Option.some.inj (hv₁.symm.trans hv₁')
  have hroot : relativeName ("/w/proj" ++ "/") ("/w/proj" ++ "/") = "proj/" := by decide +kernel
  exact ⟨j₂, v₂, hj₂, hnames.trans hscanned, hv₂, hr.graph.arcs.trans (Prod.mk.inj hgraph).2,
    hroot ▸ hr.graph.right⟩

/-- With the slash the source directory has a node without edges, and its edges a node without
attributes. -/
theorem surveyFiles_slash_bareNode : surveyed? "/w/proj/" = some (["proj/a.c", "proj/sub/b.h"],
    [("proj/", 3), ("proj/sub", 3), ("proj", 0), ("proj/a.c", 4), ("proj/sub/b.h", 4)],
    [("proj", "proj/sub"), ("proj", "proj/a.c"), ("proj/sub", "proj/sub/b.h")]) := by
  decide +kernel

end Sample

end CodeAtlas
