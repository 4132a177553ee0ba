import CodeAtlas.Proofs.ResultGraphs
import CodeAtlas.Proofs.Texts

/-!
# What is written on nodes

A node of the graph of dependencies is written once as a result and once for each import of it, and
the last writing counts: the display name of a result stays only if no result from there on imports
it (`Results.displayName_dependencyGraph`). The tags of a result come from its row, but a graph
takes only those whose words hold none of the parts that it bars (`Analysis.addRowsToGraphs_tags`).
-/

namespace CodeAtlas

open CodeAtlas.Digraph OrderedMap

theorem OrderedMap.get?_ofList_append {κ α : Type} [DecidableEq κ] (xs ys : List (κ × α)) (k : κ) :
    (ofList (xs ++ ys)).get? k = ((ofList ys).get? k).or ((ofList xs).get? k) := by
  rw [ofList, insertMany, List.foldl_append]
  exact get?_insertMany_or ..

/-! ### Display names -/

namespace ScanResult

/-- What a result writes on the node `n` of the graph of dependencies. -/
def writes (n : String) (r : ScanResult) : List (String × Value) :=
  (if r.uniqueName = n then [("absolute_name", .text r.absoluteName),
    ("display_name", .text r.displayName)] else []) ++
    r.imports.flatMap fun d => if d = n then [("display_name", .text d)] else []

variable {n : String} {rs : List ScanResult}

theorem attributesOf_importAdditions (n : String) (r : ScanResult) :
    (importAdditions r).flatMap (Digraph.Addition.attributesOf n) = r.writes n := by
  rw [importAdditions, linkAdditions, List.flatMap_cons, List.flatMap_assoc, writes]
  simp [Digraph.Addition.attributesOf]

theorem get?_writes_imports (n : String) (ds : List String) :
    (ofList (ds.flatMap fun d => if d = n then [("display_name", Value.text d)] else [])).get?
      "display_name" =
      if n ∈ ds then some (.text n) else none := by
  induction ds with
  | nil => rfl
  | cons d ds ih =>
    rw [List.flatMap_cons, get?_ofList_append, ih]
    by_cases hd : d = n
    · subst hd
      rw [if_pos rfl, if_pos List.mem_cons_self]
      split_ifs
      · rfl
      · rfl
    · rw [if_neg hd]
      simp only [List.mem_cons, or_iff_right fun h : n = d => hd h.symm]
      exact Option.or_none

theorem get?_writes (n : String) (r : ScanResult) : (ofList (r.writes n)).get? "display_name" =
    if n ∈ r.imports then some (.text n) else if r.uniqueName = n then some (.text r.displayName)
      else none := by
  rw [writes, get?_ofList_append, get?_writes_imports]
  split_ifs
  · rfl
  · rfl
  · rfl
  · rfl

/-- Results of other names write on a node just if they import it. -/
theorem get?_flatMap_writes (h : ∀ r ∈ rs, r.uniqueName ≠ n) :
    (ofList (rs.flatMap (writes n))).get? "display_name" =
    if ∃ r ∈ rs, n ∈ r.imports then some (.text n) else none := by
  induction rs with
  | nil => rfl
  | cons r rs ih =>
    obtain ⟨hr, hrs⟩ := List.forall_mem_cons.mp h
    rw [List.flatMap_cons, get?_ofList_append, ih hrs, get?_writes, if_neg hr]
    by_cases hn : n ∈ r.imports
    · by_cases hmem : ∃ r ∈ rs, n ∈ r.imports
      · simp [hn, hmem]
      · simp [hn, hmem]
    · simp [hn]

end ScanResult

namespace Results

theorem attribute?_dependencyGraph (rs : Results) (n k : String) :
    rs.dependencyGraph.attribute? n k =
    (ofList (rs.values.flatMap (ScanResult.writes n))).get? k := by
  have hnode : rs.dependencyGraph.nodes.getD n ∅ =
      .ofList (rs.values.flatMap (ScanResult.writes n)) := by
    rw [dependencyGraph_eq, getD_addAll, List.flatMap_assoc]
    simp only [ScanResult.attributesOf_importAdditions]
    rfl
  rw [← hnode]
  exact (Rows.get?_getD rs.dependencyGraph.nodes n k).symm

/-- A result keeps its display name just if neither it nor a later result imports it; else its own
name stands there, as it does for what is no result. -/
theorem displayName_dependencyGraph (rs : Results)
    (hnd : (rs.values.map ScanResult.uniqueName).Nodup) :
    (∀ before r after, rs.values = before ++ r :: after →
      rs.dependencyGraph.attribute? r.uniqueName "display_name" =
      some (.text (if ∃ s ∈ r :: after,
        r.uniqueName ∈ s.imports then r.uniqueName else r.displayName))) ∧
    ∀ n ∈ rs.dependencyGraph.names, n ∉ rs.values.map ScanResult.uniqueName →
      rs.dependencyGraph.attribute? n "display_name" = some (.text n) := by
  constructor
  · intro before r after hsplit
    rw [hsplit, List.map_append, List.map_cons, List.nodup_append, List.nodup_cons] at hnd
    have hafter : ∀ s ∈ after, s.uniqueName ≠ r.uniqueName :=
      fun s hs heq => hnd.2.1.1 (heq ▸ List.mem_map_of_mem hs)
    rw [attribute?_dependencyGraph, hsplit, List.flatMap_append, List.flatMap_cons,
      get?_ofList_append, get?_ofList_append, ScanResult.get?_flatMap_writes hafter,
      ScanResult.get?_writes, if_pos rfl]
    by_cases hlater : ∃ s ∈ after, r.uniqueName ∈ s.imports
    · simp [hlater]
    · by_cases hself : r.uniqueName ∈ r.imports
      · simp [hlater, hself]
      · simp [hlater, hself]
  · intro n hn hother
    obtain ⟨r, hr, hname | himport⟩ := (rs.ofResults_dependencyGraph.names n).mp hn
    · exact absurd (hname ▸ List.mem_map_of_mem hr) hother
    · have hnames : ∀ r ∈ rs.values, r.uniqueName ≠ n :=
        fun r hr heq => hother (heq ▸ List.mem_map_of_mem hr)
      rw [attribute?_dependencyGraph, ScanResult.get?_flatMap_writes hnames]
      exact if_pos ⟨r, hr, himport⟩

end Results

namespace Sample

/-- A header and a file that includes it, by what they are called on their nodes. -/
def headerFirst : List (String × ScanResult) :=
  [("p/a.h",
    { (part "p/a.h" [] (.file (.ofNames "" "p/a.h" "p/a.h" ""))).2 with displayName := "a.h" }),
    ("p/b.c",
      { (part "p/b.c" ["p/a.h"]
        (.file (.ofNames "" "p/b.c" "p/b.c" ""))).2 with displayName := "b.c" })]

/-- What the header is called depends on which of the two files comes first. -/
theorem displayName_dependencyGraph_header :
    (Results.dependencyGraph (.ofList headerFirst)).attribute? "p/a.h" "display_name" =
      some (.text "p/a.h") ∧
    (Results.dependencyGraph (.ofList headerFirst.reverse)).attribute? "p/a.h" "display_name" =
      some (.text "a.h") :=
  ⟨(Results.displayName_dependencyGraph (.ofList headerFirst) (by decide +kernel)).1 [] _ _ rfl,
    (Results.displayName_dependencyGraph (.ofList headerFirst.reverse) (by decide +kernel)).1
      [_] _ [] rfl⟩

theorem displayName_overwritten :
    ¬ ∀ rs : Results, (rs.values.map ScanResult.uniqueName).Nodup → ∀ r ∈ rs.values,
    rs.dependencyGraph.attribute? r.uniqueName "display_name" = some (.text r.displayName) := by
  intro h
  have hheader := h (.ofList headerFirst) (by decide +kernel) _ List.mem_cons_self
  have hname : (Results.dependencyGraph (.ofList headerFirst)).attribute? "p/a.h" "display_name" =
      some (.text "p/a.h") := rfl
  have htext := Value.text.inj (Option.some.inj (hname.symm.trans hheader))
  exact absurd htext (by decide)

end Sample

/-! ### Tags -/

/-- The parts of words that a graph does not take in the names of figures. -/
def GraphKind.barred : GraphKind → List String
  | .fileDependency => ["entity"]
  | .entityDependency => ["file", "inheritance", "complete"]
  | .entityInheritance => ["file", "dependency", "complete"]
  | .entityComplete => ["file", "inheritance", "dependency"]
  | .fileSystem | .fileChangeCoupling => []

def GraphKind.ofResults : List GraphKind := .fileDependency :: ofEntities

theorem Chars.infix_append_iff {c : Char} {cs front rest : List Char} (h : c ∉ front) :
    c :: cs <:+: front ++ rest ↔ c :: cs <:+: rest := by
  induction front with
  | nil => rfl
  | cons d front ih =>
    rw [List.mem_cons, not_or] at h
    rw [List.cons_append, List.infix_cons_iff, List.cons_prefix_cons, ih h.2]
    simp [h.1]

/-- No barred part starts with a letter of the mark for tags, so a tag is taken just if its word
is. -/
theorem GraphKind.admits_tag {kind : GraphKind} (h : kind ∈ ofResults) (word : String) :
    kind.admits ("tag_" ++ word) = true ↔ ∀ part ∈ kind.barred, ¬ part.toList <:+: word.toList := by
  have hadmits : kind.admits ("tag_" ++ word) =
      kind.barred.all fun part => !Text.contains ("tag_" ++ word) part := by
    simp only [ofResults, ofEntities, List.mem_cons, List.not_mem_nil, or_false] at h
    rcases h with rfl | rfl | rfl | rfl
    all_goals rfl
  have hstarts : ∀ kind ∈ ofResults, ∀ part ∈ kind.barred,
      (part.toList.head?.any (· ∉ "tag_".toList)) = true := by decide +kernel
  rw [hadmits, List.all_eq_true]
  refine forall₂_congr fun part hpart => ?_
  obtain ⟨c, hc, hnot⟩ := (Option.any_eq_true _ _).mp (hstarts kind h part hpart)
  obtain ⟨cs, hcs⟩ := List.head?_eq_some_iff.mp hc
  rw [Bool.not_eq_true', Text.contains, Chars.contains_eq_false_iff, String.toList_append, hcs,
    Chars.infix_append_iff (of_decide_eq_true hnot)]

namespace Analysis

variable {a a' : Analysis}

def resultsFor (a : Analysis) (kind : GraphKind) : Results :=
  if kind = .fileDependency then a.fileResults else a.entityResults

theorem Fills.exists_filled (h : Fills a a') {kind : GraphKind} (hkind : kind ∈ GraphKind.ofResults)
    (hexists : a.graphs.contains kind = true) :
    ∃ v, a'.graphs.get? kind = some v ∧ ∀ r ∈ (a.resultsFor kind).values,
      r.uniqueName ∈ v.graph.names := by
  obtain ⟨u, hu⟩ := Option.isSome_iff_exists.mp hexists
  have hdependency : ∀ (g : Digraph) (rs : Results), ∀ r ∈ rs.values,
      r.uniqueName ∈ (g.addDependencies rs).names := by
    intro g rs r hr
    rw [addDependencies_eq]
    exact mem_names_links.mpr (.inr ⟨r, hr, .inl rfl⟩)
  have hsimple : kind ≠ .entityComplete →
      a'.graphs.get? kind = some { u with graph := a.filling kind u.graph } := by
    intro hne
    rw [h.simple kind hne, hu]
    rfl
  simp only [GraphKind.ofResults, GraphKind.ofEntities, List.mem_cons, List.not_mem_nil,
    or_false] at hkind
  rcases hkind with rfl | rfl | rfl | rfl
  · exact ⟨_, hsimple (by decide), hdependency u.graph a.fileResults⟩
  · exact ⟨_, hsimple (by decide), hdependency u.graph a.entityResults⟩
  · refine ⟨_, hsimple (by decide), fun r hr => ?_⟩
    change r.uniqueName ∈ (u.graph.addInheritance a.entityResults).names
    rw [addInheritance_eq]
    exact mem_names_links.mpr (.inr ⟨r, hr, .inl rfl⟩)
  · obtain ⟨d, i, hd, -, hcomplete⟩ := h.complete u hu
    refine ⟨_, hcomplete, fun r hr => ?_⟩
    rw [h.simple _ (by decide)] at hd
    obtain ⟨w, -, rfl⟩ := Option.map_eq_some_iff.mp hd
    -- the nodes of the dependencies are added first
    obtain ⟨x, hx, hn⟩ := exists_mem_nodeAdditions.mpr (hdependency w.graph a.entityResults r hr)
    rw [compose_eq, mem_names_addAll]
    exact .inr ⟨x, List.mem_append_left _ (List.mem_append_left _ hx), hn⟩

/-- Figures get to the nodes of results, and of the tags just those whose words hold no part that
the graph bars; for the others a node stays as it was. -/
theorem addRowsToGraphs_tags (a : Analysis) (hkeyed : a.Keyed)
    (hparts : a.graphs.contains .entityComplete = true →
      a.graphs.contains .entityDependency = true ∧ a.graphs.contains .entityInheritance = true)
    (hdirectories : ∀ v, a.graphs.get? .fileSystem = some v → v.TellsDirectories) :
    ∃ b c, a.fillGraphs = (b, .ok ()) ∧ b.addRowsToGraphs = (c, .ok ()) ∧
      ∀ kind ∈ GraphKind.ofResults, a.graphs.contains kind = true → ∃ v w,
        b.graphs.get? kind = some v ∧ c.graphs.get? kind = some w ∧
        ∀ r ∈ (a.resultsFor kind).values,
          r.uniqueName ∈ w.graph.names ∧
          ∀ word score, a.rows.figure? r.uniqueName ("tag_" ++ word) = some score →
            w.graph.attribute? r.uniqueName ("metric_tag_" ++ word) =
              if ∀ part ∈ kind.barred, ¬ part.toList <:+: word.toList then some score
              else v.graph.attribute? r.uniqueName ("metric_tag_" ++ word) := by
  obtain ⟨b, hb⟩ := hkeyed.fillGraphs_ok hparts
  have hfills := hkeyed.fills hb
  have hadd := hfills.addRowsToGraphs_ok rfl hdirectories
  refine ⟨b, _, hb, Prod.ext rfl hadd, fun kind hkind hexists => ?_⟩
  have hsubject : ∀ kind ∈ GraphKind.ofResults, (FanInOut.subject? kind).isSome := by decide
  obtain ⟨v, hv, hmem⟩ := hfills.exists_filled hkind hexists
  obtain ⟨w, hw, hshape, hattribute⟩ :=
    hfills.keyed.exists_labelled (Prod.ext rfl hadd) (hsubject kind hkind) hv
  refine ⟨v, w, hv, hw, fun r hr => ⟨hshape.names ▸ hmem r hr, fun word score hscore => ?_⟩⟩
  have hrow : b.rows.figure? r.uniqueName ("tag_" ++ word) = some score := by
    rw [hfills.rest]; exact hscore
  have hname : "metric_tag_" ++ word = "metric_" ++ ("tag_" ++ word) := by
    rw [← String.append_assoc]; rfl
  rw [hname, hattribute _ (hmem r hr), hrow]
  by_cases hword : ∀ part ∈ kind.barred, ¬ part.toList <:+: word.toList
  · rw [if_pos ((GraphKind.admits_tag hkind word).mpr hword), if_pos hword]
    rfl
  · rw [if_neg (mt (GraphKind.admits_tag hkind word).mp hword), if_neg hword]
    rfl

end Analysis

namespace Sample

def tagged : Analysis where
  results := .ofList [part "p/F.java" [] (.file (.ofNames "" "p/F.java" "p/F.java" ""))]
  graphs := .ofList [(.fileDependency, .new .fileDependency)]
  rows := .ofList [("p/F.java", .ofList [("tag_list", .float 0.5), ("tag_identity", .float 0.25)])]

/-- The word for entities also occurs in other words, and these are lost. -/
theorem addRowsToGraphs_tags_identity :
    ∃ b c w, tagged.fillGraphs = (b, .ok ()) ∧ b.addRowsToGraphs = (c, .ok ()) ∧
    c.graphs.get? .fileDependency = some w ∧
    w.graph.attribute? "p/F.java" "metric_tag_list" = some (.float 0.5) ∧
    w.graph.attribute? "p/F.java" "metric_tag_identity" = none := by
  have hkeyed : tagged.Keyed := by
    intro kind v hv
    obtain ⟨rfl, rfl⟩ := Prod.mk.inj (List.mem_singleton.mp (get?_eq_some_iff.mp hv))
    rfl
  obtain ⟨b, c, hb, hc, htags⟩ :=
    Analysis.addRowsToGraphs_tags tagged hkeyed (by decide) fun v hv => by cases hv
  obtain ⟨v, w, hv, hw, hcarries⟩ := htags .fileDependency (by decide) (by decide)
  obtain ⟨-, hscores⟩ := hcarries _ List.mem_cons_self
  obtain rfl := (Prod.mk.inj hb).1
  obtain rfl := Option.some.inj hv
  exact ⟨_, c, w, hb, hc, hw, hscores "list" (.float 0.5) rfl, hscores "identity" (.float 0.25) rfl⟩

theorem tag_lost :
    ((tagged.fillGraphs.1.addRowsToGraphs.1.graphs.get? .fileDependency).bind fun w =>
    w.graph.attribute? "p/F.java" "metric_tag_identity") = none ∧
    tagged.rows.figure? "p/F.java" "tag_identity" = some (.float 0.25) := ⟨rfl, rfl⟩

end Sample

end CodeAtlas
