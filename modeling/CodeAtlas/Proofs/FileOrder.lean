import CodeAtlas.Proofs.Texts
import CodeAtlas.Proofs.Visits

/-!
# The order in which files are scanned

Where files have different names and none of them is one whose imports are linked to the names of
other files, it does not matter in which order they are scanned: the same results are filed under
the same names, and the statistics are the same (`Run.scanFiles_perm`).
-/

namespace CodeAtlas

open Effect OrderedMap

namespace Desk

variable {d d' : Desk} {ctx : ScanContext} {n : FileNode} {v : Visit} {f : FileNode → Option Visit}
  {vs : List Visit}

theorem Visits.uniqueName {ls : List Language} (h : Visits ctx ls n (some v))
    (hfree : ∀ source, ctx.settings.source = .text source →
      Text.contains n.name (Resolve.parentSlash source) = false) :
    v.result.uniqueName = n.name := by
  obtain ⟨-, -, -, source, content, package, imports, hsource, -, hr⟩ := h.exists_eq
  rw [hr]
  exact Text.replace_of_not_infix (Chars.contains_eq_false_iff.mp (hfree source hsource))

theorem nodup_names {nodes : List FileNode}
    (hf : ∀ n ∈ nodes, ∀ v, f n = some v → n.isDirectory = false ∧ v.result.uniqueName = n.name)
    (hnd : ((nodes.filter fun n => !n.isDirectory).map FileNode.name).Nodup) :
    (((nodes.filterMap f).map Visit.entry).map Prod.fst).Nodup := by
  refine hnd.sublist ?_
  clear hnd
  induction nodes with
  | nil => exact List.Sublist.refl _
  | cons n nodes ih =>
    obtain ⟨hn, hnodes⟩ := List.forall_mem_cons.mp hf
    have hrest := ih hnodes
    cases hv : f n with
    | none =>
      rw [List.filterMap_cons_none hv]
      exact hrest.trans ((List.sublist_cons_self n nodes).filter _ |>.map _)
    | some v =>
      obtain ⟨hfile, hname⟩ := hn v hv
      rw [List.filterMap_cons_some hv, List.filter_cons_of_pos (by simp [hfile]), List.map_cons,
        List.map_cons, List.map_cons]
      rw [show v.entry.1 = n.name from hname]
      exact hrest.cons_cons n.name

theorem results_foldl_take (hempty : ∀ s ∈ d.scanners, s.results = ∅)
    (hlanguages : ∀ v ∈ vs, v.language ∈ d.languages)
    (hnames : ((vs.map Visit.entry).map Prod.fst).Nodup) (key : String) :
    (vs.foldl take d).results.get? key =
      ((ofList (vs.map Visit.entry)).get? key).or (d.results.get? key) := by
  induction vs using List.reverseRecOn with
  | nil => rfl
  | append_singleton vs v ih =>
    have hsub : ((vs.map Visit.entry).map Prod.fst).Nodup :=
      hnames.sublist ((List.sublist_append_left vs [v]).map _ |>.map _)
    have hbefore := ih (fun w hw => hlanguages w (List.mem_append_left _ hw)) hsub
    have hlanguage := hlanguages v (List.mem_append_right _ (List.mem_singleton_self v))
    obtain ⟨s, hs, hs', hfind⟩ := exists_find? ((languages_foldl_take vs).symm ▸ hlanguage)
    have hmade : (v.file s).results =
        ofList (((vs ++ [v]).filter fun w => w.language = v.language).map Visit.entry) := by
      rw [Visit.file, if_pos hs', List.filter_append, List.filter_cons_of_pos (by simp),
        List.filter_nil, List.map_append, List.map_singleton, Visit.entry, ofList_concat, ← hs',
        ← results_of_mem_scanners hempty hs]
    have htake : ((vs ++ [v]).foldl take d).results = (vs.foldl take d).results.update
        (ofList (((vs ++ [v]).filter fun w => w.language = v.language).map Visit.entry)) := by
      rw [List.foldl_append, List.foldl_cons, List.foldl_nil, take, hfind, ← hmade]
    rw [htake, get?_update, hbefore, ← Option.or_assoc]
    congr 1
    refine get?_ofList_or (List.filter_sublist.map _)
      ((List.sublist_append_left vs [v]).map _) ?_ hnames key
    intro e he
    rw [List.map_append] at he
    rcases List.mem_append.mp he with he | he
    · exact .inr he
    · obtain rfl := List.mem_singleton.mp he
      exact .inl (List.mem_map_of_mem (by simp))

/-! ### Linking changes nothing -/

theorem linkWith_of_ne_java {s : Scanner} (hnd : d.languages.Nodup) (hs : s ∈ d.scanners)
    (hjava : s.language ≠ .java) (hsame : ∀ key r r', s.results.get? key = some r →
      d.results.get? key = some r' → r'.imports = r.imports) :
    linkWith ctx s d = .ok () d := by
  have hlink : scan s (Scanner.linkFiles ctx) d = .ok () d := by
    refine scan_eq_ok_iff.mpr ⟨⟨s, d.statistics⟩, ?_, (put_self hnd hs).symm⟩
    rw [Scanner.linkFiles, get_bind, if_neg hjava]
    rfl
  obtain ⟨s', hs', hlanguage, hfind⟩ :=
    exists_find? (List.mem_map_of_mem hs : s.language ∈ d.languages)
  obtain rfl := eq_of_language hnd hs' hs hlanguage
  have htake : takeImports s'.results d = .ok () d := by
    refine congrArg (fun rs => EStateM.Result.ok () { d with results := rs })
      (mapValues_eq_self fun key r hr => ?_)
    cases hget : s'.results.get? key with
    | none => rfl
    | some r' =>
      dsimp only
      rw [← hsame key r' r hget hr]
  rw [linkWith, bind_of_ok hlink, useResults_eq hfind, htake]

theorem eachBusy_of_steady {f : Scanner → EStateM Fault Desk Unit}
    (h : ∀ s ∈ d.scanners, s.results.isEmpty = false → f s d = .ok () d) (hnd : d.languages.Nodup) :
    eachBusy f d = .ok () d := by
  rw [eachBusy, get_bind]
  refine forM_of_steady fun language hmem => ?_
  obtain ⟨s, hs, rfl⟩ := List.mem_map.mp hmem
  obtain ⟨hs, hbusy⟩ := List.mem_filter.mp hs
  obtain ⟨s', hs', hlanguage, hfind⟩ :=
    exists_find? (List.mem_map_of_mem hs : s.language ∈ d.languages)
  obtain rfl := eq_of_language hnd hs' hs hlanguage
  rw [bind_of_ok (scanner?_eq _), hfind]
  exact h s' hs (by simpa using hbusy)

def started (ctx : ScanContext) (d : Desk) : Desk :=
  { d with log := d.log.write .analysis .start ("starting file result creation in " ++
    ctx.settings.name.display) }

def counted (d : Desk) : Desk :=
  d.withStatistics
    ((d.statistics.add .extractedFileResults (.figure (.int d.results.files.size))).add
    .fileResultsCreationRuntime (.duration ⟨0⟩))

theorem linkAll_foldl_take (ctx : ScanContext) (hnd : d.languages.Nodup)
    (hempty : ∀ s ∈ d.scanners, s.results = ∅) (hlanguages : ∀ v ∈ vs, v.language ∈ d.languages)
    (hnames : ((vs.map Visit.entry).map Prod.fst).Nodup) (hjava : ∀ v ∈ vs, v.language ≠ .java)
    (st : Statistics) :
    eachBusy (linkWith ctx) ((vs.foldl take d).withStatistics st) =
      .ok () ((vs.foldl take d).withStatistics st) := by
  have hnd' : (vs.foldl take d).languages.Nodup := (languages_foldl_take vs).symm ▸ hnd
  refine eachBusy_of_steady (fun s hs hbusy => ?_) hnd'
  have hresults := results_of_mem_scanners hempty hs
  refine linkWith_of_ne_java hnd' hs (fun hs' => ?_) fun key r r' hr hr' => ?_
  · have hnone : (vs.filter fun v => v.language = s.language) = [] :=
      List.filter_eq_nil_iff.mpr fun v hv => by simpa [hs'] using hjava v hv
    rw [hresults, hnone] at hbusy
    cases hbusy
  · rw [hresults, get?_ofList_eq_some_iff
      (hnames.sublist (List.filter_sublist.map _ |>.map _))] at hr
    have hfiled : (ofList (vs.map Visit.entry)).get? key = some r :=
      (get?_ofList_eq_some_iff hnames).mpr ((List.filter_sublist.map _).subset hr)
    have hboth : (vs.foldl take d).results.get? key = some r := by
      rw [results_foldl_take hempty hlanguages hnames, hfiled]
      rfl
    rw [Option.some.inj (hr'.symm.trans hboth)]

theorem scanFiles_eq_ok_iff {view : GraphView} (hnd : d.languages.Nodup)
    (hempty : ∀ s ∈ d.scanners, s.results = ∅)
    (hf : ∀ n ∈ view.fileNodes.values, Visits ctx d.languages n (f n))
    (hnames : (((view.fileNodes.values.filterMap f).map Visit.entry).map Prod.fst).Nodup)
    (hjava : ∀ v ∈ view.fileNodes.values.filterMap f, v.language ≠ .java) :
    scanFiles ctx (some view) d = .ok () d' ↔
      ∃ st, ((view.fileNodes.values.filterMap f).flatMap Visit.mentions).forM Tallied.tally
        d.statistics = .ok () st ∧
        d' = (((view.fileNodes.values.filterMap f).foldl take (started ctx d)).withStatistics
          st).counted := by
  have hlanguages : ∀ v ∈ view.fileNodes.values.filterMap f, v.language ∈ d.languages := by
    intro v hv
    obtain ⟨n, hn, hv⟩ := List.mem_filterMap.mp hv
    exact (hv ▸ hf n hn).exists_eq.2.1
  have hstart : scanFiles ctx (some view) d = (do
      view.fileNodes.values.forM (scanNode ctx)
      eachBusy (linkWith ctx)
      countFiles) (started ctx d) := rfl
  have hlink :=
    fun st => linkAll_foldl_take ctx (d := started ctx d) hnd hempty hlanguages hnames hjava st
  rw [hstart, bind_eq_ok]
  constructor
  · rintro ⟨⟨⟩, d₁, hnodes, hrest⟩
    obtain ⟨st, hst, rfl⟩ := (forM_scanNode_eq_ok_iff (d := started ctx d) hnd hf).mp hnodes
    rw [bind_of_ok (hlink st)] at hrest
    exact ⟨st, hst, (EStateM.Result.ok.inj hrest).2.symm⟩
  · rintro ⟨st, hst, rfl⟩
    exact ⟨(), _, (forM_scanNode_eq_ok_iff (d := started ctx d) hnd hf).mpr ⟨st, hst, rfl⟩,
      bind_of_ok (hlink st)⟩

end Desk

theorem Language.eq_of_ofExtension?_java {ext : String} {permitted : Value}
    (h : ofExtension? ext permitted = .ok (some .java)) : ext = ".java" := by
  cases hkind : FileKind.ofExtension? ext with
  | none => simp [ofExtension?, hkind] at h
  | some kind =>
    cases kind with
    | java =>
      have hext :=
        List.find?_some (show FileKind.all.find? (fun k => k.extension == ext) =
          some .java from hkind)
      exact (beq_iff_eq.mp hext).symm
    | cHeader =>
      cases htruthy : permitted.truthy with
      | false => simp [ofExtension?, hkind, htruthy] at h
      | true =>
        simp only [ofExtension?, hkind, htruthy, if_true] at h
        revert h
        rcases permitted.hasText "objc" with e | _ | _ <;>
          rcases permitted.hasText "c" with e | _ | _ <;>
          rcases permitted.hasText "cpp" with e | _ | _ <;> intro h <;> cases h
    | _ => simp [ofExtension?, hkind] at h

namespace Desk

variable {d d' : Desk} {ctx : ScanContext}

/-- Files with different names may be scanned in any order. -/
theorem scanFiles_nodes_perm {view : GraphView} (view' : GraphView) (hnd : d.languages.Nodup)
    (hempty : ∀ s ∈ d.scanners, s.results = ∅)
    (hperm : view'.fileNodes.values.Perm view.fileNodes.values)
    (hdistinct : ((view.fileNodes.values.filter fun n => !n.isDirectory).map FileNode.name).Nodup)
    (hfree : ∀ n ∈ view.fileNodes.values, n.isDirectory = false →
      ∀ source, ctx.settings.source = .text source →
      Text.contains n.name (Resolve.parentSlash source) = false)
    (hjava : ∀ n ∈ view.fileNodes.values, n.isDirectory = false → Path.suffix n.name ≠ ".java")
    (hok : scanFiles ctx (some view) d = .ok () d') :
    ∃ d'', scanFiles ctx (some view') d = .ok () d'' ∧ d'.results.Alike d''.results ∧
      d'.statistics.entries.Alike d''.statistics.entries := by
  obtain ⟨⟨⟩, d₁, hnodes, -⟩ := bind_eq_ok.mp (show (do
    view.fileNodes.values.forM (scanNode ctx)
    eachBusy (linkWith ctx)
    countFiles) (started ctx d) = .ok () d' from hok)
  obtain ⟨f, hf⟩ := exists_visits_of_forM (d := started ctx d) hnd hnodes
  have hread : ∀ n ∈ view.fileNodes.values, ∀ v, f n = some v → n.isDirectory = false ∧
      v.result.uniqueName = n.name := by
    intro n hn v hv
    have hvisit := hv ▸ hf n hn
    have hfile := hvisit.exists_eq.1
    exact ⟨hfile, hvisit.uniqueName (hfree n hn hfile)⟩
  have hnames := nodup_names hread hdistinct
  have hother : ∀ v ∈ view.fileNodes.values.filterMap f, v.language ≠ .java := by
    rintro v hv hlanguage
    obtain ⟨n, hn, hv⟩ := List.mem_filterMap.mp hv
    obtain ⟨hfile, -, hchoice, -⟩ := (hv ▸ hf n hn).exists_eq
    exact hjava n hn hfile (Language.eq_of_ofExtension?_java (hlanguage ▸ hchoice))
  have hvisits := hperm.filterMap f
  have hnames' : (((view'.fileNodes.values.filterMap f).map Visit.entry).map Prod.fst).Nodup :=
    ((hvisits.map _).map _).nodup_iff.mpr hnames
  obtain ⟨st, hst, rfl⟩ := (scanFiles_eq_ok_iff hnd hempty hf hnames hother).mp hok
  obtain ⟨st', hst', halike⟩ := Tallied.forM_tally_perm (hvisits.symm.flatMap_right _) (.refl _) hst
  have hfiles : ∀ n ∈ view'.fileNodes.values, Visits ctx d.languages n (f n) :=
    fun n hn => hf n (hperm.subset hn)
  have hother' : ∀ v ∈ view'.fileNodes.values.filterMap f, v.language ≠ .java :=
    fun v hv => hother v (hvisits.subset hv)
  refine ⟨_, (scanFiles_eq_ok_iff hnd hempty hfiles hnames' hother').mpr ⟨st', hst', rfl⟩, ?_⟩
  have hlanguages : ∀ v ∈ view.fileNodes.values.filterMap f, v.language ∈ d.languages := by
    intro v hv
    obtain ⟨n, hn, hv⟩ := List.mem_filterMap.mp hv
    exact (hv ▸ hf n hn).exists_eq.2.1
  have hresults : ((view.fileNodes.values.filterMap f).foldl take (started ctx d)).results.Alike
      ((view'.fileNodes.values.filterMap f).foldl take (started ctx d)).results := by
    intro key
    rw [results_foldl_take (d := started ctx d) hempty
      (fun v hv => hlanguages v (hvisits.subset hv)) hnames',
      results_foldl_take (d := started ctx d) hempty hlanguages hnames,
      OrderedMap.Alike.of_perm hnames (hvisits.symm.map _) key]
  refine ⟨hresults, ?_⟩
  have hsize := (hresults.filter fun _ r => r.isFile).size_eq
  simp only [counted, withStatistics, Statistics.add, Statistics.addNamed, Results.files, hsize]
  exact (halike.insertNew _ _).insertNew _ _

end Desk

namespace Run

variable {p : Program} {i : Nat} {a : Analysis}

def relisted (p : Program) (i : Nat) (a : Analysis) (view : GraphView)
    (nodes : OrderedMap String FileNode) : Program :=
  keep p i
    ⟨p.session, { a with graphs := a.graphs.insert .fileSystem { view with fileNodes := nodes } }⟩

/-- If the files of a project, which have different names and are not in the language whose imports
are linked, are scanned in one order, then they can be scanned in any order, and the results and the
statistics are the same. -/
theorem scanFiles_perm (i : Nat) (p p' : Program) (a : Analysis) (view : GraphView)
    (nodes : OrderedMap String FileNode) (ha : p.configuration.analyses[i]? = some a)
    (hview : a.graphs.get? .fileSystem = some view)
    (hscanners : (p.scanners.map Scanner.language).Nodup) (hempty : ∀ s ∈ p.scanners, s.results = ∅)
    (hperm : nodes.values.Perm view.fileNodes.values)
    (hdistinct : ((view.fileNodes.values.filter fun n => !n.isDirectory).map FileNode.name).Nodup)
    (hfree : ∀ n ∈ view.fileNodes.values, n.isDirectory = false →
      ∀ source, a.settings.source = .text source →
      Text.contains n.name (Resolve.parentSlash source) = false)
    (hjava : ∀ n ∈ view.fileNodes.values, n.isDirectory = false → Path.suffix n.name ≠ ".java")
    (hok : scanFiles i p = .ok () p') :
    ∃ q' a' b', scanFiles i (relisted p i a view nodes) = .ok () q' ∧
      p'.configuration.analyses[i]? = some a' ∧
      q'.configuration.analyses[i]? = some b' ∧
      (∀ name, b'.results.get? name = a'.results.get? name) ∧
      ∀ key, b'.statistics.entries.get? key = a'.statistics.entries.get? key := by
  have hi : i < p.configuration.analyses.length := (List.getElem?_eq_some_iff.mp ha).1
  obtain ⟨d, hd, rfl⟩ := of_worksOn ha (worksOn_scanFiles hi) hok
  rw [hview] at hd
  let view' : GraphView := { view with fileNodes := nodes }
  obtain ⟨d', hd', hresults, hstatistics⟩ :=
    Desk.scanFiles_nodes_perm view' (d := deskOf p a) hscanners hempty hperm
    hdistinct hfree hjava hd
  let b : Analysis := { a with graphs := a.graphs.insert .fileSystem view' }
  have hb : (relisted p i a view nodes).configuration.analyses[i]? = some b := getElem?_keep ha _
  have hi' : i < (relisted p i a view nodes).configuration.analyses.length :=
    (List.getElem?_eq_some_iff.mp hb).1
  have hview' : b.graphs.get? .fileSystem = some view' := by
    rw [get?_insert, if_pos rfl]
  have hscan := eq_of_worksOn hb (worksOn_scanFiles hi')
  rw [hview', show Desk.scanFiles (contextOf (relisted p i a view nodes) b) (some view')
    (deskOf (relisted p i a view nodes) b) = .ok () d' from hd'] at hscan
  exact ⟨_, _, _, hscan, getElem?_atDesk hi d, getElem?_atDesk hi' d', hresults, hstatistics⟩

end Run

namespace Sample

def listing : List (String × FileNode) :=
  [("p/a.py", ⟨false, "p/a.py", some "from . import b, c\nimport os\nx = 1\n"⟩),
    ("p/b.c", ⟨false, "p/b.c", some "#include \"x.h\"\n#include"⟩)]

def listingView : GraphView := { GraphView.new .fileSystem with fileNodes := .ofList listing }

def listingAnalysis : Analysis where
  settings := { source := .text "/w/p" }
  graphs := .ofList [(.fileSystem, listingView)]

def listed : Program where
  session := { disk := { tree := .dir [], cwd := [] }, home := "/", now := 0 }
  configuration.analyses := [listingAnalysis]

/-- With the last file first, the first file still has the same imports, and as many hits are
counted. -/
theorem scanFiles_perm_listed :
    ∃ q' a' b' r, (final? (Run.scanFiles 0) listed).bind (·.configuration.analyses[0]?) = some a' ∧
    Run.scanFiles 0 (Run.relisted listed 0 listingAnalysis listingView (.ofList listing.reverse)) =
      .ok () q' ∧
    q'.configuration.analyses[0]? = some b' ∧ b'.results.get? "p/a.py" = some r ∧
    r.imports = ["p/b.py", "p/c.py", "os"] ∧
    b'.statistics.entries.get? "parsing_hits" = a'.statistics.entries.get? "parsing_hits" := by
  have hends : ((final? (Run.scanFiles 0) listed).bind fun p' => p'.configuration.analyses[0]?).bind
      (fun a => (a.results.get? "p/a.py").map ScanResult.imports) =
        some ["p/b.py", "p/c.py", "os"] := by
    decide +kernel
  obtain ⟨a', ha', hr⟩ := Option.bind_eq_some_iff.mp hends
  obtain ⟨r, hr, himports⟩ := Option.map_eq_some_iff.mp hr
  obtain ⟨p', hp', hp'a⟩ := Option.bind_eq_some_iff.mp ha'
  have hempty : ∀ s ∈ listed.scanners, s.results = ∅ := by
    intro s hs
    obtain ⟨language, -, rfl⟩ := List.mem_map.mp hs
    rfl
  have hperm : (ofList listing.reverse).values.Perm listingView.fileNodes.values :=
    List.Perm.swap _ _ []
  have hplain : ∀ n ∈ listingView.fileNodes.values, Text.contains n.name "/w/" = false ∧
      Path.suffix n.name ≠ ".java" := by
    decide +kernel
  have hfree : ∀ n ∈ listingView.fileNodes.values, n.isDirectory = false → ∀ source,
      listingAnalysis.settings.source = .text source →
        Text.contains n.name (Resolve.parentSlash source) = false := by
    rintro n hn - source hsource
    obtain rfl := Value.text.inj hsource
    exact (hplain n hn).1
  obtain ⟨q', a'', b', hq', ha'', hb', hresults, hstatistics⟩ :=
    Run.scanFiles_perm 0 listed p' listingAnalysis listingView
    (.ofList listing.reverse) rfl rfl (by decide) hempty hperm (by decide +kernel) hfree
      (fun n hn _ => (hplain n hn).2)
    (of_final? hp')
  obtain rfl := Option.some.inj (hp'a.symm.trans ha'')
  exact ⟨q', a', b', r, ha', hq', hb', (hresults _).trans hr, himports, hstatistics _⟩

end Sample

end CodeAtlas
