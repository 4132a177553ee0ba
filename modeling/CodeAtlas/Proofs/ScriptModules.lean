import CodeAtlas.Proofs.ModulePaths

/-!
# Modules of scripts

The result of a script records the directory in which it lies, both on the disk and in the project.
Module names are resolved from there; so a relative module name becomes the name of the node of a
scanned file exactly if it follows a way to that file (`Run.scanFiles_resolveScript`). Two dots that
lead to the source directory do not (`Sample.resolveImport_sourceIndex`).
-/

namespace CodeAtlas

open FileTree Resolve Survey

namespace Survey

variable {source name : String} {ns : List String}

theorem parent_nodeName (h : Path.Normal source) (hns : ∀ n ∈ ns ++ [name], PathName n)
    (honly : Text.OnlyAtStart (parentSlash source) (Path.descend source (ns ++ [name]))) :
    Path.parent (nodeName source (ns ++ [name])) = nodeName source ns := by
  have hns' : ∀ n ∈ ns, PathName n := fun n hn => hns n (List.mem_append_left _ hn)
  have hname := hns name (by simp)
  have hdir : Path.descend source (ns ++ [name]) = Path.descend source ns ++ ("/" ++ name) := by
    rw [Path.descend_concat, (h.descend hns').join hname, String.append_assoc]
  have honly' : Text.OnlyAtStart (parentSlash source) (Path.descend source ns) :=
    (hdir ▸ honly).of_append
  obtain ⟨parents, base, hp, hb, rfl⟩ := h.exists_base
  by_cases hroot : parents = []
  · have hparent : Path.parent (pathOf (parents ++ [base])) = "/" := by
      rw [Path.parent_pathOf hp hb, hroot]
      rfl
    rw [nodeName_of_root h hparent hns honly, nodeName_of_root h hparent hns' honly',
      Path.descend_concat, (h.descend hns').parent_join hname]
  · have hsegs := segments_nodeName hp hb hns rfl honly
    have hjoin := nodeName_eq_join hp hb hroot hns honly
    -- the name does not start with a slash
    have hstart : Path.root (nodeName (pathOf (parents ++ [base])) (ns ++ [name])).toList = [] := by
      obtain ⟨c, cs, hc⟩ := List.exists_cons_of_ne_nil hb.toList_ne_nil
      have hslash : c ≠ '/' := fun heq => hb.noSlash (hc ▸ heq ▸ List.mem_cons_self)
      rw [hjoin, Text.join, String.toList_ofList, List.map_cons, Chars.join_cons _ _ (by simp), hc]
      simp [Path.root, hslash]
    rw [nodeName_eq_join hp hb hroot hns' honly', Path.parent, Path.parentChars, hstart, hsegs,
      ← List.cons_append, List.map_append, List.map_singleton, List.dropLast_concat]
    rfl

end Survey

namespace Scanner

theorem resolveImport_eq_completeModule {ctx : ScanContext} {r : ScanResult} {source : String}
    {details : FileDetails} (hsource : ctx.settings.source = .text source)
    (haliases : ctx.settings.resolution.aliasesActive = false)
    (hdetails : r.details = .file details) (d : String) : resolveImport .javascript ctx r d =
      .ok (completeModule ctx.disk
        (moduleBase ctx.disk d details.absoluteDir details.relativeDir source) source) := by
  have hpath : ctx.settings.sourcePath = .ok source := by rw [Settings.sourcePath, hsource]
  have hplace : placeOf source r = ⟨source, details.absoluteDir, details.relativeDir⟩ := by
    rw [placeOf, ScanResult.file?, hdetails]
    rfl
  rw [resolveImport, hpath]
  change Imports.resolveScript ctx (placeOf source r) d = _
  rw [hplace, Imports.resolveScript, script, haliases]
  rfl

end Scanner

namespace Run

/-- After the files of a regular project without aliases have been scanned, the scanner of scripts
has a result of every file of the graph that it takes. A relative module name without an at sign
that leads from there to a scanned file is resolved to the name of that file's node if it follows
the way to the file, and only then, unless the source directory has the module name with the
extension for its own name. -/
theorem scanFiles_resolveScript (i : Nat) (p p' : Program) (a : Analysis) (source : String)
    (ha : p.configuration.analyses[i]? = some a) (hsource : a.settings.source = .text source)
    (hgraph : a.graphs.get? .fileSystem = none ∨
      a.graphs.get? .fileSystem = some (.new .fileSystem))
    (h : Regular p.session.disk a.settings.filters source)
    (haliases : a.settings.resolution.aliasesActive = false)
    (hok : (do onAnalysis i Work.buildFileSystem; scanFiles i : Run Unit) p = .ok () p') :
    ∃ a' view, p'.configuration.analyses[i]? = some a' ∧ a'.graphs.get? .fileSystem = some view ∧
      a'.settings = a.settings ∧ p'.session.disk = p.session.disk ∧
      ∀ n ∈ view.fileNodes.values, ∀ s ∈ p'.scanners, n.isDirectory = false →
        Language.ofExtension? (Path.suffix n.name) a.settings.filters.languages =
          .ok (some s.language) →
        s.language = .javascript →
        ∃ r ns base, s.results.get? n.name = some r ∧ r.isFile = true ∧
          r.language = some .javascript ∧
          r.uniqueName = n.name ∧ Scans p.session.disk a.settings.filters source ns base ∧
          n.name = nodeName source (ns ++ [base]) ∧
          ∀ ctx d way, ctx.settings = a'.settings → ctx.disk = p'.session.disk →
            Text.contains d "@" = false → IsRelative d →
            Leads p.session.disk a.settings.filters source
              (includePath (Path.descend source ns) d) way →
            Marked view.graph (projectName source
              (includePath (Path.descend source ns) d ++ way.ending)) false ∧
            ∃ e, Scanner.resolveImport .javascript ctx r d = .ok e ∧
              (FollowsWay p.session.disk source (Path.descend source ns) d way →
                e = projectName source (includePath (Path.descend source ns) d ++ way.ending)) ∧
              (¬ FollowsWay p.session.disk source (Path.descend source ns) d way →
                Path.name source ≠ d ++ ".js" →
                e ≠ projectName source (includePath (Path.descend source ns) d ++ way.ending)) := by
  obtain ⟨hlen, graphs, view, hview, hshows, hscanning⟩ :=
    exists_scanning (fun _ => True) (fun _ _ _ => trivial) ha hsource
    hgraph (fun _ _ _ _ _ => trivial) (fun _ _ _ => trivial) h hok
  obtain ⟨a', ha', hsettings, rfl, -⟩ := hscanning.analysis
  refine ⟨a', view, ha', hview, hsettings, hscanning.disk,
    fun n hn s hs hfile hchosen hlanguage => ?_⟩
  have hlanguages : p'.scanners.map Scanner.language = p.scanners.map Scanner.language :=
    hscanning.languages
  have havailable : s.language ∈ p.scanners.map Scanner.language :=
    hlanguages ▸ List.mem_map_of_mem hs
  obtain ⟨m, r, hname, hget, hd⟩ := (hscanning.scanners s hs).2 n hn ⟨hfile, hchosen, havailable⟩
  obtain ⟨place, hnode⟩ := (hshows.mem_values n).mp hn
  have hplace := h.of_nodeAt hnode
  have hnodeName := hnode.name_eq
  cases hnode with
  | root => cases hfile
  | directory _ => cases hfile
  | @file ns base hscans =>
    obtain ⟨content, -, hdetails⟩ := hd.details
    rw [hname, hnodeName] at hdetails
    have habsolute :=
      absoluteDir_ofNames h.normal hplace.1 hplace.2 (nodeName source (ns ++ [base])) content
    have hrelative := parent_nodeName h.normal hplace.1 hplace.2
    refine ⟨r, ns, base, hget, hd.isFile, hlanguage ▸ hd.language, hd.uniqueName.trans hname,
      hscans, hnodeName, ?_⟩
    intro ctx d way hctx hdisk hat hrel hleads
    have hdisk' : ctx.disk = p.session.disk := hdisk.trans hscanning.disk
    have hsource' : ctx.settings.source = .text source := by rw [hctx, hsettings, hsource]
    have haliases' : ctx.settings.resolution.aliasesActive = false := by
      rw [hctx, hsettings, haliases]
    have hresolve := Scanner.resolveImport_eq_completeModule hsource' haliases' hdetails d
    rw [habsolute, hdisk'] at hresolve
    change _ = Except.ok (completeModule _
      (moduleBase _ d _ (Path.parent (nodeName source (ns ++ [base]))) source) source)
      at hresolve
    rw [hrelative] at hresolve
    obtain ⟨ms, last, hscans', hgoal⟩ := hleads.scanned
    have hmarked := hshows.marked (.file hscans')
    rw [nodeName, ← hgoal] at hmarked
    exact ⟨hmarked, _, hresolve, h.completeModule_moduleBase hlen hscans hat hrel hleads⟩

end Run

namespace Sample

def scriptDisk : Disk where
  tree := .dir [("w", .dir [("proj", .dir
    [("index.js", .file ⟨#[]⟩), ("lib", .dir [("a.js", .file ⟨#[120]⟩), ("b.js", .file ⟨#[]⟩)])])])]
  cwd := []

def scriptFilters : Filters where
  languages := .ofStrings ["javascript"]
  extensions := .ofStrings [".js"]

def scriptAnalysis : Analysis where
  settings := { source := .text "/w/proj", filters := scriptFilters }
  graphs := .ofList [(.fileSystem, .new .fileSystem)]

def scriptProgram : Program where
  session := { disk := scriptDisk, home := "/", now := 0 }
  configuration := { analyses := [scriptAnalysis] }

theorem plain_scriptDisk : scriptDisk.tree.Plain := by
  refine .dir _ (by decide) (by decide) (List.forall_mem_singleton.mpr ?_)
  refine .dir _ (by decide) (by decide) (List.forall_mem_singleton.mpr ?_)
  refine .dir _ (by decide) (by decide) ?_
  simp only [List.forall_mem_cons]
  exact ⟨.file _, .dir _ (by decide) (by decide) (by simp [Plain.file]), by simp⟩

theorem regular_scripts : Regular scriptDisk scriptFilters "/w/proj" :=
  Tidy.regular ⟨⟨["w", "proj"], by decide, by decide, by decide⟩, plain_scriptDisk⟩
    (by decide +kernel)

theorem scans_index : Scans scriptDisk scriptFilters "/w/proj" [] "index.js" :=
  ⟨⟨⟨_, _, rfl, rfl⟩, by decide, by decide⟩, by decide +kernel⟩

theorem scans_script : Scans scriptDisk scriptFilters "/w/proj" ["lib"] "a.js" :=
  ⟨⟨⟨_, _, rfl, rfl⟩, by decide +kernel, by decide⟩, by decide +kernel⟩

theorem scans_otherScript : Scans scriptDisk scriptFilters "/w/proj" ["lib"] "b.js" :=
  ⟨⟨⟨_, _, rfl, rfl⟩, by decide +kernel, by decide⟩, by decide +kernel⟩

def scriptsScanned? : Option Program :=
  match (do Run.onAnalysis 0 Work.buildFileSystem; Run.scanFiles 0 : Run Unit) scriptProgram with
  | .ok _ p' => some p'
  | .error _ _ => none

theorem of_scriptsScanned? {p' : Program} (h : scriptsScanned? = some p') :
    (do Run.onAnalysis 0 Work.buildFileSystem; Run.scanFiles 0 : Run Unit) scriptProgram =
      .ok () p' := by
  rw [scriptsScanned?] at h
  split at h
  · next hok =>
    rw [← Option.some.inj h]
    exact hok
  · cases h

def scriptContext : ScanContext := ⟨0, scriptAnalysis.settings, scriptDisk, []⟩

theorem exists_scriptNode : ∃ p' a' view n s,
    (do Run.onAnalysis 0 Work.buildFileSystem; Run.scanFiles 0 : Run Unit) scriptProgram =
      .ok () p' ∧
      p'.configuration.analyses[0]? = some a' ∧ a'.graphs.get? .fileSystem = some view ∧
      n ∈ view.fileNodes.values ∧
      n.name = "proj/lib/a.js" ∧ n.isDirectory = false ∧ s ∈ p'.scanners ∧
      s.language = .javascript := by
  have heval : (scriptsScanned?.bind fun p' => p'.configuration.analyses[0]?.bind fun a' =>
      (a'.graphs.get? .fileSystem).bind fun view =>
        (view.fileNodes.values.find? fun n => n.name == "proj/lib/a.js" && !n.isDirectory).bind
          fun _ =>
          p'.scanners.find? fun s => s.language = .javascript).isSome = true := by decide +kernel
  obtain ⟨s, heval⟩ := Option.isSome_iff_exists.mp heval
  obtain ⟨p', hp', heval⟩ := Option.bind_eq_some_iff.mp heval
  obtain ⟨a', ha', heval⟩ := Option.bind_eq_some_iff.mp heval
  obtain ⟨view, hview, heval⟩ := Option.bind_eq_some_iff.mp heval
  obtain ⟨n, hn, hs⟩ := Option.bind_eq_some_iff.mp heval
  have hnode := List.find?_some hn
  rw [Bool.and_eq_true, beq_iff_eq, Bool.not_eq_true'] at hnode
  exact ⟨p', a', view, n, s, of_scriptsScanned? hp', ha', hview, List.mem_of_find?_eq_some hn,
    hnode.1, hnode.2, List.mem_of_find?_eq_some hs, by simpa using List.find?_some hs⟩

theorem leads_indexScript : Leads scriptDisk scriptFilters "/w/proj"
    (includePath "/w/proj/lib" "../index") .script :=
  ⟨fun h => absurd h.2 (by decide +kernel), [], "index.js", scans_index, by decide +kernel⟩

theorem leads_otherScript : Leads scriptDisk scriptFilters "/w/proj"
    (includePath "/w/proj/lib" "./b") .script :=
  ⟨fun h => absurd h.2 (by decide +kernel), ["lib"], "b.js", scans_otherScript, by decide +kernel⟩

/-- The source directory has an index, and nothing beside it is scanned. -/
theorem leads_sourceIndex : Leads scriptDisk scriptFilters "/w/proj"
    (includePath "/w/proj/lib" "..") .index := by
  have htarget : includePath "/w/proj/lib" ".." = "/w/proj" := by decide +kernel
  rw [htarget]
  refine ⟨fun h => absurd h.2 (by decide +kernel), ?_, [], "index.js",
    scans_index, by decide +kernel⟩
  rintro ⟨ms, name, hscans, heq⟩
  obtain ⟨content, hfile⟩ := hscans.isFile
  have hbelow := contains_descend regular_scripts.normal (regular_scripts.pathNames hfile) (by simp)
  rw [← heq] at hbelow
  exact absurd hbelow (by decide +kernel)

theorem scanFiles_resolveScript_sample : ∃ p' s r,
    (do Run.onAnalysis 0 Work.buildFileSystem; Run.scanFiles 0 : Run Unit) scriptProgram =
      .ok () p' ∧
      s ∈ p'.scanners ∧ s.language = .javascript ∧ s.results.get? "proj/lib/a.js" = some r ∧
      Scanner.resolveImport .javascript scriptContext r "../index" = .ok "proj/index.js" ∧
      Scanner.resolveImport .javascript scriptContext r "./b" = .ok "proj/lib/b.js" := by
  obtain ⟨p', a', view, n, s, hok, ha', hview, hn, hname, hfile, hs, hjs⟩ := exists_scriptNode
  obtain ⟨a'', view', ha'', hview', hsettings, hdisk, hresults⟩ :=
    Run.scanFiles_resolveScript 0 scriptProgram p' scriptAnalysis
    "/w/proj" rfl rfl (.inr rfl) regular_scripts rfl hok
  obtain rfl := Option.some.inj (ha'.symm.trans ha'')
  obtain rfl := Option.some.inj (hview.symm.trans hview')
  have hchosen : Language.ofExtension? (Path.suffix n.name) scriptFilters.languages =
      .ok (some s.language) := by
    rw [hname, hjs]
    decide +kernel
  obtain ⟨r, ns, base, hget, -, -, -, hscans, hplace, hresolve⟩ :=
    hresults n hn s hs hfile hchosen hjs
  -- the result is that of the script in the directory, so names are taken from there
  obtain ⟨rfl, rfl⟩ : ns = ["lib"] ∧ base = "a.js" := by
    have hscript : nodeName "/w/proj" (["lib"] ++ ["a.js"]) = "proj/lib/a.js" := by decide
    have hsame := regular_scripts.place_injective (.file hscans) (.file scans_script)
      (hplace.symm.trans (hname.trans hscript.symm))
    exact List.append_inj' hsame rfl |>.imp_right List.singleton_inj.mp
  rw [hname] at hget
  have hdir : Path.descend "/w/proj" ["lib"] = "/w/proj/lib" := by decide
  have hroot : Path.parent "/w/proj" ≠ "/" := by decide
  rw [hdir] at hresolve
  obtain ⟨-, e, hindex, hindexName, -⟩ :=
    hresolve scriptContext "../index" .script hsettings.symm hdisk.symm
    (by decide) (.inr (.inr (.inr (by decide)))) leads_indexScript
  obtain ⟨-, e', hother, hotherName, -⟩ :=
    hresolve scriptContext "./b" .script hsettings.symm hdisk.symm
    (by decide) (.inr (.inr (.inl (by decide)))) leads_otherScript
  have hindexFollows : FollowsWay scriptDisk "/w/proj" "/w/proj/lib" "../index" .script := by
    rw [FollowsWay, if_neg (by decide), Reads, if_pos (by decide)]
    exact ⟨⟨by decide, by decide +kernel⟩, by decide +kernel, fun h => absurd h hroot⟩
  have hotherFollows : FollowsWay scriptDisk "/w/proj" "/w/proj/lib" "./b" .script := by
    rw [FollowsWay, if_neg (by decide), Reads, if_neg (by decide)]
    exact ⟨⟨"b", by decide, by decide, by decide +kernel⟩, by decide +kernel,
      fun h => absurd h hroot⟩
  refine ⟨p', s, r, hok, hs, hjs, hget, ?_, ?_⟩
  · rw [hindex, hindexName hindexFollows]
    decide +kernel
  · rw [hother, hotherName hotherFollows]
    decide +kernel

/-- Two dots that lead to the source directory stay, though it has an index that is scanned. -/
theorem resolveImport_sourceIndex : ∃ p' s r,
    (do Run.onAnalysis 0 Work.buildFileSystem; Run.scanFiles 0 : Run Unit) scriptProgram =
      .ok () p' ∧
      s ∈ p'.scanners ∧ s.language = .javascript ∧ s.results.get? "proj/lib/a.js" = some r ∧
      Leads scriptDisk scriptFilters "/w/proj" (includePath "/w/proj/lib" "..") .index ∧
      projectName "/w/proj" (includePath "/w/proj/lib" ".." ++ Way.index.ending) = "proj/index.js" ∧
      Scanner.resolveImport .javascript scriptContext r ".." = .ok ".." := by
  have heval : (scriptsScanned?.bind
      fun p' => (p'.scanners.find? fun s => s.language = .javascript).bind fun s =>
        (s.results.get? "proj/lib/a.js").bind fun r =>
        (Scanner.resolveImport .javascript scriptContext r "..").toOption) = some ".." := by
    decide +kernel
  obtain ⟨p', hp', heval⟩ := Option.bind_eq_some_iff.mp heval
  obtain ⟨s, hfind, heval⟩ := Option.bind_eq_some_iff.mp heval
  obtain ⟨r, hget, heval⟩ := Option.bind_eq_some_iff.mp heval
  refine ⟨p', s, r, of_scriptsScanned? hp',
    List.mem_of_find?_eq_some hfind, by
      simpa using List.find?_some hfind, hget, leads_sourceIndex, by decide +kernel, ?_⟩
  cases hresolve : Scanner.resolveImport .javascript scriptContext r ".." with
  | ok path =>
    rw [hresolve] at heval
    rw [Option.some.inj heval]
  | error e =>
    rw [hresolve] at heval
    cases heval

end Sample

end CodeAtlas
