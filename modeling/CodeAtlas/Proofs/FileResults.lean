import CodeAtlas.Proofs.FileGraph
import CodeAtlas.Proofs.Scanning

/-!
# Results of files and nodes of the file system

A scan goes from the graph of the file system to results, and what is computed for results is put on
the nodes of that graph by name. That works because the names agree: the name of a node, taken for a
path and made relative once more, stays as it is (`Survey.relativeName_nodeName`).
`Run.exists_scanning` joins the two halves, the walk that builds the graph of a regular project and
the scan of the files in it.
-/

namespace CodeAtlas

open OrderedMap

namespace Work

open Survey FileTree Effect

variable {j j' : Job} {source : String}

theorem of_buildFileSystem (hsource : j.analysis.settings.source = .text source)
    (hgraph : j.analysis.graphs.get? .fileSystem = none ∨
      j.analysis.graphs.get? .fileSystem = some (.new .fileSystem))
    (h : Regular j.session.disk j.analysis.settings.filters source)
    (hok : buildFileSystem j = .ok () j') :
    j'.session.disk = j.session.disk ∧ j'.analysis.settings = j.analysis.settings ∧
      j'.analysis.results = j.analysis.results ∧
      (∀ ns base, Scans j.session.disk j.analysis.settings.filters source ns base →
        (Path.descend source (ns ++ [base])).utf8ByteSize < maxPath) ∧
      ∃ view, j'.analysis.graphs.get? .fileSystem = some view ∧
        Shows j.session.disk j.analysis.settings.filters source view := by
  have hnew : (j.analysis.graphs.insertNew .fileSystem (.new .fileSystem)).get? .fileSystem =
      some (.new .fileSystem) := by
    rw [get?_insertNew]
    rcases hgraph with hgraph | hgraph <;> rw [hgraph] <;> rfl
  let j₁ : Job := { j with analysis := { j.analysis with
    graphs := j.analysis.graphs.insertNew .fileSystem (.new .fileSystem) } }
  have hsurvey : surveyFiles j₁ = .ok () j' := hok
  obtain ⟨view, hview, hshows⟩ := shows_of_surveyFiles (j := j₁) hsource hnew h hsurvey
  obtain ⟨s, hwalk, rfl⟩ := (surveyFiles_eq_ok_iff (j := j₁) hsource hnew).mp hsurvey
  exact ⟨rfl, rfl, rfl, fun _ _ => h.size_lt_of_walk hwalk, view, hview, hshows⟩

end Work

namespace Run

open Survey FileTree Effect

variable {i : Nat} {p p' : Program} {a : Analysis} {source : String}

/-- The whole way: the graph of a regular project is built, and its files are scanned. -/
theorem exists_scanning (old : ScanResult → Prop)
    (hold : ∀ r imports, old r → old { r with imports := imports })
    (ha : p.configuration.analyses[i]? = some a) (hsource : a.settings.source = .text source)
    (hgraph : a.graphs.get? .fileSystem = none ∨ a.graphs.get? .fileSystem =
      some (.new .fileSystem)) (hscanners :
      ∀ s ∈ p.scanners, ∀ key r, s.results.get? key = some r → old r)
    (hresults : ∀ key r, a.results.get? key = some r → old r)
    (h : Regular p.session.disk a.settings.filters source)
    (hok : (do onAnalysis i Work.buildFileSystem; scanFiles i : Run Unit) p = .ok () p') :
    (∀ ns base, Scans p.session.disk a.settings.filters source ns base →
      (Path.descend source (ns ++ [base])).utf8ByteSize < maxPath) ∧
    ∃ graphs view, graphs.get? .fileSystem = some view ∧
      Shows p.session.disk a.settings.filters source view ∧
      Scanning ⟨i, p.session.disk, source, a.settings, graphs, p.scanners.map Scanner.language,
        old, hold⟩
        view.fileNodes.values view.fileNodes.values p' := by
  obtain ⟨⟨⟩, p₁, hbuild, hok⟩ := bind_eq_ok.mp hok
  obtain ⟨j, hj, rfl⟩ := (onAnalysis_eq_ok ha).mp hbuild
  obtain ⟨hdisk, hsettings, hresults', hlen, view, hview, hshows⟩ :=
    Work.of_buildFileSystem (j := ⟨p.session, a⟩) hsource hgraph h hj
  refine ⟨hlen, j.analysis.graphs, view, hview, hshows, Scanning.scanFiles ?_ hsource hview ?_ hok⟩
  · refine ⟨hdisk, rfl, fun s hs =>
      ⟨fun key r hget => .inl (hscanners s hs key r hget), fun n hn => ?_⟩, j.analysis,
      getElem?_keep ha j, hsettings, rfl,
      fun key r hget => .inl (hresults key r (hresults' ▸ hget)), fun n hn => ?_⟩
    · cases hn
    · cases hn
  · intro n hn _
    obtain ⟨ns, hn⟩ := (hshows.mem_values n).mp hn
    rw [hn.name_eq]
    exact relativeName_nodeName (h.of_nodeAt hn).2

theorem get?_fileResults (hfiles : ∀ key r, a.results.get? key = some r → r.isFile = true)
    {key : String} {r : ScanResult} :
    a.fileResults.get? key = some r ↔ a.results.get? key = some r := by
  rw [Analysis.fileResults, Results.files, get?_filter_eq_some_iff, and_iff_left_iff_imp]
  exact hfiles key r

/-- After a project has been scanned, the keys of the results of files are exactly the names of the
nodes of files for which a scanner is chosen that is there. Each result has its key for its unique
name, comes from that scanner and has the text of the node, so whatever is filed under unique names
finds its node. -/
theorem scanFiles_fileResults (i : Nat) (p p' : Program) (a : Analysis) (source : String)
    (ha : p.configuration.analyses[i]? = some a) (hsource : a.settings.source = .text source)
    (hgraph : a.graphs.get? .fileSystem = none ∨
      a.graphs.get? .fileSystem = some (.new .fileSystem))
    (hscanners : ∀ s ∈ p.scanners, s.results = ∅) (hresults : a.results = ∅)
    (h : Regular p.session.disk a.settings.filters source)
    (hok : (do onAnalysis i Work.buildFileSystem; scanFiles i : Run Unit) p = .ok () p') :
    ∃ a' view, p'.configuration.analyses[i]? = some a' ∧ a'.graphs.get? .fileSystem = some view ∧
      (∀ key, key ∈ a'.fileResults.keys ↔
        ∃ n ∈ view.fileNodes.values, ∃ language, n.name = key ∧ n.isDirectory = false ∧
          Language.ofExtension? (Path.suffix n.name) a.settings.filters.languages =
            .ok (some language) ∧
          language ∈ p.scanners.map Scanner.language) ∧
      ∀ key r, a'.fileResults.get? key = some r → r.isFile = true ∧ r.uniqueName = key ∧
        key ∈ view.graph.names ∧
        ∃ n language, view.fileNodes.get? key = some n ∧ n.name = key ∧ n.isDirectory = false ∧
          Language.ofExtension? (Path.suffix n.name) a.settings.filters.languages =
            .ok (some language) ∧
          language ∈ p.scanners.map Scanner.language ∧
          r.scannedBy = language.scannerName ∧ r.source?.isSome ∧ r.source? = n.content := by
  obtain ⟨-, graphs, view, hview, hshows, hscanning⟩ :=
    exists_scanning (fun _ => False) (fun _ _ hold => hold) ha hsource
    hgraph (fun s hs key r hget => by simp [hscanners s hs] at hget)
      (fun key r hget => by simp [hresults] at hget) h hok
  obtain ⟨a', ha', -, rfl, hsound, hcomplete⟩ := hscanning.analysis
  have hdescribed := fun key r hget => (hsound key r hget).resolve_left id
  have hfiles : ∀ key r, a'.results.get? key = some r → r.isFile = true := by
    intro key r hget
    obtain ⟨n, -, language, -, -, hd⟩ := hdescribed key r hget
    exact hd.isFile
  refine ⟨a', view, ha', hview, fun key => ?_, fun key r hget => ?_⟩
  · simp only [mem_keys_iff, get?_fileResults hfiles]
    constructor
    · rintro ⟨r, hget⟩
      obtain ⟨n, hn, language, htakes, rfl, -⟩ := hdescribed key r hget
      exact ⟨n, hn, language, rfl, htakes.isFile, htakes.chosen, htakes.available⟩
    · rintro ⟨n, hn, language, rfl, hfile, hchosen, havailable⟩
      exact mem_keys_iff.mp (hcomplete n hn language ⟨hfile, hchosen, havailable⟩)
  · rw [get?_fileResults hfiles] at hget
    obtain ⟨n, hn, language, htakes, rfl, hd⟩ := hdescribed key r hget
    obtain ⟨content, hcontent, hdetails⟩ := hd.details
    obtain ⟨key, hkey⟩ := mem_values_iff.mp hn
    obtain rfl := hshows.key_eq key n hkey
    have hnode : n.name ∈ view.graph.names := hshows.names ▸ mem_keys_iff.mpr ⟨n, hkey⟩
    have hsourceText : r.source? = some content := by
      rw [ScanResult.source?, ScanResult.file?, hdetails]; rfl
    exact ⟨hd.isFile, hd.uniqueName, hnode, n, language, hkey, rfl, htakes.isFile, htakes.chosen,
      htakes.available, hd.scannedBy, by rw [hsourceText]; rfl, hsourceText.trans hcontent.symm⟩

end Run

namespace Sample

def program : Program where
  session := job.session
  configuration := { analyses := [job.analysis] }

def scanned? : Option Program :=
  match (do Run.onAnalysis 0 Work.buildFileSystem; Run.scanFiles 0 : Run Unit) program with
  | .ok _ p' => some p'
  | .error _ _ => none

theorem of_scanned? {p' : Program} (h : scanned? = some p') :
    (do Run.onAnalysis 0 Work.buildFileSystem; Run.scanFiles 0 : Run Unit) program = .ok () p' := by
  rw [scanned?] at h
  split at h
  · next hok =>
    rw [← Option.some.inj h]
    exact hok
  · cases h

theorem exists_scanned :
    ∃ p' a', scanned? = some p' ∧ p'.configuration.analyses[0]? = some a' ∧
      a'.fileResults.keys = ["proj/a.c", "proj/sub/b.h"] := by
  have hkeys : ((scanned?.bind fun p' => p'.configuration.analyses[0]?).map
      fun a => a.fileResults.keys) = some ["proj/a.c", "proj/sub/b.h"] := by decide +kernel
  obtain ⟨a', ha', hkeys⟩ := Option.map_eq_some_iff.mp hkeys
  obtain ⟨p', hp', ha'⟩ := Option.bind_eq_some_iff.mp ha'
  exact ⟨p', a', hp', ha', hkeys⟩

theorem results_program (s : Scanner) (hs : s ∈ program.scanners) : s.results = ∅ := by
  obtain ⟨language, -, rfl⟩ := List.mem_map.mp hs
  rfl

theorem scanFiles_fileResults_sample :
    ∃ p' a' view r, (do Run.onAnalysis 0 Work.buildFileSystem; Run.scanFiles 0 : Run Unit) program =
      .ok () p' ∧
      p'.configuration.analyses[0]? = some a' ∧ a'.graphs.get? .fileSystem = some view ∧
      a'.fileResults.get? "proj/sub/b.h" = some r ∧ r.uniqueName = "proj/sub/b.h" ∧
      "proj/sub/b.h" ∈ view.graph.names := by
  obtain ⟨p', a', hp', ha', hkeys⟩ := exists_scanned
  have hok := of_scanned? hp'
  obtain ⟨a'', view, ha'', hview, -, hresults⟩ :=
    Run.scanFiles_fileResults 0 program p' job.analysis "/w/proj" rfl rfl
    (.inr rfl) results_program rfl regular hok
  obtain rfl := Option.some.inj (ha'.symm.trans ha'')
  have hmem : "proj/sub/b.h" ∈ a'.fileResults.keys := by
    rw [hkeys]
    decide
  obtain ⟨r, hr⟩ := mem_keys_iff.mp hmem
  obtain ⟨-, hname, hnode, -⟩ := hresults _ r hr
  exact ⟨p', a', view, r, hok, ha', hview, hr, hname, hnode⟩

end Sample

end CodeAtlas
